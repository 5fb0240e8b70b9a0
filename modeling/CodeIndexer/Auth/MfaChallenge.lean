import CodeIndexer.Lib.PyText
import CodeIndexer.Lib.ReadCommitted
import CodeIndexer.Lib.Transition

/-!
# MFA challenges (`server/auth/mfa_challenge.py`)

`MfaChallengeManager` with the routes that consume a challenge before they verify a code:
`web/mfa_routes.py`, `routers/inline_auth.py` and `auth/oauth/routes.py`. Any number of requests are
open at once. A step is one statement of a request at READ COMMITTED, or one block under the lock in
memory mode, together with what the request computes until its next one; what the TOTP service
answers comes with the step. A call of `consume` is dated by the step with which it returns, in PostgreSQL mode
its commit.

`created`, `consumed`, `guesses` and `sessions` are ghost logs: the challenges handed out after a
password check, the calls of `consume` that return one, and what the routes do with it.

In PostgreSQL mode `consume` selects the row and then deletes it without looking at how many rows went
away, and compares the creation with a clock reading made before the `SELECT`. `Undisturbed` says that nobody selects
a row that another call has selected and not yet deleted, and that a row that was found is committed within its
lifetime.
-/

namespace CodeIndexer.Mfa

open PyText ReadCommitted TransitionSystem List Dict

structure Challenge where
  username : Str
  role : Str
  clientIp : Str
  createdAt : ℚ
  attemptCount : ℕ
  redirectUrl : Str
  oauthClientId : Option Str
  oauthRedirectUri : Option Str
  oauthCodeChallenge : Option Str
  oauthState : Option Str
deriving DecidableEq

structure Row where
  username : Str
  role : Str
  clientIp : Str
  redirectUrl : Option Str
  createdAt : ℚ
  attemptCount : ℕ
  oauthClientId : Option Str
  oauthRedirectUri : Option Str
  oauthCodeChallenge : Option Str
  oauthState : Option Str
deriving DecidableEq

def Challenge.toRow (c : Challenge) : Row :=
  ⟨c.username, c.role, c.clientIp, some c.redirectUrl, c.createdAt, 0, c.oauthClientId, c.oauthRedirectUri,
    c.oauthCodeChallenge, c.oauthState⟩

def Row.redirect (row : Row) : Str :=
  match row.redirectUrl with
  | some (c :: url) => c :: url
  | _ => "/admin/"

def rowToChallenge (row : Row) : Challenge :=
  ⟨row.username, row.role, row.clientIp, row.createdAt, row.attemptCount, row.redirect, row.oauthClientId,
    row.oauthRedirectUri, row.oauthCodeChallenge, row.oauthState⟩

structure Manager where
  ttl : ℚ
  pool : Bool
deriving DecidableEq

inductive Route
  | web
  | api
  | oauth
deriving DecidableEq

structure Request where
  route : Route
  token : Str
  clientIp : Str
  totpCode : Option Str
  recoveryCode : Option Str
deriving DecidableEq

inductive Pc
  | store (token : Str) (challenge : Challenge)
  | cleanup (token : Str) (challenge : Challenge)
  | cleanupCommit (token : Str) (challenge : Challenge)
  | insert (token : Str) (challenge : Challenge)
  | insertCommit (token : Str) (challenge : Challenge)
  | pop (req : Request)
  | select (req : Request) (now : ℚ)
  | delete (req : Request) (found : Option Challenge)
  | commit (req : Request) (found : Option Challenge)
  | verify (req : Request) (challenge : Challenge)
deriving DecidableEq

structure Session where
  token : Str
  username : Str
  role : Str
deriving DecidableEq

structure Dated where
  token : Str
  time : ℚ
deriving DecidableEq

structure State where
  clock : ℚ
  challenges : Dict Str Challenge
  mfaChallenges : Table ℕ Str Row
  calls : Dict ℕ Pc
  created : List Dated
  consumed : List Dated
  guesses : List Str
  sessions : List Session

inductive Act
  | tick (now : ℚ)
  | createChallenge (call : ℕ) (token : Str) (challenge : Challenge)
  | verify (call : ℕ) (req : Request)
  | statement (call : ℕ) (answer : Bool)
deriving DecidableEq

namespace State

def goto (s : State) (i : ℕ) (pc : Pc) : State := { s with calls := s.calls.set i pc }

def finish (s : State) (i : ℕ) : State := { s with calls := s.calls.erase i }

def returned (s : State) (i : ℕ) (req : Request) : Option Challenge → State
  | none => s.finish i
  | some challenge =>
    ({ s with consumed := s.consumed ++ [⟨req.token, s.clock⟩] } : State).goto i (.verify req challenge)

def given (field : Option Str) : Bool := (field.getD []) ≠ []

/-- What a route does with a consumed challenge. An empty or missing code is no guess, and a failed
one leaves the user without a token. -/
def respond (s : State) (i : ℕ) (req : Request) (challenge : Challenge) (answer : Bool) : State :=
  if challenge.clientIp ≠ req.clientIp then s.finish i
  else if req.route = .oauth ∧ ¬ given challenge.oauthClientId then s.finish i
  else if given req.recoveryCode ∨ given req.totpCode then
    let guessed : State := { s with guesses := s.guesses ++ [req.token] }
    if answer then
      ({ guessed with sessions := s.sessions ++ [⟨req.token, challenge.username, challenge.role⟩] } : State).finish i
    else guessed.finish i
  else s.finish i

def statement (cfg : Manager) (s : State) (i : ℕ) (answer : Bool) : Pc → Option State
  | .store token challenge =>
    -- `_cleanup_expired` and the assignment, under the lock
    let expired := (s.challenges.items.filter fun e => decide (s.clock - e.2.createdAt > cfg.ttl)).map Prod.fst
    some ({ s with challenges := (expired.foldl Dict.erase s.challenges).set token challenge }.finish i)
  | .cleanup token challenge =>
    (s.mfaChallenges.deleteWhere i fun _ row => decide (row.createdAt ≤ s.clock - cfg.ttl)).map fun T =>
      { s with mfaChallenges := T }.goto i (.cleanupCommit token challenge)
  | .cleanupCommit token challenge =>
    some ({ s with mfaChallenges := s.mfaChallenges.commit i }.goto i (.insert token challenge))
  | .insert token challenge =>
    (s.mfaChallenges.put i token challenge.toRow).map fun T =>
      { s with mfaChallenges := T }.goto i (.insertCommit token challenge)
  | .insertCommit _ _ => some ({ s with mfaChallenges := s.mfaChallenges.commit i }.finish i)
  | .pop req =>
    match s.challenges.get? req.token with
    | none => some (s.returned i req none)
    | some challenge =>
      let popped := { s with challenges := s.challenges.erase req.token }
      if s.clock - challenge.createdAt > cfg.ttl then some (popped.returned i req none)
      else some (popped.returned i req (some challenge))
  | .select req now =>
    let row := ((s.mfaChallenges.visible i).get? req.token).filter fun row => decide (row.createdAt > now - cfg.ttl)
    some (s.goto i (.delete req (row.map rowToChallenge)))
  | .delete req found =>
    (s.mfaChallenges.modify i req.token fun _ => none).map fun T =>
      { s with mfaChallenges := T }.goto i (.commit req found)
  | .commit req found => some ({ s with mfaChallenges := s.mfaChallenges.commit i }.returned i req found)
  | .verify req challenge => some (s.respond i req challenge answer)

/-- A request that was not open before. A token is never drawn twice. -/
def step (cfg : Manager) (s : State) : Act → Option State
  | .tick now => if s.clock ≤ now then some { s with clock := now } else none
  | .createChallenge i token challenge =>
    if (s.calls.get? i).isSome ∨ token ∈ s.created.map Dated.token then none
    else
      let challenge := { challenge with createdAt := s.clock, attemptCount := 0 }
      some (({ s with created := s.created ++ [⟨token, s.clock⟩] } : State).goto i
        (if cfg.pool then .cleanup token challenge else .store token challenge))
  | .verify i req =>
    if (s.calls.get? i).isSome then none
    else some (s.goto i (if cfg.pool then .select req s.clock else .pop req))
  | .statement i answer => (s.calls.get? i).bind (s.statement cfg i answer)

def fresh (now : ℚ) : State := ⟨now, Dict.empty, .empty, Dict.empty, [], [], [], []⟩

end State

def system (cfg : Manager) : TransitionSystem State Act where
  init s := ∃ now, s = .fresh now
  step := State.step cfg

theorem fresh_isInit (cfg : Manager) (now : ℚ) : (system cfg).init (.fresh now) := ⟨now, rfl⟩

def State.consumptions (s : State) (token : Str) : ℕ := (s.consumed.map Dated.token).count token

/-- A password check pays for one consumption within the lifetime, one guess and one session. -/
structure Once (cfg : Manager) (s : State) : Prop where
  consumed : ∀ token, s.consumptions token ≤ 1
  lifetime : ∀ d ∈ s.consumed, ∃ c ∈ s.created, c.token = d.token ∧ d.time ≤ c.time + cfg.ttl
  guesses : ∀ token, s.guesses.count token ≤ 1
  sessions : ∀ token, (s.sessions.map Session.token).count token ≤ 1

/-- The call has selected the row of the token and not yet committed its deletion. -/
def Pc.holds (token : Str) : Pc → Bool
  | .delete req (some _) => decide (req.token = token)
  | .commit req (some _) => decide (req.token = token)
  | _ => false

def State.holders (s : State) (token : Str) : ℕ := s.calls.items.countP fun e => e.2.holds token

/-- The next statement of the call is not the `SELECT` of a row that another call holds, nor the commit of a row whose
lifetime has passed. -/
def State.undisturbed (cfg : Manager) (s : State) (i : ℕ) : Bool :=
  match s.calls.get? i with
  | some (.select req _) => decide (s.holders req.token = 0)
  | some (.commit _ (some challenge)) => decide (s.clock ≤ challenge.createdAt + cfg.ttl)
  | _ => true

def Undisturbed (cfg : Manager) (s : State) : Act → Prop
  | .statement i _ => s.undisturbed cfg i = true
  | _ => True

instance (cfg : Manager) (s : State) : (a : Act) → Decidable (Undisturbed cfg s a)
  | .statement i _ => inferInstanceAs (Decidable (s.undisturbed cfg i = true))
  | .tick _ | .createChallenge .. | .verify .. => .isTrue trivial

/-! ### Who may still consume a token -/

/-- The token and challenge that a call of `create_challenge` has yet to make visible. -/
def Pc.creates : Pc → Option (Str × Challenge)
  | .store token challenge => some (token, challenge)
  | .cleanup token challenge => some (token, challenge)
  | .cleanupCommit token challenge => some (token, challenge)
  | .insert token challenge => some (token, challenge)
  | .insertCommit token challenge => some (token, challenge)
  | _ => none

/-- The challenge that a call of `consume` has found and is going to return. -/
def Pc.found : Pc → Option (Request × Challenge)
  | .delete req (some challenge) => some (req, challenge)
  | .commit req (some challenge) => some (req, challenge)
  | _ => none

theorem Pc.holds_iff {pc : Pc} {token : Str} :
    pc.holds token = true ↔ ∃ req challenge, pc.found = some (req, challenge) ∧ req.token = token := by
  cases pc with
  | delete req found | commit req found => cases found <;> simp [holds, found]
  | _ => simp [holds, found]

def Pc.MayWrite (w : Write ℕ Str Row) : Pc → Prop
  | .cleanupCommit _ _ => w.value = none
  | .insertCommit token challenge => w.key = token ∧ w.value = some challenge.toRow
  | .commit req _ => w.key = req.token ∧ w.value = none
  | _ => False

def Pc.verifies (token : Str) : Pc → Bool
  | .verify req _ => decide (req.token = token)
  | _ => false

def State.verifying (s : State) (token : Str) : ℕ := s.calls.items.countP fun e => e.2.verifies token

/-- The committed and stored challenges: created, and not consumed. A token has its challenge in one
place, and the memory one is held by nobody. -/
structure Rows (s : State) : Prop where
  committed : ∀ t row, s.mfaChallenges.committed.get? t = some row →
    ⟨t, row.createdAt⟩ ∈ s.created ∧ s.consumptions t = 0 ∧ s.challenges.get? t = none
  stored : ∀ t challenge, s.challenges.get? t = some challenge →
    ⟨t, challenge.createdAt⟩ ∈ s.created ∧ s.consumptions t = 0 ∧ s.holders t = 0

structure CallOk (s : State) (i : ℕ) (pc : Pc) : Prop where
  creating : ∀ t challenge, pc.creates = some (t, challenge) → ⟨t, challenge.createdAt⟩ ∈ s.created ∧
    s.consumptions t = 0 ∧ s.holders t = 0 ∧ s.mfaChallenges.committed.get? t = none ∧ s.challenges.get? t = none
  holding : ∀ req challenge, pc.found = some (req, challenge) → ⟨req.token, challenge.createdAt⟩ ∈ s.created
  gone : ∀ req challenge, pc = .commit req (some challenge) →
    s.mfaChallenges.committed.get? req.token = none ∨ ∃ w ∈ s.mfaChallenges.writes, w.txn = i ∧ w.key = req.token

structure Inv (cfg : Manager) (s : State) : Prop where
  weight : ∀ t, s.consumptions t + s.holders t ≤ 1
  rows : Rows s
  calls : ∀ i pc, s.calls.get? i = some pc → CallOk s i pc
  creators : ∀ i j pc pc' t challenge challenge', s.calls.get? i = some pc → s.calls.get? j = some pc' →
    pc.creates = some (t, challenge) → pc'.creates = some (t, challenge') → i = j
  writes : ∀ w ∈ s.mfaChallenges.writes, ∃ pc, s.calls.get? w.txn = some pc ∧ pc.MayWrite w
  lifetime : ∀ d ∈ s.consumed, ∃ c ∈ s.created, c.token = d.token ∧ d.time ≤ c.time + cfg.ttl
  guesses : ∀ t, s.guesses.count t + s.verifying t ≤ s.consumptions t
  sessions : ∀ t, (s.sessions.map Session.token).count t ≤ s.guesses.count t

variable {cfg : Manager} {s : State}

theorem Inv.once (h : Inv cfg s) : Once cfg s where
  consumed := fun t => (Nat.le_add_right _ _).trans (h.weight t)
  lifetime := h.lifetime
  guesses := fun t => by
    have hweight := h.weight t
    have hguesses := h.guesses t
    omega
  sessions := fun t => by
    have hweight := h.weight t
    have hguesses := h.guesses t
    have hsessions := h.sessions t
    omega

section Steps

variable {cfg : Manager} {s s' : State} {i j : ℕ} {pc pc' : Pc}

theorem State.holders_pos {t : Str} (h : s.calls.get? i = some pc) (hpc : pc.holds t = true) : 0 < s.holders t :=
  countP_pos_iff.2 ⟨(i, pc), mem_items_iff.2 h, hpc⟩

variable {next : Option Pc} {T : Table ℕ Str Row} {d : Dict Str Challenge} {req : Request} {now : ℚ}
  {challenge : Challenge} {answer : Bool}

section

variable (hpc : s.calls.get? i = some pc)
include hpc

theorem State.holders_update (hcalls : s'.calls = s.calls.update i next) (t : Str) :
    s'.holders t + (if pc.holds t then 1 else 0) = s.holders t + if next.any (Pc.holds t) then 1 else 0 := by
  rw [holders, hcalls]
  exact countP_items_update hpc next (Pc.holds t)

theorem State.verifying_update (hcalls : s'.calls = s.calls.update i next) (t : Str) :
    s'.verifying t + (if pc.verifies t then 1 else 0) = s.verifying t + if next.any (Pc.verifies t) then 1 else 0 := by
  rw [verifying, hcalls]
  exact countP_items_update hpc next (Pc.verifies t)

theorem State.holders_eq (hcalls : s'.calls = s.calls.update i next)
    (hholds : ∀ t, next.any (Pc.holds t) = pc.holds t) (t : Str) : s'.holders t = s.holders t := by
  have hcount := holders_update hpc hcalls t
  rw [hholds t] at hcount
  exact Nat.add_right_cancel hcount

theorem State.verifying_eq (hcalls : s'.calls = s.calls.update i next)
    (hverifies : ∀ t, next.any (Pc.verifies t) = pc.verifies t) (t : Str) : s'.verifying t = s.verifying t := by
  have hcount := verifying_update hpc hcalls t
  rw [hverifies t] at hcount
  exact Nat.add_right_cancel hcount

end

theorem CallOk.frame (h : CallOk s j pc) (hcreated : ∀ d ∈ s.created, d ∈ s'.created)
    (hfree : ∀ t challenge, pc.creates = some (t, challenge) →
      s'.consumptions t = 0 ∧ s'.holders t = 0 ∧ s'.mfaChallenges.committed.get? t = none ∧ s'.challenges.get? t = none)
    (hgone : ∀ req challenge, pc = .commit req (some challenge) →
      s.mfaChallenges.committed.get? req.token = none → s'.mfaChallenges.committed.get? req.token = none)
    (hwrites : ∀ w ∈ s.mfaChallenges.writes, w.txn = j → w ∈ s'.mfaChallenges.writes) : CallOk s' j pc where
  creating := fun t challenge ht => ⟨hcreated _ (h.creating t challenge ht).1, hfree t challenge ht⟩
  holding := fun req challenge hreq => hcreated _ (h.holding req challenge hreq)
  gone := by
    intro req challenge hpc
    rcases h.gone req challenge hpc with hnone | ⟨w, hw, htxn, hkey⟩
    · exact .inl (hgone req challenge hpc hnone)
    · exact .inr ⟨w, hwrites w hw htxn, htxn, hkey⟩

section

variable (h : Inv cfg s)
include h

theorem Inv.creators_update (hpc : s.calls.get? i = some pc)
    (hnext : ∀ x, next.bind Pc.creates = some x → pc.creates = some x) :
    ∀ i₁ i₂ pc₁ pc₂ t challenge₁ challenge₂, (s.calls.update i next).get? i₁ = some pc₁ →
      (s.calls.update i next).get? i₂ = some pc₂ → pc₁.creates = some (t, challenge₁) →
      pc₂.creates = some (t, challenge₂) → i₁ = i₂ := by
  have hold : ∀ k pc' t challenge, (s.calls.update i next).get? k = some pc' → pc'.creates = some (t, challenge) →
      ∃ pc'', s.calls.get? k = some pc'' ∧ pc''.creates = some (t, challenge) := by
    intro k pc' t challenge hk ht
    rw [get?_update] at hk
    split at hk
    · rename_i hki
      exact ⟨pc, hki ▸ hpc, hnext _ (by rw [hk]; exact ht)⟩
    · exact ⟨pc', hk, ht⟩
  intro i₁ i₂ pc₁ pc₂ t challenge₁ challenge₂ h₁ h₂ ht₁ ht₂
  obtain ⟨pc₁', h₁', ht₁'⟩ := hold _ _ _ _ h₁ ht₁
  obtain ⟨pc₂', h₂', ht₂'⟩ := hold _ _ _ _ h₂ ht₂
  exact h.creators _ _ _ _ _ _ _ h₁' h₂' ht₁' ht₂'

theorem Inv.writes_of_table (hwrites : ∀ w ∈ T.writes, (w.txn ≠ i ∧ w ∈ s.mfaChallenges.writes) ∨
      (w.txn = i ∧ ∃ pc', next = some pc' ∧ pc'.MayWrite w)) :
    ∀ w ∈ T.writes, ∃ pc', (s.calls.update i next).get? w.txn = some pc' ∧ pc'.MayWrite w := by
  intro w hw
  rw [get?_update]
  rcases hwrites w hw with ⟨htxn, hold⟩ | ⟨htxn, hnew⟩
  · rw [if_neg htxn]
    exact h.writes w hold
  · rw [if_pos htxn]
    exact hnew

theorem Inv.mayWrite (hpc : s.calls.get? i = some pc) {w : Write ℕ Str Row}
    (hw : w ∈ s.mfaChallenges.writes) (htxn : w.txn = i) : pc.MayWrite w := by
  obtain ⟨pc', hpc', hmay⟩ := h.writes w hw
  rw [htxn, hpc] at hpc'
  exact Option.some.inj hpc' ▸ hmay

theorem Inv.not_mine (hpc : s.calls.get? i = some pc) (hwriter : ∀ w, ¬ pc.MayWrite w) :
    ∀ w ∈ s.mfaChallenges.writes, w.txn ≠ i :=
  fun w hw htxn => hwriter w (h.mayWrite hpc hw htxn)

theorem Inv.table (hpc : s.calls.get? i = some pc) (next : Option Pc)
    (hs : s' = { s with mfaChallenges := T, calls := s.calls.update i next })
    (hholds : ∀ t, next.any (Pc.holds t) = pc.holds t) (hverifies : ∀ t, next.any (Pc.verifies t) = pc.verifies t)
    (hcreates : ∀ x, next.bind Pc.creates = some x → pc.creates = some x)
    (hfound : ∀ x, next.bind Pc.found = some x → pc.found = some x)
    (hrows : ∀ t row, T.committed.get? t = some row → s.mfaChallenges.committed.get? t = some row ∨
      ∃ challenge, pc.creates = some (t, challenge) ∧ row = challenge.toRow ∧ next = none)
    (hgone : ∀ req challenge, next = some (.commit req (some challenge)) →
      T.committed.get? req.token = none ∨ ∃ w ∈ T.writes, w.txn = i ∧ w.key = req.token)
    (hkept : ∀ w ∈ s.mfaChallenges.writes, w.txn ≠ i → w ∈ T.writes)
    (hwrites : ∀ w ∈ T.writes, (w.txn ≠ i ∧ w ∈ s.mfaChallenges.writes) ∨
      (w.txn = i ∧ ∃ pc', next = some pc' ∧ pc'.MayWrite w)) : Inv cfg s' := by
  have hcalls : s'.calls = s.calls.update i next := congrArg State.calls hs
  have hholders := State.holders_eq hpc hcalls hholds
  have hverifying := State.verifying_eq hpc hcalls hverifies
  subst hs
  have hcreating := (h.calls i pc hpc).creating
  -- a row that the call commits belongs to nobody else
  have hnone : ∀ t, s.mfaChallenges.committed.get? t = none → (∀ challenge, pc.creates ≠ some (t, challenge)) →
      T.committed.get? t = none := by
    intro t hcommitted hother
    refine get?_eq_none_of_imp hcommitted (hrows t) ?_
    rintro row ⟨challenge, ht, -, -⟩
    exact hother challenge ht
  have hfree : ∀ j pc' t challenge, s.calls.get? j = some pc' → pc'.creates = some (t, challenge) →
      (j ≠ i ∨ next ≠ none) → T.committed.get? t = none := by
    intro j pc' t challenge hj ht hstill
    have hold := ((h.calls j pc' hj).creating t challenge ht).2.2.2.1
    refine get?_eq_none_of_imp hold (hrows t) ?_
    rintro row ⟨challenge', ht', -, hend⟩
    exact hstill.elim (fun hne => hne (h.creators _ _ _ _ _ _ _ hj hpc ht ht')) fun hne => hne hend
  refine ⟨fun t => by rw [hholders]; exact h.weight t, ⟨?_, ?_⟩, ?_, h.creators_update hpc hcreates,
    h.writes_of_table hwrites, h.lifetime, fun t => by rw [hverifying]; exact h.guesses t, h.sessions⟩
  · intro t row hrow
    rcases hrows t row hrow with hold | ⟨challenge, ht, rfl, -⟩
    · exact h.rows.committed t row hold
    · obtain ⟨hcreated, hcons, -, -, hmem⟩ := hcreating t challenge ht
      exact ⟨hcreated, hcons, hmem⟩
  · intro t challenge ht
    rw [hholders]
    exact h.rows.stored t challenge ht
  · intro j pc' hj
    rw [get?_update] at hj
    split at hj
    · rename_i hji
      subst hji
      refine ⟨?_, ?_, ?_⟩
      · intro t challenge ht
        have hpcs : pc.creates = some (t, challenge) := hcreates _ (by rw [hj]; exact ht)
        obtain ⟨hcreated, hcons, hheld, -, hmem⟩ := hcreating t challenge hpcs
        refine ⟨hcreated, hcons, (hholders t).trans hheld, hfree j pc t challenge hpc hpcs (.inr ?_), hmem⟩
        rw [hj]
        exact Option.some_ne_none _
      · exact fun req challenge hreq =>
          (h.calls j pc hpc).holding req challenge (hfound _ (by rw [hj]; exact hreq))
      · exact fun req challenge heq => hgone req challenge (heq ▸ hj)
    · rename_i hji
      refine (h.calls j pc' hj).frame (fun d hd => hd) ?_ ?_ fun w hw htxn => hkept w hw (htxn ▸ hji)
      · intro t challenge ht
        obtain ⟨-, hcons, hheld, -, hmem⟩ := (h.calls j pc' hj).creating t challenge ht
        exact ⟨hcons, (hholders t).trans hheld, hfree j pc' t challenge hj ht (.inl hji), hmem⟩
      · intro req challenge heq hcommitted
        refine hnone _ hcommitted fun challenge' ht => ?_
        -- the row of a token that is being created is held by nobody
        have hheld := (hcreating _ challenge' ht).2.2.1
        have hpos := State.holders_pos (t := req.token) hj (by rw [heq]; exact decide_eq_true rfl)
        omega

theorem Inv.memory (hpc : s.calls.get? i = some pc)
    (hholds : ∀ t, pc.holds t = false) (hverifies : ∀ t, pc.verifies t = false)
    (hstored : ∀ t challenge, d.get? t = some challenge →
      s.challenges.get? t = some challenge ∨ pc.creates = some (t, challenge))
    (hwriter : ∀ w, ¬ pc.MayWrite w) (hs : s' = { s with challenges := d, calls := s.calls.update i none }) :
    Inv cfg s' := by
  have hcalls : s'.calls = s.calls.update i none := congrArg State.calls hs
  have hholders := State.holders_eq hpc hcalls fun t => (hholds t).symm
  have hverifying := State.verifying_eq hpc hcalls fun t => (hverifies t).symm
  subst hs
  have hcreating := (h.calls i pc hpc).creating
  have hmine := h.not_mine hpc hwriter
  refine ⟨fun t => by rw [hholders]; exact h.weight t, ⟨?_, ?_⟩, ?_,
    h.creators_update hpc (fun x hx => by cases hx), h.writes_of_table fun w hw => .inl ⟨hmine w hw, hw⟩,
    h.lifetime, fun t => by rw [hverifying]; exact h.guesses t, h.sessions⟩
  · intro t row hrow
    obtain ⟨hcreated, hcons, hnone⟩ := h.rows.committed t row hrow
    refine ⟨hcreated, hcons, get?_eq_none_of_imp hnone (hstored t) fun challenge ht => ?_⟩
    have hfree := (hcreating t challenge ht).2.2.2.1
    rw [hrow] at hfree
    cases hfree
  · intro t challenge ht
    rw [hholders]
    rcases hstored t challenge ht with hold | hnew
    · exact h.rows.stored t challenge hold
    · obtain ⟨hcreated, hcons, hheld, -, -⟩ := hcreating t challenge hnew
      exact ⟨hcreated, hcons, hheld⟩
  · intro j pc' hj
    rw [get?_update] at hj
    split at hj
    · cases hj
    · rename_i hji
      refine (h.calls j pc' hj).frame (fun d hd => hd) ?_ (fun _ _ _ hnone => hnone) fun w hw _ => hw
      intro t challenge ht
      obtain ⟨-, hcons, hheld, hcommitted, hmem⟩ := (h.calls j pc' hj).creating t challenge ht
      refine ⟨hcons, (hholders t).trans hheld, hcommitted, ?_⟩
      exact get?_eq_none_of_imp hmem (hstored t) fun challenge' hnew =>
        hji (h.creators _ _ _ _ _ _ _ hj hpc ht hnew)

end

theorem Inv.select (h : Inv cfg s) (hpc : s.calls.get? i = some (.select req now)) {row : Row}
    (hrow : s.mfaChallenges.committed.get? req.token = some row) (hfree : s.holders req.token = 0)
    (hs : s' = { s with calls := s.calls.update i (some (.delete req (some (rowToChallenge row)))) }) :
    Inv cfg s' := by
  obtain ⟨hcreated, hcons, hmem⟩ := h.rows.committed _ _ hrow
  have hcalls : s'.calls = s.calls.update i (some (.delete req (some (rowToChallenge row)))) :=
    congrArg State.calls hs
  have hholders : ∀ t, s'.holders t = s.holders t + if req.token = t then 1 else 0 := by
    intro t
    have hcount := State.holders_update hpc hcalls t
    exact hcount.trans (congrArg (s.holders t + ·) (if_congr decide_eq_true_iff rfl rfl))
  have hverifying := State.verifying_eq hpc hcalls fun _ => rfl
  have hmine := h.not_mine hpc fun _ hmay => hmay
  subst hs
  refine ⟨?_, ⟨h.rows.committed, ?_⟩, ?_, h.creators_update hpc (fun x hx => by cases hx),
    h.writes_of_table fun w hw => .inl ⟨hmine w hw, hw⟩, h.lifetime,
    fun t => by rw [hverifying]; exact h.guesses t, h.sessions⟩
  · intro t
    rw [hholders]
    by_cases ht : req.token = t
    · subst ht
      rw [if_pos rfl, hfree]
      exact (congrArg (· + 1) hcons).le
    · rw [if_neg ht]
      exact h.weight t
  · intro t challenge ht
    rw [hholders, if_neg]
    · exact h.rows.stored t challenge ht
    · rintro rfl
      rw [hmem] at ht
      cases ht
  · intro j pc' hj
    rw [get?_update] at hj
    split at hj
    · cases hj
      refine ⟨?_, ?_, ?_⟩
      · intro t challenge ht
        cases ht
      · intro req' challenge heq
        cases heq
        exact hcreated
      · intro req' challenge heq
        cases heq
    · refine (h.calls j pc' hj).frame (fun d hd => hd) ?_ (fun _ _ _ hnone => hnone) fun w hw _ => hw
      intro t challenge ht
      obtain ⟨-, hcons', hheld, hcommitted, hmem'⟩ := (h.calls j pc' hj).creating t challenge ht
      refine ⟨hcons', ?_, hcommitted, hmem'⟩
      rw [hholders, if_neg, hheld]
      rintro rfl
      rw [hrow] at hcommitted
      cases hcommitted

section

variable (h : Inv cfg s)
include h

/-- `consume` returns a challenge that no other call holds and that is gone from the storage. -/
theorem Inv.consume (hpc : s.calls.get? i = some pc)
    (hcons : s.consumptions req.token = 0)
    (hheld : s.holders req.token = if pc.holds req.token then 1 else 0)
    (hother : ∀ t, t ≠ req.token → pc.holds t = false) (hverifies : ∀ t, pc.verifies t = false)
    (hnobody : ∀ j pc' challenge', s.calls.get? j = some pc' → pc'.creates ≠ some (req.token, challenge'))
    (hcommitted : ∀ t row, T.committed.get? t = some row → s.mfaChallenges.committed.get? t = some row ∧ t ≠ req.token)
    (hstored : ∀ t challenge, d.get? t = some challenge → s.challenges.get? t = some challenge ∧ t ≠ req.token)
    (hwrites : ∀ w ∈ T.writes, w.txn ≠ i ∧ w ∈ s.mfaChallenges.writes)
    (hkept : ∀ w ∈ s.mfaChallenges.writes, w.txn ≠ i → w ∈ T.writes)
    (hlife : ∃ c ∈ s.created, c.token = req.token ∧ s.clock ≤ c.time + cfg.ttl)
    (hs : s' = { s with
      mfaChallenges := T, challenges := d, consumed := s.consumed ++ [⟨req.token, s.clock⟩]
      calls := s.calls.update i (some (.verify req challenge)) }) : Inv cfg s' := by
  have hconsumptions : ∀ t, s'.consumptions t = s.consumptions t + if req.token = t then 1 else 0 := by
    intro t
    rw [State.consumptions, hs, map_append, count_append, map_singleton, count_singleton]
    simp only [beq_iff_eq]
    rfl
  have hcalls : s'.calls = s.calls.update i (some (.verify req challenge)) := congrArg State.calls hs
  have hholders : ∀ t, s'.holders t + (if pc.holds t then 1 else 0) = s.holders t := State.holders_update hpc hcalls
  have hverifying : ∀ t, s'.verifying t = s.verifying t + if req.token = t then 1 else 0 := by
    intro t
    have hcount := State.verifying_update hpc hcalls t
    rw [hverifies t, if_neg Bool.false_ne_true] at hcount
    exact hcount.trans (congrArg (s.verifying t + ·) (if_congr decide_eq_true_iff rfl rfl))
  have hkeeps : ∀ t, t ≠ req.token → s.holders t = 0 → s'.holders t = 0 := by
    intro t ht hzero
    have hcount := hholders t
    rw [hother t ht, hzero] at hcount
    exact hcount
  have hsame : ∀ t, t ≠ req.token → s'.consumptions t = s.consumptions t := by
    intro t ht
    rw [hconsumptions, if_neg (Ne.symm ht), add_zero]
  have hgone : ∀ t, s.mfaChallenges.committed.get? t = none → T.committed.get? t = none := fun t hnone =>
    get?_eq_none_of_imp hnone (fun row hrow => .inl (hcommitted t row hrow).1) fun _ => not_false
  have hempty : ∀ t, s.challenges.get? t = none → d.get? t = none := fun t hnone =>
    get?_eq_none_of_imp hnone (fun challenge' hd => .inl (hstored t challenge' hd).1) fun _ => not_false
  subst hs
  refine ⟨?_, ⟨?_, ?_⟩, ?_, h.creators_update hpc (fun x hx => by cases hx),
    h.writes_of_table fun w hw => .inl (hwrites w hw), ?_, ?_, h.sessions⟩
  · intro t
    rw [hconsumptions]
    have hcount := hholders t
    have hweight := h.weight t
    by_cases ht : req.token = t
    · subst ht
      rw [if_pos rfl, hcons]
      omega
    · rw [if_neg ht]
      omega
  · intro t row hrow
    obtain ⟨hold, ht⟩ := hcommitted t row hrow
    obtain ⟨hcreated, hzero, hmem⟩ := h.rows.committed t row hold
    exact ⟨hcreated, (hsame t ht).trans hzero, hempty t hmem⟩
  · intro t challenge' hd
    obtain ⟨hold, ht⟩ := hstored t challenge' hd
    obtain ⟨hcreated, hzero, hfree⟩ := h.rows.stored t challenge' hold
    exact ⟨hcreated, (hsame t ht).trans hzero, hkeeps t ht hfree⟩
  · intro j pc' hj
    rw [get?_update] at hj
    split at hj
    · cases hj
      refine ⟨?_, ?_, ?_⟩
      · intro t challenge' ht
        cases ht
      · intro req' challenge' heq
        cases heq
      · intro req' challenge' heq
        cases heq
    · rename_i hji
      refine (h.calls j pc' hj).frame (fun d hd => hd) ?_ (fun _ _ _ hnone => hgone _ hnone)
        fun w hw htxn => hkept w hw (htxn ▸ hji)
      intro t challenge' ht
      obtain ⟨-, hzero, hfree, hnone, hmem⟩ := (h.calls j pc' hj).creating t challenge' ht
      have hne : t ≠ req.token := by
        rintro rfl
        exact hnobody j pc' challenge' hj ht
      exact ⟨(hsame t hne).trans hzero, hkeeps t hne hfree, hgone t hnone, hempty t hmem⟩
  · intro c hc
    rcases mem_append.1 hc with hc | hc
    · exact h.lifetime c hc
    · rw [mem_singleton.1 hc]
      exact hlife
  · intro t
    rw [hverifying, hconsumptions, ← add_assoc]
    exact Nat.add_le_add_right (h.guesses t) _

theorem Inv.answered
    (hpc : s.calls.get? i = some (.verify req challenge)) {guesses : List Str} {sessions : List Session}
    (hguesses : ∀ t, guesses.count t ≤ s.guesses.count t + if req.token = t then 1 else 0)
    (hsessions : ∀ t, (sessions.map Session.token).count t ≤ guesses.count t)
    (hs : s' = { s with guesses := guesses, sessions := sessions, calls := s.calls.update i none }) : Inv cfg s' := by
  have hcalls : s'.calls = s.calls.update i none := congrArg State.calls hs
  have hholders := State.holders_eq hpc hcalls fun _ => rfl
  have hverifying : ∀ t, s'.verifying t + (if req.token = t then 1 else 0) = s.verifying t := by
    intro t
    have hcount := State.verifying_update hpc hcalls t
    exact (congrArg (s'.verifying t + ·) (if_congr decide_eq_true_iff.symm rfl rfl)).trans hcount
  have hsum : ∀ t, guesses.count t + s'.verifying t ≤ s.consumptions t := by
    intro t
    have hcount := hverifying t
    have hbefore := h.guesses t
    have hone := hguesses t
    omega
  subst hs
  refine ⟨fun t => by rw [hholders]; exact h.weight t, ⟨h.rows.committed, ?_⟩, ?_,
    h.creators_update hpc (fun x hx => by cases hx), ?_, h.lifetime, hsum, hsessions⟩
  · intro t challenge' ht
    rw [hholders]
    exact h.rows.stored t challenge' ht
  · intro j pc' hj
    rw [get?_update] at hj
    split at hj
    · cases hj
    · refine (h.calls j pc' hj).frame (fun d hd => hd) ?_ (fun _ _ _ hnone => hnone) fun w hw _ => hw
      intro t challenge' ht
      rw [hholders]
      exact ((h.calls j pc' hj).creating t challenge' ht).2
  · exact h.writes_of_table fun w hw => .inl ⟨h.not_mine hpc (fun _ hmay => hmay) w hw, hw⟩

theorem Inv.unknown {t : Str} (ht : t ∉ s.created.map Dated.token) :
    s.consumptions t = 0 ∧ s.holders t = 0 ∧ s.mfaChallenges.committed.get? t = none ∧ s.challenges.get? t = none := by
  have hnot : ∀ time, ⟨t, time⟩ ∉ s.created := fun time hmem => ht (mem_map.2 ⟨_, hmem, rfl⟩)
  refine ⟨?_, ?_, ?_, ?_⟩
  · refine count_eq_zero.2 fun hmem => ?_
    obtain ⟨d, hd, htoken⟩ := mem_map.1 hmem
    obtain ⟨c, hc, hct, -⟩ := h.lifetime d hd
    exact ht (mem_map.2 ⟨c, hc, hct.trans htoken⟩)
  · refine countP_eq_zero.2 fun e he hholds => ?_
    obtain ⟨req, challenge, hfound, rfl⟩ := Pc.holds_iff.1 hholds
    exact hnot _ ((h.calls e.1 e.2 (mem_items_iff.1 he)).holding req challenge hfound)
  · exact Option.eq_none_iff_forall_ne_some.2 fun row hrow => hnot _ (h.rows.committed t row hrow).1
  · exact Option.eq_none_iff_forall_ne_some.2 fun challenge hd => hnot _ (h.rows.stored t challenge hd).1

theorem Inv.start (hnew : s.calls.get? i = none) {news : List Dated}
    (hholds : ∀ t, pc.holds t = false) (hverifies : ∀ t, pc.verifies t = false) (hfound : pc.found = none)
    (hcreates : ∀ t challenge, pc.creates = some (t, challenge) →
      ⟨t, challenge.createdAt⟩ ∈ news ∧ t ∉ s.created.map Dated.token)
    (hs : s' = { s with created := s.created ++ news, calls := s.calls.set i pc }) : Inv cfg s' := by
  have hholders : ∀ t, s'.holders t = s.holders t := by
    intro t
    rw [State.holders, hs, countP_items_set_of_none hnew, hholds t]
    rfl
  have hverifying : ∀ t, s'.verifying t = s.verifying t := by
    intro t
    rw [State.verifying, hs, countP_items_set_of_none hnew, hverifies t]
    rfl
  have hdated : ∀ {d}, d ∈ s.created → d ∈ s.created ++ news := fun hd => mem_append_left news hd
  -- the token of the new call is not one of an open call
  have hown : ∀ j pc' t challenge challenge', s.calls.get? j = some pc' → pc'.creates = some (t, challenge) →
      pc.creates ≠ some (t, challenge') := by
    intro j pc' t challenge challenge' hj ht ht'
    exact (hcreates t challenge' ht').2 (mem_map.2 ⟨_, ((h.calls j pc' hj).creating t challenge ht).1, rfl⟩)
  subst hs
  refine ⟨fun t => by rw [hholders]; exact h.weight t, ⟨?_, ?_⟩, ?_, ?_, ?_, ?_,
    fun t => by rw [hverifying]; exact h.guesses t, h.sessions⟩
  · intro t row hrow
    exact (h.rows.committed t row hrow).imp_left hdated
  · intro t challenge ht
    rw [hholders]
    exact (h.rows.stored t challenge ht).imp_left hdated
  · intro j pc' hj
    rw [get?_set] at hj
    split at hj
    · cases hj
      refine ⟨?_, ?_, ?_⟩
      · intro t challenge ht
        obtain ⟨hmem, hfresh⟩ := hcreates t challenge ht
        rw [hholders]
        exact ⟨mem_append_right _ hmem, h.unknown hfresh⟩
      · intro req challenge heq
        rw [hfound] at heq
        cases heq
      · rintro req challenge rfl
        cases hfound
    · refine (h.calls j pc' hj).frame (fun d hd => hdated hd) ?_ (fun _ _ _ hnone => hnone) fun w hw _ => hw
      intro t challenge ht
      rw [hholders]
      exact ((h.calls j pc' hj).creating t challenge ht).2
  · intro i₁ i₂ pc₁ pc₂ t challenge₁ challenge₂ h₁ h₂ ht₁ ht₂
    rw [get?_set] at h₁ h₂
    split at h₁ <;> split at h₂
    · rename_i hi₁ hi₂
      exact hi₁.trans hi₂.symm
    · cases h₁
      exact absurd ht₁ (hown i₂ pc₂ t challenge₂ challenge₁ h₂ ht₂)
    · cases h₂
      exact absurd ht₂ (hown i₁ pc₁ t challenge₁ challenge₂ h₁ ht₁)
    · exact h.creators _ _ _ _ _ _ _ h₁ h₂ ht₁ ht₂
  · intro w hw
    obtain ⟨pc', hpc', hmay⟩ := h.writes w hw
    refine ⟨pc', ?_, hmay⟩
    rw [get?_set_of_ne _ _ fun htxn => ?_]
    · exact hpc'
    · rw [htxn, hnew] at hpc'
      cases hpc'
  · intro d hd
    obtain ⟨c, hc, htoken, htime⟩ := h.lifetime d hd
    exact ⟨c, hdated hc, htoken, htime⟩

theorem Inv.tick (now : ℚ) : Inv cfg { s with clock := now } :=
  ⟨h.weight, ⟨h.rows.committed, h.rows.stored⟩,
    fun j pc' hj => (h.calls j pc' hj).frame (fun _ hd => hd) (fun t challenge ht =>
      ((h.calls j pc' hj).creating t challenge ht).2) (fun _ _ _ hnone => hnone) fun _ hw _ => hw,
    h.creators, h.writes, h.lifetime, h.guesses, h.sessions⟩

end

theorem Inv.respond (h : Inv cfg s)
    (hpc : s.calls.get? i = some (.verify req challenge)) (answer : Bool) :
    Inv cfg (s.respond i req challenge answer) := by
  have hsame : Inv cfg (s.finish i) :=
    h.answered hpc (fun _ => Nat.le_add_right _ _) h.sessions rfl
  have hguess : ∀ t, (s.guesses ++ [req.token]).count t = s.guesses.count t + if req.token = t then 1 else 0 := by
    intro t
    rw [count_append, count_singleton]
    simp only [beq_iff_eq]
  unfold State.respond
  split
  · exact hsame
  · split
    · exact hsame
    · split
      · split
        · refine h.answered hpc (fun t => (hguess t).le) (fun t => ?_) rfl
          rw [hguess, map_append, count_append, map_singleton, count_singleton]
          simp only [beq_iff_eq]
          exact Nat.add_le_add_right (h.sessions t) _
        · refine h.answered hpc (fun t => (hguess t).le) (fun t => ?_) rfl
          exact (h.sessions t).trans ((Nat.le_add_right _ _).trans (hguess t).ge)
      · exact hsame

theorem Inv.creation (h : Inv cfg s) (hpc : s.calls.get? i = some pc) {token : Str}
    (hcreates : pc.creates = some (token, challenge)) (hs : s.statement cfg i answer pc = some s') :
    Inv cfg s' := by
  cases pc with
  | store token' challenge' =>
    refine h.memory hpc (fun _ => rfl) (fun _ => rfl) ?_ (fun _ hmay => hmay) (Option.some.inj hs).symm
    intro t c ht
    rw [get?_set] at ht
    split at ht
    · rename_i heq
      rw [heq, ← Option.some.inj ht]
      exact .inr rfl
    · exact .inl (get?_foldl_erase_eq_some.1 ht).2
  | cleanup token' challenge' =>
    obtain ⟨T, hT, rfl⟩ := Option.map_eq_some_iff.1 hs
    have hmine := h.not_mine hpc fun _ hmay => hmay
    obtain rfl := Table.deleteWhere_eq_some hT
    refine h.table hpc (some (.cleanupCommit token' challenge')) rfl (fun _ => rfl) (fun _ => rfl)
      (fun _ hx => hx) (fun _ hx => hx) (fun _ _ hrow => .inl hrow)
      (fun _ _ heq => by cases heq) (fun w hw _ => mem_append_left _ hw) ?_
    intro w hw
    rcases mem_append.1 hw with hw | hw
    · exact .inl ⟨hmine w hw, hw⟩
    · obtain ⟨e, -, rfl⟩ := mem_map.1 hw
      exact .inr ⟨rfl, _, rfl, rfl⟩
  | cleanupCommit token' challenge' =>
    refine h.table hpc (some (.insert token' challenge')) (Option.some.inj hs).symm (fun _ => rfl)
      (fun _ => rfl) (fun _ hx => hx) (fun _ hx => hx) ?_
      (fun _ _ heq => by cases heq) (fun w hw htxn => Table.mem_commit_writes.2 ⟨hw, htxn⟩)
      (fun w hw => .inl (Table.mem_commit_writes.1 hw).symm)
    intro t row hrow
    rcases Table.get?_visible_eq_some hrow with hold | ⟨w, hw, htxn, -, hvalue⟩
    · exact .inl hold
    · have hnone : w.value = none := h.mayWrite hpc hw htxn
      rw [hnone] at hvalue
      cases hvalue
  | insert token' challenge' =>
    obtain ⟨T, hT, rfl⟩ := Option.map_eq_some_iff.1 hs
    have hmine := h.not_mine hpc fun _ hmay => hmay
    obtain ⟨-, rfl⟩ := Table.put_eq_some hT
    refine h.table hpc (some (.insertCommit token' challenge')) rfl (fun _ => rfl) (fun _ => rfl)
      (fun _ hx => hx) (fun _ hx => hx) (fun _ _ hrow => .inl hrow)
      (fun _ _ heq => by cases heq) (fun w hw _ => mem_append_left _ hw) ?_
    intro w hw
    rcases mem_append.1 hw with hw | hw
    · exact .inl ⟨hmine w hw, hw⟩
    · rw [mem_singleton.1 hw]
      exact .inr ⟨rfl, _, rfl, rfl, rfl⟩
  | insertCommit token' challenge' =>
    refine h.table hpc none (Option.some.inj hs).symm (fun _ => rfl) (fun _ => rfl)
      (fun _ hx => by cases hx) (fun _ hx => by cases hx) ?_
      (fun _ _ heq => by cases heq) (fun w hw htxn => Table.mem_commit_writes.2 ⟨hw, htxn⟩)
      (fun w hw => .inl (Table.mem_commit_writes.1 hw).symm)
    intro t row hrow
    rcases Table.get?_visible_eq_some hrow with hold | ⟨w, hw, htxn, rfl, hvalue⟩
    · exact .inl hold
    · obtain ⟨hkey, hrow'⟩ : w.key = token' ∧ w.value = some challenge'.toRow := h.mayWrite hpc hw htxn
      refine .inr ⟨challenge', ?_, ?_, rfl⟩
      · rw [hkey]
        rfl
      · rw [hrow'] at hvalue
        exact (Option.some.inj hvalue).symm
  | _ => cases hcreates

theorem Inv.pop (h : Inv cfg s) (hpc : s.calls.get? i = some (.pop req))
    (hs : s.statement cfg i answer (.pop req) = some s') : Inv cfg s' := by
  have hmine := h.not_mine hpc fun _ hmay => hmay
  have hremove : ∀ {t c}, (s.challenges.erase req.token).get? t = some c →
      s.challenges.get? t = some c ∧ t ≠ req.token :=
    fun ht => (get?_erase_eq_some.1 ht).symm
  rw [State.statement] at hs
  split at hs
  · exact h.memory hpc (fun _ => rfl) (fun _ => rfl) (fun _ _ ht => .inl ht) (fun _ hmay => hmay)
      (Option.some.inj hs).symm
  · rename_i challenge hget
    obtain ⟨hcreated, hcons, hfree⟩ := h.rows.stored _ _ hget
    split at hs
    · exact h.memory hpc (fun _ => rfl) (fun _ => rfl) (fun _ _ ht => .inl (hremove ht).1) (fun _ hmay => hmay)
        (Option.some.inj hs).symm
    · rename_i hlive
      refine h.consume hpc hcons hfree (fun _ _ => rfl) (fun _ => rfl) ?_ ?_ (fun _ _ ht => hremove ht)
        (fun w hw => ⟨hmine w hw, hw⟩) (fun _ hw _ => hw) ⟨_, hcreated, rfl, ?_⟩ (Option.some.inj hs).symm
      · intro j pc' challenge' hj ht
        have hnone := ((h.calls j pc' hj).creating _ _ ht).2.2.2.2
        rw [hget] at hnone
        cases hnone
      · intro t row hrow
        refine ⟨hrow, ?_⟩
        rintro rfl
        have hnone := (h.rows.committed _ row hrow).2.2
        rw [hget] at hnone
        cases hnone
      · dsimp only
        linarith [not_lt.1 hlive]

theorem Inv.commit (h : Inv cfg s) {found : Option Challenge} (hu : s.undisturbed cfg i = true)
    (hpc : s.calls.get? i = some (.commit req found)) (hs : s.statement cfg i answer (.commit req found) = some s') :
    Inv cfg s' := by
  have hdeletes : ∀ w ∈ s.mfaChallenges.writes, w.txn = i → w.value = none := by
    intro w hw htxn
    have hmay : w.key = req.token ∧ w.value = none := h.mayWrite hpc hw htxn
    exact hmay.2
  have hvisible : ∀ t row, (s.mfaChallenges.visible i).get? t = some row →
      s.mfaChallenges.committed.get? t = some row := by
    intro t row hrow
    rcases Table.get?_visible_eq_some hrow with hold | ⟨w, hw, htxn, -, hvalue⟩
    · exact hold
    · rw [hdeletes w hw htxn] at hvalue
      cases hvalue
  cases found with
  | none =>
    exact h.table hpc none (Option.some.inj hs).symm (fun _ => rfl) (fun _ => rfl)
      (fun _ hx => by cases hx) (fun _ hx => by cases hx)
      (fun t row hrow => .inl (hvisible t row hrow)) (fun _ _ heq => by cases heq)
      (fun w hw htxn => Table.mem_commit_writes.2 ⟨hw, htxn⟩) (fun w hw => .inl (Table.mem_commit_writes.1 hw).symm)
  | some challenge =>
    have hholds : (Pc.commit req (some challenge)).holds req.token = true := decide_eq_true rfl
    have hpos := State.holders_pos hpc hholds
    have hweight := h.weight req.token
    have hok := h.calls i _ hpc
    rw [State.undisturbed, hpc] at hu
    refine h.consume hpc (by omega) ?_ (fun t ht => decide_eq_false (Ne.symm ht)) (fun _ => rfl) ?_ ?_ ?_
      (fun w hw => (Table.mem_commit_writes.1 hw).symm) (fun w hw htxn => Table.mem_commit_writes.2 ⟨hw, htxn⟩)
      ⟨_, hok.holding req challenge rfl, rfl, of_decide_eq_true hu⟩ (Option.some.inj hs).symm
    · rw [if_pos hholds]
      omega
    · intro j pc' challenge' hj ht
      have hnone := ((h.calls j pc' hj).creating _ _ ht).2.2.1
      omega
    · intro t row hrow
      refine ⟨hvisible t row hrow, ?_⟩
      rintro rfl
      rcases hok.gone req challenge rfl with hnone | ⟨w, hw, htxn, hkey⟩
      · rw [hvisible _ row hrow] at hnone
        cases hnone
      · rw [show (s.mfaChallenges.commit i).committed.get? req.token = none from
          Table.get?_visible_of_deleted hdeletes hw htxn hkey] at hrow
        cases hrow
    · intro t challenge' ht
      refine ⟨ht, ?_⟩
      rintro rfl
      have hnone := (h.rows.stored _ challenge' ht).2.2
      omega

theorem Inv.statement (h : Inv cfg s) (hu : s.undisturbed cfg i = true) (hpc : s.calls.get? i = some pc)
    (hs : s.statement cfg i answer pc = some s') : Inv cfg s' := by
  cases pc with
  | pop req => exact h.pop hpc hs
  | select req now =>
    have hmine := h.not_mine hpc fun _ hmay => hmay
    rw [State.undisturbed, hpc] at hu
    rw [State.statement, Table.visible_of_no_writes hmine] at hs
    cases hrow : (s.mfaChallenges.committed.get? req.token).filter fun row =>
        decide (row.createdAt > now - cfg.ttl) with
    | none =>
      rw [hrow] at hs
      exact h.table hpc (some (.delete req none)) (Option.some.inj hs).symm (fun _ => rfl)
        (fun _ => rfl) (fun _ hx => hx) (fun _ hx => hx) (fun _ _ hold => .inl hold)
        (fun _ _ heq => by cases heq) (fun _ hw _ => hw) (fun w hw => .inl ⟨hmine w hw, hw⟩)
    | some row =>
      rw [hrow] at hs
      exact h.select hpc (Option.filter_eq_some_iff.1 hrow).1 (of_decide_eq_true hu) (Option.some.inj hs).symm
  | delete req found =>
    have hmine := h.not_mine hpc fun _ hmay => hmay
    obtain ⟨T, hT, rfl⟩ := Option.map_eq_some_iff.1 hs
    rcases Table.modify_eq_some hT with ⟨hnone, rfl⟩ | ⟨row, -, rfl⟩
    · rw [Table.visible_of_no_writes hmine] at hnone
      refine h.table hpc (some (.commit req found)) rfl (fun _ => ?_) (fun _ => rfl) (fun _ hx => by cases hx)
        (fun _ hx => ?_)
        (fun _ _ hold => .inl hold) ?_ (fun _ hw _ => hw) (fun w hw => .inl ⟨hmine w hw, hw⟩)
      · cases found <;> rfl
      · cases found <;> exact hx
      · intro req' challenge heq
        cases heq
        exact .inl hnone
    · refine h.table hpc (some (.commit req found)) rfl (fun _ => ?_) (fun _ => rfl) (fun _ hx => by cases hx)
        (fun _ hx => ?_)
        (fun _ _ hold => .inl hold) ?_ (fun _ hw _ => mem_append_left _ hw) ?_
      · cases found <;> rfl
      · cases found <;> exact hx
      · intro req' challenge heq
        cases heq
        exact .inr ⟨_, mem_append_right _ (mem_singleton.2 rfl), rfl, rfl⟩
      · intro w hw
        rcases mem_append.1 hw with hw | hw
        · exact .inl ⟨hmine w hw, hw⟩
        · rw [mem_singleton.1 hw]
          exact .inr ⟨rfl, _, rfl, rfl, rfl⟩
  | commit req found => exact h.commit hu hpc hs
  | verify req challenge =>
    cases hs
    exact h.respond hpc answer
  | _ => exact h.creation hpc rfl hs

theorem Inv.step (h : Inv cfg s) {a : Act} (hu : Undisturbed cfg s a) (hs : s.step cfg a = some s') : Inv cfg s' := by
  cases a <;> rw [State.step] at hs
  case tick now =>
    split at hs <;> cases hs
    exact h.tick now
  case createChallenge i token challenge =>
    split at hs
    · cases hs
    · rename_i hfree
      obtain ⟨hnew, htoken⟩ := not_or.1 hfree
      refine h.start (Option.not_isSome_iff_eq_none.1 hnew) ?_ ?_ ?_ ?_ (Option.some.inj hs).symm
      · intro t
        split <;> rfl
      · intro t
        split <;> rfl
      · split <;> rfl
      · intro t challenge' ht
        split at ht <;>
        · cases ht
          exact ⟨mem_singleton.2 rfl, htoken⟩
  case verify i req =>
    split at hs
    · cases hs
    · rename_i hnew
      have hs' : s' = { s with
          created := s.created ++ [],
            calls := s.calls.set i (if cfg.pool then .select req s.clock else .pop req) } := by
        rw [append_nil]
        exact (Option.some.inj hs).symm
      refine h.start (Option.not_isSome_iff_eq_none.1 hnew) ?_ ?_ ?_ ?_ hs'
      · intro t
        split <;> rfl
      · intro t
        split <;> rfl
      · split <;> rfl
      · intro t challenge' ht
        split at ht <;> cases ht
  case statement i answer =>
    obtain ⟨pc, hpc, hs⟩ := Option.bind_eq_some_iff.1 hs
    exact h.statement hu hpc hs

theorem Inv.fresh (now : ℚ) : Inv cfg (.fresh now) where
  weight := fun _ => Nat.zero_le 1
  rows := ⟨fun _ _ h => (by cases h), fun _ _ h => (by cases h)⟩
  calls := fun _ _ h => (by cases h)
  creators := fun _ _ _ _ _ _ _ h => (by cases h)
  writes := fun _ h => absurd h not_mem_nil
  lifetime := fun _ h => absurd h not_mem_nil
  guesses := fun _ => le_rfl
  sessions := fun _ => le_rfl

end Steps

/-- A challenge is consumed once and in time, and pays for one guess and one session. -/
theorem once_of_undisturbed {cfg : Manager} {s : State} (h : (system cfg).Reachable (Undisturbed cfg) s) :
    Once cfg s := by
  have hinv : Inv cfg s := by
    refine h.invariant ?_ ?_
    · rintro s ⟨now, rfl⟩
      exact Inv.fresh now
    · exact fun s a s' hinv hu hs => hinv.step hu hs
  exact hinv.once

/-! ### Memory mode -/

/-- The calls that work on `_challenges` alone. -/
def Pc.inMemory : Pc → Bool
  | .store _ _ => true
  | .pop _ => true
  | .verify _ _ => true
  | _ => false

def InMemory (calls : Dict ℕ Pc) : Prop := ∀ i pc, calls.get? i = some pc → pc.inMemory = true

section InMemory

variable (h : InMemory s.calls)
include h

theorem InMemory.undisturbed (cfg : Manager) (a : Act) : Undisturbed cfg s a := by
  cases a with
  | statement i answer =>
    show s.undisturbed cfg i = true
    unfold State.undisturbed
    split
    · rename_i hpc
      cases h i _ hpc
    · rename_i hpc
      cases h i _ hpc
    · rfl
  | _ => trivial

theorem InMemory.update (i : ℕ) (next : Option Pc) (hnext : ∀ pc, next = some pc → pc.inMemory = true) :
    InMemory (s.calls.update i next) := by
  intro j pc hj
  rw [get?_update] at hj
  split at hj
  · exact hnext pc hj
  · exact h j pc hj

theorem InMemory.goto (i : ℕ) {pc : Pc} (hpc : pc.inMemory = true) : InMemory (s.goto i pc).calls := by
  refine h.update i (some pc) ?_
  rintro _ ⟨⟩
  exact hpc

theorem InMemory.statement {s' : State} {i : ℕ} {answer : Bool} {pc : Pc} (hpc : s.calls.get? i = some pc)
    (hs : s.statement cfg i answer pc = some s') : InMemory s'.calls := by
  have hend : InMemory (s.finish i).calls := h.update i none (by rintro _ ⟨⟩)
  have hmem := h i pc hpc
  cases pc with
  | store token challenge =>
    cases hs
    exact hend
  | pop req =>
    rw [State.statement] at hs
    split at hs
    · cases hs
      exact hend
    · dsimp only at hs
      split at hs <;> cases hs
      · exact hend
      · exact h.goto i rfl
  | verify req challenge =>
    cases hs
    unfold State.respond
    split
    · exact hend
    · split
      · exact hend
      · split
        · dsimp only
          split <;> exact hend
        · exact hend
  | _ => cases hmem

theorem InMemory.step (hpool : cfg.pool = false) {s' : State} {a : Act} (hs : s.step cfg a = some s') :
    InMemory s'.calls := by
  cases a with
  | tick now =>
    rw [State.step] at hs
    split at hs <;> cases hs
    exact h
  | createChallenge i token challenge | verify i req =>
    simp only [State.step, hpool] at hs
    split at hs <;> cases hs
    exact h.goto i rfl
  | statement i answer =>
    obtain ⟨pc, hpc, hs⟩ := Option.bind_eq_some_iff.1 hs
    exact h.statement hpc hs

end InMemory

/-- Without a pool the laws hold in every run. -/
theorem once_of_memory (hpool : cfg.pool = false) (h : (system cfg).Reachable Any s) : Once cfg s := by
  have hinv := h.invariant (I := fun s => Inv cfg s ∧ InMemory s.calls) ?_ ?_
  · exact hinv.1.once
  · rintro s ⟨now, rfl⟩
    exact ⟨Inv.fresh now, by rintro i pc ⟨⟩⟩
  · rintro s a s' ⟨hinv, hmem⟩ - hs
    exact ⟨hinv.step (hmem.undisturbed cfg a) hs, hmem.step hpool hs⟩

/-! ### Runs -/

def pooled : Manager := ⟨300, true⟩

def alice : Challenge := ⟨"alice", "admin", "10.0.0.1", 0, 0, "/admin/", none, none, none, none⟩

def guess (totp : String) : Request := ⟨.web, "t", "10.0.0.1", some totp.toList, none⟩

def createT : List Act := .createChallenge 0 "t" alice :: replicate 4 (.statement 0 true)

/-- Two requests try one token: the challenge goes to the first that takes it. -/
theorem once_of_memory_guessed : ∃ s, (system ⟨300, false⟩).Reachable Any s ∧
    (s.guesses.length, s.sessions.length, s.calls.items) = (1, 1, []) ∧ Once ⟨300, false⟩ s := by
  exact exists_of_run_and (.fresh 0)
    [.createChallenge 0 "t" alice, .statement 0 true, .verify 1 (guess "123456"), .verify 2 (guess "654321"),
     .statement 2 true, .statement 1 true, .statement 2 true]
    (fresh_isInit _ 0) (by decide +kernel) fun s hs _ => once_of_memory rfl hs

/-- Two requests one after the other: the second finds no challenge. -/
theorem once_of_undisturbed_pooled : ∃ s, (system pooled).Reachable (Undisturbed pooled) s ∧
    (s.consumptions "t", s.guesses.length, s.sessions.length, s.calls.items) = (1, 1, 1, []) ∧ Once pooled s := by
  exact exists_of_run_and (.fresh 0)
    (createT ++ [.verify 1 (guess "123456"), .statement 1 true, .tick 200, .statement 1 true, .statement 1 true,
      .statement 1 true, .verify 2 (guess "654321"), .statement 2 true, .statement 2 true, .statement 2 true])
    (fresh_isInit pooled 0) (by decide +kernel) fun s hs _ => once_of_undisturbed hs

/-- Two requests select the row before either deletes it: two guesses and two sessions for one password check. And a
request that has read the clock in time selects the row, deletes it and returns the challenge long after its
lifetime. -/
theorem consumed_twice_or_late : (∃ s, (system pooled).Reachable Any s ∧
      (s.consumptions "t", s.guesses.length, s.sessions.length, s.calls.items) = (2, 2, 2, []) ∧ ¬ Once pooled s) ∧
    ∃ s, (system pooled).Reachable Any s ∧ (s.created, s.consumed) = ([⟨"t", 0⟩], [⟨"t", 1000⟩]) ∧
      ¬ Once pooled s := by
  constructor
  · refine exists_of_run_and (.fresh 0) (createT ++ [.verify 1 (guess "123456"), .verify 2 (guess "123456"),
        .statement 1 true, .statement 2 true, .statement 1 true, .statement 1 true, .statement 2 true,
        .statement 2 true, .statement 1 true, .statement 2 true])
      (fresh_isInit pooled 0) (by decide +kernel) fun s hs hresult honce => ?_
    have hconsumed := honce.consumed "t"
    rw [(Prod.mk.inj hresult).1] at hconsumed
    omega
  · refine exists_of_run_and (.fresh 0) (createT ++ [.tick 299, .verify 1 (guess "123456"), .tick 1000,
        .statement 1 true, .statement 1 true, .statement 1 true])
      (fresh_isInit pooled 0) (by decide +kernel) fun s hs hresult honce => ?_
    obtain ⟨hcreated, hconsumed⟩ := Prod.mk.inj hresult
    obtain ⟨c, hc, -, htime⟩ := honce.lifetime ⟨"t", 1000⟩ (by rw [hconsumed]; exact mem_singleton.2 rfl)
    rw [hcreated] at hc
    rw [mem_singleton.1 hc] at htime
    norm_num [pooled] at htime

end CodeIndexer.Mfa
