import CodeIndexer.Lib.Dict
import CodeIndexer.Lib.PyText
import CodeIndexer.Lib.Transition

/-!
# One-time codes (server/auth/totp_service.py)

`verify_code` and `verify_enabled_code` of one table `user_mfa`, called by any number of requests.
A step is one statement of a call together with what it computes until its next statement; the
`UPDATE` and its `commit` are one step, and so is the compare-and-set of `last_used_otp_counter`.
`accepted` is a ghost log of the calls that returned `True`, in the order of their commits.

`verify_code` compares with the `last_used_counter` it has read and writes later; and each of the two
entry points looks only at its own column. `Undisturbed` is the absence of both interferences at an
accepting write, and along such runs every code is accepted once and in the order of the steps.
-/

namespace CodeIndexer.Totp

open PyText TransitionSystem Function List

/-- What the service is made with. `codeAt secret step` is `totp.at(step * 30)`, `none` where it
raises; `verify` of the library compares after `normalize`. -/
structure Service (E S : Type) where
  decrypt : E → Option S
  codeAt : S → ℤ → Option Str
  normalize : Str → Str
  unicode : Unicode
  windowTolerance : ℤ

structure Row (E : Type) where
  encryptedSecret : E
  mfaEnabled : Bool
  lastUsedCounter : Option ℤ
  lastUsedOtpCounter : Option ℤ

inductive Entry
  | verifyCode
  | verifyEnabledCode
deriving DecidableEq

def Entry.column {E : Type} : Entry → Row E → Option ℤ
  | .verifyCode, row => row.lastUsedCounter
  | .verifyEnabledCode, row => row.lastUsedOtpCounter

inductive Pc (S : Type)
  | idle
  | verifySecret (user code : Str)
  | verifyRead (user code : Str) (secret : S) (currentCounter : ℤ)
  | verifyUpdate (user code : Str) (lastCounter testCounter : ℤ)
  | enabledCheck (user code : Str)
  | enabledSecret (user code : Str)
  | enabledCas (user code : Str) (matchedStep : ℤ)
  | returned (result : Bool)
  | raised

structure Accept (T : Type) where
  call : T
  entry : Entry
  user : Str
  code : Str
  step : ℤ
deriving DecidableEq

structure State (E S T : Type) where
  rows : Dict Str (Row E)
  pc : T → Pc S
  accepted : List (Accept T)

/-- `call`: a request enters one of the two functions. `step`: it runs its next statement, and `now` is
what `int(time.time())` returns after it. `fail`: the statement raises (a lock timeout, a lost
connection). -/
inductive Act (T : Type)
  | call (t : T) (entry : Entry) (user code : Str)
  | step (t : T) (now : ℤ)
  | fail (t : T)

def totpDigits : ℕ := 6
def totpPeriod : ℤ := 30

def offsets (w : ℤ) : List ℤ := (List.range (2 * w + 1).toNat).map fun i => i - w

namespace Service

variable {E S : Type} (Q : Service E S)

def firstMatch (p : Str → Bool) (secret : S) : List ℤ → Option (Option ℤ)
  | [] => some none
  | step :: steps =>
    match Q.codeAt secret step with
    | none => none
    | some code => if p code then some (some step) else firstMatch p secret steps

def window (base : ℤ) : List ℤ := (offsets Q.windowTolerance).map (base + ·)

def verify (secret : S) (code : Str) (now : ℤ) : Option Bool :=
  (Q.firstMatch (fun c => Q.normalize c = Q.normalize code) secret (Q.window (now / totpPeriod))).map Option.isSome

def matchedStep (secret : S) (code : Str) (base : ℤ) : Option (Option ℤ) :=
  Q.firstMatch (· = code) secret (Q.window base)

def getSecret (row : Option (Row E)) : Option S := row.bind fun r => Q.decrypt r.encryptedSecret

/-- `verify_code` up to its first statement on `last_used_counter`. -/
def verifySecret (row : Option (Row E)) (now : ℤ) (user code : Str) : Pc S :=
  match Q.getSecret row with
  | none => .returned false
  | some secret => .verifyRead user code secret (now / totpPeriod)

def lastCounter (row : Option (Row E)) : ℤ := (row.bind Row.lastUsedCounter).getD 0

/-- `_verify_code_with_conn_*` from its `SELECT` to its `UPDATE`. -/
def verifyRead (row : Option (Row E)) (now : ℤ) (user code : Str) (secret : S) (currentCounter : ℤ) : Pc S :=
  match Q.verify secret code now with
  | none => .raised
  | some false => .returned false
  | some true =>
    match Q.matchedStep secret code currentCounter with
    | none => .raised
    | some none => .returned false
    | some (some testCounter) =>
      if testCounter ≤ lastCounter row then .returned false
      else .verifyUpdate user code (lastCounter row) testCounter

def enabledEntry (user code : Str) : Pc S :=
  if user.all isSpace then .raised
  else if code.length = totpDigits ∧ code.all Q.unicode.digit then .enabledCheck user code
  else .raised

def enabledCheck (row : Option (Row E)) (user code : Str) : Pc S :=
  if row.any Row.mfaEnabled then .enabledSecret user code else .returned false

/-- `verify_enabled_code` from `_get_secret` to the compare-and-set. -/
def enabledSecret (row : Option (Row E)) (now : ℤ) (user code : Str) : Pc S :=
  match Q.getSecret row with
  | none => .returned false
  | some secret =>
    match Q.matchedStep secret code (now / totpPeriod) with
    | none => .raised
    | some none => .returned false
    | some (some step) => .enabledCas user code step

end Service

namespace State

variable {E S T : Type} [DecidableEq T]

def goto (s : State E S T) (t : T) (p : Pc S) : State E S T := { s with pc := update s.pc t p }

def updateRow (s : State E S T) (user : Str) (f : Row E → Row E) : State E S T :=
  match s.rows.get? user with
  | none => s
  | some row => { s with rows := s.rows.set user (f row) }

def accept (s : State E S T) (a : Accept T) : State E S T :=
  { s.goto a.call (.returned true) with accepted := s.accepted ++ [a] }

def casOtpCounter (s : State E S T) (t : T) (user code : Str) (step : ℤ) : State E S T :=
  match s.rows.get? user with
  | none => s.goto t (.returned false)
  | some row =>
    if row.lastUsedOtpCounter.any (· ≥ step) then s.goto t (.returned false)
    else (s.updateRow user fun r => { r with lastUsedOtpCounter := some step }).accept
      ⟨t, .verifyEnabledCode, user, code, step⟩

end State

variable {E S T : Type}

def step [DecidableEq T] (Q : Service E S) (s : State E S T) : Act T → Option (State E S T)
  | .call t entry user code =>
    match s.pc t, entry with
    | .idle, .verifyCode => some (s.goto t (.verifySecret user code))
    | .idle, .verifyEnabledCode => some (s.goto t (Q.enabledEntry user code))
    | _, _ => none
  | .step t now =>
    match s.pc t with
    | .verifySecret user code => some (s.goto t (Q.verifySecret (s.rows.get? user) now user code))
    | .verifyRead user code secret current =>
      some (s.goto t (Q.verifyRead (s.rows.get? user) now user code secret current))
    | .verifyUpdate user code _ test =>
      some ((s.updateRow user fun r => { r with lastUsedCounter := some test }).accept
        ⟨t, .verifyCode, user, code, test⟩)
    | .enabledCheck user code => some (s.goto t (Service.enabledCheck (s.rows.get? user) user code))
    | .enabledSecret user code => some (s.goto t (Q.enabledSecret (s.rows.get? user) now user code))
    | .enabledCas user code step => some (s.casOtpCounter t user code step)
    | .idle | .returned _ | .raised => none
  | .fail t =>
    match s.pc t with
    | .idle | .returned _ | .raised => none
    | _ => some (s.goto t .raised)

def system [DecidableEq T] (Q : Service E S) : TransitionSystem (State E S T) (Act T) where
  init s := (∀ t, s.pc t = .idle) ∧ s.accepted = []
  step := step Q

/-- At most one call is accepted for a user and a step, and the accepted steps of a user increase. -/
structure OneTime (s : State E S T) : Prop where
  once : ∀ a ∈ s.accepted, ∀ b ∈ s.accepted, a.user = b.user → a.step = b.step → a = b
  increasing : s.accepted.Pairwise fun a b => a.user = b.user → a.step < b.step

theorem not_oneTime_of_accepted {log : List (Accept T)} {s : State E S T} (hlog : s.accepted = log)
    (h : ¬ log.Pairwise fun a b => a.user = b.user → a.step < b.step) : ¬ OneTime s :=
  fun hs => h (hlog ▸ hs.increasing)

/-- At the `UPDATE` of `verify_code` the row still holds the counter that was read, and the other
column is behind the step; a compare-and-set that writes finds `last_used_counter` behind its step. -/
def Pc.Undisturbed (rows : Dict Str (Row E)) : Pc S → Prop
  | .verifyUpdate user _ last test => ∀ row ∈ rows.get? user,
    Service.lastCounter (some row) = last ∧ ∀ c ∈ row.lastUsedOtpCounter, c < test
  | .enabledCas user _ step => ∀ row ∈ rows.get? user,
    (∃ c ∈ row.lastUsedOtpCounter, step ≤ c) ∨ ∀ c ∈ row.lastUsedCounter, c < step
  | _ => True

instance (rows : Dict Str (Row E)) : (p : Pc S) → Decidable (p.Undisturbed rows)
  | .verifyUpdate user _ last test => inferInstanceAs (Decidable (∀ row ∈ rows.get? user,
    Service.lastCounter (some row) = last ∧ ∀ c ∈ row.lastUsedOtpCounter, c < test))
  | .enabledCas user _ step => inferInstanceAs (Decidable (∀ row ∈ rows.get? user,
    (∃ c ∈ row.lastUsedOtpCounter, step ≤ c) ∨ ∀ c ∈ row.lastUsedCounter, c < step))
  | .idle | .verifySecret .. | .verifyRead .. | .enabledCheck .. | .enabledSecret .. | .returned _ | .raised =>
    .isTrue trivial

def Undisturbed (s : State E S T) : Act T → Prop
  | .step t _ => (s.pc t).Undisturbed s.rows
  | _ => True

instance (s : State E S T) : (a : Act T) → Decidable (Undisturbed s a)
  | .step t _ => inferInstanceAs (Decidable ((s.pc t).Undisturbed s.rows))
  | .call .. | .fail _ => .isTrue trivial

/-! ### What one step does -/

def Valid (Q : Service E S) (s : State E S T) (user code : Str) (step : ℤ) : Prop :=
  ∃ row secret, s.rows.get? user = some row ∧ Q.decrypt row.encryptedSecret = some secret ∧
    Q.codeAt secret step = some code

def PcOk (Q : Service E S) (s : State E S T) : Pc S → Prop
  | .verifyRead user _ secret _ => Q.getSecret (s.rows.get? user) = some secret
  | .verifyUpdate user code last test => last < test ∧ Valid Q s user code test
  | .enabledCas user code step => Valid Q s user code step
  | _ => True

def SameSecrets (s s' : State E S T) : Prop :=
  ∀ user, (s'.rows.get? user).map Row.encryptedSecret = (s.rows.get? user).map Row.encryptedSecret

section Secrets

variable {Q : Service E S} {s s' : State E S T}

theorem getSecret_map (row : Option (Row E)) : Q.getSecret row = (row.map Row.encryptedSecret).bind Q.decrypt := by
  cases row <;> rfl

variable {user code : Str} {step : ℤ}

theorem valid_iff : Valid Q s user code step ↔
    ∃ secret, Q.getSecret (s.rows.get? user) = some secret ∧ Q.codeAt secret step = some code := by
  constructor
  · rintro ⟨row, secret, hrow, hdec, hcode⟩
    exact ⟨secret, by rw [hrow]; exact hdec, hcode⟩
  · rintro ⟨secret, hsec, hcode⟩
    obtain ⟨row, hrow, hdec⟩ := Option.bind_eq_some_iff.1 hsec
    exact ⟨row, secret, hrow, hdec, hcode⟩

theorem SameSecrets.getSecret (h : SameSecrets s s') (user : Str) :
    Q.getSecret (s'.rows.get? user) = Q.getSecret (s.rows.get? user) := by
  rw [getSecret_map, getSecret_map, h user]

theorem Valid.congr (h : SameSecrets s s') (hv : Valid Q s user code step) : Valid Q s' user code step := by
  rw [valid_iff] at hv ⊢
  rw [h.getSecret user]
  exact hv

theorem PcOk.congr (h : SameSecrets s s') {p : Pc S} (hp : PcOk Q s p) : PcOk Q s' p := by
  cases p with
  | verifyRead user code secret current => exact (h.getSecret user).trans hp
  | verifyUpdate user code last test => exact ⟨hp.1, hp.2.congr h⟩
  | enabledCas user code step => exact Valid.congr h hp
  | _ => trivial

end Secrets

section Local

variable {Q : Service E S} {s : State E S T}

variable {secret : S} {step : ℤ} {code : Str}

theorem codeAt_of_firstMatch {p : Str → Bool} {steps : List ℤ}
    (h : Q.firstMatch p secret steps = some (some step)) : ∃ code, Q.codeAt secret step = some code ∧ p code := by
  induction steps with
  | nil => simp [Service.firstMatch] at h
  | cons c steps ih =>
    rw [Service.firstMatch] at h
    cases hc : Q.codeAt secret c with
    | none => simp [hc] at h
    | some code =>
      by_cases hp : p code
      · simp only [hc, hp, ↓reduceIte, Option.some.injEq] at h
        exact ⟨code, h ▸ hc, hp⟩
      · simp only [hc, hp] at h
        exact ih h

theorem codeAt_of_matchedStep {base : ℤ}
    (h : Q.matchedStep secret code base = some (some step)) : Q.codeAt secret step = some code := by
  obtain ⟨c, hc, hcode⟩ := codeAt_of_firstMatch h
  rw [hc, of_decide_eq_true hcode]

structure Landing (Q : Service E S) (s : State E S T) (p : Pc S) : Prop where
  ok : PcOk Q s p
  pending : p ≠ .returned true

theorem landing_verifySecret (user code : Str) (now : ℤ) :
    Landing Q s (Q.verifySecret (s.rows.get? user) now user code) := by
  unfold Service.verifySecret
  cases h : Q.getSecret (s.rows.get? user) with
  | none => exact ⟨trivial, by simp⟩
  | some secret => exact ⟨h, by simp⟩

theorem landing_verifyRead {user : Str} {current : ℤ} (now : ℤ)
    (hsec : Q.getSecret (s.rows.get? user) = some secret) :
    Landing Q s (Q.verifyRead (s.rows.get? user) now user code secret current) := by
  unfold Service.verifyRead
  rcases Q.verify secret code now with _ | _ | _
  · exact ⟨trivial, by simp⟩
  · exact ⟨trivial, by simp⟩
  · cases hm : Q.matchedStep secret code current with
    | none => exact ⟨trivial, by simp⟩
    | some m =>
      cases m with
      | none => exact ⟨trivial, by simp⟩
      | some test =>
        by_cases hle : test ≤ Service.lastCounter (s.rows.get? user)
        · simp only [hle, ↓reduceIte]
          exact ⟨trivial, by simp⟩
        · simp only [hle, ↓reduceIte]
          have hvalid : Valid Q s user code test := valid_iff.2 ⟨secret, hsec, codeAt_of_matchedStep hm⟩
          exact ⟨⟨not_le.1 hle, hvalid⟩, by simp⟩

theorem landing_enabledEntry (user code : Str) : Landing Q s (Q.enabledEntry user code) := by
  unfold Service.enabledEntry
  split
  · exact ⟨trivial, by simp⟩
  · split <;> exact ⟨trivial, by simp⟩

theorem landing_enabledCheck (user code : Str) : Landing Q s (Service.enabledCheck (s.rows.get? user) user code) := by
  unfold Service.enabledCheck
  split <;> exact ⟨trivial, by simp⟩

theorem landing_enabledSecret (user code : Str) (now : ℤ) :
    Landing Q s (Q.enabledSecret (s.rows.get? user) now user code) := by
  unfold Service.enabledSecret
  cases hsec : Q.getSecret (s.rows.get? user) with
  | none => exact ⟨trivial, by simp⟩
  | some secret =>
    cases hm : Q.matchedStep secret code (now / totpPeriod) with
    | none => simp only [hm]; exact ⟨trivial, by simp⟩
    | some m =>
      cases m with
      | none => simp only [hm]; exact ⟨trivial, by simp⟩
      | some step =>
        simp only [hm]
        exact ⟨valid_iff.2 ⟨secret, hsec, codeAt_of_matchedStep hm⟩, by simp⟩

end Local

section Update

variable {s : State E S T}

@[simp] theorem updateRow_pc (user : Str) (f : Row E → Row E) : (s.updateRow user f).pc = s.pc := by
  unfold State.updateRow
  split <;> rfl

@[simp] theorem updateRow_accepted (user : Str) (f : Row E → Row E) :
    (s.updateRow user f).accepted = s.accepted := by
  unfold State.updateRow
  split <;> rfl

theorem get?_updateRow (user : Str) (f : Row E → Row E) (user' : Str) :
    (s.updateRow user f).rows.get? user' =
      if user' = user then (s.rows.get? user).map f else s.rows.get? user' := by
  unfold State.updateRow
  cases hrow : s.rows.get? user with
  | none =>
    by_cases hu : user' = user
    · simp [hu, hrow]
    · simp [hu]
  | some row => simp [Dict.get?_set]

theorem sameSecrets_updateRow {user : Str} {f : Row E → Row E}
    (hf : ∀ r, (f r).encryptedSecret = r.encryptedSecret) : SameSecrets s (s.updateRow user f) := by
  intro user'
  rw [get?_updateRow]
  split
  · rename_i hu
    rw [hu]
    cases s.rows.get? user with
    | none => rfl
    | some row => simp [hf]
  · rfl

end Update

variable [DecidableEq T] {Q : Service E S} {s s' : State E S T}

variable {a : Act T} {f : Row E → Row E} {row : Row E}

/-- A statement that writes nothing takes one call to a `Landing`; the other two writes accept. -/
theorem step_cases (hok : ∀ t, PcOk Q s (s.pc t)) (h : step Q s a = some s') :
    (∃ t p, s' = s.goto t p ∧ Landing Q s p ∧ s.pc t ≠ .returned true) ∨
    (∃ t now user code last test, a = .step t now ∧ s.pc t = .verifyUpdate user code last test ∧
      s' = (s.updateRow user fun r => { r with lastUsedCounter := some test }).accept
        ⟨t, .verifyCode, user, code, test⟩) ∨
    (∃ t now user code step row, a = .step t now ∧ s.pc t = .enabledCas user code step ∧
      s.rows.get? user = some row ∧ (∀ c ∈ row.lastUsedOtpCounter, c < step) ∧
      s' = (s.updateRow user fun r => { r with lastUsedOtpCounter := some step }).accept
        ⟨t, .verifyEnabledCode, user, code, step⟩) := by
  have quiet : ∀ {t : T} {p : Pc S}, some (s.goto t p) = some s' → Landing Q s p → s.pc t ≠ .returned true →
      ∃ t p, s' = s.goto t p ∧ Landing Q s p ∧ s.pc t ≠ .returned true := fun hs hp ht =>
    ⟨_, _, (Option.some.inj hs).symm, hp, ht⟩
  cases a with
  | call t entry user code =>
    left
    cases hpc : s.pc t with
    | idle =>
      simp only [step, hpc] at h
      cases entry with
      | verifyCode => exact quiet h ⟨trivial, by simp⟩ (by simp [hpc])
      | verifyEnabledCode => exact quiet h (landing_enabledEntry user code) (by simp [hpc])
    | _ => simp [step, hpc] at h
  | fail t =>
    left
    cases hpc : s.pc t with
    | idle | returned | raised => simp [step, hpc] at h
    | _ =>
      simp only [step, hpc] at h
      exact quiet h ⟨trivial, by simp⟩ (by simp [hpc])
  | step t now =>
    have hpt := hok t
    cases hpc : s.pc t <;> simp only [step, hpc, reduceCtorEq] at h
    case verifySecret user code =>
      exact .inl (quiet h (landing_verifySecret user code now) (by simp [hpc]))
    case verifyRead user code secret current =>
      rw [hpc] at hpt
      exact .inl (quiet h (landing_verifyRead now hpt) (by simp [hpc]))
    case verifyUpdate user code last test =>
      exact .inr (.inl ⟨t, now, user, code, last, test, rfl, hpc, (Option.some.inj h).symm⟩)
    case enabledCheck user code =>
      exact .inl (quiet h (landing_enabledCheck user code) (by simp [hpc]))
    case enabledSecret user code =>
      exact .inl (quiet h (landing_enabledSecret user code now) (by simp [hpc]))
    case enabledCas user code step' =>
      rw [State.casOtpCounter] at h
      cases hrow : s.rows.get? user with
      | none =>
        simp only [hrow] at h
        exact .inl (quiet h ⟨trivial, by simp⟩ (by simp [hpc]))
      | some row =>
        simp only [hrow] at h
        split at h
        · exact .inl (quiet h ⟨trivial, by simp⟩ (by simp [hpc]))
        · rename_i hany
          refine .inr (.inr ⟨t, now, user, code, step', row, rfl, hpc, hrow, ?_, (Option.some.inj h).symm⟩)
          intro c hc
          rw [Option.mem_def.1 hc] at hany
          simpa using hany

/-! ### The log -/

/-- The calls that returned `True` are those of the log, each with a code of its step. -/
structure Recorded (Q : Service E S) (s : State E S T) : Prop where
  pcs : ∀ t, PcOk Q s (s.pc t)
  succeeded : ∀ t, s.pc t = .returned true ↔ ∃ a ∈ s.accepted, a.call = t
  valid : ∀ a ∈ s.accepted, Valid Q s a.user a.code a.step

theorem Recorded.goto (h : Recorded Q s) {t : T} {p : Pc S} (hp : Landing Q s p)
    (ht : s.pc t ≠ .returned true) : Recorded Q (s.goto t p) where
  pcs u := by
    have hsame : SameSecrets s (s.goto t p) := fun _ => rfl
    by_cases hu : u = t
    · subst hu
      simpa [State.goto] using PcOk.congr hsame hp.ok
    · simpa [State.goto, hu] using PcOk.congr hsame (h.pcs u)
  succeeded u := by
    by_cases hu : u = t
    · subst hu
      simp only [State.goto, update_self, hp.pending, false_iff]
      rw [← h.succeeded u]
      exact ht
    · simp only [State.goto, update_of_ne hu]
      exact h.succeeded u
  valid a ha := (h.valid a ha).congr fun _ => rfl

theorem Recorded.accept (h : Recorded Q s) {a : Accept T}
    (hf : ∀ r, (f r).encryptedSecret = r.encryptedSecret) (ha : Valid Q s a.user a.code a.step) :
    Recorded Q ((s.updateRow a.user f).accept a) where
  pcs u := by
    have hsame : SameSecrets s ((s.updateRow a.user f).accept a) := sameSecrets_updateRow hf
    by_cases hu : u = a.call
    · subst hu
      simp [State.accept, State.goto, PcOk]
    · simpa [State.accept, State.goto, hu] using (h.pcs u).congr hsame
  succeeded u := by
    simp only [State.accept, State.goto, updateRow_pc, updateRow_accepted, mem_append, mem_singleton]
    by_cases hu : u = a.call
    · subst hu
      simp only [update_self, true_iff]
      exact ⟨a, .inr rfl, rfl⟩
    · rw [update_of_ne hu, h.succeeded u]
      constructor
      · rintro ⟨b, hb, rfl⟩
        exact ⟨b, .inl hb, rfl⟩
      · rintro ⟨b, hb | rfl, hbu⟩
        · exact ⟨b, hb, hbu⟩
        · exact absurd hbu.symm hu
  valid b hb := by
    have hsame : SameSecrets s ((s.updateRow a.user f).accept a) := sameSecrets_updateRow hf
    simp only [State.accept, State.goto, updateRow_accepted, mem_append, mem_singleton] at hb
    rcases hb with hb | rfl
    · exact (h.valid b hb).congr hsame
    · exact ha.congr hsame

/-! ### The columns bound the log -/

/-- Each accepted step is at most what its entry point has stored since, and the steps of a user increase. -/
structure Counted (s : State E S T) : Prop where
  stored : ∀ a ∈ s.accepted, ∃ row ∈ s.rows.get? a.user, ∃ c ∈ a.entry.column row, a.step ≤ c
  increasing : s.accepted.Pairwise fun a b => a.user = b.user → a.step < b.step

theorem Counted.goto (h : Counted s) (t : T) (p : Pc S) : Counted (s.goto t p) := ⟨h.stored, h.increasing⟩

theorem Counted.accept (h : Counted s) {a : Accept T}
    (hrow : s.rows.get? a.user = some row) (hbelow : ∀ e : Entry, ∀ c ∈ e.column row, c < a.step)
    (hown : a.entry.column (f row) = some a.step) (hother : ∀ e ≠ a.entry, e.column (f row) = e.column row) :
    Counted ((s.updateRow a.user f).accept a) := by
  have hrow' : ((s.updateRow a.user f).accept a).rows.get? a.user = some (f row) := by
    have hget : (s.updateRow a.user f).rows.get? a.user = some (f row) := by simp [get?_updateRow, hrow]
    exact hget
  have hlt : ∀ b ∈ s.accepted, b.user = a.user → b.step < a.step := by
    intro b hb hu
    obtain ⟨row', hrow'', c, hc, hle⟩ := h.stored b hb
    rw [hu, hrow] at hrow''
    cases hrow''
    exact lt_of_le_of_lt hle (hbelow _ c hc)
  refine ⟨?_, ?_⟩
  · intro b hb
    simp only [State.accept, State.goto, updateRow_accepted, mem_append, mem_singleton] at hb
    rcases hb with hb | rfl
    · by_cases hu : b.user = a.user
      · rw [hu]
        refine ⟨f row, hrow', ?_⟩
        by_cases he : b.entry = a.entry
        · exact ⟨a.step, he ▸ hown, (hlt b hb hu).le⟩
        · obtain ⟨row', hrow'', c, hc, hle⟩ := h.stored b hb
          rw [hu, hrow] at hrow''
          cases hrow''
          exact ⟨c, (hother _ he).symm ▸ hc, hle⟩
      · obtain ⟨row', hrow'', hc⟩ := h.stored b hb
        refine ⟨row', ?_, hc⟩
        have hget : (s.updateRow a.user f).rows.get? b.user = some row' := by
          rw [get?_updateRow, if_neg hu]
          exact hrow''
        exact hget
    · exact ⟨f row, hrow', b.step, hown, le_rfl⟩
  · simp only [State.accept, State.goto, updateRow_accepted]
    refine pairwise_append.2 ⟨h.increasing, pairwise_singleton _ _, ?_⟩
    intro b hb c hc
    obtain rfl := mem_singleton.1 hc
    exact hlt b hb

theorem lt_of_lastCounter_lt {step : ℤ} (h : Service.lastCounter (some row) < step) :
    ∀ c ∈ row.lastUsedCounter, c < step := by
  intro c hc
  simpa [Service.lastCounter, Option.mem_def.1 hc] using h

theorem recorded_step (h : Recorded Q s) (hs : step Q s a = some s') : Recorded Q s' := by
  rcases step_cases h.pcs hs with ⟨t, p, rfl, hp, ht⟩ | ⟨t, now, user, code, last, test, rfl, hpc, rfl⟩ |
    ⟨t, now, user, code, n, row, rfl, hpc, hrow, hlt, rfl⟩
  · exact h.goto hp ht
  · have hok := h.pcs t
    rw [hpc] at hok
    exact h.accept (a := ⟨t, .verifyCode, user, code, test⟩) (fun _ => rfl) hok.2
  · have hok := h.pcs t
    rw [hpc] at hok
    exact h.accept (a := ⟨t, .verifyEnabledCode, user, code, n⟩) (fun _ => rfl) hok

theorem counted_step (hr : Recorded Q s) (h : Counted s) (hc : Undisturbed s a)
    (hs : step Q s a = some s') : Counted s' := by
  rcases step_cases hr.pcs hs with ⟨t, p, rfl, hp, ht⟩ | ⟨t, now, user, code, last, test, rfl, hpc, rfl⟩ |
    ⟨t, now, user, code, n, row, rfl, hpc, hrow, hlt, rfl⟩
  · exact h.goto t p
  · have hok := hr.pcs t
    rw [hpc] at hok
    obtain ⟨hlast, row, secret, hrow, -⟩ := hok
    simp only [Undisturbed, hpc, Pc.Undisturbed] at hc
    obtain ⟨hread, hotp⟩ := hc row hrow
    have hown : ∀ c ∈ row.lastUsedCounter, c < test := lt_of_lastCounter_lt (by rw [hread]; exact hlast)
    refine h.accept (a := ⟨t, .verifyCode, user, code, test⟩) hrow ?_ rfl ?_
    · rintro (_ | _)
      · exact hown
      · exact hotp
    · rintro (_ | _) he
      · exact absurd rfl he
      · rfl
  · simp only [Undisturbed, hpc, Pc.Undisturbed] at hc
    have hbehind : ∀ c ∈ row.lastUsedCounter, c < n := by
      rcases hc row hrow with ⟨c, hcm, hle⟩ | hbehind
      · exact absurd (hlt c hcm) (not_lt.2 hle)
      · exact hbehind
    refine h.accept (a := ⟨t, .verifyEnabledCode, user, code, n⟩) hrow ?_ rfl ?_
    · rintro (_ | _)
      · exact hbehind
      · exact hlt
    · rintro (_ | _) he
      · rfl
      · exact absurd rfl he

theorem recorded_init (h : (system Q).init s) : Recorded Q s where
  pcs t := by rw [h.1 t]; trivial
  succeeded t := by simp [h.1 t, h.2]
  valid a ha := by simp [h.2] at ha

theorem counted_init (h : (system Q).init s) : Counted s := ⟨by simp [h.2], by simp [h.2]⟩

theorem Counted.oneTime (h : Counted s) : OneTime s where
  once a ha b hb hu hs := by
    by_contra hab
    rcases (pairwise_iff_getElem.1 h.increasing) with hpair
    obtain ⟨i, hi, rfl⟩ := getElem_of_mem ha
    obtain ⟨j, hj, rfl⟩ := getElem_of_mem hb
    rcases lt_trichotomy i j with hij | rfl | hij
    · exact (hpair i j hi hj hij hu).ne hs
    · exact hab rfl
    · exact (hpair j i hj hi hij hu.symm).ne hs.symm
  increasing := h.increasing

/-- In every interleaving whose accepting writes are all `Undisturbed`, each code is accepted once and
no later acceptance is for an earlier step; the calls that returned `True` are those of the log, each
with the code of its step. -/
theorem code_accepted_once (Q : Service E S) (s : State E S T) (h : (system Q).Reachable Undisturbed s) :
    OneTime s ∧ (∀ t, s.pc t = .returned true ↔ ∃ a ∈ s.accepted, a.call = t) ∧
      ∀ a ∈ s.accepted, Valid Q s a.user a.code a.step := by
  have hinv : Recorded Q s ∧ Counted s := h.invariant (I := fun s => Recorded Q s ∧ Counted s)
    (fun _ hi => ⟨recorded_init hi, counted_init hi⟩)
    (fun _ _ _ hI hc hs => ⟨recorded_step hI.1 hs, counted_step hI.1 hI.2 hc hs⟩)
  exact ⟨hinv.2.oneTime, hinv.1.succeeded, hinv.1.valid⟩

/-! ### Two runs of one user -/

def countingService : Service Unit Unit where
  decrypt := some
  codeAt _ step := if step < 0 then none else
    let digits := natStr step.toNat
    some (List.replicate (totpDigits - digits.length) '0' ++ digits)
  normalize := id
  unicode := asciiOnly
  windowTolerance := 1

def enrolled : State Unit Unit ℕ where
  rows := Dict.empty.set ['u'] ⟨(), true, none, none⟩
  pc _ := .idle
  accepted := []

def code100 : Str := ['0', '0', '0', '1', '0', '0']
def code101 : Str := ['0', '0', '0', '1', '0', '1']

/-- Both calls read `last_used_counter` before either writes it. -/
def racingCalls : List (Act ℕ) :=
  [.call 0 .verifyCode ['u'] code100, .call 1 .verifyCode ['u'] code100, .step 0 3000, .step 1 3000,
    .step 0 3000, .step 1 3001, .step 0 3001, .step 1 3001]

def loginThenElevate : List (Act ℕ) :=
  [.call 0 .verifyCode ['u'] code100, .step 0 3000, .step 0 3000, .step 0 3000,
    .call 1 .verifyEnabledCode ['u'] code100, .step 1 3005, .step 1 3005, .step 1 3005]

def separateCodes : List (Act ℕ) :=
  [.call 0 .verifyCode ['u'] code100, .step 0 3000, .step 0 3000, .step 0 3000,
    .call 1 .verifyCode ['u'] code100, .step 1 3005, .step 1 3005,
    .call 2 .verifyEnabledCode ['u'] code101, .step 2 3030, .step 2 3030, .step 2 3030]

theorem enrolled_init : (system countingService).init enrolled := ⟨fun _ => rfl, rfl⟩

theorem code_accepted_once_separate : ∃ s, (system countingService).Reachable Undisturbed s ∧
    s.accepted = [⟨0, .verifyCode, ['u'], code100, 100⟩, ⟨2, .verifyEnabledCode, ['u'], code101, 101⟩] ∧
    OneTime s := by
  exact exists_of_run_and enrolled separateCodes enrolled_init (by decide +kernel) fun s hs _ =>
    (code_accepted_once countingService s hs).1

/-- Two logins, or a login and an elevation, are accepted with the code of one step. -/
theorem code_accepted_twice :
    (∃ s, (system countingService).Reachable Any s ∧ s.accepted =
      [⟨0, .verifyCode, ['u'], code100, 100⟩, ⟨1, .verifyCode, ['u'], code100, 100⟩] ∧ ¬ OneTime s) ∧
    ∃ s, (system countingService).Reachable Any s ∧ s.accepted =
      [⟨0, .verifyCode, ['u'], code100, 100⟩, ⟨1, .verifyEnabledCode, ['u'], code100, 100⟩] ∧ ¬ OneTime s := by
  constructor
  · exact exists_of_run_and enrolled racingCalls enrolled_init (by decide +kernel) fun s _ hacc =>
      not_oneTime_of_accepted hacc (by decide)
  · exact exists_of_run_and enrolled loginThenElevate enrolled_init (by decide +kernel) fun s _ hacc =>
      not_oneTime_of_accepted hacc (by decide)

end CodeIndexer.Totp
