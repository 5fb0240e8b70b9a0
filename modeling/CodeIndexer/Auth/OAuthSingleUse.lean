import CodeIndexer.Auth.OAuthTokens
import CodeIndexer.Lib.ReadCommitted

/-!
# Concurrent exchanges and refreshes of OAuth tokens

The statements of `exchange_code_for_token` and `refresh_access_token`, with any number of calls open at
once. In PostgreSQL mode (`server/storage/postgres/oauth_backend.py`) a call is a transaction at READ
COMMITTED; in SQLite mode (`execute_atomic`) its transaction is exclusive, so no statement of another call
runs before it ends. A call returns when it commits. Its first clock reading dates the new row.

Both transactions check and then write without looking at how many rows they wrote, and `client_id` is not
compared with the row's in a refresh. `Orderly` excludes both.
-/

namespace CodeIndexer.OAuth.Concurrent

open PyText ReadCommitted TransitionSystem List Dict

inductive Storage
  | sqlite
  | postgres
deriving DecidableEq

structure Config where
  storage : Storage
  pkce : Str → Str

/-- The statement a call runs next, with its local variables; `row` is what its `SELECT` has found. -/
inductive Pc
  | selectCode (x : Exchange) (now : ℚ)
  | markUsed (x : Exchange) (now : ℚ) (row : Code)
  | insertToken (x : Exchange) (now : ℚ) (row : Code)
  | commitExchange (x : Exchange) (now : ℚ) (row : Code)
  | selectRefresh (r : Refresh) (now : ℚ)
  | update (r : Refresh) (now : ℚ) (row : Str × Token)
  | commitRefresh (r : Refresh) (now : ℚ) (row : Str × Token)
deriving DecidableEq

def Pc.inTransaction : Pc → Bool
  | .selectCode _ _ => false
  | .selectRefresh _ _ => false
  | _ => true

structure Grant where
  refreshToken : Str
  clientId : Str
deriving DecidableEq

/-- `exchanged`, `redeemed` and `issued` log the calls that return: the code or the refresh token they were
given, and the refresh token they hand out. `refused` has the access tokens that `validate_token` does not
accept at the moment they are returned. -/
structure Server where
  clock : ℚ
  oauthCodes : Table ℕ Str Code
  oauthTokens : Table ℕ Str Token
  calls : Dict ℕ Pc
  drawn : List Str
  exchanged : List Str
  redeemed : List Grant
  issued : List Grant
  refused : List Str

inductive Act
  | tick (now : ℚ)
  | generateAuthorizationCode (code : Str) (row : Code)
  | exchangeCodeForToken (call : ℕ) (x : Exchange)
  | refreshAccessToken (call : ℕ) (r : Refresh)
  | statement (call : ℕ)
deriving DecidableEq

namespace Server

def store (s : Server) : Store := ⟨s.oauthCodes.committed, s.oauthTokens.committed⟩

def Draws (s : Server) (strings : List Str) : Prop := strings.Nodup ∧ ∀ x ∈ strings, x ∉ s.drawn

instance (s : Server) (strings : List Str) : Decidable (s.Draws strings) := inferInstanceAs (Decidable (_ ∧ _))

def goto (s : Server) (i : ℕ) (pc : Pc) : Server := { s with calls := s.calls.set i pc }

def finish (s : Server) (i : ℕ) : Server := { s with calls := s.calls.erase i }

/-- The access token of a call that has just committed, if `validate_token` does not accept it. -/
def refusal (s : Server) (accessToken : Str) : List Str :=
  if (s.store.validateToken s.clock accessToken).isSome then [] else [accessToken]

def free (s : Server) (storage : Storage) : Bool :=
  match storage with
  | .postgres => true
  | .sqlite => s.calls.items.all fun e => !e.2.inTransaction

def statement (cfg : Config) (s : Server) (i : ℕ) : Pc → Option Server
  | .selectCode x now =>
    if s.free cfg.storage then
      match checkCode cfg.pkce s.clock x.codeVerifier (selectCode (s.oauthCodes.visible i) x.code x.clientId) with
      | .error _ => some (s.finish i)
      | .ok row => some (s.goto i (.markUsed x now row))
    else none
  | .markUsed x now row =>
    (s.oauthCodes.modify i x.code fun row' => some { row' with used := true }).map fun T =>
      { s with oauthCodes := T }.goto i (.insertToken x now row)
  | .insertToken x now row =>
    (s.oauthTokens.put i x.tokenId (row.issue x now)).map fun T =>
      { s with oauthTokens := T }.goto i (.commitExchange x now row)
  | .commitExchange x _ _ =>
    let committed : Server := { s with oauthCodes := s.oauthCodes.commit i, oauthTokens := s.oauthTokens.commit i }
    some (({ committed with
      exchanged := s.exchanged ++ [x.code]
      issued := s.issued ++ [⟨x.refreshToken, x.clientId⟩]
      refused := s.refused ++ committed.refusal x.accessToken } : Server).finish i)
  | .selectRefresh r now =>
    if s.free cfg.storage then
      match (s.oauthTokens.visible i).items.find? fun e => decide (e.2.refreshToken = some r.refreshToken) with
      | none => some (s.finish i)
      | some row => some (s.goto i (.update r now row))
    else none
  | .update r now row =>
    (s.oauthTokens.updateWhere i (fun row' => decide (row'.refreshToken = some r.refreshToken))
      fun row' => row'.refreshed r now).map fun T => { s with oauthTokens := T }.goto i (.commitRefresh r now row)
  | .commitRefresh r _ _ =>
    let committed : Server := { s with oauthTokens := s.oauthTokens.commit i }
    some (({ committed with
      redeemed := s.redeemed ++ [⟨r.refreshToken, r.clientId⟩]
      issued := s.issued ++ [⟨r.newRefreshToken, r.clientId⟩]
      refused := s.refused ++ committed.refusal r.newAccessToken } : Server).finish i)

def step (cfg : Config) (s : Server) : Act → Option Server
  | .tick now => if s.clock ≤ now then some { s with clock := now } else none
  | .generateAuthorizationCode code row =>
    if s.Draws [code] then
      some { s with
        oauthCodes := { s.oauthCodes with
          committed := s.oauthCodes.committed.set code { row with expiresAt := s.clock + codeLifetime, used := false } }
        drawn := s.drawn ++ [code] }
    else none
  | .exchangeCodeForToken i x =>
    if (s.calls.get? i).isNone ∧ s.Draws [x.tokenId, x.accessToken, x.refreshToken] then
      some ({ s with drawn := s.drawn ++ [x.tokenId, x.accessToken, x.refreshToken] }.goto i (.selectCode x s.clock))
    else none
  | .refreshAccessToken i r =>
    if (s.calls.get? i).isNone ∧ s.Draws [r.newAccessToken, r.newRefreshToken] then
      some ({ s with drawn := s.drawn ++ [r.newAccessToken, r.newRefreshToken] }.goto i (.selectRefresh r s.clock))
    else none
  | .statement i => (s.calls.get? i).bind (s.statement cfg i)

def fresh (now : ℚ) : Server := ⟨now, .empty, .empty, Dict.empty, [], [], [], [], []⟩

/-- Single use of codes and refresh tokens, client binding, and returned tokens that are accepted. -/
structure SingleUse (s : Server) : Prop where
  codes : ∀ code, s.exchanged.count code ≤ 1
  refreshTokens : ∀ refreshToken, (s.redeemed.map Grant.refreshToken).count refreshToken ≤ 1
  clients : ∀ g ∈ s.redeemed, g ∈ s.issued ∧ ∀ g' ∈ s.issued, g'.refreshToken = g.refreshToken →
    g'.clientId = g.clientId
  accepted : s.refused = []

end Server

def system (cfg : Config) : TransitionSystem Server Act where
  init s := ∃ now, s = .fresh now
  step := Server.step cfg

theorem fresh_isInit (cfg : Config) (now : ℚ) : (system cfg).init (.fresh now) := ⟨now, rfl⟩

def Pc.codeRead : Pc → Option (Exchange × Code)
  | .markUsed x _ row => some (x, row)
  | .insertToken x _ row => some (x, row)
  | .commitExchange x _ row => some (x, row)
  | _ => none

/-- The refresh that has read the row of a refresh token and not yet committed. -/
def Pc.tokenRead : Pc → Option (Refresh × Str × Token)
  | .update r _ row => some (r, row)
  | .commitRefresh r _ row => some (r, row)
  | _ => none

def Pc.holdsCode (code : Str) (pc : Pc) : Bool := pc.codeRead.any fun x => decide (x.1.code = code)

def Pc.holdsRefresh (refreshToken : Str) (pc : Pc) : Bool :=
  pc.tokenRead.any fun x => decide (x.1.refreshToken = refreshToken)

namespace Server

def codeHolders (s : Server) (code : Str) : ℕ := s.calls.items.countP fun e => e.2.holdsCode code

def refreshHolders (s : Server) (refreshToken : Str) : ℕ := s.calls.items.countP fun e => e.2.holdsRefresh refreshToken

/-- What a statement must find: in PostgreSQL mode nobody else holds the code or the refresh token that it
selects, the client of a refresh is that of the row, and a call ends within the lifetime of an access
token. -/
def orderly (cfg : Config) (s : Server) : Pc → Bool
  | .selectCode x _ => cfg.storage = .sqlite ∨ s.codeHolders x.code = 0
  | .selectRefresh r _ =>
    (cfg.storage = .sqlite ∨ s.refreshHolders r.refreshToken = 0) ∧
      ∀ e ∈ s.oauthTokens.committed.items, e.2.refreshToken = some r.refreshToken → e.2.clientId = r.clientId
  | .commitExchange _ now _ => s.clock ≤ now + accessTokenLifetime
  | .commitRefresh _ now _ => s.clock ≤ now + accessTokenLifetime
  | _ => true

end Server

def Orderly (cfg : Config) (s : Server) : Act → Prop
  | .statement i => (s.calls.get? i).all (s.orderly cfg) = true
  | _ => True

instance (cfg : Config) (s : Server) : (a : Act) → Decidable (Orderly cfg s a)
  | .statement i => inferInstanceAs (Decidable ((s.calls.get? i).all (s.orderly cfg) = true))
  | .tick _ | .generateAuthorizationCode .. | .exchangeCodeForToken .. | .refreshAccessToken .. => .isTrue trivial

/-! ### What an open call relies on -/

def Pc.owns : Pc → List Str
  | .selectCode x _ => [x.tokenId, x.accessToken, x.refreshToken]
  | .markUsed x _ _ => [x.tokenId, x.accessToken, x.refreshToken]
  | .insertToken x _ _ => [x.tokenId, x.accessToken, x.refreshToken]
  | .commitExchange x _ _ => [x.tokenId, x.accessToken, x.refreshToken]
  | .selectRefresh r _ => [r.newAccessToken, r.newRefreshToken]
  | .update r _ _ => [r.newAccessToken, r.newRefreshToken]
  | .commitRefresh r _ _ => [r.newAccessToken, r.newRefreshToken]

def Pc.codeWrites (i : ℕ) : Pc → List (Write ℕ Str Code)
  | .insertToken x _ row => [⟨i, x.code, some { row with used := true }⟩]
  | .commitExchange x _ row => [⟨i, x.code, some { row with used := true }⟩]
  | _ => []

def Pc.tokenWrites (i : ℕ) : Pc → List (Write ℕ Str Token)
  | .commitExchange x now row => [⟨i, x.tokenId, some (row.issue x now)⟩]
  | .commitRefresh r now row => [⟨i, row.1, some (row.2.refreshed r now)⟩]
  | _ => []

structure CallOk (s : Server) (i : ℕ) (pc : Pc) : Prop where
  codeWrites : s.oauthCodes.own i = pc.codeWrites i
  tokenWrites : s.oauthTokens.own i = pc.tokenWrites i
  code : ∀ x row, pc.codeRead = some (x, row) →
    s.oauthCodes.committed.get? x.code = some row ∧ row.used = false ∧ row.clientId = x.clientId
  token : ∀ r k row, pc.tokenRead = some (r, k, row) → s.oauthTokens.committed.get? k = some row ∧
    row.refreshToken = some r.refreshToken ∧ row.clientId = r.clientId

/-- The strings of a committed row are drawn and nobody's any more, no two rows share one, and the row's
refresh token was issued to its client and is not redeemed. -/
structure TokensOk (s : Server) : Prop where
  drawn : ∀ e ∈ s.oauthTokens.committed.items,
    e.1 ∈ s.drawn ∧ e.2.accessToken ∈ s.drawn ∧ ∀ t, e.2.refreshToken = some t → t ∈ s.drawn
  free : ∀ e ∈ s.oauthTokens.committed.items, ∀ i pc, s.calls.get? i = some pc →
    e.1 ∉ pc.owns ∧ e.2.accessToken ∉ pc.owns
  refresh : ∀ e ∈ s.oauthTokens.committed.items, ∀ e' ∈ s.oauthTokens.committed.items, ∀ t,
    e.2.refreshToken = some t → e'.2.refreshToken = some t → e = e'
  live : ∀ e ∈ s.oauthTokens.committed.items, ∀ t, e.2.refreshToken = some t →
    (s.redeemed.map Grant.refreshToken).count t = 0 ∧ ⟨t, e.2.clientId⟩ ∈ s.issued

structure IssuedOk (s : Server) : Prop where
  drawn : ∀ g ∈ s.issued, g.refreshToken ∈ s.drawn
  free : ∀ g ∈ s.issued, ∀ i pc, s.calls.get? i = some pc → g.refreshToken ∉ pc.owns
  unique : ∀ g ∈ s.issued, ∀ g' ∈ s.issued, g.refreshToken = g'.refreshToken → g = g'
  redeemed : ∀ g ∈ s.redeemed, g ∈ s.issued

structure Inv (s : Server) : Prop where
  codes : ∀ code, s.exchanged.count code + s.codeHolders code ≤ 1
  refreshTokens : ∀ t, (s.redeemed.map Grant.refreshToken).count t + s.refreshHolders t ≤ 1
  unused : ∀ code row, s.oauthCodes.committed.get? code = some row → row.used = false → s.exchanged.count code = 0
  known : ∀ code ∈ s.exchanged, code ∈ s.drawn
  rows : ∀ code row, s.oauthCodes.committed.get? code = some row → code ∈ s.drawn
  calls : ∀ i pc, s.calls.get? i = some pc → CallOk s i pc
  writers : (∀ w ∈ s.oauthCodes.writes, (s.calls.get? w.txn).isSome) ∧
    ∀ w ∈ s.oauthTokens.writes, (s.calls.get? w.txn).isSome
  owned : ∀ i pc, s.calls.get? i = some pc → pc.owns.Nodup ∧ ∀ y ∈ pc.owns, y ∈ s.drawn
  apart : ∀ i j pc pc' y, s.calls.get? i = some pc → s.calls.get? j = some pc' → y ∈ pc.owns → y ∈ pc'.owns → i = j
  tokens : TokensOk s
  issued : IssuedOk s
  accepted : s.refused = []

theorem Inv.singleUse {s : Server} (h : Inv s) : s.SingleUse where
  codes := fun code => (Nat.le_add_right _ _).trans (h.codes code)
  refreshTokens := fun t => (Nat.le_add_right _ _).trans (h.refreshTokens t)
  clients := fun g hg => ⟨h.issued.redeemed g hg, fun g' hg' heq =>
    congrArg Grant.clientId (h.issued.unique g' hg' g (h.issued.redeemed g hg) heq)⟩
  accepted := h.accepted

section Steps

variable {cfg : Config} {s s' : Server} {i j : ℕ} {pc pc' : Pc}

variable {next : Option Pc} {code k : Str} {row : Code} {x : Exchange} {r : Refresh} {now : ℚ}

theorem codeHolders_update (hpc : s.calls.get? i = some pc)
    (hcalls : s'.calls = s.calls.update i next) (code : Str) :
    s'.codeHolders code + (if pc.holdsCode code then 1 else 0) =
      s.codeHolders code + if next.any (Pc.holdsCode code) then 1 else 0 := by
  rw [Server.codeHolders, hcalls]
  exact countP_items_update hpc next (Pc.holdsCode code)

theorem refreshHolders_update (hpc : s.calls.get? i = some pc)
    (hcalls : s'.calls = s.calls.update i next) (t : Str) :
    s'.refreshHolders t + (if pc.holdsRefresh t then 1 else 0) =
      s.refreshHolders t + if next.any (Pc.holdsRefresh t) then 1 else 0 := by
  rw [Server.refreshHolders, hcalls]
  exact countP_items_update hpc next (Pc.holdsRefresh t)

theorem Pc.holdsCode_iff : pc.holdsCode code = true ↔ ∃ x row, pc.codeRead = some (x, row) ∧ x.code = code := by
  unfold holdsCode
  rw [Option.any_eq_true]
  constructor
  · rintro ⟨⟨x, row⟩, hread, heq⟩
    exact ⟨x, row, hread, of_decide_eq_true heq⟩
  · rintro ⟨x, row, hread, heq⟩
    exact ⟨(x, row), hread, decide_eq_true heq⟩

theorem Pc.holdsRefresh_iff {t : Str} :
    pc.holdsRefresh t = true ↔ ∃ r k row, pc.tokenRead = some (r, k, row) ∧ r.refreshToken = t := by
  unfold holdsRefresh
  rw [Option.any_eq_true]
  constructor
  · rintro ⟨⟨r, k, row⟩, hread, heq⟩
    exact ⟨r, k, row, hread, of_decide_eq_true heq⟩
  · rintro ⟨r, k, row, hread, heq⟩
    exact ⟨(r, k, row), hread, decide_eq_true heq⟩

theorem Inv.code_holder (h : Inv s) (hi : s.calls.get? i = some pc) (hj : s.calls.get? j = some pc') {x' : Exchange}
    {row' : Code} (hread : pc.codeRead = some (x, row)) (hread' : pc'.codeRead = some (x', row'))
    (heq : x'.code = x.code) : i = j :=
  eq_of_countP_le_one ((Nat.le_add_left _ _).trans (h.codes x.code)) hi (Pc.holdsCode_iff.2 ⟨x, row, hread, rfl⟩) hj
    (Pc.holdsCode_iff.2 ⟨x', row', hread', heq⟩)

theorem Inv.token_holder (h : Inv s) (hi : s.calls.get? i = some pc) (hj : s.calls.get? j = some pc') {r' : Refresh}
    {k' : Str} {row row' : Token} (hread : pc.tokenRead = some (r, k, row))
    (hread' : pc'.tokenRead = some (r', k', row'))
    (heq : r'.refreshToken = r.refreshToken) : i = j :=
  eq_of_countP_le_one ((Nat.le_add_left _ _).trans (h.refreshTokens r.refreshToken)) hi
    (Pc.holdsRefresh_iff.2 ⟨r, k, row, hread, rfl⟩) hj (Pc.holdsRefresh_iff.2 ⟨r', k', row', hread', heq⟩)

theorem txn_of_mem_writes (next : Option Pc) :
    (∀ w ∈ next.elim [] (Pc.codeWrites i), w.txn = i) ∧ ∀ w ∈ next.elim [] (Pc.tokenWrites i), w.txn = i := by
  cases next with
  | none => simp
  | some pc => cases pc <;> simp [Pc.codeWrites, Pc.tokenWrites]

section Writers

variable {ρ : Type} {T : Table ℕ Str ρ} {calls : Dict ℕ Pc}

theorem isSome_of_append {next : Option Pc} {ws : List (Write ℕ Str ρ)}
    (hend : next = none → T.own i ++ ws = []) (hws : ∀ w ∈ ws, w.txn = i)
    (hold : ∀ w ∈ T.writes, (calls.get? w.txn).isSome) :
    ∀ w ∈ T.writes ++ ws, ((calls.update i next).get? w.txn).isSome := by
  intro w hw
  rw [get?_update]
  split
  · rename_i htxn
    cases next with
    | none =>
      obtain ⟨hown, rfl⟩ := append_eq_nil_iff.1 (hend rfl)
      rw [append_nil] at hw
      exact absurd htxn (Table.own_eq_nil_iff.1 hown w hw)
    | some pc' => rfl
  · rename_i htxn
    rcases mem_append.1 hw with hw | hw
    · exact hold w hw
    · exact absurd (hws w hw) htxn

theorem isSome_of_commit (hold : ∀ w ∈ T.writes, (calls.get? w.txn).isSome) :
    ∀ w ∈ (T.commit i).writes, ((calls.erase i).get? w.txn).isSome := by
  intro w hw
  obtain ⟨hw, htxn⟩ := Table.mem_commit_writes.1 hw
  rw [get?_erase_of_ne _ htxn]
  exact hold w hw

theorem isSome_of_erase (hown : T.own i = [])
    (hold : ∀ w ∈ T.writes, (calls.get? w.txn).isSome) : ∀ w ∈ T.writes, ((calls.erase i).get? w.txn).isSome := by
  intro w hw
  rw [get?_erase_of_ne _ (Table.own_eq_nil_iff.1 hown w hw)]
  exact hold w hw

end Writers

/-- What is used or held at most once stays so if a call only takes what nobody has used or holds. -/
theorem weight_le_one {used held held' : ℕ} {p q : Bool}
    (hcount : held' + (if p then 1 else 0) = held + if q then 1 else 0) (hweight : used + held ≤ 1)
    (hq : q = true → p = true ∨ used + held = 0) : used + held' ≤ 1 := by
  cases hq' : q with
  | false =>
    rw [hq', if_neg Bool.false_ne_true] at hcount
    omega
  | true =>
    rw [hq', if_pos rfl] at hcount
    rcases hq hq' with hp | hfree
    · rw [if_pos hp] at hcount
      omega
    · omega

theorem CallOk.frame (h : CallOk s i pc) (hcw : s'.oauthCodes.own i = s.oauthCodes.own i)
    (htw : s'.oauthTokens.own i = s.oauthTokens.own i)
    (hcode : ∀ x row, pc.codeRead = some (x, row) →
      s'.oauthCodes.committed.get? x.code = s.oauthCodes.committed.get? x.code)
    (htoken : ∀ r k row, pc.tokenRead = some (r, k, row) →
      s'.oauthTokens.committed.get? k = s.oauthTokens.committed.get? k) : CallOk s' i pc where
  codeWrites := hcw.trans h.codeWrites
  tokenWrites := htw.trans h.tokenWrites
  code x row hread := hcode x row hread ▸ h.code x row hread
  token r k row hread := htoken r k row hread ▸ h.token r k row hread

theorem Inv.owners (h : Inv s) (hdrawn : s'.drawn = s.drawn)
    (howns : ∀ j pc', s'.calls.get? j = some pc' → ∃ pc'', s.calls.get? j = some pc'' ∧ pc'.owns = pc''.owns) :
    (∀ j pc', s'.calls.get? j = some pc' → pc'.owns.Nodup ∧ ∀ y ∈ pc'.owns, y ∈ s'.drawn) ∧
    ∀ j₁ j₂ pc₁ pc₂ y, s'.calls.get? j₁ = some pc₁ → s'.calls.get? j₂ = some pc₂ → y ∈ pc₁.owns →
      y ∈ pc₂.owns → j₁ = j₂ := by
  constructor
  · intro j pc' hj
    obtain ⟨pc'', hj', heq⟩ := howns j pc' hj
    rw [heq, hdrawn]
    exact h.owned j pc'' hj'
  · intro j₁ j₂ pc₁ pc₂ y h₁ h₂ hy₁ hy₂
    obtain ⟨pc₁', h₁', heq₁⟩ := howns j₁ pc₁ h₁
    obtain ⟨pc₂', h₂', heq₂⟩ := howns j₂ pc₂ h₂
    exact h.apart j₁ j₂ _ _ y h₁' h₂' (heq₁ ▸ hy₁) (heq₂ ▸ hy₂)

/-- A statement that commits nothing. The call keeps what it has read, or reads what nobody holds. -/
theorem Inv.quiet (h : Inv s) (hpc : s.calls.get? i = some pc) (next : Option Pc) (wc : List (Write ℕ Str Code))
    (wt : List (Write ℕ Str Token))
    (hs : s' = { s with
      oauthCodes := { s.oauthCodes with writes := s.oauthCodes.writes ++ wc }
      oauthTokens := { s.oauthTokens with writes := s.oauthTokens.writes ++ wt }
      calls := s.calls.update i next })
    (hwrites : pc.codeWrites i ++ wc = next.elim [] (Pc.codeWrites i) ∧
      pc.tokenWrites i ++ wt = next.elim [] (Pc.tokenWrites i))
    (hnext : ∀ pc', next = some pc' → pc'.owns = pc.owns)
    (hcode : ∀ x row, next.bind Pc.codeRead = some (x, row) → pc.codeRead = some (x, row) ∨
      (s.oauthCodes.committed.get? x.code = some row ∧ row.used = false ∧ row.clientId = x.clientId) ∧
        s.codeHolders x.code = 0)
    (htoken : ∀ r k row, next.bind Pc.tokenRead = some (r, k, row) → pc.tokenRead = some (r, k, row) ∨
      (s.oauthTokens.committed.get? k = some row ∧ row.refreshToken = some r.refreshToken ∧ row.clientId = r.clientId) ∧
        s.refreshHolders r.refreshToken = 0) : Inv s' := by
  have hcalls : s'.calls = s.calls.update i next := congrArg Server.calls hs
  have hok := h.calls i pc hpc
  rw [← hok.codeWrites, ← hok.tokenWrites] at hwrites
  have hwc : ∀ w ∈ wc, w.txn = i := fun w hw => (txn_of_mem_writes next).1 w (hwrites.1 ▸ mem_append_right _ hw)
  have hwt : ∀ w ∈ wt, w.txn = i := fun w hw => (txn_of_mem_writes next).2 w (hwrites.2 ▸ mem_append_right _ hw)
  have hget : ∀ j pc', s'.calls.get? j = some pc' →
      (j = i ∧ next = some pc') ∨ (j ≠ i ∧ s.calls.get? j = some pc') := by
    intro j pc' hj
    rw [hcalls] at hj
    exact get?_update_eq_some.1 hj
  have howns : ∀ j pc', s'.calls.get? j = some pc' → ∃ pc'', s.calls.get? j = some pc'' ∧ pc'.owns = pc''.owns := by
    intro j pc' hj
    rcases hget j pc' hj with ⟨rfl, hnext'⟩ | ⟨-, hj⟩
    · exact ⟨pc, hpc, hnext pc' hnext'⟩
    · exact ⟨pc', hj, rfl⟩
  have hcodeWrites : ∀ w ∈ s.oauthCodes.writes ++ wc, (s'.calls.get? w.txn).isSome := by
    rw [hcalls]
    exact isSome_of_append (fun hnone => by rw [hwrites.1, hnone]; rfl) hwc h.writers.1
  have htokenWrites : ∀ w ∈ s.oauthTokens.writes ++ wt, (s'.calls.get? w.txn).isSome := by
    rw [hcalls]
    exact isSome_of_append (fun hnone => by rw [hwrites.2, hnone]; rfl) hwt h.writers.2
  have hcodes : ∀ code, s.exchanged.count code + s'.codeHolders code ≤ 1 := by
    intro code
    refine weight_le_one (codeHolders_update hpc hcalls code) (h.codes code) fun hholds => ?_
    obtain ⟨pc', hnext', hholds'⟩ := (Option.any_eq_true _ _).1 hholds
    obtain ⟨x, row, hread, rfl⟩ := Pc.holdsCode_iff.1 hholds'
    rcases hcode x row (by rw [hnext']; exact hread) with hread' | ⟨⟨hrow, hused, -⟩, hfree⟩
    · exact .inl (Pc.holdsCode_iff.2 ⟨x, row, hread', rfl⟩)
    · exact .inr (Nat.add_eq_zero_iff.2 ⟨h.unused _ row hrow hused, hfree⟩)
  have hrefreshTokens : ∀ t, (s.redeemed.map Grant.refreshToken).count t + s'.refreshHolders t ≤ 1 := by
    intro t
    refine weight_le_one (refreshHolders_update hpc hcalls t) (h.refreshTokens t) fun hholds => ?_
    obtain ⟨pc', hnext', hholds'⟩ := (Option.any_eq_true _ _).1 hholds
    obtain ⟨r, k, row, hread, rfl⟩ := Pc.holdsRefresh_iff.1 hholds'
    rcases htoken r k row (by rw [hnext']; exact hread) with hread' | ⟨⟨hrow, hrefresh, -⟩, hfree⟩
    · exact .inl (Pc.holdsRefresh_iff.2 ⟨r, k, row, hread', rfl⟩)
    · exact .inr (Nat.add_eq_zero_iff.2 ⟨(h.tokens.live _ (mem_items_iff.2 hrow) _ hrefresh).1, hfree⟩)
  obtain ⟨howned, hapart⟩ := h.owners (by rw [hs]) howns
  subst hs
  refine ⟨hcodes, hrefreshTokens, h.unused, h.known, h.rows, ?_, ⟨hcodeWrites, htokenWrites⟩, howned, hapart,
    ⟨h.tokens.drawn, ?_, h.tokens.refresh, h.tokens.live⟩, ⟨h.issued.drawn, ?_, h.issued.unique, h.issued.redeemed⟩,
    h.accepted⟩
  · intro j pc' hj
    rcases hget j pc' hj with ⟨rfl, rfl⟩ | ⟨hne, hj⟩
    · refine ⟨?_, ?_, ?_, ?_⟩
      · rw [Table.own_append_self _ hwc]
        exact hwrites.1
      · rw [Table.own_append_self _ hwt]
        exact hwrites.2
      · exact fun x row hread => (hcode x row hread).elim (hok.code x row) And.left
      · exact fun r k row hread => (htoken r k row hread).elim (hok.token r k row) And.left
    · exact (h.calls j pc' hj).frame (Table.own_append_of_ne _ fun w hw htxn => hne (htxn.symm.trans (hwc w hw)))
        (Table.own_append_of_ne _ fun w hw htxn => hne (htxn.symm.trans (hwt w hw)))
        (fun _ _ _ => rfl) fun _ _ _ _ => rfl
  · intro e he j pc' hj
    obtain ⟨pc'', hj', heq⟩ := howns j pc' hj
    rw [heq]
    exact h.tokens.free e he j pc'' hj'
  · intro g hg j pc' hj
    obtain ⟨pc'', hj', heq⟩ := howns j pc' hj
    rw [heq]
    exact h.issued.free g hg j pc'' hj'

structure RowCommitted (s s' : Server) (i : ℕ) (pc : Pc) (k t : Str) (b : Token) (redeemed : List Grant) : Prop where
  call : s.calls.get? i = some pc
  key : k ∈ s.drawn ∧ ∀ j pc', j ≠ i → s.calls.get? j = some pc' → k ∉ pc'.owns
  access : b.accessToken ∈ pc.owns
  refresh : b.refreshToken = some t
  owned : t ∈ pc.owns
  grants : ∀ g ∈ redeemed, g ∈ s.issued ∧ ∀ e ∈ s.oauthTokens.committed.items, e.1 ≠ k →
    e.2.refreshToken ≠ some g.refreshToken
  committed : s'.oauthTokens.committed = s.oauthTokens.committed.set k b
  calls : s'.calls = s.calls.erase i
  drawn : s'.drawn = s.drawn
  issued : s'.issued = s.issued ++ [⟨t, b.clientId⟩]
  redeemed : s'.redeemed = s.redeemed ++ redeemed

namespace RowCommitted

variable {k t : Str} {b : Token} {redeemed : List Grant} (hc : RowCommitted s s' i pc k t b redeemed)
include hc

theorem others (hj : s'.calls.get? j = some pc') : j ≠ i ∧ s.calls.get? j = some pc' := by
  rw [hc.calls] at hj
  exact get?_erase_eq_some.1 hj

theorem apart (h : Inv s) (hj : s'.calls.get? j = some pc') {y : Str} (hy : y ∈ pc.owns) : y ∉ pc'.owns := by
  intro hy'
  obtain ⟨hne, hj⟩ := hc.others hj
  exact hne (h.apart j i pc' pc y hj hc.call hy' hy)

theorem new (h : Inv s) {g : Grant} (hg : g ∈ s.issued) : g.refreshToken ≠ t :=
  fun heq => h.issued.free g hg i pc hc.call (heq ▸ hc.owned)

theorem mem_committed {e : Str × Token} :
    e ∈ s'.oauthTokens.committed.items ↔ e = (k, b) ∨ (e.1 ≠ k ∧ e ∈ s.oauthTokens.committed.items) := by
  rw [hc.committed]
  exact mem_items_set

theorem tokensOk (h : Inv s) : TokensOk s' := by
  have hown : ∀ y ∈ pc.owns, y ∈ s.drawn := (h.owned i pc hc.call).2
  refine ⟨?_, ?_, ?_, ?_⟩
  · intro e he
    rw [hc.drawn]
    rcases hc.mem_committed.1 he with rfl | ⟨-, he⟩
    · refine ⟨hc.key.1, hown _ hc.access, fun t' ht' => ?_⟩
      rw [hc.refresh] at ht'
      exact Option.some.inj ht' ▸ hown _ hc.owned
    · exact h.tokens.drawn e he
  · intro e he j pc' hj
    obtain ⟨hne, hj'⟩ := hc.others hj
    rcases hc.mem_committed.1 he with rfl | ⟨-, he⟩
    · exact ⟨hc.key.2 j pc' hne hj', hc.apart h hj hc.access⟩
    · exact h.tokens.free e he j pc' hj'
  · intro e he e' he' t' ht₁ ht₂
    rcases hc.mem_committed.1 he with rfl | ⟨-, he⟩ <;> rcases hc.mem_committed.1 he' with rfl | ⟨-, he'⟩
    · rfl
    · rw [hc.refresh] at ht₁
      exact absurd (Option.some.inj ht₁).symm (hc.new h (h.tokens.live e' he' t' ht₂).2)
    · rw [hc.refresh] at ht₂
      exact absurd (Option.some.inj ht₂).symm (hc.new h (h.tokens.live e he t' ht₁).2)
    · exact h.tokens.refresh e he e' he' t' ht₁ ht₂
  · intro e he t' ht'
    rw [hc.issued, hc.redeemed, map_append, count_append]
    rcases hc.mem_committed.1 he with rfl | ⟨hne, he⟩
    · rw [hc.refresh] at ht'
      cases ht'
      refine ⟨Nat.add_eq_zero_iff.2 ⟨?_, ?_⟩, mem_append_right _ (mem_singleton.2 rfl)⟩
      · refine count_eq_zero.2 fun hmem => ?_
        obtain ⟨g, hg, heq⟩ := mem_map.1 hmem
        exact hc.new h (h.issued.redeemed g hg) heq
      · refine count_eq_zero.2 fun hmem => ?_
        obtain ⟨g, hg, heq⟩ := mem_map.1 hmem
        exact hc.new h (hc.grants g hg).1 heq
    · obtain ⟨hzero, hin⟩ := h.tokens.live e he t' ht'
      refine ⟨Nat.add_eq_zero_iff.2 ⟨hzero, ?_⟩, mem_append_left _ hin⟩
      refine count_eq_zero.2 fun hmem => ?_
      obtain ⟨g, hg, heq⟩ := mem_map.1 hmem
      exact (hc.grants g hg).2 e he hne (heq ▸ ht')

theorem issuedOk (h : Inv s) : IssuedOk s' := by
  refine ⟨?_, ?_, ?_, ?_⟩
  · intro g hg
    rw [hc.drawn]
    rw [hc.issued] at hg
    rcases mem_append.1 hg with hg | hg
    · exact h.issued.drawn g hg
    · rw [mem_singleton.1 hg]
      exact (h.owned i pc hc.call).2 t hc.owned
  · intro g hg j pc' hj
    rw [hc.issued] at hg
    rcases mem_append.1 hg with hg | hg
    · exact h.issued.free g hg j pc' (hc.others hj).2
    · rw [mem_singleton.1 hg]
      exact hc.apart h hj hc.owned
  · intro g hg g' hg' heq
    rw [hc.issued] at hg hg'
    rcases mem_append.1 hg with hg | hg <;> rcases mem_append.1 hg' with hg' | hg'
    · exact h.issued.unique g hg g' hg' heq
    · rw [mem_singleton.1 hg'] at heq
      exact absurd heq (hc.new h hg)
    · rw [mem_singleton.1 hg] at heq
      exact absurd heq.symm (hc.new h hg')
    · rw [mem_singleton.1 hg, mem_singleton.1 hg']
  · intro g hg
    rw [hc.issued]
    rw [hc.redeemed] at hg
    rcases mem_append.1 hg with hg | hg
    · exact mem_append_left _ (h.issued.redeemed g hg)
    · exact mem_append_left _ (hc.grants g hg).1

end RowCommitted

theorem refusal_eq_nil {b : Token} (hcommitted : s'.oauthTokens.committed = s.oauthTokens.committed.set k b)
    (hother : ∀ e ∈ s.oauthTokens.committed.items, e.2.accessToken ≠ b.accessToken) (hclock : s'.clock ≤ b.expiresAt) :
    s'.refusal b.accessToken = [] := by
  have hmem : (k, b) ∈ s'.store.tokens.items := by
    rw [Server.store, hcommitted]
    exact mem_items_set.2 (.inl rfl)
  have hsome : (s'.store.selectAccess b.accessToken).isSome := List.find?_isSome.2 ⟨(k, b), hmem, decide_eq_true rfl⟩
  obtain ⟨e, hfind⟩ := Option.isSome_iff_exists.1 hsome
  obtain ⟨he, haccess⟩ := Store.selectAccess_eq_some hfind
  rw [Server.store, hcommitted] at he
  have heq : e = (k, b) := (mem_items_set.1 he).resolve_right fun hold => hother e hold.2 haccess
  unfold Server.refusal
  rw [Store.validateToken, hfind, heq]
  simp [not_lt.2 hclock]

theorem Inv.commitExchange (h : Inv s)
    (hpc : s.calls.get? i = some (.commitExchange x now row)) (hclock : s.clock ≤ now + accessTokenLifetime)
    (hs : s.statement cfg i (.commitExchange x now row) = some s') : Inv s' := by
  have hok := h.calls i _ hpc
  obtain ⟨hrow, -, hclient⟩ := hok.code x row rfl
  have howns : (Pc.commitExchange x now row).owns = [x.tokenId, x.accessToken, x.refreshToken] := rfl
  obtain ⟨hC, hT, hexchanged, hrefused, hclock'⟩ : s'.oauthCodes = s.oauthCodes.commit i ∧
      s'.oauthTokens = s.oauthTokens.commit i ∧ s'.exchanged = s.exchanged ++ [x.code] ∧
      s'.refused = s.refused ++ s'.refusal x.accessToken ∧ s'.clock = s.clock := by
    cases hs
    exact ⟨rfl, rfl, rfl, rfl, rfl⟩
  have hcodes : s'.oauthCodes.committed = s.oauthCodes.committed.set x.code { row with used := true } := by
    rw [hC, Table.commit, Table.visible_eq, hok.codeWrites]
    rfl
  have htokens : s'.oauthTokens.committed = s.oauthTokens.committed.set x.tokenId (row.issue x now) := by
    rw [hT, Table.commit, Table.visible_eq, hok.tokenWrites]
    rfl
  have hcount : ∀ code, s'.exchanged.count code = s.exchanged.count code + if x.code = code then 1 else 0 := by
    intro code
    rw [hexchanged, count_append, count_singleton]
    simp only [beq_iff_eq]
  have hc : RowCommitted s s' i (.commitExchange x now row) x.tokenId x.refreshToken (row.issue x now) [] := by
    cases hs
    refine ⟨hpc, ⟨(h.owned i _ hpc).2 _ (by simp [howns]), ?_⟩, by simp [howns, Code.issue], rfl, by simp [howns],
      by simp, htokens, rfl, rfl, by rw [Code.issue, hclient]; rfl, (append_nil _).symm⟩
    exact fun j pc' hne hj hmem => hne (h.apart j i pc' _ _ hj hpc hmem (by simp [howns]))
  have hrefusal : s'.refusal x.accessToken = [] := by
    refine refusal_eq_nil htokens (fun e he heq => ?_) (hclock'.trans_le hclock)
    exact (h.tokens.free e he i _ hpc).2 (heq ▸ by simp [howns, Code.issue])
  have hcalls : s'.calls = s.calls.update i none := hc.calls
  obtain ⟨howned, hapart⟩ := h.owners hc.drawn fun j pc' hj => ⟨pc', (hc.others hj).2, rfl⟩
  refine ⟨?_, ?_, ?_, ?_, ?_, ?_, ⟨?_, ?_⟩, howned, hapart, hc.tokensOk h, hc.issuedOk h, ?_⟩
  · intro code
    have hholders : s'.codeHolders code + (if x.code = code then 1 else 0) = s.codeHolders code :=
      (congrArg (s'.codeHolders code + ·) (if_congr decide_eq_true_iff.symm rfl rfl)).trans
      (codeHolders_update hpc hcalls code)
    have hweight := h.codes code
    rw [hcount]
    omega
  · intro t
    have hholders : s'.refreshHolders t = s.refreshHolders t := refreshHolders_update hpc hcalls t
    rw [hc.redeemed, append_nil, hholders]
    exact h.refreshTokens t
  · intro code row' hget hused
    rw [hcodes] at hget
    rcases get?_set_eq_some.1 hget with ⟨-, rfl⟩ | ⟨hne, hget⟩
    · cases hused
    · rw [hcount, h.unused code row' hget hused, if_neg (Ne.symm hne)]
  · intro code hmem
    rw [hc.drawn]
    rw [hexchanged] at hmem
    rcases mem_append.1 hmem with hmem | hmem
    · exact h.known code hmem
    · rw [mem_singleton.1 hmem]
      exact h.rows _ row hrow
  · intro code row' hget
    rw [hc.drawn]
    rw [hcodes] at hget
    rcases get?_set_eq_some.1 hget with ⟨rfl, -⟩ | ⟨-, hget⟩
    · exact h.rows _ row hrow
    · exact h.rows code row' hget
  · intro j pc' hj
    obtain ⟨hne, hj⟩ := hc.others hj
    have hok' := h.calls j pc' hj
    refine hok'.frame (hC ▸ Table.own_commit_of_ne _ hne) (hT ▸ Table.own_commit_of_ne _ hne) ?_ ?_
    · intro x' row' hread
      rw [hcodes, get?_set_of_ne _ _ fun heq => hne (h.code_holder hpc hj rfl hread heq).symm]
    · intro r k row' hread
      rw [htokens, get?_set_of_ne]
      rintro rfl
      exact (h.tokens.free _ (mem_items_iff.2 (hok'.token r _ row' hread).1) i _ hpc).1 (by simp [howns])
  · rw [hC, hcalls]
    exact isSome_of_commit h.writers.1
  · rw [hT, hcalls]
    exact isSome_of_commit h.writers.2
  · rw [hrefused, hrefusal, h.accepted]
    rfl

theorem Inv.commitRefresh (h : Inv s) {found : Str × Token}
    (hpc : s.calls.get? i = some (.commitRefresh r now found)) (hclock : s.clock ≤ now + accessTokenLifetime)
    (hs : s.statement cfg i (.commitRefresh r now found) = some s') : Inv s' := by
  have hok := h.calls i _ hpc
  obtain ⟨k, row⟩ := found
  obtain ⟨hrow, hrefresh, hclient⟩ := hok.token r k row rfl
  have hmem := mem_items_iff.2 hrow
  have howns : (Pc.commitRefresh r now (k, row)).owns = [r.newAccessToken, r.newRefreshToken] := rfl
  obtain ⟨hC, hT, hexchanged, hrefused, hclock'⟩ : s'.oauthCodes = s.oauthCodes ∧
      s'.oauthTokens = s.oauthTokens.commit i ∧ s'.exchanged = s.exchanged ∧
      s'.refused = s.refused ++ s'.refusal r.newAccessToken ∧ s'.clock = s.clock := by
    cases hs
    exact ⟨rfl, rfl, rfl, rfl, rfl⟩
  have htokens : s'.oauthTokens.committed = s.oauthTokens.committed.set k (row.refreshed r now) := by
    rw [hT, Table.commit, Table.visible_eq, hok.tokenWrites]
    rfl
  have hc : RowCommitted s s' i (.commitRefresh r now (k, row)) k r.newRefreshToken (row.refreshed r now)
      [⟨r.refreshToken, r.clientId⟩] := by
    cases hs
    refine ⟨hpc, ⟨(h.tokens.drawn _ hmem).1, ?_⟩, by simp [howns, Token.refreshed], rfl, by simp [howns],
      ?_, htokens, rfl,
      rfl, by rw [Token.refreshed, hclient]; rfl, rfl⟩
    · exact fun j pc' _ hj => (h.tokens.free _ hmem j pc' hj).1
    · intro g hg
      rw [mem_singleton.1 hg]
      refine ⟨hclient ▸ (h.tokens.live _ hmem _ hrefresh).2, fun e he hne ht => ?_⟩
      exact hne (congrArg Prod.fst (h.tokens.refresh e he _ hmem _ ht hrefresh))
  have hrefusal : s'.refusal r.newAccessToken = [] := by
    refine refusal_eq_nil htokens (fun e he heq => ?_) (hclock'.trans_le hclock)
    exact (h.tokens.free e he i _ hpc).2 (heq ▸ by simp [howns, Token.refreshed])
  have hcalls : s'.calls = s.calls.update i none := hc.calls
  obtain ⟨howned, hapart⟩ := h.owners hc.drawn fun j pc' hj => ⟨pc', (hc.others hj).2, rfl⟩
  refine ⟨?_, ?_, ?_, ?_, ?_, ?_, ⟨?_, ?_⟩, howned, hapart, hc.tokensOk h, hc.issuedOk h, ?_⟩
  · intro code
    have hholders : s'.codeHolders code = s.codeHolders code := codeHolders_update hpc hcalls code
    rw [hexchanged, hholders]
    exact h.codes code
  · intro t
    have hholders : s'.refreshHolders t + (if r.refreshToken = t then 1 else 0) = s.refreshHolders t :=
      (congrArg (s'.refreshHolders t + ·) (if_congr decide_eq_true_iff.symm rfl rfl)).trans
      (refreshHolders_update hpc hcalls t)
    have hweight := h.refreshTokens t
    rw [hc.redeemed, map_append, count_append, map_singleton, count_singleton]
    simp only [beq_iff_eq]
    omega
  · intro code row' hget hused
    rw [hC] at hget
    rw [hexchanged]
    exact h.unused code row' hget hused
  · rw [hexchanged, hc.drawn]
    exact h.known
  · rw [hC, hc.drawn]
    exact h.rows
  · intro j pc' hj
    obtain ⟨hne, hj⟩ := hc.others hj
    have hok' := h.calls j pc' hj
    refine hok'.frame (by rw [hC]) (hT ▸ Table.own_commit_of_ne _ hne) (fun _ _ _ => by rw [hC]) ?_
    intro r' k' row' hread
    have htoken := hok'.token r' k' row' hread
    rw [htokens, get?_set_of_ne]
    -- the row of another call's refresh token is another one
    rintro rfl
    obtain rfl : row = row' := Option.mem_unique hrow htoken.1
    have heq : r'.refreshToken = r.refreshToken := Option.mem_unique htoken.2.1 hrefresh
    exact hne (h.token_holder hpc hj rfl hread heq).symm
  · rw [hC, hcalls]
    exact isSome_of_erase hok.codeWrites h.writers.1
  · rw [hT, hcalls]
    exact isSome_of_commit h.writers.2
  · rw [hrefused, hrefusal, h.accepted]
    rfl

theorem Inv.start (h : Inv s) (pc : Pc) (hnew : s.calls.get? i = none) (hdraws : s.Draws pc.owns)
    (hcode : pc.codeRead = none)
    (htoken : pc.tokenRead = none) (hwrites : pc.codeWrites i = [] ∧ pc.tokenWrites i = [])
    (hs : s' = { s with drawn := s.drawn ++ pc.owns, calls := s.calls.set i pc }) : Inv s' := by
  have hcodeHolders : ∀ code, s'.codeHolders code = s.codeHolders code := by
    intro code
    rw [Server.codeHolders, hs, countP_items_set_of_none hnew, Pc.holdsCode, hcode]
    rfl
  have hrefreshHolders : ∀ t, s'.refreshHolders t = s.refreshHolders t := by
    intro t
    rw [Server.refreshHolders, hs, countP_items_set_of_none hnew, Pc.holdsRefresh, htoken]
    rfl
  have hold : ∀ {y}, y ∈ s.drawn → y ∈ s.drawn ++ pc.owns := fun hy => mem_append_left _ hy
  have hget : ∀ j pc', (s.calls.set i pc).get? j = some pc' → (j = i ∧ pc' = pc) ∨ s.calls.get? j = some pc' := by
    intro j pc' hj
    rcases get?_set_eq_some.1 hj with ⟨rfl, rfl⟩ | ⟨-, hj⟩
    · exact .inl ⟨rfl, rfl⟩
    · exact .inr hj
  have hkeep : ∀ {j}, (s.calls.get? j).isSome → ((s.calls.set i pc).get? j).isSome := by
    intro j hj
    rw [get?_set]
    split
    · rfl
    · exact hj
  -- a call that is not open has written nothing
  have hsilent : s.oauthCodes.own i = [] ∧ s.oauthTokens.own i = [] := by
    constructor
    · refine Table.own_eq_nil_iff.2 fun w hw htxn => ?_
      have hsome := h.writers.1 w hw
      rw [htxn, hnew] at hsome
      cases hsome
    · refine Table.own_eq_nil_iff.2 fun w hw htxn => ?_
      have hsome := h.writers.2 w hw
      rw [htxn, hnew] at hsome
      cases hsome
  subst hs
  refine ⟨?_, ?_, h.unused, fun code hc => hold (h.known code hc), fun code row hget => hold (h.rows code row hget), ?_,
    ⟨fun w hw => hkeep (h.writers.1 w hw), fun w hw => hkeep (h.writers.2 w hw)⟩, ?_, ?_,
    ⟨?_, ?_, h.tokens.refresh, h.tokens.live⟩,
    ⟨fun g hg => hold (h.issued.drawn g hg), ?_, h.issued.unique, h.issued.redeemed⟩, h.accepted⟩
  · intro code
    rw [hcodeHolders]
    exact h.codes code
  · intro t
    rw [hrefreshHolders]
    exact h.refreshTokens t
  · intro j pc' hj
    rcases hget j pc' hj with ⟨rfl, rfl⟩ | hj
    · refine ⟨hsilent.1.trans hwrites.1.symm, hsilent.2.trans hwrites.2.symm, ?_, ?_⟩
      · intro x row hread
        rw [hcode] at hread
        cases hread
      · intro r k row hread
        rw [htoken] at hread
        cases hread
    · exact (h.calls j pc' hj).frame rfl rfl (fun _ _ _ => rfl) fun _ _ _ _ => rfl
  · intro j pc' hj
    rcases hget j pc' hj with ⟨rfl, rfl⟩ | hj
    · exact ⟨hdraws.1, fun y hy => mem_append_right _ hy⟩
    · obtain ⟨hnodup, hin⟩ := h.owned j pc' hj
      exact ⟨hnodup, fun y hy => hold (hin y hy)⟩
  · intro j₁ j₂ pc₁ pc₂ y h₁ h₂ hy₁ hy₂
    rcases hget j₁ pc₁ h₁ with ⟨rfl, rfl⟩ | hj₁ <;> rcases hget j₂ pc₂ h₂ with ⟨rfl, rfl⟩ | hj₂
    · rfl
    · exact absurd ((h.owned j₂ pc₂ hj₂).2 y hy₂) (hdraws.2 y hy₁)
    · exact absurd ((h.owned j₁ pc₁ hj₁).2 y hy₁) (hdraws.2 y hy₂)
    · exact h.apart j₁ j₂ pc₁ pc₂ y hj₁ hj₂ hy₁ hy₂
  · intro e he
    obtain ⟨hid, haccess, hrefresh⟩ := h.tokens.drawn e he
    exact ⟨hold hid, hold haccess, fun t ht => hold (hrefresh t ht)⟩
  · intro e he j pc' hj
    rcases hget j pc' hj with ⟨rfl, rfl⟩ | hj
    · obtain ⟨hid, haccess, -⟩ := h.tokens.drawn e he
      exact ⟨fun hmem => hdraws.2 _ hmem hid, fun hmem => hdraws.2 _ hmem haccess⟩
    · exact h.tokens.free e he j pc' hj
  · intro g hg j pc' hj
    rcases hget j pc' hj with ⟨rfl, rfl⟩ | hj
    · exact fun hmem => hdraws.2 _ hmem (h.issued.drawn g hg)
    · exact h.issued.free g hg j pc' hj

theorem Inv.generate (h : Inv s) (hdraws : s.Draws [code])
    (hs : s' = { s with
      oauthCodes := { s.oauthCodes with committed := s.oauthCodes.committed.set code row }
      drawn := s.drawn ++ [code] }) :
    Inv s' := by
  have hnew : code ∉ s.drawn := hdraws.2 code (mem_singleton.2 rfl)
  have hold : ∀ {y}, y ∈ s.drawn → y ∈ s.drawn ++ [code] := fun hy => mem_append_left _ hy
  subst hs
  refine ⟨h.codes, h.refreshTokens, ?_, fun code hc => hold (h.known code hc), ?_, ?_, h.writers, ?_, h.apart,
    ⟨?_, h.tokens.free, h.tokens.refresh, h.tokens.live⟩,
    ⟨fun g hg => hold (h.issued.drawn g hg), h.issued.free, h.issued.unique, h.issued.redeemed⟩, h.accepted⟩
  · intro code' row' hget hused
    rcases get?_set_eq_some.1 hget with ⟨rfl, -⟩ | ⟨-, hget⟩
    · exact count_eq_zero.2 fun hmem => hnew (h.known _ hmem)
    · exact h.unused code' row' hget hused
  · intro code' row' hget
    rcases get?_set_eq_some.1 hget with ⟨rfl, -⟩ | ⟨-, hget⟩
    · exact mem_append_right _ (mem_singleton.2 rfl)
    · exact hold (h.rows code' row' hget)
  · intro j pc' hj
    refine (h.calls j pc' hj).frame rfl rfl (fun x row' hread => get?_set_of_ne _ _ ?_) fun _ _ _ _ => rfl
    rintro rfl
    exact hnew (h.rows _ row' ((h.calls j pc' hj).code x row' hread).1)
  · intro j pc' hj
    obtain ⟨hnodup, hin⟩ := h.owned j pc' hj
    exact ⟨hnodup, fun y hy => hold (hin y hy)⟩
  · intro e he
    obtain ⟨hid, haccess, hrefresh⟩ := h.tokens.drawn e he
    exact ⟨hold hid, hold haccess, fun t ht => hold (hrefresh t ht)⟩

theorem Inv.tick (h : Inv s) (now : ℚ) : Inv { s with clock := now } :=
  ⟨h.codes, h.refreshTokens, h.unused, h.known, h.rows,
    fun j pc' hj => (h.calls j pc' hj).frame rfl rfl (fun _ _ _ => rfl) fun _ _ _ _ => rfl, h.writers, h.owned, h.apart,
    ⟨h.tokens.drawn, h.tokens.free, h.tokens.refresh, h.tokens.live⟩,
    ⟨h.issued.drawn, h.issued.free, h.issued.unique, h.issued.redeemed⟩, h.accepted⟩

theorem codeHolders_of_free (hfree : s.free .sqlite = true) (code : Str) : s.codeHolders code = 0 := by
  refine countP_eq_zero.2 fun e he hholds => ?_
  have hout := all_eq_true.1 hfree e he
  obtain ⟨x, row, hread, -⟩ := Pc.holdsCode_iff.1 hholds
  cases hpc : e.2 <;> simp [hpc, Pc.inTransaction, Pc.codeRead] at hout hread

theorem refreshHolders_of_free (hfree : s.free .sqlite = true) (t : Str) : s.refreshHolders t = 0 := by
  refine countP_eq_zero.2 fun e he hholds => ?_
  have hout := all_eq_true.1 hfree e he
  obtain ⟨r, k, row, hread, -⟩ := Pc.holdsRefresh_iff.1 hholds
  cases hpc : e.2 <;> simp [hpc, Pc.inTransaction, Pc.tokenRead] at hout hread

theorem Inv.selectCode (h : Inv s) (hpc : s.calls.get? i = some (.selectCode x now))
    (horderly : cfg.storage = .sqlite ∨ s.codeHolders x.code = 0)
    (hs : s.statement cfg i (.selectCode x now) = some s') : Inv s' := by
  have hok := h.calls i _ hpc
  rw [Server.statement, Table.visible_eq, hok.codeWrites] at hs
  split at hs
  · rename_i hfree
    have hnobody : s.codeHolders x.code = 0 := by
      refine horderly.elim (fun hsqlite => ?_) id
      rw [hsqlite] at hfree
      exact codeHolders_of_free hfree x.code
    split at hs
    · refine h.quiet hpc none [] [] ?_ ⟨rfl, rfl⟩ nofun nofun nofun
      rw [← Option.some.inj hs, append_nil, append_nil]
      rfl
    · rename_i row hcheck
      obtain ⟨hselect, hused, -, -⟩ := checkCode_eq_ok hcheck
      obtain ⟨hget, hclient⟩ := Option.filter_eq_some_iff.1 hselect
      refine h.quiet hpc (some (.markUsed x now row)) [] [] ?_ ⟨rfl, rfl⟩ (by rintro _ ⟨⟩; rfl) ?_ nofun
      · rw [← Option.some.inj hs, append_nil, append_nil]
        rfl
      · intro x' row' hread
        cases hread
        exact .inr ⟨⟨hget, hused, of_decide_eq_true hclient⟩, hnobody⟩
  · cases hs

theorem Inv.selectRefresh (h : Inv s) (hpc : s.calls.get? i = some (.selectRefresh r now))
    (horderly : cfg.storage = .sqlite ∨ s.refreshHolders r.refreshToken = 0)
    (hclient : ∀ e ∈ s.oauthTokens.committed.items, e.2.refreshToken = some r.refreshToken → e.2.clientId = r.clientId)
    (hs : s.statement cfg i (.selectRefresh r now) = some s') : Inv s' := by
  have hok := h.calls i _ hpc
  rw [Server.statement, Table.visible_eq, hok.tokenWrites] at hs
  split at hs
  · rename_i hfree
    have hnobody : s.refreshHolders r.refreshToken = 0 := by
      refine horderly.elim (fun hsqlite => ?_) id
      rw [hsqlite] at hfree
      exact refreshHolders_of_free hfree r.refreshToken
    split at hs
    · refine h.quiet hpc none [] [] ?_ ⟨rfl, rfl⟩ nofun nofun nofun
      rw [← Option.some.inj hs, append_nil, append_nil]
      rfl
    · rename_i found hfind
      have hmem := mem_of_find?_eq_some hfind
      have hrefresh := List.find?_some hfind
      refine h.quiet hpc (some (.update r now found)) [] [] ?_ ⟨rfl, rfl⟩ (by rintro _ ⟨⟩; rfl) nofun ?_
      · rw [← Option.some.inj hs, append_nil, append_nil]
        rfl
      · intro r' k row hread
        cases hread
        have heq := of_decide_eq_true hrefresh
        exact .inr ⟨⟨mem_items_iff.1 hmem, heq, hclient _ hmem heq⟩, hnobody⟩
  · cases hs

theorem Inv.statement (h : Inv s) (hpc : s.calls.get? i = some pc) (horderly : s.orderly cfg pc = true)
    (hs : s.statement cfg i pc = some s') : Inv s' := by
  have hok := h.calls i pc hpc
  cases pc with
  | selectCode x now => exact h.selectCode hpc (of_decide_eq_true horderly) hs
  | markUsed x now row =>
    obtain ⟨hget, -, -⟩ := hok.code x row rfl
    obtain ⟨T, hT, rfl⟩ := Option.map_eq_some_iff.1 hs
    rcases Table.modify_eq_some hT with ⟨hnone, -⟩ | ⟨row', hvisible, rfl⟩
    · rw [Table.visible_eq, hok.codeWrites] at hnone
      cases hget.symm.trans hnone
    · rw [Table.visible_eq, hok.codeWrites] at hvisible
      obtain rfl : row = row' := Option.mem_unique hget hvisible
      refine h.quiet hpc (some (.insertToken x now row)) [⟨i, x.code, some { row with used := true }⟩] [] ?_ ⟨rfl, rfl⟩
        (by rintro _ ⟨⟩; rfl) (fun _ _ hread => .inl hread) nofun
      rw [append_nil]
      rfl
  | insertToken x now row =>
    obtain ⟨T, hT, rfl⟩ := Option.map_eq_some_iff.1 hs
    obtain ⟨-, rfl⟩ := Table.put_eq_some hT
    refine h.quiet hpc (some (.commitExchange x now row)) [] [⟨i, x.tokenId, some (row.issue x now)⟩] ?_ ⟨rfl, rfl⟩
      (by rintro _ ⟨⟩; rfl) (fun _ _ hread => .inl hread) nofun
    rw [append_nil]
    rfl
  | commitExchange x now row => exact h.commitExchange hpc (of_decide_eq_true horderly) hs
  | selectRefresh r now =>
    obtain ⟨hfree, hclient⟩ := of_decide_eq_true horderly
    exact h.selectRefresh hpc hfree hclient hs
  | update r now found =>
    obtain ⟨k, row⟩ := found
    obtain ⟨hget, hrefresh, -⟩ := hok.token r k row rfl
    have hmem := mem_items_iff.2 hget
    obtain ⟨T, hT, rfl⟩ := Option.map_eq_some_iff.1 hs
    -- the row that the `SELECT` has found is the only one to update
    have hrows : s.oauthTokens.committed.items.filter (fun e => decide (e.2.refreshToken = some r.refreshToken)) =
        [(k, row)] :=
      filter_items_eq_singleton hmem (decide_eq_true hrefresh)
        fun e he ht => h.tokens.refresh e he _ hmem _ (of_decide_eq_true ht) hrefresh
    obtain rfl := Table.updateWhere_eq_some hT
    refine h.quiet hpc (some (.commitRefresh r now (k, row))) [] [⟨i, k, some (row.refreshed r now)⟩] ?_ ⟨rfl, rfl⟩
      (by rintro _ ⟨⟩; rfl) nofun (fun _ _ _ hread => .inl hread)
    rw [Table.visible_eq, hok.tokenWrites, append_nil]
    exact congrArg (fun rows : List (Str × Token) => Server.goto { s with
      oauthTokens := { s.oauthTokens with
        writes := s.oauthTokens.writes ++ rows.map fun e => ⟨i, e.1, some (e.2.refreshed r now)⟩ } } i
          (.commitRefresh r now (k, row))) hrows
  | commitRefresh r now found => exact h.commitRefresh hpc (of_decide_eq_true horderly) hs

theorem Inv.step (h : Inv s) {a : Act} (horderly : Orderly cfg s a) (hs : s.step cfg a = some s') : Inv s' := by
  cases a <;> rw [Server.step] at hs
  case tick now =>
    split at hs <;> cases hs
    exact h.tick now
  case generateAuthorizationCode code row =>
    split at hs
    · exact h.generate ‹_› (Option.some.inj hs).symm
    · cases hs
  case exchangeCodeForToken i x =>
    split at hs
    · rename_i hnew
      exact h.start (.selectCode x s.clock) (Option.isNone_iff_eq_none.1 hnew.1) hnew.2 rfl rfl ⟨rfl, rfl⟩
        (Option.some.inj hs).symm
    · cases hs
  case refreshAccessToken i r =>
    split at hs
    · rename_i hnew
      exact h.start (.selectRefresh r s.clock) (Option.isNone_iff_eq_none.1 hnew.1) hnew.2 rfl rfl ⟨rfl, rfl⟩
        (Option.some.inj hs).symm
    · cases hs
  case statement i =>
    obtain ⟨pc, hpc, hs⟩ := Option.bind_eq_some_iff.1 hs
    have horderly' : (s.calls.get? i).all (s.orderly cfg) = true := horderly
    rw [hpc] at horderly'
    exact h.statement hpc horderly' hs

theorem Inv.fresh (now : ℚ) : Inv (.fresh now) where
  codes := fun _ => Nat.zero_le 1
  refreshTokens := fun _ => Nat.zero_le 1
  unused := fun _ _ h => (by cases h)
  known := nofun
  rows := fun _ _ h => (by cases h)
  calls := fun _ _ h => (by cases h)
  writers := ⟨nofun, nofun⟩
  owned := fun _ _ h => (by cases h)
  apart := fun _ _ _ _ _ h => (by cases h)
  tokens := ⟨nofun, nofun, nofun, nofun⟩
  issued := ⟨nofun, nofun, nofun, nofun⟩
  accepted := rfl

end Steps

/-- Calls that select what nobody else holds, for the client of the row, are single use. -/
theorem singleUse_of_orderly {cfg : Config} {s : Server} (h : (system cfg).Reachable (Orderly cfg) s) :
    s.SingleUse := by
  have hinv : Inv s := by
    refine h.invariant ?_ ?_
    · rintro s ⟨now, rfl⟩
      exact Inv.fresh now
    · exact fun s a s' hinv horderly hs => hinv.step horderly hs
  exact hinv.singleUse

/-! ### A call alone -/

structure Server.Idle (s : Server) : Prop where
  calls : s.calls.items = []
  codes : s.oauthCodes.writes = []
  tokens : s.oauthTokens.writes = []

section Alone

variable {cfg : Config} {s : Server}

theorem step_goto {i : ℕ} {pc : Pc} : (s.goto i pc).step cfg (.statement i) = (s.goto i pc).statement cfg i pc := by
  rw [Server.step, Server.goto, get?_set_self]
  rfl

theorem Server.Idle.free (h : s.Idle) {pc : Pc} (hpc : pc.inTransaction = false) (i : ℕ) (drawn : List Str)
    (storage : Storage) :
    (({ s with drawn := drawn } : Server).goto i pc).free storage = true := by
  have hitems : (s.calls.set i pc).items = [(i, pc)] := by
    simp [Dict.set, h.calls, setItems]
  cases storage <;> simp [Server.free, Server.goto, hitems, hpc]

theorem Server.Idle.get?_calls (h : s.Idle) (i : ℕ) : s.calls.get? i = none := by
  rw [Dict.get?, h.calls]
  rfl

theorem Server.Idle.visible_codes (h : s.Idle) (i : ℕ) : s.oauthCodes.visible i = s.oauthCodes.committed := by
  exact Table.visible_of_no_writes (by simp [h.codes])

theorem Server.Idle.visible_tokens (h : s.Idle) (i : ℕ) : s.oauthTokens.visible i = s.oauthTokens.committed := by
  exact Table.visible_of_no_writes (by simp [h.tokens])

variable {response : Response} {store : Store}

/-- An exchange that runs alone does to the store what `Store.exchangeCodeForToken` says. -/
theorem exchange_alone (hidle : s.Idle) (i : ℕ) {x : Exchange}
    (hdraws : s.Draws [x.tokenId, x.accessToken, x.refreshToken])
    (hx : s.store.exchangeCodeForToken cfg.pkce s.clock x = .ok (store, response)) :
    ∃ s', (system cfg).run Any s
      [.exchangeCodeForToken i x, .statement i, .statement i, .statement i, .statement i] = some s' ∧
      s'.store = store := by
  obtain ⟨row, hcheck, rfl⟩ := Store.exchangeCodeForToken_eq_ok hx
  obtain ⟨hselect, -⟩ := checkCode_eq_ok hcheck
  have hget : s.oauthCodes.committed.get? x.code = some row := (Option.filter_eq_some_iff.1 hselect).1
  have hcodes := hidle.visible_codes i
  have htokens := hidle.visible_tokens i
  let s₁ : Server := ({ s with drawn := s.drawn ++ [x.tokenId, x.accessToken, x.refreshToken] } : Server).goto i
    (.selectCode x s.clock)
  let s₂ : Server := s₁.goto i (.markUsed x s.clock row)
  let s₃ : Server := ({ s₂ with
    oauthCodes := { s.oauthCodes with
      writes := s.oauthCodes.writes ++ [⟨i, x.code, some { row with used := true }⟩] } } : Server).goto i
        (.insertToken x s.clock row)
  let s₄ : Server := ({ s₃ with
    oauthTokens := { s.oauthTokens with
      writes := s.oauthTokens.writes ++ [⟨i, x.tokenId, some (row.issue x s.clock)⟩] } } : Server).goto i
        (.commitExchange x s.clock row)
  have h₁ : s.step cfg (.exchangeCodeForToken i x) = some s₁ := if_pos ⟨by rw [hidle.get?_calls]; rfl, hdraws⟩
  have h₂ : s₁.step cfg (.statement i) = some s₂ := by
    rw [step_goto, Server.statement, if_pos (hidle.free rfl i _ _)]
    have hfound : checkCode cfg.pkce s₁.clock x.codeVerifier
      (selectCode (s₁.oauthCodes.visible i) x.code x.clientId) = .ok row := by
      rw [show s₁.oauthCodes.visible i = s.store.codes from hcodes]
      exact hcheck
    rw [hfound]
  have h₃ : s₂.step cfg (.statement i) = some s₃ := by
    have hunlocked : s₂.oauthCodes.locked i x.code = false := Table.locked_of_no_writes hidle.codes
    have hvisible : (s₂.oauthCodes.visible i).get? x.code = some row :=
      (congrArg (Dict.get? · x.code) hcodes).trans hget
    rw [step_goto, Server.statement, Table.modify, hunlocked, hvisible]
    rfl
  have h₄ : s₃.step cfg (.statement i) = some s₄ := by
    have hunlocked : s₃.oauthTokens.locked i x.tokenId = false := Table.locked_of_no_writes hidle.tokens
    rw [step_goto, Server.statement, Table.put, hunlocked]
    rfl
  obtain ⟨s₅, hs₅⟩ : ∃ s₅, s₄.statement cfg i (.commitExchange x s.clock row) = some s₅ := ⟨_, rfl⟩
  have h₅ : s₄.step cfg (.statement i) = some s₅ := step_goto.trans hs₅
  refine ⟨s₅, ?_, ?_⟩
  · rw [run_cons trivial h₁, run_cons trivial h₂, run_cons trivial h₃, run_cons trivial h₄, run_cons trivial h₅, run]
  rw [← Option.some.inj hs₅]
  refine congrArg₂ Store.mk ?_ ?_
  · refine (Table.visible_append_self s.oauthCodes fun w hw => ?_).trans ?_
    · rw [mem_singleton.1 hw]
    · rw [hcodes]
      rfl
  · refine (Table.visible_append_self s.oauthTokens fun w hw => ?_).trans ?_
    · rw [mem_singleton.1 hw]
    · rw [htokens]
      rfl

/-- A refresh that runs alone does to the store what `Store.refreshAccessToken` says. -/
theorem refresh_alone (hidle : s.Idle) (i : ℕ) {r : Refresh} (hdraws : s.Draws [r.newAccessToken, r.newRefreshToken])
    (hr : s.store.refreshAccessToken s.clock r = .ok (store, response)) :
    ∃ s', (system cfg).run Any s [.refreshAccessToken i r, .statement i, .statement i, .statement i] =
      some s' ∧ s'.store.codes = store.codes ∧ ∀ k, s'.store.tokens.get? k = store.tokens.get? k := by
  obtain rfl := Store.refreshAccessToken_eq_ok hr
  obtain ⟨found, hfound⟩ : ∃ found, s.store.selectRefresh r.refreshToken = some found := by
    unfold Store.refreshAccessToken at hr
    split at hr
    · cases hr
    · exact ⟨_, ‹_›⟩
  have htokens := hidle.visible_tokens i
  let s₁ : Server := ({ s with drawn := s.drawn ++ [r.newAccessToken, r.newRefreshToken] } : Server).goto i
    (.selectRefresh r s.clock)
  let s₂ : Server := s₁.goto i (.update r s.clock found)
  have h₁ : s.step cfg (.refreshAccessToken i r) = some s₁ := if_pos ⟨by rw [hidle.get?_calls]; rfl, hdraws⟩
  have h₂ : s₁.step cfg (.statement i) = some s₂ := by
    rw [step_goto, Server.statement, if_pos (hidle.free rfl i _ _),
      show s₁.oauthTokens.visible i = s.store.tokens from htokens]
    have hfind : (s.store.tokens.items.find? fun e => decide (e.2.refreshToken = some r.refreshToken)) =
      some found := hfound
    rw [hfind]
  obtain ⟨T, hT⟩ : ∃ T, s.oauthTokens.updateWhere i (fun row => decide (row.refreshToken = some r.refreshToken))
      (fun row => row.refreshed r s.clock) = some T := by
    refine ⟨_, if_neg fun hlocked => ?_⟩
    obtain ⟨e, -, he⟩ := any_eq_true.1 hlocked
    rw [Table.locked_of_no_writes hidle.tokens] at he
    cases he
  let s₃ : Server := ({ s₂ with oauthTokens := T } : Server).goto i (.commitRefresh r s.clock found)
  have h₃ : s₂.step cfg (.statement i) = some s₃ := by
    rw [step_goto]
    exact congrArg (Option.map _) hT
  obtain ⟨s₄, hs₄⟩ : ∃ s₄, s₃.statement cfg i (.commitRefresh r s.clock found) = some s₄ := ⟨_, rfl⟩
  have h₄ : s₃.step cfg (.statement i) = some s₄ := step_goto.trans hs₄
  refine ⟨s₄, ?_, ?_⟩
  · rw [run_cons trivial h₁, run_cons trivial h₂, run_cons trivial h₃, run_cons trivial h₄, run]
  rw [← Option.some.inj hs₄]
  refine ⟨rfl, fun k => (Table.get?_visible_updateWhere hT k).trans ?_⟩
  rw [htokens, get?_updateWhere]
  rfl

end Alone

/-! ### Runs -/

def onPostgres : Config := ⟨.postgres, plain⟩

def onSqlite : Config := ⟨.sqlite, plain⟩

theorem exchange_alone_of_code : ∃ s', (system onSqlite).run Any
      { Server.fresh 0 with oauthCodes := ⟨.set .empty "c" codeRow, []⟩ }
      [.exchangeCodeForToken 0 firstPair, .statement 0, .statement 0, .statement 0, .statement 0] = some s' ∧
    s'.store = ⟨.set .empty "c" { codeRow with used := true }, .set .empty "t" (codeRow.issue firstPair 0)⟩ :=
  exchange_alone ⟨rfl, rfl, rfl⟩ 0 (by decide) rfl

theorem refresh_alone_of_token : ∃ s', (system onSqlite).run Any
      { Server.fresh 0 with oauthTokens := ⟨.set .empty "t" (codeRow.issue firstPair 0), []⟩ }
      [.refreshAccessToken 0 secondPair, .statement 0, .statement 0, .statement 0] = some s' ∧
    s'.store.codes = .empty ∧ ∀ k, s'.store.tokens.get? k =
      Dict.get? (.set .empty "t".toList ((codeRow.issue firstPair 0).refreshed secondPair 0)) k :=
  @refresh_alone _ _ _ ⟨_, _⟩ ⟨rfl, rfl, rfl⟩ 0 _ (by decide) rfl

/-- An exchange and then a refresh by the same client. -/
theorem singleUse_of_orderly_refreshed : ∃ s, (system onPostgres).Reachable (Orderly onPostgres) s ∧
    (s.exchanged, s.redeemed.length, s.refused, s.calls.items) = (["c".toList], 1, [], []) ∧ s.SingleUse := by
  exact exists_of_run_and (.fresh 0)
    [.generateAuthorizationCode "c" codeRow, .exchangeCodeForToken 0 firstPair, .statement 0, .statement 0,
     .statement 0, .statement 0, .refreshAccessToken 1 secondPair, .statement 1, .statement 1, .statement 1]
    (fresh_isInit onPostgres 0) (by decide +kernel) fun s hs _ => singleUse_of_orderly hs

def otherPair : Exchange := { firstPair with tokenId := "t'", accessToken := "b1", refreshToken := "s1" }

def otherRefresh : Refresh := { secondPair with newAccessToken := "b2", newRefreshToken := "s2" }

def stolenRefresh : Refresh := { secondPair with clientId := "thief" }

/-- In PostgreSQL mode two exchanges select the code before either marks it used, and two refreshes select
the row before either updates it, so that the second one returns an access token that was never stored. In
both modes a refresh succeeds for a client that the token was not issued to. -/
theorem not_singleUse :
    (∃ s, (system onPostgres).Reachable Any s ∧
      (s.exchanged, s.refused, s.calls.items) = (["c".toList, "c".toList], [], []) ∧ ¬ s.SingleUse) ∧
    (∃ s, (system onPostgres).Reachable Any s ∧
      (s.redeemed.length, s.refused, s.calls.items) = (2, ["b2".toList], []) ∧ ¬ s.SingleUse) ∧
    ∃ s, (system onSqlite).Reachable Any s ∧
      (s.issued.head?, s.redeemed, s.calls.items) =
        (some ⟨"r1", "client"⟩, [⟨"r1", "thief"⟩], []) ∧ ¬ s.SingleUse := by
  refine ⟨?_, ?_, ?_⟩
  · refine exists_of_run_and (.fresh 0)
      [.generateAuthorizationCode "c" codeRow, .exchangeCodeForToken 0 firstPair,
       .exchangeCodeForToken 1 otherPair, .statement 0, .statement 1, .statement 0, .statement 0, .statement 0,
       .statement 1, .statement 1, .statement 1] (fresh_isInit onPostgres 0) (by decide +kernel)
      fun s hs hresult hsingle => ?_
    have hcodes := hsingle.codes "c"
    rw [(Prod.mk.inj hresult).1] at hcodes
    exact absurd hcodes (by decide)
  · refine exists_of_run_and (.fresh 0)
      [.generateAuthorizationCode "c" codeRow, .exchangeCodeForToken 0 firstPair, .statement 0, .statement 0,
       .statement 0, .statement 0, .refreshAccessToken 1 secondPair, .refreshAccessToken 2 otherRefresh, .statement 1,
       .statement 2, .statement 1, .statement 1, .statement 2, .statement 2] (fresh_isInit onPostgres 0)
      (by decide +kernel) fun s hs hresult hsingle => ?_
    have hrefused := (Prod.mk.inj (Prod.mk.inj hresult).2).1
    rw [hsingle.accepted] at hrefused
    cases hrefused
  · refine exists_of_run_and (.fresh 0)
      [.generateAuthorizationCode "c" codeRow, .exchangeCodeForToken 0 firstPair, .statement 0, .statement 0,
       .statement 0, .statement 0, .refreshAccessToken 1 stolenRefresh, .statement 1, .statement 1, .statement 1]
      (fresh_isInit onSqlite 0) (by decide +kernel) fun s hs hresult hsingle => ?_
    obtain ⟨hissued, hrest⟩ := Prod.mk.inj hresult
    obtain ⟨-, hclient⟩ := hsingle.clients ⟨"r1", "thief"⟩
      (by rw [(Prod.mk.inj hrest).1]; exact mem_singleton.2 rfl)
    exact absurd (hclient _ (mem_of_mem_head? hissued) rfl) (by decide)

end CodeIndexer.OAuth.Concurrent
