import CodeIndexer.Lib.PyText
import CodeIndexer.Lib.Dict
import CodeIndexer.Lib.Transition

/-!
# OAuth tokens and their three timestamps (`server/auth/oauth/oauth_manager.py`)

`oauth_codes` and `oauth_tokens`, and what a call of `OAuthManager` does with them. The manager itself
(SQLite), `OAuthSqliteBackend` and `OAuthPostgresBackend` run the same statements on the same columns
and differ in isolation only, which calls one after another do not see. Times are in seconds; a random
string is drawn once.

A row keeps the `hard_expires_at` of the exchange that inserted it. `extend_token_on_activity` caps the
new expiry at it, but also extends a token that has expired already; `refresh_access_token` does not look
at it. `Capped` says that neither happens.
-/

namespace CodeIndexer.OAuth

open PyText TransitionSystem List

structure Code where
  clientId : Str
  userId : Str
  codeChallenge : Str
  redirectUri : Str
  expiresAt : ℚ
  used : Bool
deriving DecidableEq

structure Token where
  clientId : Str
  userId : Str
  accessToken : Str
  refreshToken : Option Str
  expiresAt : ℚ
  createdAt : ℚ
  lastActivity : ℚ
  hardExpiresAt : ℚ
deriving DecidableEq

inductive Error
  | invalidAuthorizationCode
  | authorizationCodeUsed
  | authorizationCodeExpired
  | pkceFailed
  | invalidRefreshToken
deriving DecidableEq

def Error.message : Error → String
  | .invalidAuthorizationCode => "Invalid authorization code"
  | .authorizationCodeUsed => "Authorization code already used"
  | .authorizationCodeExpired => "Authorization code expired"
  | .pkceFailed => "PKCE verification failed"
  | .invalidRefreshToken => "Invalid refresh token"

def accessTokenLifetime : ℚ := 8 * 3600

def hardExpiration : ℚ := 30 * 24 * 3600

def extensionThreshold : ℚ := 4 * 3600

def codeLifetime : ℚ := 10 * 60

structure Exchange where
  code : Str
  codeVerifier : Str
  clientId : Str
  tokenId : Str
  accessToken : Str
  refreshToken : Str
deriving DecidableEq

structure Refresh where
  refreshToken : Str
  clientId : Str
  newAccessToken : Str
  newRefreshToken : Str
deriving DecidableEq

structure Response where
  accessToken : Str
  tokenType : Str
  expiresIn : ℕ
  refreshToken : Str
deriving DecidableEq

def Response.bearer (accessToken refreshToken : Str) : Response :=
  ⟨accessToken, "Bearer", 8 * 3600, refreshToken⟩

def selectCode (codes : Dict Str Code) (code clientId : Str) : Option Code :=
  (codes.get? code).filter fun row => decide (row.clientId = clientId)

/-- What the exchange requires of the row; `pkce` is the urlsafe SHA-256 of a verifier. -/
def checkCode (pkce : Str → Str) (now : ℚ) (codeVerifier : Str) : Option Code → Except Error Code
  | none => .error .invalidAuthorizationCode
  | some row =>
    if row.used then .error .authorizationCodeUsed
    else if now > row.expiresAt then .error .authorizationCodeExpired
    else if pkce codeVerifier ≠ row.codeChallenge then .error .pkceFailed
    else .ok row

def Code.issue (row : Code) (x : Exchange) (now : ℚ) : Token where
  clientId := row.clientId
  userId := row.userId
  accessToken := x.accessToken
  refreshToken := some x.refreshToken
  expiresAt := now + accessTokenLifetime
  createdAt := now
  lastActivity := now
  hardExpiresAt := now + hardExpiration

def Token.extensible (row : Token) (now : ℚ) : Bool := decide (row.expiresAt - now < extensionThreshold)

def Token.extendedExpiry (row : Token) (now : ℚ) : ℚ :=
  if now + accessTokenLifetime > row.hardExpiresAt then row.hardExpiresAt else now + accessTokenLifetime

def Token.refreshed (row : Token) (r : Refresh) (now : ℚ) : Token :=
  { row with
    accessToken := r.newAccessToken
    refreshToken := some r.newRefreshToken
    expiresAt := now + accessTokenLifetime
    lastActivity := now }

structure Store where
  codes : Dict Str Code
  tokens : Dict Str Token

structure TokenInfo where
  tokenId : Str
  clientId : Str
  userId : Str
  expiresAt : ℚ
  createdAt : ℚ
deriving DecidableEq

namespace Store

def selectAccess (s : Store) (accessToken : Str) : Option (Str × Token) :=
  s.tokens.items.find? fun e => decide (e.2.accessToken = accessToken)

def selectRefresh (s : Store) (refreshToken : Str) : Option (Str × Token) :=
  s.tokens.items.find? fun e => decide (e.2.refreshToken = some refreshToken)

def exchangeCodeForToken (s : Store) (pkce : Str → Str) (now : ℚ) (x : Exchange) : Except Error (Store × Response) := do
  let row ← checkCode pkce now x.codeVerifier (selectCode s.codes x.code x.clientId)
  return (⟨s.codes.set x.code { row with used := true }, s.tokens.set x.tokenId (row.issue x now)⟩,
    .bearer x.accessToken x.refreshToken)

def validateToken (s : Store) (now : ℚ) (accessToken : Str) : Option TokenInfo :=
  match s.selectAccess accessToken with
  | none => none
  | some (tokenId, row) =>
    if now > row.expiresAt then none
    else some ⟨tokenId, row.clientId, row.userId, row.expiresAt, row.createdAt⟩

def extendTokenOnActivity (s : Store) (now : ℚ) (accessToken : Str) : Store × Bool :=
  match s.selectAccess accessToken with
  | none => (s, false)
  | some (_, row) =>
    if ¬ row.extensible now then (s, false)
    else
      ({ s with
        tokens := s.tokens.updateWhere (fun row' => decide (row'.accessToken = accessToken))
          fun row' => { row' with expiresAt := row.extendedExpiry now, lastActivity := now } }, true)

/-- The client id is not compared with the row's. -/
def refreshAccessToken (s : Store) (now : ℚ) (r : Refresh) : Except Error (Store × Response) :=
  match s.selectRefresh r.refreshToken with
  | none => .error .invalidRefreshToken
  | some _ =>
    .ok ({ s with
      tokens := s.tokens.updateWhere (fun row => decide (row.refreshToken = some r.refreshToken))
        fun row => row.refreshed r now }, .bearer r.newAccessToken r.newRefreshToken)

end Store

/-! ### Calls one after another -/

/-- The store under a clock, the random strings drawn so far, and, for each row, the `hard_expires_at`
that its exchange fixed. -/
structure State where
  clock : ℚ
  store : Store
  drawn : List Str
  fixed : Dict Str ℚ

inductive Act
  | tick (now : ℚ)
  | generateAuthorizationCode (code : Str) (row : Code)
  | exchangeCodeForToken (x : Exchange)
  | extendTokenOnActivity (accessToken : Str)
  | refreshAccessToken (r : Refresh)
deriving DecidableEq

namespace State

def Draws (s : State) (strings : List Str) : Prop := strings.Nodup ∧ ∀ x ∈ strings, x ∉ s.drawn

instance (s : State) (strings : List Str) : Decidable (s.Draws strings) := inferInstanceAs (Decidable (_ ∧ _))

/-- A call that raises leaves the store as it is. -/
def step (pkce : Str → Str) (s : State) : Act → Option State
  | .tick now => if s.clock ≤ now then some { s with clock := now } else none
  | .generateAuthorizationCode code row =>
    if s.Draws [code] then
      some { s with
        store := { s.store with
          codes := s.store.codes.set code { row with expiresAt := s.clock + codeLifetime, used := false } }
        drawn := s.drawn ++ [code] }
    else none
  | .exchangeCodeForToken x =>
    if s.Draws [x.tokenId, x.accessToken, x.refreshToken] then
      let drawn := s.drawn ++ [x.tokenId, x.accessToken, x.refreshToken]
      match s.store.exchangeCodeForToken pkce s.clock x with
      | .error _ => some { s with drawn := drawn }
      | .ok (store, _) =>
        some { s with store := store, drawn := drawn, fixed := s.fixed.set x.tokenId (s.clock + hardExpiration) }
    else none
  | .extendTokenOnActivity accessToken => some { s with store := (s.store.extendTokenOnActivity s.clock accessToken).1 }
  | .refreshAccessToken r =>
    if s.Draws [r.newAccessToken, r.newRefreshToken] then
      let drawn := s.drawn ++ [r.newAccessToken, r.newRefreshToken]
      match s.store.refreshAccessToken s.clock r with
      | .error _ => some { s with drawn := drawn }
      | .ok (store, _) => some { s with store := store, drawn := drawn }
    else none

def fresh (now : ℚ) : State := ⟨now, ⟨Dict.empty, Dict.empty⟩, [], Dict.empty⟩

def validateToken (s : State) (accessToken : Str) : Option TokenInfo := s.store.validateToken s.clock accessToken

/-- No token is accepted after the `hard_expires_at` that its exchange fixed. -/
def Ceiling (s : State) : Prop :=
  ∀ accessToken info, s.validateToken accessToken = some info →
    ∃ hard, s.fixed.get? info.tokenId = some hard ∧ s.clock ≤ hard

def Lapsed (s : State) (accessToken : Str) : Prop :=
  accessToken ∈ s.drawn ∧ s.validateToken accessToken = none

end State

def system (pkce : Str → Str) : TransitionSystem State Act where
  init s := ∃ now, s = .fresh now
  step := State.step pkce

theorem fresh_isInit (pkce : Str → Str) (now : ℚ) : (system pkce).init (.fresh now) := ⟨now, rfl⟩

/-- A token is not extended between its expiry and its hard expiry, and not refreshed for longer than
the hard expiry. -/
def Capped (s : State) : Act → Prop
  | .extendTokenOnActivity accessToken =>
    ∀ e ∈ s.store.tokens.items, e.2.accessToken = accessToken → s.clock ≤ e.2.expiresAt ∨ e.2.hardExpiresAt < s.clock
  | .refreshAccessToken r =>
    ∀ e ∈ s.store.tokens.items, e.2.refreshToken = some r.refreshToken →
      s.clock + accessTokenLifetime ≤ e.2.hardExpiresAt
  | _ => True

instance (s : State) : (a : Act) → Decidable (Capped s a)
  | .extendTokenOnActivity _ => inferInstanceAs (Decidable (∀ _ ∈ _, _ → _))
  | .refreshAccessToken _ => inferInstanceAs (Decidable (∀ _ ∈ _, _ → _))
  | .tick _ | .generateAuthorizationCode .. | .exchangeCodeForToken _ => .isTrue trivial

/-! ### Rows below their ceiling -/

variable {s s' : Store} {pkce : Str → Str} {now : ℚ} {response : Response}

theorem Store.selectAccess_eq_some {accessToken : Str} {e : Str × Token}
    (h : s.selectAccess accessToken = some e) : e ∈ s.tokens.items ∧ e.2.accessToken = accessToken := by
  have haccess := List.find?_some h
  exact ⟨mem_of_find?_eq_some h, of_decide_eq_true haccess⟩

theorem Token.extendedExpiry_le (row : Token) (now : ℚ) : row.extendedExpiry now ≤ row.hardExpiresAt := by
  unfold extendedExpiry
  split
  · exact le_rfl
  · exact not_lt.1 ‹_›

theorem checkCode_eq_ok {codeVerifier : Str} {found : Option Code} {row : Code}
    (h : checkCode pkce now codeVerifier found = .ok row) :
    found = some row ∧ row.used = false ∧ now ≤ row.expiresAt ∧ pkce codeVerifier = row.codeChallenge := by
  cases found with
  | none => cases h
  | some row' =>
    simp only [checkCode] at h
    split_ifs at h with hused hexpired hpkce
    obtain rfl := Except.ok.inj h
    exact ⟨rfl, Bool.eq_false_of_not_eq_true hused, not_lt.1 hexpired, not_not.1 hpkce⟩

theorem Store.exchangeCodeForToken_eq_ok {x : Exchange}
    (h : s.exchangeCodeForToken pkce now x = .ok (s', response)) :
    ∃ row, checkCode pkce now x.codeVerifier (selectCode s.codes x.code x.clientId) = .ok row ∧
      s' = ⟨s.codes.set x.code { row with used := true }, s.tokens.set x.tokenId (row.issue x now)⟩ := by
  unfold exchangeCodeForToken at h
  cases hrow : checkCode pkce now x.codeVerifier (selectCode s.codes x.code x.clientId) with
  | error err =>
    rw [hrow] at h
    cases h
  | ok row =>
    rw [hrow] at h
    exact ⟨row, rfl, (Prod.mk.inj (Except.ok.inj h)).1.symm⟩

theorem Store.extendTokenOnActivity_eq (s : Store) (now : ℚ) (accessToken : Str) :
    (s.extendTokenOnActivity now accessToken).1 = s ∨ ∃ e ∈ s.tokens.items, e.2.accessToken = accessToken ∧
      (s.extendTokenOnActivity now accessToken).1 = { s with
        tokens := s.tokens.updateWhere (fun row => decide (row.accessToken = accessToken))
          fun row => { row with expiresAt := e.2.extendedExpiry now, lastActivity := now } } := by
  unfold extendTokenOnActivity
  split
  · exact .inl rfl
  · rename_i tokenId row hfind
    obtain ⟨hmem, haccess⟩ := selectAccess_eq_some hfind
    split
    · exact .inl rfl
    · exact .inr ⟨_, hmem, haccess, rfl⟩

theorem Store.refreshAccessToken_eq_ok {r : Refresh}
    (h : s.refreshAccessToken now r = .ok (s', response)) :
    s' = { s with
      tokens := s.tokens.updateWhere (fun row => decide (row.refreshToken = some r.refreshToken))
        fun row => row.refreshed r now } := by
  unfold refreshAccessToken at h
  split at h
  · cases h
  · exact (Prod.mk.inj (Except.ok.inj h)).1.symm

/-- The rows of the store: their strings were drawn, no two rows share one, and none expires after the
time that its exchange fixed. -/
structure Rows (s : State) : Prop where
  drawn : ∀ e ∈ s.store.tokens.items,
    e.1 ∈ s.drawn ∧ e.2.accessToken ∈ s.drawn ∧ ∀ r, e.2.refreshToken = some r → r ∈ s.drawn
  access : ∀ e ∈ s.store.tokens.items, ∀ e' ∈ s.store.tokens.items, e.2.accessToken = e'.2.accessToken → e = e'
  refresh : ∀ e ∈ s.store.tokens.items, ∀ e' ∈ s.store.tokens.items, ∀ r,
    e.2.refreshToken = some r → e'.2.refreshToken = some r → e = e'
  capped : ∀ e ∈ s.store.tokens.items, e.2.expiresAt ≤ e.2.hardExpiresAt
  fixed : ∀ e ∈ s.store.tokens.items, s.fixed.get? e.1 = some e.2.hardExpiresAt

section Steps

variable {pkce : Str → Str} {s s' : State}

theorem Rows.ceiling (h : Rows s) : s.Ceiling := by
  intro accessToken info hinfo
  unfold State.validateToken Store.validateToken at hinfo
  split at hinfo
  · cases hinfo
  · rename_i tokenId row hfind
    have hmem := (Store.selectAccess_eq_some hfind).1
    split at hinfo
    · cases hinfo
    · rename_i hlive
      cases hinfo
      exact ⟨_, h.fixed _ hmem, (not_lt.1 hlive).trans (h.capped _ hmem)⟩

theorem Rows.frame (h : Rows s) (htokens : s'.store.tokens = s.store.tokens) (hfixed : s'.fixed = s.fixed)
    (hdrawn : ∀ x ∈ s.drawn, x ∈ s'.drawn) : Rows s' := by
  refine ⟨?_, ?_, ?_, ?_, ?_⟩ <;> rw [htokens]
  · intro e he
    obtain ⟨hid, haccess, hrefresh⟩ := h.drawn e he
    exact ⟨hdrawn _ hid, hdrawn _ haccess, fun r hr => hdrawn _ (hrefresh r hr)⟩
  · exact h.access
  · exact h.refresh
  · exact h.capped
  · rw [hfixed]
    exact h.fixed

theorem Rows.insert (h : Rows s) {code : Code} {x : Exchange}
    (hdraws : s.Draws [x.tokenId, x.accessToken, x.refreshToken])
    (htokens : s'.store.tokens = s.store.tokens.set x.tokenId (code.issue x s.clock))
    (hfixed : s'.fixed = s.fixed.set x.tokenId (s.clock + hardExpiration))
    (hdrawn : s'.drawn = s.drawn ++ [x.tokenId, x.accessToken, x.refreshToken]) : Rows s' := by
  have hnew : ∀ y ∈ [x.tokenId, x.accessToken, x.refreshToken], y ∉ s.drawn := hdraws.2
  have hrows : ∀ e ∈ s'.store.tokens.items, e = (x.tokenId, code.issue x s.clock) ∨ e ∈ s.store.tokens.items := by
    intro e he
    rw [htokens] at he
    exact Dict.mem_set_items he
  refine ⟨?_, ?_, ?_, ?_, ?_⟩
  · intro e he
    rw [hdrawn]
    rcases hrows e he with rfl | he
    · simp [Code.issue]
    · obtain ⟨hid, haccess, hrefresh⟩ := h.drawn e he
      exact ⟨mem_append_left _ hid, mem_append_left _ haccess, fun r hr => mem_append_left _ (hrefresh r hr)⟩
  · intro e he e' he' heq
    rcases hrows e he with rfl | he <;> rcases hrows e' he' with rfl | he'
    · rfl
    · exact absurd (heq ▸ (h.drawn e' he').2.1) (hnew _ (by simp [Code.issue]))
    · exact absurd (heq ▸ (h.drawn e he).2.1) (hnew _ (by simp [Code.issue]))
    · exact h.access e he e' he' heq
  · intro e he e' he' r hr hr'
    rcases hrows e he with rfl | he <;> rcases hrows e' he' with rfl | he'
    · rfl
    · cases hr
      exact absurd ((h.drawn e' he').2.2 _ hr') (hnew _ (by simp))
    · cases hr'
      exact absurd ((h.drawn e he).2.2 _ hr) (hnew _ (by simp))
    · exact h.refresh e he e' he' r hr hr'
  · intro e he
    rcases hrows e he with rfl | he
    · simp only [Code.issue]
      have hle : accessTokenLifetime ≤ hardExpiration := by decide +kernel
      linarith
    · exact h.capped e he
  · intro e he
    rw [hfixed, Dict.get?_set]
    rcases hrows e he with rfl | he
    · rw [if_pos rfl]
      rfl
    · rw [if_neg]
      · exact h.fixed e he
      · intro hid
        exact hnew x.tokenId (by simp) (hid ▸ (h.drawn e he).1)

theorem Rows.rewrite (h : Rows s) (p : Token → Bool) (f : Token → Token) {news : List Str}
    (hnews : ∀ x ∈ news, x ∉ s.drawn)
    (hone : ∀ e ∈ s.store.tokens.items, ∀ e' ∈ s.store.tokens.items, p e.2 = true → p e'.2 = true → e = e')
    (hf : ∀ e ∈ s.store.tokens.items, p e.2 = true →
      (f e.2).hardExpiresAt = e.2.hardExpiresAt ∧ (f e.2).expiresAt ≤ e.2.hardExpiresAt ∧
      ((f e.2).accessToken = e.2.accessToken ∨ (f e.2).accessToken ∈ news) ∧
      ((f e.2).refreshToken = e.2.refreshToken ∨ ∃ r ∈ news, (f e.2).refreshToken = some r))
    (htokens : s'.store.tokens = s.store.tokens.updateWhere p f) (hfixed : s'.fixed = s.fixed)
    (hdrawn : s'.drawn = s.drawn ++ news) : Rows s' := by
  have hrows : ∀ e ∈ s'.store.tokens.items, ∃ row, (e.1, row) ∈ s.store.tokens.items ∧
      e.2 = if p row then f row else row := by
    intro e he
    rw [htokens] at he
    exact Dict.mem_updateWhere_items.1 he
  have hsame : ∀ {e e' : Str × Token} {row row' : Token}, (e.1, row) = (e'.1, row') →
      e.2 = (if p row then f row else row) → e'.2 = (if p row' then f row' else row') → e = e' := by
    intro e e' row row' heq hb hb'
    obtain ⟨hkey, rfl⟩ := Prod.mk.inj heq
    exact Prod.ext hkey (hb.trans hb'.symm)
  have hold : ∀ {x}, x ∈ s.drawn → x ∈ s'.drawn := by
    intro x hx
    rw [hdrawn]
    exact mem_append_left _ hx
  have hmine : ∀ {x}, x ∈ news → x ∈ s'.drawn := by
    intro x hx
    rw [hdrawn]
    exact mem_append_right _ hx
  refine ⟨?_, ?_, ?_, ?_, ?_⟩
  · intro e he
    obtain ⟨row, hmem, hb⟩ := hrows _ he
    obtain ⟨hid, haccess, hrefresh⟩ := h.drawn _ hmem
    refine ⟨hold hid, ?_, ?_⟩
    · rw [hb]
      split
      · exact (hf _ hmem ‹_›).2.2.1.elim (fun heq => heq ▸ hold haccess) hmine
      · exact hold haccess
    · intro r hr
      rw [hb] at hr
      split at hr
      · rcases (hf _ hmem ‹_›).2.2.2 with heq | ⟨r', hr', heq⟩
        · exact hold (hrefresh r (heq ▸ hr))
        · rw [heq] at hr
          exact Option.some.inj hr ▸ hmine hr'
      · exact hold (hrefresh r hr)
  · intro e he e' he' heq
    obtain ⟨row, hmem, hb⟩ := hrows _ he
    obtain ⟨row', hmem', hb'⟩ := hrows _ he'
    refine hsame ?_ hb hb'
    rw [hb, hb'] at heq
    -- a new string is not one of another row
    split at heq <;> split at heq
    · exact hone _ hmem _ hmem' ‹_› ‹_›
    · rcases (hf _ hmem ‹_›).2.2.1 with hkeep | hnew
      · exact h.access _ hmem _ hmem' (hkeep.symm.trans heq)
      · exact absurd (h.drawn _ hmem').2.1 (heq ▸ hnews _ hnew)
    · rcases (hf _ hmem' ‹_›).2.2.1 with hkeep | hnew
      · exact h.access _ hmem _ hmem' (heq.trans hkeep)
      · exact absurd (h.drawn _ hmem).2.1 (heq ▸ hnews _ hnew)
    · exact h.access _ hmem _ hmem' heq
  · intro e he e' he' r hr hr'
    obtain ⟨row, hmem, hb⟩ := hrows _ he
    obtain ⟨row', hmem', hb'⟩ := hrows _ he'
    refine hsame ?_ hb hb'
    rw [hb] at hr
    rw [hb'] at hr'
    split at hr <;> split at hr'
    · exact hone _ hmem _ hmem' ‹_› ‹_›
    · rcases (hf _ hmem ‹_›).2.2.2 with hkeep | ⟨r₁, hr₁, hnew⟩
      · exact h.refresh _ hmem _ hmem' r (hkeep ▸ hr) hr'
      · rw [hnew] at hr
        exact absurd ((h.drawn _ hmem').2.2 r hr') (Option.some.inj hr ▸ hnews _ hr₁)
    · rcases (hf _ hmem' ‹_›).2.2.2 with hkeep | ⟨r₁, hr₁, hnew⟩
      · exact h.refresh _ hmem _ hmem' r hr (hkeep ▸ hr')
      · rw [hnew] at hr'
        exact absurd ((h.drawn _ hmem).2.2 r hr) (Option.some.inj hr' ▸ hnews _ hr₁)
    · exact h.refresh _ hmem _ hmem' r hr hr'
  · intro e he
    obtain ⟨row, hmem, hb⟩ := hrows _ he
    rw [hb]
    split
    · obtain ⟨hhard, hle, -, -⟩ := hf _ hmem ‹_›
      rw [hhard]
      exact hle
    · exact h.capped _ hmem
  · intro e he
    obtain ⟨row, hmem, hb⟩ := hrows _ he
    rw [hfixed, hb]
    split
    · rw [(hf _ hmem ‹_›).1]
      exact h.fixed _ hmem
    · exact h.fixed _ hmem

theorem Rows.extend (h : Rows s) (accessToken : Str) :
    Rows { s with store := (s.store.extendTokenOnActivity s.clock accessToken).1 } := by
  rcases s.store.extendTokenOnActivity_eq s.clock accessToken with heq | ⟨e, he, haccess, heq⟩
  · rw [heq]
    exact h
  · have hone : ∀ e' ∈ s.store.tokens.items, decide (e'.2.accessToken = accessToken) = true → e' = e :=
      fun e' he' hp => h.access e' he' e he ((of_decide_eq_true hp).trans haccess.symm)
    rw [heq]
    refine h.rewrite (fun row => decide (row.accessToken = accessToken))
      (fun row => { row with expiresAt := e.2.extendedExpiry s.clock, lastActivity := s.clock })
      (fun x hx => absurd hx not_mem_nil) (fun e₁ he₁ e₂ he₂ hp₁ hp₂ => (hone e₁ he₁ hp₁).trans (hone e₂ he₂ hp₂).symm)
      ?_ rfl rfl (append_nil _).symm
    intro e' he' hp
    obtain rfl := hone e' he' hp
    exact ⟨rfl, Token.extendedExpiry_le _ _, .inl rfl, .inl rfl⟩

theorem Rows.refreshed (h : Rows s) {r : Refresh} (hdraws : s.Draws [r.newAccessToken, r.newRefreshToken])
    (hcapped : Capped s (.refreshAccessToken r)) {store : Store} {response : Response}
    (hr : s.store.refreshAccessToken s.clock r = .ok (store, response)) :
    Rows { s with store := store, drawn := s.drawn ++ [r.newAccessToken, r.newRefreshToken] } := by
  rw [Store.refreshAccessToken_eq_ok hr]
  refine h.rewrite (fun row => decide (row.refreshToken = some r.refreshToken)) (fun row => row.refreshed r s.clock)
    hdraws.2 ?_ ?_ rfl rfl rfl
  · exact fun e he e' he' hp hp' => h.refresh e he e' he' _ (of_decide_eq_true hp) (of_decide_eq_true hp')
  · intro e he hp
    exact ⟨rfl, hcapped e he (of_decide_eq_true hp), .inr (by simp [Token.refreshed]), .inr ⟨_, by simp, rfl⟩⟩

theorem Rows.step (h : Rows s) {a : Act} (hcapped : Capped s a) (hs : s.step pkce a = some s') : Rows s' := by
  cases a <;> rw [State.step] at hs
  case tick now =>
    split at hs <;> cases hs
    exact h.frame rfl rfl fun _ hx => hx
  case generateAuthorizationCode code row =>
    split at hs <;> cases hs
    exact h.frame rfl rfl fun _ hx => mem_append_left _ hx
  case exchangeCodeForToken x =>
    split at hs
    · rename_i hdraws
      dsimp only at hs
      split at hs
      · cases hs
        exact h.frame rfl rfl fun _ hx => mem_append_left _ hx
      · rename_i store response hx
        cases hs
        obtain ⟨row, -, rfl⟩ := Store.exchangeCodeForToken_eq_ok hx
        exact h.insert hdraws rfl rfl rfl
    · cases hs
  case extendTokenOnActivity accessToken =>
    cases hs
    exact h.extend accessToken
  case refreshAccessToken r =>
    split at hs
    · rename_i hdraws
      dsimp only at hs
      split at hs
      · cases hs
        exact h.frame rfl rfl fun _ hx => mem_append_left _ hx
      · rename_i store response hr
        cases hs
        exact h.refreshed hdraws hcapped hr
    · cases hs

def Gone (accessToken : Str) (s : State) : Prop :=
  accessToken ∈ s.drawn ∧ ∀ e ∈ s.store.tokens.items, e.2.accessToken = accessToken → e.2.expiresAt < s.clock

variable {accessToken : Str}

theorem Rows.gone (h : Rows s) (hlapsed : s.Lapsed accessToken) : Gone accessToken s := by
  obtain ⟨hdrawn, hnone⟩ := hlapsed
  refine ⟨hdrawn, fun e he haccess => ?_⟩
  unfold State.validateToken Store.validateToken at hnone
  split at hnone
  · rename_i hfind
    exact absurd (decide_eq_true haccess) (List.find?_eq_none.1 hfind e he)
  · rename_i tokenId row hfind
    obtain ⟨hmem, haccess'⟩ := Store.selectAccess_eq_some hfind
    rw [h.access e he _ hmem (haccess.trans haccess'.symm)]
    split at hnone
    · assumption
    · cases hnone

theorem Gone.validateToken (h : Gone accessToken s) : s.validateToken accessToken = none := by
  unfold State.validateToken Store.validateToken
  split
  · rfl
  · rename_i tokenId row hfind
    obtain ⟨hmem, haccess⟩ := Store.selectAccess_eq_some hfind
    exact if_pos (h.2 _ hmem haccess)

theorem Gone.frame (h : Gone accessToken s) (hclock : s.clock ≤ s'.clock)
    (hdrawn : ∀ x ∈ s.drawn, x ∈ s'.drawn)
    (hrows : ∀ e ∈ s'.store.tokens.items, e.2.accessToken = accessToken →
      e ∈ s.store.tokens.items ∨ e.2.expiresAt < s.clock) : Gone accessToken s' := by
  refine ⟨hdrawn _ h.1, fun e he haccess => lt_of_lt_of_le ?_ hclock⟩
  exact (hrows e he haccess).elim (fun hold => h.2 e hold haccess) id

theorem Gone.step (h : Gone accessToken s) {a : Act} (hrows : Rows s) (hcapped : Capped s a)
    (hs : s.step pkce a = some s') : Gone accessToken s' := by
  cases a <;> rw [State.step] at hs
  case tick now =>
    split at hs
    · rename_i hle
      cases hs
      exact h.frame hle (fun _ hx => hx) fun _ he _ => .inl he
    · cases hs
  case generateAuthorizationCode code row =>
    split at hs <;> cases hs
    exact h.frame le_rfl (fun _ hx => mem_append_left _ hx) fun _ he _ => .inl he
  case exchangeCodeForToken x =>
    split at hs
    · rename_i hdraws
      dsimp only at hs
      split at hs
      · cases hs
        exact h.frame le_rfl (fun _ hx => mem_append_left _ hx) fun _ he _ => .inl he
      · rename_i store response hx
        cases hs
        obtain ⟨row, -, rfl⟩ := Store.exchangeCodeForToken_eq_ok hx
        refine h.frame le_rfl (fun _ hx => mem_append_left _ hx) fun e he haccess => ?_
        rcases Dict.mem_set_items he with rfl | he
        · exact absurd (haccess ▸ h.1) (hdraws.2 _ (by simp [Code.issue]))
        · exact .inl he
    · cases hs
  case extendTokenOnActivity accessToken' =>
    cases hs
    refine h.frame le_rfl (fun _ hx => hx) fun e he haccess => ?_
    rcases s.store.extendTokenOnActivity_eq s.clock accessToken' with heq | ⟨found, hfound, haccess', heq⟩
    · rw [heq] at he
      exact .inl he
    · rw [heq] at he
      obtain ⟨row, hmem, hb⟩ := Dict.mem_updateWhere_items.1 he
      split at hb
      · rename_i hp
        obtain rfl := hrows.access _ hmem _ hfound ((of_decide_eq_true hp).trans haccess'.symm)
        rw [hb] at haccess ⊢
        -- the row has expired, so it is extended only after its hard expiry
        have hpast := (hcapped _ hmem haccess').resolve_left (not_le.2 (h.2 _ hmem haccess))
        exact .inr ((Token.extendedExpiry_le _ _).trans_lt hpast)
      · rw [← hb] at hmem
        exact .inl hmem
  case refreshAccessToken r =>
    split at hs
    · rename_i hdraws
      dsimp only at hs
      split at hs
      · cases hs
        exact h.frame le_rfl (fun _ hx => mem_append_left _ hx) fun _ he _ => .inl he
      · rename_i store response hr
        cases hs
        obtain rfl := Store.refreshAccessToken_eq_ok hr
        refine h.frame le_rfl (fun _ hx => mem_append_left _ hx) fun e he haccess => ?_
        obtain ⟨row, hmem, hb⟩ := Dict.mem_updateWhere_items.1 he
        split at hb
        · rw [hb] at haccess
          exact absurd (haccess ▸ h.1) (hdraws.2 _ (by simp [Token.refreshed]))
        · rw [← hb] at hmem
          exact .inl hmem
    · cases hs

theorem Rows.fresh (now : ℚ) : Rows (.fresh now) :=
  ⟨nofun, nofun, nofun, nofun, nofun⟩

end Steps

theorem rows_of_capped {s : State} (h : (system pkce).Reachable Capped s) : Rows s := by
  refine h.invariant ?_ ?_
  · rintro s ⟨now, rfl⟩
    exact Rows.fresh now
  · exact fun s a s' hrows hcapped hs => hrows.step hcapped hs

/-- In runs whose extensions and refreshes are capped, no token is accepted after its hard expiry, and
one that is not accepted any more is never accepted again. -/
theorem ceiling_of_capped {pkce : Str → Str} {s s' : State} (h : (system pkce).Reachable Capped s)
    (h' : ((system pkce).startedAt s).Reachable Capped s') :
    s.Ceiling ∧ ∀ accessToken, s.Lapsed accessToken → s'.validateToken accessToken = none := by
  have hrows := rows_of_capped h
  refine ⟨hrows.ceiling, fun accessToken hlapsed => ?_⟩
  have hinv : Rows s' ∧ Gone accessToken s' := by
    refine h'.invariant (I := fun s => Rows s ∧ Gone accessToken s) ?_ ?_
    · rintro s₁ rfl
      exact ⟨hrows, hrows.gone hlapsed⟩
    · exact fun s₁ a s₂ hinv hcapped hs => ⟨hinv.1.step hcapped hs, hinv.2.step hinv.1 hcapped hs⟩
  exact hinv.2.validateToken

/-! ### Runs -/

def plain : Str → Str := id

def codeRow : Code := ⟨"client", "alice", "v", "http://localhost", 0, false⟩

def firstPair : Exchange := ⟨"c", "v", "client", "t", "a1", "r1"⟩

def secondPair : Refresh := ⟨"r1", "client", "a2", "r2"⟩

/-- Extended after five hours and then refreshed: the first access token is not accepted any more, the
second one is. -/
theorem ceiling_of_capped_refreshed : ∃ s s', (system plain).Reachable Capped s ∧
    ((system plain).startedAt s).Reachable Capped s' ∧
    (s.validateToken "a1", s.clock, (s'.validateToken "a2").map TokenInfo.tokenId, s'.clock) =
      (none, 18000, some "t".toList, 36000) ∧
    s.Ceiling ∧ ∀ accessToken, s.Lapsed accessToken → s'.validateToken accessToken = none := by
  exact exists_of_runs_and (.fresh 0)
    [.generateAuthorizationCode "c" codeRow, .exchangeCodeForToken firstPair, .tick 18000,
     .extendTokenOnActivity "a1", .refreshAccessToken secondPair] [.tick 36000] (fresh_isInit plain 0)
     (by decide +kernel)
    fun s s' hs hs' => ceiling_of_capped hs hs'

/-- A refresh an hour before the hard expiry hands out a token that is accepted for seven hours after it,
and an expired token is accepted again once it has been extended. -/
theorem accepted_after_hard_expiry :
    (∃ s, (system plain).Reachable Any s ∧ ¬ s.Ceiling) ∧
    ∃ s s' accessToken, (system plain).Reachable Any s ∧
      ((system plain).startedAt s).Reachable Any s' ∧
      s.Lapsed accessToken ∧ (s'.validateToken accessToken).isSome := by
  constructor
  · refine exists_of_run_imp (fun s => s.clock = 2600000 ∧
      (s.validateToken "a2").map TokenInfo.tokenId = some "t".toList ∧
        s.fixed.get? "t" = some 2592000) (.fresh 0)
      [.generateAuthorizationCode "c" codeRow, .exchangeCodeForToken firstPair, .tick 2588400,
       .refreshAccessToken secondPair, .tick 2600000] (fresh_isInit plain 0) (by decide +kernel)
      fun s _ ⟨hclock, hinfo, hfixed⟩ hceiling => ?_
    obtain ⟨info, hinfo, hid⟩ := Option.map_eq_some_iff.1 hinfo
    obtain ⟨hard, hhard, hle⟩ := hceiling _ info hinfo
    rw [hid, hfixed] at hhard
    rw [hclock, ← Option.some.inj hhard] at hle
    exact absurd hle (by decide +kernel)
  · obtain ⟨s, s', hs, hs', hlapsed, hsome⟩ := exists_of_runs_mem (M := system plain) (C := Any)
      (P := fun s s' => ("a1".toList ∈ s.drawn ∧ s.validateToken "a1" = none) ∧
      (s'.validateToken "a1").isSome) (.fresh 0)
      [.generateAuthorizationCode "c" codeRow, .exchangeCodeForToken firstPair, .tick 30000]
      [.extendTokenOnActivity "a1"] (fresh_isInit plain 0) (by decide +kernel)
    exact ⟨s, s', _, hs, hs', hlapsed, hsome⟩

end CodeIndexer.OAuth
