import CodeIndexer.Coalescer.Delivery

/-!
# The single-flight registry

`submit` over the lane: a caller whose cache key is not in `_inflight_keys` registers a fresh future
under it and owns the key; other callers of that key join the future. The owner completes the future and
pops the key on a cache hit, after the entry's future (non-dispatcher), or after `_dispatch`. Between
registration and those places `submit` calls the cache, the provider's token counter and the live
ceiling, and what these raise leaves `submit` at once (`leave`).

`ended` are the owned futures of the calls that have returned or raised.
-/

namespace CodeIndexer.Coalescer

open PyText TransitionSystem Function

variable {T V E : Type} [DecidableEq T]

/-- The query embedding cache as `submit` finds it; `off` stands for a mode that is off, a cache that is
not enabled for the provider, and no cache. -/
inductive CacheMode
  | off
  | shadow
  | on
deriving DecidableEq

/-- `cache.lookup`, and the decoding of what it returns: a blob of another length than the dimension asks
for, or one that `struct.unpack` rejects, is treated like no blob. -/
inductive Lookup (V : Type)
  | raises
  | miss
  | found (vec : V)

/-- `cache.record_hit`; a `struct.error` out of it is taken for a corrupt blob. -/
inductive RecordHit
  | raises
  | structError
  | recorded

/-- The step of a `submit` call that comes next. `own` is the key and the future it registered. -/
inductive Pc (V : Type)
  | idle
  | registering (e : Entry) (mode : CacheMode) (key : Str)
  | joining (f : ℕ)
  | looking (e : Entry) (own : Str × ℕ)
  | recording (e : Entry) (own : Str × ℕ) (vec : V)
  | hit (own : Str × ℕ) (vec : V)
  | popping (own : Str × ℕ)
  | counting (e : Entry) (own : Option (Str × ℕ))
  | enqueuing (e : Entry) (own : Option (Str × ℕ)) (n : ℤ)
  | awaiting (own : Option (Str × ℕ)) (id : ℕ)
  | dispatching (own : Option (Str × ℕ)) (id : ℕ)

structure Submits (T V E : Type) where
  lane : Lane V E
  inflightKeys : Str → Option ℕ
  numFutures : ℕ
  owned : ℕ → Option (Outcome V E)
  pc : T → Pc V
  ended : List ℕ

/-- `none` where a callable raises: the anchor depth (or anything else before the registration), the
token counter, the ceiling. -/
inductive SubmitAct (T V E : Type)
  | lane (a : Act V E)
  | submit (t : T) (e : Entry) (mode : CacheMode) (noEmbeddingCacheShortcut : Bool) (anchor : Option ℤ)
  | register (t : T)
  | join (t : T) (timedOut : Bool)
  | lookup (t : T) (answer : Lookup V)
  | recordHit (t : T) (answer : RecordHit)
  | setHit (t : T)
  | pop (t : T)
  | countTokens (t : T) (n : Option ℤ)
  | enqueue (t : T) (cap : Option ℤ)
  | entryDone (t : T)
  | dispatched (t : T)

namespace Submits

def goto (s : Submits T V E) (t : T) (pc : Pc V) : Submits T V E := { s with pc := update s.pc t pc }

/-- `submit` raises where no handler completes what it owns. -/
def leave (s : Submits T V E) (t : T) : Option (Str × ℕ) → Submits T V E
  | none => s.goto t .idle
  | some (_, f) => { s with ended := f :: s.ended }.goto t .idle

def completeOwned (s : Submits T V E) (f : ℕ) (o : Outcome V E) : Submits T V E :=
  match s.owned f with
  | some _ => s
  | none => { s with owned := update s.owned f (some o) }

def settle (s : Submits T V E) (t : T) (o : Outcome V E) : Option (Str × ℕ) → Submits T V E
  | none => s.goto t .idle
  | some own => (s.completeOwned own.2 o).goto t (.popping own)

def step (cfg : Config) (s : Submits T V E) : SubmitAct T V E → Option (Submits T V E)
  | .lane a =>
    match a.dispatcher with
    | none => none
    | some _ => (s.lane.step cfg a).map fun L => { s with lane := L }
  | .submit t e mode noEmbeddingCacheShortcut anchor =>
    match s.pc t with
    | .idle =>
      if mode = .off ∨ noEmbeddingCacheShortcut = true then some (s.goto t (.counting e none))
      else match anchor with
        | none => some s
        | some anchor =>
          match buildKey e.text anchor cfg.configDigest with
          | none => some (s.goto t (.counting e none))
          | some key => some (s.goto t (.registering e mode key))
    | _ => none
  | .register t =>
    match s.pc t with
    | .registering e mode key =>
      match s.inflightKeys key with
      | some f => some (s.goto t (.joining f))
      | none =>
        let own := (key, s.numFutures)
        some ({ s with
          inflightKeys := update s.inflightKeys key (some s.numFutures)
          numFutures := s.numFutures + 1 }.goto t
            (if mode = CacheMode.on then .looking e own else .counting e (some own)))
    | _ => none
  | .join t timedOut =>
    match s.pc t with
    | .joining f => if timedOut || (s.owned f).isSome then some (s.goto t .idle) else none
    | _ => none
  | .lookup t answer =>
    match s.pc t with
    | .looking e own =>
      match answer with
      | .raises => some (s.leave t (some own))
      | .miss => some (s.goto t (.counting e (some own)))
      | .found vec => some (s.goto t (.recording e own vec))
    | _ => none
  | .recordHit t answer =>
    match s.pc t with
    | .recording e own vec =>
      match answer with
      | .raises => some (s.leave t (some own))
      | .structError => some (s.goto t (.counting e (some own)))
      | .recorded => some (s.goto t (.hit own vec))
    | _ => none
  | .setHit t =>
    match s.pc t with
    | .hit own vec => some ((s.completeOwned own.2 (.result vec)).goto t (.popping own))
    | _ => none
  | .pop t =>
    match s.pc t with
    | .popping (key, f) =>
      some ({ s with
        inflightKeys := update s.inflightKeys key none
        ended := f :: s.ended }.goto t .idle)
    | _ => none
  | .countTokens t n =>
    match s.pc t with
    | .counting e own =>
      match n with
      | none => some (s.leave t own)
      | some n => some (s.goto t (.enqueuing e own n))
    | _ => none
  | .enqueue t cap =>
    match s.pc t with
    | .enqueuing e own n =>
      match cap with
      | none => some (s.leave t own)
      | some cap =>
        let id := s.lane.numEntries
        let L := s.lane.enqueue cfg e n cap
        some ({ s with lane := L }.goto t (if L.leads id then .dispatching own id else .awaiting own id))
    | _ => none
  | .entryDone t =>
    match s.pc t with
    | .awaiting own id => (s.lane.future id).map fun o => s.settle t o own
    | _ => none
  | .dispatched t =>
    match s.pc t with
    | .dispatching own id =>
      match (s.lane.batch (s.lane.home id)).dispatch with
      | .finished => (s.lane.future id).map fun o => s.settle t o own
      | _ => none
    | _ => none

def init : Submits T V E := ⟨Lane.init, fun _ => none, 0, fun _ => none, fun _ => .idle, []⟩

end Submits

def coalescer (T V E : Type) [DecidableEq T] (cfg : Config) :
    TransitionSystem (Submits T V E) (SubmitAct T V E) where
  init s := s = Submits.init
  step := Submits.step cfg

/-! ### Who owns what -/

def Pc.owns : Pc V → Option (Str × ℕ)
  | .looking _ own | .recording _ own _ | .hit own _ | .popping own => some own
  | .counting _ own | .enqueuing _ own _ | .awaiting own _ | .dispatching own _ => own
  | _ => none

def Pc.completed : Pc V → Bool
  | .popping _ => true
  | _ => false

structure Registry (s : Submits T V E) : Prop where
  registered : ∀ t key f, (s.pc t).owns = some (key, f) → s.inflightKeys key = some f ∧ f < s.numFutures
  owner : ∀ key f, s.inflightKeys key = some f → ∃ t, (s.pc t).owns = some (key, f)
  unique : ∀ t t' key key' f, (s.pc t).owns = some (key, f) → (s.pc t').owns = some (key', f) → t = t'
  done : ∀ t key f, (s.pc t).owns = some (key, f) → (s.owned f).isSome = (s.pc t).completed
  ended : ∀ f ∈ s.ended, f < s.numFutures ∧ (s.owned f).isSome ∧ ∀ t key, (s.pc t).owns ≠ some (key, f)
  fresh : ∀ f, s.numFutures ≤ f → s.owned f = none

namespace Registry

variable {s s' : Submits T V E} {t : T}

variable {pc : Pc V} {key : Str}

theorem move (h : Registry s) (hkeys : s'.inflightKeys = s.inflightKeys)
    (hnum : s'.numFutures = s.numFutures) (howned : s'.owned = s.owned) (hended : s'.ended = s.ended)
    (hpc : s'.pc = update s.pc t pc) (howns : pc.owns = (s.pc t).owns)
    (hdone : pc.completed = (s.pc t).completed ∨ pc.owns = none) : Registry s' := by
  have howns' : ∀ u, (s'.pc u).owns = (s.pc u).owns := by
    intro u
    rw [hpc]
    by_cases hu : u = t
    · subst hu
      rw [update_self, howns]
    · rw [update_of_ne hu]
  refine ⟨?_, ?_, ?_, ?_, ?_, ?_⟩
  · intro u key f hu
    rw [howns'] at hu
    rw [hkeys, hnum]
    exact h.registered u key f hu
  · intro key f hkey
    rw [hkeys] at hkey
    obtain ⟨u, hu⟩ := h.owner key f hkey
    exact ⟨u, (howns' u).trans hu⟩
  · intro u u' key key' f hu hu'
    rw [howns'] at hu hu'
    exact h.unique u u' key key' f hu hu'
  · intro u key f hu
    have hold := h.done u key f ((howns' u).symm.trans hu)
    rw [howned, hold, hpc]
    by_cases hut : u = t
    · subst hut
      rw [update_self]
      rcases hdone with hdone | hnone
      · exact hdone.symm
      · rw [hpc, update_self, hnone] at hu
        cases hu
    · rw [update_of_ne hut]
  · intro f hf
    rw [hended] at hf
    obtain ⟨hlt, hsome, hfree⟩ := h.ended f hf
    refine ⟨hnum ▸ hlt, howned ▸ hsome, fun u key => ?_⟩
    rw [howns']
    exact hfree u key
  · intro f hf
    rw [hnum] at hf
    rw [howned]
    exact h.fresh f hf

theorem goto (h : Registry s) (howns : pc.owns = (s.pc t).owns)
    (hdone : pc.completed = (s.pc t).completed ∨ pc.owns = none) : Registry (s.goto t pc) :=
  h.move rfl rfl rfl rfl rfl howns hdone

theorem register (h : Registry s) (hidle : (s.pc t).owns = none)
    (habsent : s.inflightKeys key = none) (howns : pc.owns = some (key, s.numFutures))
    (hdone : pc.completed = false) :
    Registry ({ s with
      inflightKeys := update s.inflightKeys key (some s.numFutures)
      numFutures := s.numFutures + 1 }.goto t pc) := by
  have hother : ∀ u, u ≠ t → update s.pc t pc u = s.pc u := fun u hu => update_of_ne hu _ _
  have hself : update s.pc t pc t = pc := update_self _ _ _
  -- what another call owns is under another key and older than the new future
  have hold : ∀ u key' f, (s.pc u).owns = some (key', f) → u ≠ t ∧ key' ≠ key ∧ f < s.numFutures := by
    intro u key' f hu
    obtain ⟨hkey, hlt⟩ := h.registered u key' f hu
    refine ⟨?_, ?_, hlt⟩
    · rintro rfl
      rw [hidle] at hu
      cases hu
    · rintro rfl
      rw [habsent] at hkey
      cases hkey
  have hcases : ∀ u key' f, (update s.pc t pc u).owns = some (key', f) →
      (u = t ∧ key' = key ∧ f = s.numFutures) ∨ (s.pc u).owns = some (key', f) := by
    intro u key' f hu
    by_cases hut : u = t
    · subst hut
      rw [hself, howns] at hu
      obtain ⟨rfl, rfl⟩ := Prod.mk.inj (Option.some.inj hu)
      exact .inl ⟨rfl, rfl, rfl⟩
    · rw [hother u hut] at hu
      exact .inr hu
  refine ⟨?_, ?_, ?_, ?_, ?_, ?_⟩
  · intro u key' f hu
    rcases hcases u key' f hu with ⟨-, rfl, rfl⟩ | hu
    · exact ⟨update_self _ _ _, Nat.lt_succ_self _⟩
    · obtain ⟨-, hne, hlt⟩ := hold u key' f hu
      exact ⟨(update_of_ne hne _ _).trans (h.registered u key' f hu).1, Nat.lt_succ_of_lt hlt⟩
  · intro key' f hkey
    have hkey : update s.inflightKeys key (some s.numFutures) key' = some f := hkey
    by_cases hne : key' = key
    · subst hne
      rw [update_self] at hkey
      cases hkey
      exact ⟨t, (congrArg Pc.owns hself).trans howns⟩
    · rw [update_of_ne hne] at hkey
      obtain ⟨u, hu⟩ := h.owner key' f hkey
      exact ⟨u, (congrArg Pc.owns (hother u (hold u key' f hu).1)).trans hu⟩
  · intro u u' key₁ key₂ f hu hu'
    rcases hcases u key₁ f hu with ⟨rfl, -, rfl⟩ | hu
    · rcases hcases u' key₂ _ hu' with ⟨rfl, -, -⟩ | hu'
      · rfl
      · exact absurd (hold u' key₂ _ hu').2.2 (lt_irrefl _)
    · rcases hcases u' key₂ f hu' with ⟨-, -, rfl⟩ | hu'
      · exact absurd (hold u key₁ _ hu).2.2 (lt_irrefl _)
      · exact h.unique u u' key₁ key₂ f hu hu'
  · intro u key' f hu
    show (s.owned f).isSome = (update s.pc t pc u).completed
    rcases hcases u key' f hu with ⟨rfl, -, rfl⟩ | hu
    · rw [hself, hdone, h.fresh _ le_rfl]
      rfl
    · rw [hother u (hold u key' f hu).1]
      exact h.done u key' f hu
  · intro f hf
    obtain ⟨hlt, hsome, hfree⟩ := h.ended f hf
    refine ⟨Nat.lt_succ_of_lt hlt, hsome, fun u key' hu => ?_⟩
    rcases hcases u key' f hu with ⟨-, -, rfl⟩ | hu
    · exact lt_irrefl _ hlt
    · exact hfree u key' hu
  · intro f hf
    exact h.fresh f (Nat.le_of_succ_le hf)

theorem complete (h : Registry s) {f : ℕ} (howns : (s.pc t).owns = some (key, f))
    (hdone : (s.pc t).completed = false) (o : Outcome V E) :
    Registry ((s.completeOwned f o).goto t (.popping (key, f))) := by
  have hnone : s.owned f = none := by
    rw [← Option.not_isSome_iff_eq_none, h.done t key f howns, hdone]
    exact Bool.false_ne_true
  have hset : s.completeOwned f o = { s with owned := update s.owned f (some o) } := by
    rw [Submits.completeOwned, hnone]
  have howns' : ∀ u, (update s.pc t (.popping (key, f)) u).owns = (s.pc u).owns := by
    intro u
    by_cases hu : u = t
    · subst hu
      rw [update_self, howns]
      rfl
    · rw [update_of_ne hu]
  rw [hset]
  refine ⟨?_, ?_, ?_, ?_, ?_, ?_⟩
  · intro u key' f' hu
    exact h.registered u key' f' ((howns' u).symm.trans hu)
  · intro key' f' hkey
    obtain ⟨u, hu⟩ := h.owner key' f' hkey
    exact ⟨u, (howns' u).trans hu⟩
  · intro u u' key₁ key₂ f' hu hu'
    exact h.unique u u' key₁ key₂ f' ((howns' u).symm.trans hu) ((howns' u').symm.trans hu')
  · intro u key' f' hu
    have hold : (s.pc u).owns = some (key', f') := (howns' u).symm.trans hu
    show (update s.owned f (some o) f').isSome = (update s.pc t _ u).completed
    by_cases hut : u = t
    · subst hut
      obtain ⟨rfl, rfl⟩ := Prod.mk.inj (Option.mem_unique howns hold)
      rw [update_self, update_self]
      rfl
    · have hne : f' ≠ f := by
        rintro rfl
        exact hut (h.unique u t key' key f' hold howns)
      rw [update_of_ne hne, update_of_ne hut]
      exact h.done u key' f' hold
  · intro f' hf
    obtain ⟨hlt, hsome, hfree⟩ := h.ended f' hf
    have hne : f' ≠ f := by
      rintro rfl
      exact hfree t key howns
    refine ⟨hlt, ?_, fun u key' hu => hfree u key' ((howns' u).symm.trans hu)⟩
    show (update s.owned f (some o) f').isSome
    rw [update_of_ne hne]
    exact hsome
  · intro f' hf
    have hne : f' ≠ f := by
      rintro rfl
      exact absurd (h.registered t key f' howns).2 (Nat.not_lt.2 hf)
    exact (update_of_ne hne _ _).trans (h.fresh f' hf)

theorem pop (h : Registry s) {f : ℕ} (hpc : s.pc t = .popping (key, f)) :
    Registry ({ s with
      inflightKeys := update s.inflightKeys key none
      ended := f :: s.ended }.goto t .idle) := by
  have howns : (s.pc t).owns = some (key, f) := by
    rw [hpc]
    rfl
  obtain ⟨hkey, hlt⟩ := h.registered t key f howns
  have hcases : ∀ u key' f', (update s.pc t .idle u).owns = some (key', f') →
      u ≠ t ∧ (s.pc u).owns = some (key', f') ∧ key' ≠ key ∧ f' ≠ f := by
    intro u key' f' hu
    have hut : u ≠ t := by
      rintro rfl
      rw [update_self] at hu
      cases hu
    rw [update_of_ne hut] at hu
    have hf : f' ≠ f := by
      rintro rfl
      exact hut (h.unique u t key' key f' hu howns)
    refine ⟨hut, hu, ?_, hf⟩
    rintro rfl
    exact hf (Option.mem_unique (h.registered u key' f' hu).1 hkey)
  refine ⟨?_, ?_, ?_, ?_, ?_, h.fresh⟩
  · intro u key' f' hu
    obtain ⟨-, hu, hne, -⟩ := hcases u key' f' hu
    obtain ⟨hreg, hlt'⟩ := h.registered u key' f' hu
    exact ⟨(update_of_ne hne _ _).trans hreg, hlt'⟩
  · intro key' f' hreg
    have hreg : update s.inflightKeys key none key' = some f' := hreg
    by_cases hne : key' = key
    · subst hne
      rw [update_self] at hreg
      cases hreg
    · rw [update_of_ne hne] at hreg
      obtain ⟨u, hu⟩ := h.owner key' f' hreg
      have hut : u ≠ t := by
        rintro rfl
        exact hne (Prod.mk.inj (Option.mem_unique hu howns)).1
      exact ⟨u, (congrArg Pc.owns (update_of_ne hut _ _)).trans hu⟩
  · intro u u' key₁ key₂ f' hu hu'
    exact h.unique u u' key₁ key₂ f' (hcases u key₁ f' hu).2.1 (hcases u' key₂ f' hu').2.1
  · intro u key' f' hu
    obtain ⟨hut, hu, -, -⟩ := hcases u key' f' hu
    show (s.owned f').isSome = (update s.pc t _ u).completed
    rw [update_of_ne hut]
    exact h.done u key' f' hu
  · intro f' hf
    rcases List.mem_cons.1 hf with rfl | hf
    · refine ⟨hlt, ?_, fun u key' hu => (hcases u key' f' hu).2.2.2 rfl⟩
      show (s.owned f').isSome = true
      rw [h.done t key f' howns, hpc]
      rfl
    · obtain ⟨hlt', hsome, hfree⟩ := h.ended f' hf
      exact ⟨hlt', hsome, fun u key' hu => hfree u key' (hcases u key' f' hu).2.1⟩

end Registry

/-! ### What a step does -/

/-- Nothing raises in a call that has registered a key and not yet reached a handler: not `cache.lookup`,
`cache.record_hit` (but for `struct.error`), the token counter or the ceiling. -/
def noOwnerRaise (s : Submits T V E) : SubmitAct T V E → Bool
  | .lookup _ .raises | .recordHit _ .raises => false
  | .countTokens t none | .enqueue t none => (s.pc t).owns.isNone
  | _ => true

def Pc.entry : Pc V → Option ℕ
  | .awaiting _ id | .dispatching _ id => some id
  | _ => none

/-- The kinds of step; `strand` is what `noOwnerRaise` excludes. -/
inductive Effect (cfg : Config) (s : Submits T V E) : Bool → Submits T V E → Prop
  | lane {a : Act V E} {b : ℕ} {L : Lane V E} (ha : a.dispatcher = some b) (hs : s.lane.step cfg a = some L) :
    Effect cfg s true { s with lane := L }
  | stay : Effect cfg s true s
  | move {t : T} {pc : Pc V} (howns : pc.owns = (s.pc t).owns)
    (hdone : pc.completed = (s.pc t).completed ∨ pc.owns = none) (hentry : pc.entry = none) :
    Effect cfg s true (s.goto t pc)
  | register {t : T} {key : Str} {pc : Pc V} (hidle : (s.pc t).owns = none)
    (habsent : s.inflightKeys key = none) (howns : pc.owns = some (key, s.numFutures))
    (hdone : pc.completed = false) (hentry : pc.entry = none) :
    Effect cfg s true ({ s with
      inflightKeys := update s.inflightKeys key (some s.numFutures)
      numFutures := s.numFutures + 1 }.goto t pc)
  | enqueue {t : T} {pc : Pc V} (e : Entry) (n cap : ℤ) (howns : pc.owns = (s.pc t).owns)
    (hdone : pc.completed = (s.pc t).completed) (hentry : pc.entry = some s.lane.numEntries) :
    Effect cfg s true ({ s with lane := s.lane.enqueue cfg e n cap }.goto t pc)
  | complete {t : T} {key : Str} {f : ℕ} (o : Outcome V E) (howns : (s.pc t).owns = some (key, f))
    (hdone : (s.pc t).completed = false) :
    Effect cfg s true ((s.completeOwned f o).goto t (.popping (key, f)))
  | pop {t : T} {key : Str} {f : ℕ} (hpc : s.pc t = .popping (key, f)) :
    Effect cfg s true ({ s with
      inflightKeys := update s.inflightKeys key none
      ended := f :: s.ended }.goto t .idle)
  | strand {t : T} {key : Str} {f : ℕ} (howns : (s.pc t).owns = some (key, f))
    (hdone : (s.pc t).completed = false) : Effect cfg s false (s.leave t (some (key, f)))

variable {cfg : Config} {s s' : Submits T V E}

variable {own : Option (Str × ℕ)}

theorem Effect.leave {t : T} (howns : (s.pc t).owns = own)
    (hdone : (s.pc t).completed = false) : Effect cfg s own.isNone (s.leave t own) := by
  rcases own with _ | ⟨key, f⟩
  · exact .move howns.symm (.inr rfl) rfl
  · exact .strand howns hdone

theorem Effect.settle {t : T} (o : Outcome V E) (howns : (s.pc t).owns = own)
    (hdone : (s.pc t).completed = false) : Effect cfg s true (s.settle t o own) := by
  rcases own with _ | ⟨key, f⟩
  · exact .move howns.symm (.inr rfl) rfl
  · exact .complete o howns hdone

theorem Effect.of_step {a : SubmitAct T V E} (hs : s.step cfg a = some s') : Effect cfg s (noOwnerRaise s a) s' := by
  cases a <;> simp only [Submits.step] at hs
  case lane a =>
    split at hs
    · cases hs
    · rename_i hd
      obtain ⟨L, hL, rfl⟩ := Option.map_eq_some_iff.1 hs
      exact .lane hd hL
  case submit t e mode bypass anchor =>
    split at hs
    · rename_i hpc
      have hmove : ∀ pc : Pc V, pc.owns = none → pc.entry = none → Effect cfg s true (s.goto t pc) := by
        intro pc hnone hentry
        refine .move ?_ (.inr hnone) hentry
        rw [hpc, hnone]
        rfl
      split at hs
      · cases hs
        exact hmove _ rfl rfl
      · split at hs
        · cases hs
          exact .stay
        · split at hs <;> cases hs
          · exact hmove _ rfl rfl
          · exact hmove _ rfl rfl
    · cases hs
  case register t =>
    split at hs
    · rename_i e mode key hpc
      have howns : (s.pc t).owns = none := by
        rw [hpc]
        rfl
      split at hs
      · cases hs
        exact .move howns.symm (.inr rfl) rfl
      · rename_i habsent
        cases hs
        refine .register howns habsent ?_ ?_ ?_ <;> split <;> rfl
    · cases hs
  case join t timedOut =>
    split at hs
    · rename_i hpc
      split at hs <;> cases hs
      refine .move ?_ (.inr rfl) rfl
      rw [hpc]
      rfl
    · cases hs
  case lookup t answer =>
    split at hs
    · rename_i e own hpc
      cases answer with
      | raises =>
        cases hs
        refine .strand ?_ ?_ <;> rw [hpc] <;> rfl
      | miss | found vec =>
        cases hs
        refine .move ?_ (.inl ?_) rfl <;> rw [hpc] <;> rfl
    · cases hs
  case recordHit t answer =>
    split at hs
    · rename_i e own vec hpc
      cases answer with
      | raises =>
        cases hs
        refine .strand ?_ ?_ <;> rw [hpc] <;> rfl
      | structError | recorded =>
        cases hs
        refine .move ?_ (.inl ?_) rfl <;> rw [hpc] <;> rfl
    · cases hs
  case setHit t =>
    split at hs
    · rename_i own vec hpc
      cases hs
      refine .complete _ ?_ ?_ <;> rw [hpc] <;> rfl
    · cases hs
  case pop t =>
    split at hs
    · rename_i hpc
      cases hs
      exact .pop hpc
    · cases hs
  case countTokens t n =>
    split at hs
    · rename_i e own hpc
      have howns : (s.pc t).owns = own := by
        rw [hpc]
        rfl
      have hdone : (s.pc t).completed = false := by
        rw [hpc]
        rfl
      rcases n with _ | n
      · cases hs
        rw [noOwnerRaise, howns]
        exact .leave howns hdone
      · cases hs
        exact .move howns.symm (.inl hdone.symm) rfl
    · cases hs
  case enqueue t cap =>
    split at hs
    · rename_i e own n hpc
      have howns : (s.pc t).owns = own := by
        rw [hpc]
        rfl
      have hdone : (s.pc t).completed = false := by
        rw [hpc]
        rfl
      rcases cap with _ | cap
      · cases hs
        rw [noOwnerRaise, howns]
        exact .leave howns hdone
      · cases hs
        refine .enqueue e n cap ?_ ?_ ?_
        · rw [howns]
          split <;> rfl
        · rw [hdone]
          split <;> rfl
        · split <;> rfl
    · cases hs
  case entryDone t =>
    split at hs
    · rename_i own id hpc
      obtain ⟨o, -, rfl⟩ := Option.map_eq_some_iff.1 hs
      refine .settle o ?_ ?_ <;> rw [hpc] <;> rfl
    · cases hs
  case dispatched t =>
    split at hs
    · rename_i own id hpc
      split at hs
      · obtain ⟨o, -, rfl⟩ := Option.map_eq_some_iff.1 hs
        refine .settle o ?_ ?_ <;> rw [hpc] <;> rfl
      · cases hs
    · cases hs

/-! ### Runs -/

theorem Registry.effect (h : Registry s) (he : Effect cfg s true s') : Registry s' := by
  cases he with
  | lane _ _ => exact ⟨h.registered, h.owner, h.unique, h.done, h.ended, h.fresh⟩
  | stay => exact h
  | move howns hdone _ => exact h.goto howns hdone
  | register hidle habsent howns hdone _ => exact h.register hidle habsent howns hdone
  | enqueue _ _ _ howns hdone _ => exact h.move rfl rfl rfl rfl rfl howns (.inl hdone)
  | complete o howns hdone => exact h.complete howns hdone o
  | pop hpc => exact h.pop hpc

theorem Registry.stranded (h : Registry s) (he : Effect cfg s false s') :
    ∃ f ∈ s'.ended, s'.owned f = none ∧ ∃ key, s'.inflightKeys key = some f := by
  cases he with
  | strand howns hdone =>
    refine ⟨_, List.mem_cons_self, ?_, _, (h.registered _ _ _ howns).1⟩
    show s.owned _ = none
    rw [← Option.not_isSome_iff_eq_none, h.done _ _ _ howns, hdone]
    exact Bool.false_ne_true

omit [DecidableEq T] in
theorem Registry.init : Registry (Submits.init : Submits T V E) :=
  ⟨nofun, nofun, nofun, nofun, nofun, fun _ _ => rfl⟩

theorem Registry.of_reachable (h : (coalescer T V E cfg).Reachable (fun s a => noOwnerRaise s a) s) : Registry s := by
  refine h.invariant ?_ ?_
  · rintro s rfl
    exact Registry.init
  · intro s a s' hreg hraise hs
    have he := Effect.of_step hs
    rw [hraise] at he
    exact hreg.effect he

omit [DecidableEq T] in
theorem Registry.popped (h : Registry s) {f : ℕ} (hf : f ∈ s.ended) (key : Str) : s.inflightKeys key ≠ some f := by
  intro hkey
  obtain ⟨t, ht⟩ := h.owner key f hkey
  exact (h.ended f hf).2.2 t key ht

/-- In every run in which nothing raises between the registration of a key and the handlers, a call that
has ended has completed its future and popped its key; a step that breaks the condition strands both. -/
theorem registry_never_strands (h : (coalescer T V E cfg).Reachable (fun s a => noOwnerRaise s a) s) :
    (∀ f ∈ s.ended, (s.owned f).isSome ∧ ∀ key, s.inflightKeys key ≠ some f) ∧
    ∀ a s', s.step cfg a = some s' → noOwnerRaise s a = false →
      ∃ f ∈ s'.ended, s'.owned f = none ∧ ∃ key, s'.inflightKeys key = some f := by
  have hreg := Registry.of_reachable h
  refine ⟨fun f hf => ⟨(hreg.ended f hf).2.1, hreg.popped hf⟩, ?_⟩
  intro a s' hs hraise
  have he := Effect.of_step hs
  rw [hraise] at he
  exact hreg.stranded he

/-- One owner is served from the cache; the next one dispatches, and the provider fails. -/
theorem registry_never_strands_after_failure :
    ∃ s : Submits Bool ℕ Unit,
      (coalescer Bool ℕ Unit ⟨100, "d"⟩).Reachable (fun s a => noOwnerRaise s a) s ∧
      s.ended = [1, 0] ∧ s.owned 0 = some (.result 7) ∧ s.owned 1 = some (.exception (.raised ())) ∧
      ∀ f ∈ s.ended, (s.owned f).isSome ∧ ∀ key, s.inflightKeys key ≠ some f := by
  exact exists_of_run_imp (fun s => s.ended = [1, 0] ∧ s.owned 0 = some (.result 7) ∧
      s.owned 1 = some (.exception (.raised ()))) Submits.init
    [.submit true ⟨"hnsw", "query"⟩ CacheMode.on false (some 2), .register true,
     .lookup true (.found 7), .recordHit true .recorded, .setHit true, .pop true,
     .submit false ⟨"hnsw", "query"⟩ .shadow false (some 2), .register false,
     .countTokens false (some 1), .enqueue false (some 96), .lane (.snapshot 0 2),
     .lane (.providerRaises 0 ⟨(), false, true⟩), .lane (.sealFailed 0), .lane (.spread 0),
     .lane (.spread 0), .dispatched false, .pop false] rfl (by decide +kernel)
    fun s hreach ⟨hended, h₀, h₁⟩ => ⟨hended, h₀, h₁, (registry_never_strands hreach).1⟩

/-- One thread registers a key and does `acts`; then another thread submits the same query. -/
def strandingRun (acts : List (SubmitAct Bool ℕ Unit)) : Option (Submits Bool ℕ Unit) :=
  (coalescer Bool ℕ Unit ⟨100, "d"⟩).run Any Submits.init
    ([.submit true ⟨"hnsw", "query"⟩ CacheMode.on false (some 2), .register true] ++ acts ++
      [.submit false ⟨"hnsw", "query"⟩ CacheMode.on false (some 2), .register false])

/-- The first call has ended, its future is open and its key stays; the second one has joined the future and
can only time out. -/
def Strands (acts : List (SubmitAct Bool ℕ Unit)) : Prop :=
  ∃ s, strandingRun acts = some s ∧ (coalescer Bool ℕ Unit ⟨100, "d"⟩).Reachable Any s ∧
    s.ended = [0] ∧ s.owned 0 = none ∧ s.inflightKeys "s:d:hnsw" = some 0 ∧
    s.step ⟨100, "d"⟩ (.join false false) = none ∧ (s.step ⟨100, "d"⟩ (.join false true)).isSome

theorem strands_of_run {acts : List (SubmitAct Bool ℕ Unit)}
    (h : (strandingRun acts).map (fun s => (s.ended, s.owned 0, s.inflightKeys "s:d:hnsw",
      (s.step ⟨100, "d"⟩ (.join false false)).isNone,
      (s.step ⟨100, "d"⟩ (.join false true)).isSome)) = some ([0], none, some 0, true, true)) :
    Strands acts := by
  obtain ⟨s, hs, hobs⟩ := Option.map_eq_some_iff.1 h
  simp only [Prod.mk.injEq, Option.isNone_iff_eq_none] at hobs
  exact ⟨s, hs, (TransitionSystem.Reachable.init rfl).run hs, hobs⟩

theorem owner_raise_strands_key :
    Strands [.lookup true .raises] ∧
    Strands [.lookup true (.found 7), .recordHit true .raises] ∧
    Strands [.lookup true .miss, .countTokens true none] ∧
    Strands [.lookup true .miss, .countTokens true (some 1), .enqueue true none] := by
  refine ⟨strands_of_run ?_, strands_of_run ?_, strands_of_run ?_, strands_of_run ?_⟩ <;> decide +kernel

end CodeIndexer.Coalescer
