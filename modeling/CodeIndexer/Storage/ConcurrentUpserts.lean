import CodeIndexer.Storage.OneFile

/-!
# Concurrent calls of `upsert_points`

The path index and the id index have a lock each, and a call takes them for one step at a time: the
orphans are noted under the path index's lock, their files are unlinked under none, their entries are
evicted under the id index's lock if they still name the file, and a point's file is written, its entry set
and its id listed in three more steps. A call that writes an id another call has noted as an orphan, into
the same file, can lose it. `Undisturbed` says which steps are harmless; in a run of such steps an id
that is listed, or is about to be, keeps its entry and its vector file.
-/

namespace CodeIndexer.Storage.Concurrent

open PyText TransitionSystem Function

variable {T V B : Type}

/-- Where a call stands: unlinking orphans, at the next point of the loop, or after the write or the
id index update of a point. -/
inductive Stage (V B : Type)
  | idle
  | cleanup (left orphans : List Orphan) (points : List (Point V B))
  | loop (points : List (Point V B))
  | wrote (p : Point V B) (vectorFile : FileKey) (points : List (Point V B))
  | registered (p : Point V B) (points : List (Point V B))
deriving DecidableEq

structure Store (T V B : Type) where
  coll : Collection V B
  stage : T → Stage V B

inductive Act (T V B : Type)
  | call (t : T) (points : List (Point V B))
  | go (t : T)

def advance (L : Layout V) (c : Collection V B) : Stage V B → Option (Collection V B × Stage V B)
  | .idle => none
  | .cleanup (o :: left) orphans points => some (c.unlink o, .cleanup left orphans points)
  | .cleanup [] orphans points => some (orphans.foldl Collection.evict c, .loop points)
  | .loop [] => some (c, .idle)
  | .loop (p :: points) =>
    match L.vectorFile p with
    | none => some (c, .idle)
    | some vectorFile => some (c.writeFile p vectorFile, .wrote p vectorFile points)
  | .wrote p vectorFile points => some (c.registerId p vectorFile, .registered p points)
  | .registered p points => some (c.registerPath p, .loop points)

def begin (c : Collection V B) (points : List (Point V B)) : Collection V B × Stage V B :=
  let (ix, orphans) := c.step1 points
  ({ c with pathIndex := some ix }, .cleanup orphans orphans points)

variable [DecidableEq T]

def Store.put (s : Store T V B) (t : T) (next : Collection V B × Stage V B) : Store T V B :=
  ⟨next.1, update s.stage t next.2⟩

theorem Store.put_stage_self (s : Store T V B) (t : T) (next : Collection V B × Stage V B) :
    (s.put t next).stage t = next.2 := update_self _ _ _

theorem Store.put_stage_of_ne (s : Store T V B) {t t' : T} (h : t' ≠ t) (next : Collection V B × Stage V B) :
    (s.put t next).stage t' = s.stage t' := update_of_ne h _ _

def Store.step (L : Layout V) (s : Store T V B) : Act T V B → Option (Store T V B)
  | .call t points =>
    match s.stage t with
    | .idle => some (s.put t (begin s.coll points))
    | _ => none
  | .go t => (advance L s.coll (s.stage t)).map (s.put t)

/-- The entry of `x` names a vector file, and the file has the id. -/
def Held (c : Collection V B) (x : Str) : Prop :=
  ∃ vf p, c.idIndex.get? x = some vf ∧ c.files.get? vf = some p ∧ p.id = x

def AllHeld (c : Collection V B) : Prop := ∀ f x, x ∈ c.loadedPathIndex.getPointIds f → Held c x

def store (L : Layout V) : TransitionSystem (Store T V B) (Act T V B) where
  init s := AllHeld s.coll ∧ ∀ t, s.stage t = .idle
  step := Store.step L

/-! ### Harmless steps -/

namespace Stage

/-- The call is between the id index update and the path index update of `x`. -/
def registers (x : Str) : Stage V B → Bool
  | .registered p _ => p.id = x
  | _ => false

/-- The id and the file of a call between the write and the id index update. -/
def written? : Stage V B → Option (Str × FileKey)
  | .wrote p vectorFile _ => some (p.id, vectorFile)
  | _ => none

end Stage

/-- `x` is listed for some file, or is about to be. -/
def Needed (s : Store T V B) (x : Str) : Prop :=
  s.coll.loadedPathIndex.hasOtherOwner x = true ∨ ∃ t, (s.stage t).registers x = true

/-- Only ids that meet `P` use the file: needed ids by their entry, and the id of a file just written. -/
def UsedOnlyBy (s : Store T V B) (vf : FileKey) (P : Str → Prop) : Prop :=
  (∀ e ∈ s.coll.idIndex.items, e.2 = vf → Needed s e.1 → P e.1) ∧
    ∀ t, ∀ w ∈ (s.stage t).written?, w.2 = vf → P w.1

/-- A file is unlinked while nothing uses it, an entry is evicted while its id is not needed, and a
file is written while no other id uses it. -/
def UndisturbedAt (L : Layout V) (s : Store T V B) : Stage V B → Prop
  | .cleanup (o :: _) _ _ => UsedOnlyBy s o.vectorFile fun _ => False
  | .cleanup [] orphans _ => ∀ o ∈ orphans, s.coll.idIndex.get? o.id = some o.vectorFile → ¬ Needed s o.id
  | .loop (p :: _) => ∀ vf ∈ L.vectorFile p, UsedOnlyBy s vf (· = p.id)
  | _ => True

def Undisturbed (L : Layout V) (s : Store T V B) : Act T V B → Prop
  | .call .. => True
  | .go t => UndisturbedAt L s (s.stage t)

section Decidable

variable [Fintype T]

instance (s : Store T V B) (x : Str) : Decidable (Needed s x) := inferInstanceAs (Decidable (_ ∨ ∃ _, _))

instance (s : Store T V B) (vf : FileKey) (P : Str → Prop) [DecidablePred P] : Decidable (UsedOnlyBy s vf P) :=
  inferInstanceAs (Decidable ((∀ _ ∈ _, _) ∧ ∀ _, _))

instance (L : Layout V) (s : Store T V B) : (stage : Stage V B) → Decidable (UndisturbedAt L s stage)
  | .cleanup (o :: _) _ _ => inferInstanceAs (Decidable (UsedOnlyBy s o.vectorFile fun _ => False))
  | .cleanup [] _ _ => inferInstanceAs (Decidable (∀ _ ∈ _, _))
  | .loop (p :: _) => inferInstanceAs (Decidable (∀ _ ∈ L.vectorFile p, _))
  | .idle | .loop [] | .wrote .. | .registered .. => .isTrue trivial

instance (L : Layout V) (s : Store T V B) : (a : Act T V B) → Decidable (Undisturbed L s a)
  | .call .. => .isTrue trivial
  | .go t => inferInstanceAs (Decidable (UndisturbedAt L s (s.stage t)))

end Decidable

/-! ### The invariant -/

structure Inv (s : Store T V B) : Prop where
  held : ∀ x, Needed s x → Held s.coll x
  wrote : ∀ t, ∀ w ∈ (s.stage t).written?, ∃ p, s.coll.files.get? w.2 = some p ∧ p.id = w.1

namespace Inv

variable {L : Layout V} {s : Store T V B} {t : T} {c : Collection V B} {stage : Stage V B}

/-- A step of `t`: what it needs newly is held after it, and what was needed before is not lost. -/
theorem put (h : Inv s)
    (hnew : ∀ x, c.loadedPathIndex.hasOtherOwner x = true ∨ stage.registers x = true → Needed s x ∨ Held c x)
    (hheld : ∀ x, Needed s x → Held s.coll x → Held c x)
    (hwritten : ∀ w ∈ stage.written?, ∃ p, c.files.get? w.2 = some p ∧ p.id = w.1)
    (hwrote : ∀ t', ∀ w ∈ (s.stage t').written?, (∃ p, s.coll.files.get? w.2 = some p ∧ p.id = w.1) →
      ∃ p, c.files.get? w.2 = some p ∧ p.id = w.1) :
    Inv (s.put t (c, stage)) := by
  constructor
  · intro x hx
    have hold : Needed s x ∨ Held c x := by
      rcases hx with hx | ⟨t', hx⟩
      · exact hnew x (.inl hx)
      · by_cases ht : t' = t
        · subst ht
          rw [s.put_stage_self] at hx
          exact hnew x (.inr hx)
        · rw [s.put_stage_of_ne ht] at hx
          exact .inl (.inr ⟨t', hx⟩)
    exact hold.elim (fun hx => hheld x hx (h.held x hx)) id
  · intro t' w hw
    by_cases ht : t' = t
    · subst ht
      rw [s.put_stage_self] at hw
      exact hwritten w hw
    · rw [s.put_stage_of_ne ht] at hw
      exact hwrote t' w hw (h.wrote t' w hw)

theorem returns (h : Inv s) : Inv (s.put t (s.coll, .idle)) :=
  h.put (fun _ hx => .inl (.inl (hx.resolve_right nofun))) (fun _ _ hheld => hheld) nofun fun _ _ _ hw => hw

theorem begin (h : Inv s) (points : List (Point V B)) : Inv (s.put t (begin s.coll points)) := by
  refine h.put (fun x hx => ?_) (fun x _ hheld => hheld) nofun fun t' w _ hw => hw
  obtain ⟨f, hf⟩ := PathIndex.hasOtherOwner_iff.1 (hx.resolve_right nofun)
  exact .inl (.inl (PathIndex.hasOtherOwner_iff.2 ⟨f, (((s.coll.step1_spec points).1 x f).1 hf).1⟩))

theorem unlink (h : Inv s) {o : Orphan} (hfree : UsedOnlyBy s o.vectorFile fun _ => False)
    (left orphans : List Orphan) (points : List (Point V B)) :
    Inv (s.put t (s.coll.unlink o, .cleanup left orphans points)) := by
  have hkept : ∀ vf p, vf ≠ o.vectorFile → s.coll.files.get? vf = some p →
      (s.coll.unlink o).files.get? vf = some p := fun vf p hne hp => Dict.get?_erase_eq_some.2 ⟨hne, hp⟩
  refine h.put (fun x hx => .inl (.inl (hx.resolve_right nofun))) ?_ nofun ?_
  · rintro x hx ⟨vf, p, hvf, hp, hid⟩
    exact ⟨vf, p, hvf, hkept vf p (fun heq => hfree.1 (x, vf) (Dict.mem_items_iff.2 hvf) heq hx) hp, hid⟩
  · rintro t' w hw ⟨p, hp, hid⟩
    exact ⟨p, hkept w.2 p (fun heq => hfree.2 t' w hw heq) hp, hid⟩

end Inv

theorem foldl_evict_frame (orphans : List Orphan) (c : Collection V B) :
    ∃ idIndex session, orphans.foldl Collection.evict c = { c with idIndex := idIndex, session := session } ∧
      ∀ x, (∀ o ∈ orphans, o.id = x → c.idIndex.get? x ≠ some o.vectorFile) →
        idIndex.get? x = c.idIndex.get? x := by
  induction orphans generalizing c with
  | nil => exact ⟨c.idIndex, c.session, rfl, fun x _ => rfl⟩
  | cons o orphans ih =>
    rw [List.foldl_cons]
    by_cases hhit : c.idIndex.get? o.id = some o.vectorFile
    · rw [show c.evict o =
        { c with idIndex := c.idIndex.erase o.id, session := c.session.map (·.noteDeleted o.id) } from if_pos hhit]
      obtain ⟨idIndex, session, heq, hkeep⟩ := ih
        { c with idIndex := c.idIndex.erase o.id, session := c.session.map (·.noteDeleted o.id) }
      refine ⟨idIndex, session, heq, fun x hx => ?_⟩
      have hne : x ≠ o.id := fun he => hx o List.mem_cons_self he.symm (he ▸ hhit)
      rw [hkeep x fun o' ho' hid => ?_, Dict.get?_erase_of_ne _ hne]
      rw [Dict.get?_erase_of_ne _ hne]
      exact hx o' (List.mem_cons_of_mem _ ho') hid
    · rw [show c.evict o = c from if_neg hhit]
      obtain ⟨idIndex, session, heq, hkeep⟩ := ih c
      exact ⟨idIndex, session, heq, fun x hx => hkeep x fun o' ho' => hx o' (List.mem_cons_of_mem _ ho')⟩

namespace Inv

variable {L : Layout V} {s : Store T V B} {t : T}

theorem evict (h : Inv s) {orphans : List Orphan}
    (hfree : ∀ o ∈ orphans, s.coll.idIndex.get? o.id = some o.vectorFile → ¬ Needed s o.id)
    (points : List (Point V B)) : Inv (s.put t (orphans.foldl Collection.evict s.coll, .loop points)) := by
  obtain ⟨idIndex, session, heq, hkeep⟩ := foldl_evict_frame orphans s.coll
  rw [heq]
  refine h.put (fun x hx => .inl (.inl (hx.resolve_right nofun))) ?_ nofun fun t' w _ hw => hw
  rintro x hx ⟨vf, p, hvf, hp, hid⟩
  refine ⟨vf, p, (hkeep x fun o ho hox => ?_).trans hvf, hp, hid⟩
  subst hox
  exact fun hhit => hfree o ho hhit hx

variable {vf : FileKey} {p : Point V B} {points : List (Point V B)}

theorem write (h : Inv s) (hfree : UsedOnlyBy s vf (· = p.id))
    (points : List (Point V B)) : Inv (s.put t (s.coll.writeFile p vf, .wrote p vf points)) := by
  -- A file that held the id `x` still does.
  have hkept : ∀ x vf' q, (vf' = vf → x = p.id) → s.coll.files.get? vf' = some q → q.id = x →
      ∃ q', (s.coll.writeFile p vf).files.get? vf' = some q' ∧ q'.id = x := by
    intro x vf' q hx hq hid
    rw [Collection.writeFile, Dict.get?_set]
    split
    · rename_i heq
      exact ⟨p, rfl, (hx heq).symm⟩
    · exact ⟨q, hq, hid⟩
  refine h.put (fun x hx => .inl (.inl (hx.resolve_right (by rintro ⟨⟩)))) ?_ ?_ ?_
  · rintro x hx ⟨vf', q, hvf', hq, hid⟩
    obtain ⟨q', hq', hid'⟩ :=
      hkept x vf' q (fun heq => hfree.1 (x, vf') (Dict.mem_items_iff.2 hvf') heq hx) hq hid
    exact ⟨vf', q', hvf', hq', hid'⟩
  · rintro w ⟨⟩
    exact ⟨p, Dict.get?_set_self _ _ _, rfl⟩
  · rintro t' w hw ⟨q, hq, hid⟩
    exact hkept w.1 w.2 q (hfree.2 t' w hw) hq hid

theorem registerId (h : Inv s)
    (hstage : s.stage t = .wrote p vf points) :
    Inv (s.put t (s.coll.registerId p vf, .registered p points)) := by
  obtain ⟨q, hq, hid⟩ := h.wrote t (p.id, vf) (by rw [hstage]; rfl)
  have hself : Held (s.coll.registerId p vf) p.id := ⟨vf, q, Dict.get?_set_self _ _ _, hq, hid⟩
  refine h.put ?_ ?_ nofun fun t' w _ hw => hw
  · rintro x (hx | hx)
    · exact .inl (.inl hx)
    · exact .inr (of_decide_eq_true hx ▸ hself)
  · rintro x - ⟨vf', q', hvf', hq', hid'⟩
    by_cases hx : x = p.id
    · exact hx ▸ hself
    · exact ⟨vf', q', (Dict.get?_set_of_ne _ _ hx).trans hvf', hq', hid'⟩

theorem registerPath (h : Inv s)
    (hstage : s.stage t = .registered p points) : Inv (s.put t (s.coll.registerPath p, .loop points)) := by
  have hself : Needed s p.id := .inr ⟨t, by rw [hstage]; exact decide_eq_true rfl⟩
  have hsame : (s.coll.registerPath p).idIndex = s.coll.idIndex ∧ (s.coll.registerPath p).files = s.coll.files := by
    unfold Collection.registerPath
    split <;> exact ⟨rfl, rfl⟩
  refine h.put ?_ ?_ nofun ?_
  · rintro x (hx | hx)
    · obtain ⟨f, hf⟩ := PathIndex.hasOtherOwner_iff.1 hx
      rcases (s.coll.mem_loadedPathIndex_registerPath p).1 hf with hf | ⟨-, -, -, rfl⟩
      · exact .inl (.inl (PathIndex.hasOtherOwner_iff.2 ⟨f, hf⟩))
      · exact .inl hself
    · cases hx
  · intro x _ hheld
    rwa [Held, hsame.1, hsame.2]
  · intro t' w _ hw
    rwa [hsame.2]

theorem step (h : Inv s) {s' : Store T V B} {a : Act T V B} (hcalm : Undisturbed L s a)
    (hs : s.step L a = some s') : Inv s' := by
  cases a with
  | call t points =>
    simp only [Store.step] at hs
    split at hs <;> cases hs
    exact h.begin points
  | go t =>
    obtain ⟨next, hnext, rfl⟩ := Option.map_eq_some_iff.1 hs
    replace hcalm : UndisturbedAt L s (s.stage t) := hcalm
    cases hstage : s.stage t with
    | idle => rw [hstage] at hnext; cases hnext
    | cleanup left orphans points =>
      rw [hstage] at hnext hcalm
      cases left with
      | nil =>
        cases hnext
        exact h.evict hcalm points
      | cons o left =>
        cases hnext
        exact h.unlink hcalm left orphans points
    | loop points =>
      rw [hstage] at hnext hcalm
      cases points with
      | nil =>
        cases hnext
        exact h.returns
      | cons p points =>
        simp only [advance] at hnext
        split at hnext
        · cases hnext
          exact h.returns
        · rename_i vf hvf
          cases hnext
          exact h.write (hcalm vf hvf) points
    | wrote p vf points =>
      rw [hstage] at hnext
      cases hnext
      exact h.registerId hstage
    | registered p points =>
      rw [hstage] at hnext
      cases hnext
      exact h.registerPath hstage

end Inv

/-- At every moment, also when all calls have returned, every listed id has its entry and its vector file. -/
theorem shared_points_kept {L : Layout V} {s : Store T V B} (h : (store L).Reachable (Undisturbed L) s) :
    AllHeld s.coll := by
  have hinv : Inv s := by
    refine h.invariant ?_ fun s a s' hinv hcalm hs => hinv.step hcalm hs
    rintro s ⟨hheld, hidle⟩
    constructor
    · rintro x (hx | ⟨t, hx⟩)
      · obtain ⟨f, hf⟩ := PathIndex.hasOtherOwner_iff.1 hx
        exact hheld f x hf
      · rw [hidle t] at hx
        cases hx
    · intro t w hw
      rw [hidle t] at hw
      cases hw
  exact fun f x hx => hinv.held x (.inl (PathIndex.hasOtherOwner_iff.2 ⟨f, hx⟩))

theorem allHeld_onePoint : AllHeld onePoint := by
  intro f x hx
  obtain hx | ⟨-, rfl⟩ := PathIndex.mem_addPoint.1 hx
  · cases hx
  · exact ⟨_, _, rfl, rfl, rfl⟩

theorem store_init_onePoint {T : Type} [DecidableEq T] :
    (store onesLayout).init (⟨onePoint, fun _ => .idle⟩ : Store T ℚ ℕ) := ⟨allHeld_onePoint, fun _ => rfl⟩

/-- One call gives `p1` to `b.py` while another takes it from `a.py`; the first has listed it when the second
looks for orphans. -/
theorem shared_point_kept_by_overlapping_calls :
    ∃ s : Store Bool ℚ ℕ, (store onesLayout).Reachable (Undisturbed onesLayout) s ∧
      s.coll.loadedPathIndex.items =
        [("b.py".toList, ["p3".toList, "p1".toList]), ("a.py".toList, ["p2".toList])] ∧ AllHeld s.coll := by
  exact exists_of_run_and (⟨onePoint, fun _ => .idle⟩ : Store Bool ℚ ℕ)
    [.call true [⟨"p1", 0, "b.py", 1⟩, ⟨"p3", 2, "b.py", 3⟩],
     .go true, .go true, .go true, .go true, .call false [⟨"p2", 2, "a.py", 2⟩],
     .go true, .go false, .go true, .go false, .go true, .go false, .go true, .go false, .go false]
    store_init_onePoint (by decide +kernel) fun s hreach _ => shared_points_kept hreach

/-- The second call notes `p1` as an orphan, the first writes it into the same file and lists it, and the
second unlinks the file and evicts the entry. Both calls have returned. -/
theorem shared_point_lost :
    ∃ s : Store Bool ℚ ℕ, (store onesLayout).Reachable TransitionSystem.Any s ∧
      s.coll.loadedPathIndex.items = [("b.py".toList, ["p1".toList]), ("a.py".toList, ["p2".toList])] ∧
      s.stage true = .idle ∧ s.stage false = .idle ∧
      s.coll.idIndex.items.map Prod.fst = ["p2".toList] ∧
      s.coll.files.items.map (fun e => e.2.id) = ["p2".toList] ∧ ¬ AllHeld s.coll := by
  refine exists_of_run_imp (fun s =>
      s.coll.loadedPathIndex.items = [("b.py".toList, ["p1".toList]), ("a.py".toList, ["p2".toList])] ∧
      s.stage true = .idle ∧ s.stage false = .idle ∧ s.coll.idIndex.items.map Prod.fst = ["p2".toList] ∧
      s.coll.files.items.map (fun e => e.2.id) = ["p2".toList]) ⟨onePoint, fun _ => .idle⟩
    [.call false [⟨"p2", 2, "a.py", 2⟩], .call true [⟨"p1", 0, "b.py", 1⟩],
     .go true, .go true, .go true, .go true, .go true,
     .go false, .go false, .go false, .go false, .go false, .go false] store_init_onePoint (by decide +kernel)
    fun s _ ⟨hitems, hidle, hidle', hids, hfiles⟩ => ⟨hitems, hidle, hidle', hids, hfiles, fun hheld => ?_⟩
  have hlisted : "p1".toList ∈ s.coll.loadedPathIndex.getPointIds "b.py" := by
    rw [PathIndex.getPointIds, Dict.mem_items_iff.1 (hitems ▸ List.mem_cons_self)]
    exact List.mem_singleton_self _
  obtain ⟨vf, p, hvf, -, -⟩ := hheld _ _ hlisted
  have hmem : "p1".toList ∈ s.coll.idIndex.items.map Prod.fst := List.mem_map_of_mem (Dict.mem_items_iff.2 hvf)
  rw [hids] at hmem
  exact absurd hmem (by decide)

end CodeIndexer.Storage.Concurrent
