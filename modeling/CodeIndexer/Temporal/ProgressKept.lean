import CodeIndexer.Temporal.ProgressiveMetadata

/-!
# When completion marks are kept

`load_completed` looks at the disk and then at `_pending`, and a flush takes its hashes out of `_pending`
before they are on disk, so a load that overlaps a flush of its instance can miss them in both places; and
the migration in `_load` rewrites the file without the lock, so it can overwrite what a flush published in
between. `Calm` rules out these overlaps, and the same between two threads that own one lock. In the runs
it leaves, a marked hash is always on disk, staged, or carried by a flush (`Inv`).
-/

namespace CodeIndexer.Temporal.Progress

open PyText TransitionSystem Function List

variable {T I P : Type} [DecidableEq T] [DecidableEq I]

/-! ### Where a thread stands -/

namespace Pc

def busy : Pc I → Bool
  | .locked .. | .writing .. => true
  | _ => false

/-- Inside `load_completed` on `i`, between the disk read and the look at `_pending`. -/
def reads (i : I) : Pc I → Bool
  | .snapshotting j .. | .writing (.migrateLoad j _) _ _ => j = i
  | _ => false

def update? : Pc I → Option (Update I)
  | .waiting u | .locked u | .writing (.migrateUpdate u) _ _ | .writing (.update u) _ _ => some u
  | _ => none

/-- Inside a flush of `i`, between the clearing of `_pending` and the publication. -/
def flushes (i : I) (pc : Pc I) : Bool := pc.update?.any fun u => u.isFlush && u.inst = i

/-- The flush carries `h`. -/
def Carries (i : I) (h : Str) (pc : Pc I) : Prop :=
  ∃ u, pc.update? = some u ∧ u.isFlush = true ∧ u.inst = i ∧ h ∈ u.modifier.hashes

theorem Carries.flushes {i : I} {h : Str} {pc : Pc I} (hc : pc.Carries i h) : pc.flushes i = true := by
  obtain ⟨u, hu, hflush, rfl, -⟩ := hc
  simp [Pc.flushes, hu, hflush]

end Pc

def Content.isLegacy : Content → Bool
  | .doc (.legacy ..) => true
  | _ => false

/-- A flush clears `_pending` only while no load of its instance is between its two looks; a load looks at
the disk only while no flush of its instance is between its clearing and its publication; an update
takes the lock, and a load finds a legacy file, only while no other thread rewrites the file. -/
def CalmAt (s : Shard T I P) : Pc I → Prop
  | .flushing i _ => ∀ t, (s.pc t).reads i = false
  | .waiting _ => ∀ t, (s.pc t).busy = false
  | .loading i _ => (∀ t, (s.pc t).flushes i = false) ∧
      (s.content.isLegacy = true → ∀ t, (s.pc t).busy = false)
  | _ => True

def Calm (s : Shard T I P) : Act T I → Prop
  | .call .. => True
  | .go t _ => CalmAt s (s.pc t)

instance [Fintype T] (s : Shard T I P) : (pc : Pc I) → Decidable (CalmAt s pc)
  | .flushing i _ => inferInstanceAs (Decidable (∀ t, (s.pc t).reads i = false))
  | .waiting _ => inferInstanceAs (Decidable (∀ t, (s.pc t).busy = false))
  | .loading i _ => inferInstanceAs (Decidable ((∀ t, (s.pc t).flushes i = false) ∧
      (s.content.isLegacy = true → ∀ t, (s.pc t).busy = false)))
  | .idle | .saving _ | .locked _ | .writing .. | .releasing .. | .snapshotting .. | .loaded .. => .isTrue trivial

instance [Fintype T] (s : Shard T I P) : (a : Act T I) → Decidable (Calm s a)
  | .call .. => .isTrue trivial
  | .go t _ => inferInstanceAs (Decidable (CalmAt s (s.pc t)))

/-! ### The invariant -/

namespace Shard

/-- `h` is on disk, or a flush of `i` is about to put it there. -/
def Safe (s : Shard T I P) (i : I) (h : Str) : Prop := h ∈ s.onDisk ∨ ∃ t, (s.pc t).Carries i h

/-- What `_write_atomic` is about to publish has what is on disk and what its caller needs. -/
def WriterOk (s : Shard T I P) (data : Data) : Writer I → Prop
  | .migrateLoad i required => ∀ h ∈ required, h ∈ data.completedCommits ∨ h ∈ s.pending i
  | .migrateUpdate _ => True
  | .update u => u.modifier.hashes ⊆ data.completedCommits

def PhaseOk (s : Shard T I P) (data : Data) : Phase → Prop
  | .opening => True
  | .opened n => s.tmp = some n ∧ s.files n = .empty
  | .closed => ∃ n, s.tmp = some n ∧ s.files n = .doc (.v2 data)

def ThreadOk (s : Shard T I P) (t : T) : Pc I → Prop
  | .idle | .saving _ | .waiting _ | .locked _ | .releasing _ false => True
  | .flushing i toFlush => s.pendingLock i = some t ∧ ∀ h ∈ s.marked i, h ∈ toFlush ∨ s.Safe i h
  | .writing k data phase => s.onDisk ⊆ data.completedCommits ∧ s.WriterOk data k ∧ s.PhaseOk data phase
  | .releasing u true => u.modifier.hashes ⊆ s.onDisk
  | .loading i required => required ⊆ s.marked i
  | .snapshotting i required onDisk => ∀ h ∈ required, h ∈ onDisk ∨ h ∈ s.pending i
  | .loaded _ required result => required ⊆ result

end Shard

structure Inv (s : Shard T I P) : Prop where
  progress : ∀ n, s.progress = some n → n < s.nextInode
  tmp : ∀ n, s.tmp = some n → n < s.nextInode ∧ s.progress ≠ some n
  flushed : s.flushed ⊆ s.onDisk
  marked : ∀ i, ∀ h ∈ s.marked i, h ∈ s.pending i ∨ s.Safe i h
  one : ∀ t t', (s.pc t).busy = true → (s.pc t').busy = true → t = t'
  threads : ∀ t, s.ThreadOk t (s.pc t)

/-- What a step of `t` leaves of the facts the other threads rest on. -/
structure Leaves (s s' : Shard T I P) (t : T) : Prop where
  pc : ∀ t', t' ≠ t → s'.pc t' = s.pc t'
  onDisk : s.onDisk ⊆ s'.onDisk
  marked : ∀ i, s.marked i ⊆ s'.marked i
  newlyMarked : ∀ i, ∀ h ∈ s'.marked i, h ∈ s.marked i ∨ h ∈ s'.onDisk ∨ s.pendingLock i = none
  pending : ∀ i t', (s.pc t').reads i = true → s.pending i ⊆ s'.pending i
  pendingLock : ∀ i t', t' ≠ t → s.pendingLock i = some t' → s'.pendingLock i = some t'
  carried : ∀ i h, (s.pc t).Carries i h → s'.Safe i h
  busy : ∀ t', t' ≠ t → (s.pc t').busy = true →
    s'.files = s.files ∧ s'.tmp = s.tmp ∧ s'.progress = s.progress

namespace Leaves

variable {s s' : Shard T I P} {t : T}

theorem safe (hl : Leaves s s' t) {i : I} {h : Str} (hs : s.Safe i h) : s'.Safe i h := by
  rcases hs with hdisk | ⟨t', ht'⟩
  · exact .inl (hl.onDisk hdisk)
  · by_cases heq : t' = t
    · exact hl.carried i h (heq ▸ ht')
    · exact .inr ⟨t', by rwa [hl.pc t' heq]⟩

theorem threadOk (hl : Leaves s s' t) {t' : T} (hne : t' ≠ t) (h : s.ThreadOk t' (s.pc t')) :
    s'.ThreadOk t' (s'.pc t') := by
  rw [hl.pc t' hne]
  have hreads := hl.pending
  have hbusy := hl.busy t' hne
  generalize hpc : s.pc t' = pc at h hbusy
  cases pc with
  | idle | saving i | waiting u | locked u => trivial
  | flushing i toFlush =>
    obtain ⟨hlock, hflush⟩ := h
    refine ⟨hl.pendingLock i t' hne hlock, fun h hh => ?_⟩
    rcases hl.newlyMarked i h hh with hold | hdisk | hnone
    · exact (hflush h hold).imp_right hl.safe
    · exact .inr (.inl hdisk)
    · rw [hlock] at hnone
      cases hnone
  | writing k data phase =>
    obtain ⟨hfiles, htmp, hprogress⟩ := hbusy rfl
    obtain ⟨hdisk, hk, hphase⟩ := h
    refine ⟨?_, ?_, ?_⟩
    · rw [Shard.onDisk, Shard.content, hfiles, hprogress]
      exact hdisk
    · cases k with
      | migrateLoad i required =>
        intro h hh
        exact (hk h hh).imp_right fun hp => hreads i t' (by rw [hpc]; simp [Pc.reads]) hp
      | migrateUpdate u => trivial
      | update u => exact hk
    · cases phase with
      | opening => trivial
      | opened n | closed =>
        rw [Shard.PhaseOk, hfiles, htmp]
        exact hphase
  | releasing u ok =>
    cases ok with
    | false => trivial
    | true => exact fun _ hh => hl.onDisk (h hh)
  | loading i required => exact fun _ hh => hl.marked i (h hh)
  | snapshotting i required onDisk =>
    intro h' hh
    exact (h h' hh).imp_right fun hp => hreads i t' (by rw [hpc]; simp [Pc.reads]) hp
  | loaded i required result => exact h

end Leaves

namespace Shard

omit [DecidableEq I] in
@[simp] theorem setPc_pc (s : Shard T I P) (t : T) (pc : Pc I) : (s.setPc t pc).pc t = pc :=
  update_self _ _ _

omit [DecidableEq I] in
theorem setPc_pc_of_ne (s : Shard T I P) {t t' : T} (h : t' ≠ t) (pc : Pc I) :
    (s.setPc t pc).pc t' = s.pc t' := update_of_ne h _ _

omit [DecidableEq T] in
theorem pending_addPending (s : Shard T I P) (i : I) (hash : Str) (j : I) :
    s.pending j ⊆ (s.addPending i hash).pending j := by
  show s.pending j ⊆ update s.pending i ((s.pending i).insert hash) j
  by_cases hj : j = i
  · subst hj
    rw [update_self]
    exact fun _ hh => mem_insert_of_mem hh
  · rw [update_of_ne hj]
    exact List.Subset.refl _

omit [DecidableEq T] in
theorem marked_addMarked (s : Shard T I P) (i : I) (hashes : List Str) (j : I) (h : Str) :
    h ∈ (s.addMarked i hashes).marked j ↔ h ∈ s.marked j ∨ j = i ∧ h ∈ hashes := by
  show h ∈ update s.marked i (s.marked i ++ hashes) j ↔ _
  by_cases hj : j = i
  · subst hj
    simp
  · simp [hj]

omit [DecidableEq T] [DecidableEq I] in
/-- `_load` goes on with data that has every commit on disk, or migrates a legacy file to such data. -/
theorem afterLoad_cases (c : Content) (migrate : Writer I) (proceed : Data → Pc I) :
    ∃ data, c.commits ⊆ data.completedCommits ∧ (afterLoad c migrate proceed = proceed data ∨
      c.isLegacy = true ∧ afterLoad c migrate proceed = .writing migrate data .opening) := by
  cases c with
  | empty | broken => exact ⟨defaultData, List.Subset.refl _, .inl rfl⟩
  | doc d =>
    cases d with
    | v2 data => exact ⟨data, List.Subset.refl _, .inl rfl⟩
    | legacy commits status =>
      exact ⟨migrateLegacy commits status, fun _ h => mem_sortedSet.2 h, .inr ⟨rfl, rfl⟩⟩

end Shard

namespace Inv

variable {s s' : Shard T I P} {t : T}

theorem of_leaves (h : Inv s) (hl : Leaves s s' t)
    (hprogress : ∀ n, s'.progress = some n → n < s'.nextInode)
    (htmp : ∀ n, s'.tmp = some n → n < s'.nextInode ∧ s'.progress ≠ some n)
    (hflushed : s'.flushed ⊆ s'.onDisk)
    (hmarked : ∀ i, ∀ h ∈ s'.marked i, h ∈ s'.pending i ∨ s'.Safe i h)
    (hbusy : (s'.pc t).busy = true → (s.pc t).busy = true ∨ ∀ t', (s.pc t').busy = false)
    (hown : s'.ThreadOk t (s'.pc t)) : Inv s' := by
  refine ⟨hprogress, htmp, hflushed, hmarked, ?_, fun t' => ?_⟩
  · -- Another busy thread was busy before, so `t` has not just become busy.
    have key : ∀ t', t' ≠ t → (s'.pc t').busy = true → (s'.pc t).busy = true → False := by
      intro t' hne hb' hb
      rw [hl.pc t' hne] at hb'
      rcases hbusy hb with hold | hnone
      · exact hne (h.one t' t hb' hold)
      · rw [hnone t'] at hb'
        cases hb'
    intro t₁ t₂ h₁ h₂
    by_cases he₁ : t₁ = t <;> by_cases he₂ : t₂ = t
    · rw [he₁, he₂]
    · subst he₁
      exact (key t₂ he₂ h₂ h₁).elim
    · subst he₂
      exact (key t₁ he₁ h₁ h₂).elim
    · rw [hl.pc t₁ he₁] at h₁
      rw [hl.pc t₂ he₂] at h₂
      exact h.one t₁ t₂ h₁ h₂
  · by_cases he : t' = t
    · exact he ▸ hown
    · exact hl.threadOk he (h.threads t')

variable {pc : Pc I} {i : I} {u : Update I} {tmp : Option ℕ} {nextInode n : ℕ} {files : ℕ → Content} {data : Data}
  {k : Writer I} {owner : T → P}

theorem moved (h : Inv s) (lock : Option P)
    (hcarried : ∀ i h, (s.pc t).Carries i h → pc.Carries i h ∨ h ∈ s.onDisk)
    (hbusy : pc.busy = true → (s.pc t).busy = true ∨ ∀ t', (s.pc t').busy = false)
    (hown : ({ s with lock := lock }.setPc t pc).ThreadOk t pc) : Inv ({ s with lock := lock }.setPc t pc) := by
  have hl : Leaves s ({ s with lock := lock }.setPc t pc) t := {
    pc := fun t' hne => Shard.setPc_pc_of_ne _ hne pc
    onDisk := List.Subset.refl _
    marked := fun _ => List.Subset.refl _
    newlyMarked := fun _ _ hh => .inl hh
    pending := fun _ _ _ => List.Subset.refl _
    pendingLock := fun _ _ _ hlock => hlock
    carried := fun i h hc => (hcarried i h hc).elim (fun hc => .inr ⟨t, by rwa [Shard.setPc_pc]⟩) .inl
    busy := fun _ _ _ => ⟨rfl, rfl, rfl⟩ }
  refine h.of_leaves hl h.progress h.tmp h.flushed (fun i h' hh => ?_) ?_ ?_
  · exact (h.marked i h' hh).imp_right hl.safe
  · rwa [Shard.setPc_pc]
  · rwa [Shard.setPc_pc]

omit [DecidableEq I] in
theorem not_carries_of_ready (hr : pc.ready = true) (i : I) (h : Str) : ¬ pc.Carries i h := by
  rintro ⟨u, hu, -⟩
  cases pc with
  | idle | loaded i required result => exact absurd hu nofun
  | _ => cases hr

theorem addPending (h : Inv s) (i : I) (hash : Str) {hashes : List Str} (hhashes : hashes ⊆ [hash])
    (hlock : hashes ≠ [] → s.pendingLock i = none) (hpc : ¬ pc.busy = true)
    (hcarried : ∀ j h, ¬ (s.pc t).Carries j h)
    (hown : (((s.addPending i hash).addMarked i hashes).setPc t pc).ThreadOk t pc) :
    Inv (((s.addPending i hash).addMarked i hashes).setPc t pc) := by
  have hnew : ∀ j h, h ∈ (((s.addPending i hash).addMarked i hashes).setPc t pc).marked j →
      h ∈ s.marked j ∨ j = i ∧ h ∈ hashes := fun j h hh => (Shard.marked_addMarked _ i hashes j h).1 hh
  have hl : Leaves s (((s.addPending i hash).addMarked i hashes).setPc t pc) t := {
    pc := fun t' hne => Shard.setPc_pc_of_ne _ hne pc
    onDisk := List.Subset.refl _
    marked := fun j h hh => (Shard.marked_addMarked _ i hashes j h).2 (.inl hh)
    newlyMarked := fun j h hh => by
      rcases hnew j h hh with hold | ⟨rfl, hmem⟩
      · exact .inl hold
      · exact .inr (.inr (hlock (ne_nil_of_mem hmem)))
    pending := fun j _ _ => s.pending_addPending i hash j
    pendingLock := fun _ _ _ hlock => hlock
    carried := fun j h hc => absurd hc (hcarried j h)
    busy := fun _ _ _ => ⟨rfl, rfl, rfl⟩ }
  refine h.of_leaves hl h.progress h.tmp h.flushed (fun j h' hh => ?_) ?_ ?_
  · rcases hnew j h' hh with hold | ⟨rfl, hmem⟩
    · exact (h.marked j h' hold).imp (fun hp => s.pending_addPending i hash j hp) hl.safe
    · obtain rfl := mem_singleton.1 (hhashes hmem)
      refine .inl ?_
      show h' ∈ update s.pending j ((s.pending j).insert h') j
      rw [update_self]
      exact mem_insert_self
  · rw [Shard.setPc_pc]
    exact fun hb => absurd hb hpc
  · rwa [Shard.setPc_pc]

theorem startFlush (h : Inv s) (hcarried : ∀ j h, ¬ (s.pc t).Carries j h)
    (hs : s.startFlush t i = some s') : Inv s' := by
  unfold Shard.startFlush at hs
  split at hs
  · cases hs
  · rename_i hlock
    split at hs <;> cases hs
    · exact h.moved s.lock (fun j h' hc => absurd hc (hcarried j h')) nofun trivial
    · have hl : Leaves s ({ s with pendingLock := update s.pendingLock i (some t) }.setPc t
          (.flushing i (s.pending i))) t := {
        pc := fun t' hne => Shard.setPc_pc_of_ne _ hne _
        onDisk := List.Subset.refl _
        marked := fun _ => List.Subset.refl _
        newlyMarked := fun _ _ hh => .inl hh
        pending := fun _ _ _ => List.Subset.refl _
        pendingLock := fun j t' _ hlock' => by
          have hj : j ≠ i := by
            rintro rfl
            rw [hlock] at hlock'
            cases hlock'
          exact (update_of_ne hj _ _).trans hlock'
        carried := fun j h' hc => absurd hc (hcarried j h')
        busy := fun _ _ _ => ⟨rfl, rfl, rfl⟩ }
      refine h.of_leaves hl h.progress h.tmp h.flushed (fun j h' hh => ?_) ?_ ?_
      · exact (h.marked j h' hh).imp_right hl.safe
      · rw [Shard.setPc_pc]
        nofun
      · rw [Shard.setPc_pc]
        exact ⟨update_self _ _ _, fun h' hh => (h.marked i h' hh).imp_right hl.safe⟩

theorem call (h : Inv s) (hr : (s.pc t).ready = true) {op : Op I} (hs : s.call t op = some s') : Inv s' := by
  have hcarried := fun j h' => not_carries_of_ready (h := h') hr j
  have hready : ∀ pc : Pc I, pc.busy = false →
      (pc.busy = true → (s.pc t).busy = true ∨ ∀ t', (s.pc t').busy = false) :=
    fun pc hpc hb => by rw [hpc] at hb; cases hb
  cases op with
  | markCommitIndexed i hash =>
    simp only [Shard.call] at hs
    split at hs
    · cases hs
    · rename_i hlock
      cases hs
      exact h.addPending i hash (List.Subset.refl _) (fun _ => hlock) nofun hcarried trivial
  | saveCompleted i hash =>
    cases hs
    have hsaved : Inv (((s.addPending i hash).addMarked i []).setPc t (.saving i)) :=
      h.addPending i hash (nil_subset _) (absurd rfl) nofun hcarried trivial
    simpa [Shard.addMarked] using hsaved
  | flushPending i => exact h.startFlush hcarried hs
  | markCompleted i hashes =>
    cases hs
    exact h.moved s.lock (fun j h' hc => absurd hc (hcarried j h')) (hready _ rfl) trivial
  | setState i state =>
    simp only [Shard.call] at hs
    split at hs
    all_goals
      cases hs
      exact h.moved s.lock (fun j h' hc => absurd hc (hcarried j h')) (hready _ rfl) trivial
  | loadCompleted i =>
    cases hs
    exact h.moved s.lock (fun j h' hc => absurd hc (hcarried j h')) (hready _ rfl) (List.Subset.refl _)

theorem clear (h : Inv s) {toFlush : List Str} (hpc : s.pc t = .flushing i toFlush)
    (hcalm : ∀ t', (s.pc t').reads i = false) :
    Inv ({ s with
      pending := update s.pending i []
      pendingLock := update s.pendingLock i none }.setPc t (.waiting ⟨i, true, .extend toFlush⟩)) := by
  obtain ⟨hlock, hflush⟩ : s.ThreadOk t (.flushing i toFlush) := hpc ▸ h.threads t
  have hl : Leaves s ({ s with
      pending := update s.pending i []
      pendingLock := update s.pendingLock i none }.setPc t
        (.waiting ⟨i, true, .extend toFlush⟩)) t := {
    pc := fun t' hne => Shard.setPc_pc_of_ne _ hne _
    onDisk := List.Subset.refl _
    marked := fun _ => List.Subset.refl _
    newlyMarked := fun _ _ hh => .inl hh
    pending := fun j t' hreads h' hh => by
      have hj : j ≠ i := by
        rintro rfl
        rw [hcalm t'] at hreads
        cases hreads
      show h' ∈ update s.pending i [] j
      rwa [update_of_ne hj]
    pendingLock := fun j t' hne hlock' => by
      have hj : j ≠ i := by
        rintro rfl
        exact hne (Option.mem_unique hlock' hlock)
      exact (update_of_ne hj _ _).trans hlock'
    carried := fun j h' hc => by
      rw [hpc] at hc
      obtain ⟨u, hu, -⟩ := hc
      cases hu
    busy := fun _ _ _ => ⟨rfl, rfl, rfl⟩ }
  refine h.of_leaves hl h.progress h.tmp h.flushed (fun j h' hh => ?_) ?_ ?_
  · by_cases hj : j = i
    · subst hj
      -- A marked hash is in the snapshot, since `mark_commit_indexed` waits for `_pending_lock`.
      refine .inr ((hflush h' hh).elim (fun hmem => .inr ⟨t, ?_⟩) hl.safe)
      rw [Shard.setPc_pc]
      exact ⟨_, rfl, rfl, rfl, hmem⟩
    · refine (h.marked j h' hh).imp (fun hp => ?_) hl.safe
      show h' ∈ update s.pending i [] j
      rwa [update_of_ne hj]
  · rw [Shard.setPc_pc]
    nofun
  · rw [Shard.setPc_pc]
    trivial

theorem locked (h : Inv s) (hpc : s.pc t = .locked u) :
    Inv (s.setPc t (Shard.afterLoad s.content (.migrateUpdate u) (Shard.updateTo u))) := by
  obtain ⟨data, hdata, heq | ⟨-, heq⟩⟩ :=
    Shard.afterLoad_cases s.content (.migrateUpdate u) (Shard.updateTo u)
  all_goals
    rw [heq]
    refine h.moved s.lock (fun i h' hc => .inl ?_) (fun _ => .inl (by rw [hpc]; rfl)) ?_
  · rwa [hpc] at hc
  · refine ⟨fun h' hh => Modifier.mem_apply.2 (.inl (hdata hh)), fun h' hh => Modifier.mem_apply.2 (.inr hh), trivial⟩
  · rwa [hpc] at hc
  · exact ⟨hdata, trivial, trivial⟩

theorem loading (h : Inv s) {required : List Str} (hpc : s.pc t = .loading i required)
    (hcalm : CalmAt s (.loading i required)) :
    Inv (s.setPc t (Shard.afterLoad s.content (.migrateLoad i required)
      fun data => .snapshotting i required data.completedCommits)) := by
  have hreq : required ⊆ s.marked i := (hpc ▸ h.threads t : s.ThreadOk t (.loading i required))
  have hfound : ∀ h' ∈ required, h' ∈ s.onDisk ∨ h' ∈ s.pending i := by
    intro h' hh
    rcases h.marked i h' (hreq hh) with hp | hdisk | ⟨t', hc⟩
    · exact .inr hp
    · exact .inl hdisk
    · have := hcalm.1 t'
      rw [hc.flushes] at this
      cases this
  have hcarried : ∀ j h', ¬ (s.pc t).Carries j h' := by
    rintro j h' ⟨u, hu, -⟩
    rw [hpc] at hu
    cases hu
  obtain ⟨data, hdata, heq | ⟨hlegacy, heq⟩⟩ := Shard.afterLoad_cases s.content (.migrateLoad i required)
    fun data => .snapshotting i required data.completedCommits
  all_goals rw [heq]
  · exact h.moved s.lock (fun j h' hc => absurd hc (hcarried j h')) nofun
      fun h' hh => (hfound h' hh).imp_left fun hd => hdata hd
  · exact h.moved s.lock (fun j h' hc => absurd hc (hcarried j h')) (fun _ => .inr (hcalm.2 hlegacy))
      ⟨hdata, fun h' hh => (hfound h' hh).imp_left fun hd => hdata hd, trivial⟩

theorem busyStep (h : Inv s) (hb : (s.pc t).busy = true)
    {progress : Option ℕ}
    (hs : s' = { s with files := files, nextInode := nextInode, progress := progress, tmp := tmp }.setPc t pc)
    (hdisk : s.onDisk ⊆ s'.onDisk)
    (hprogress : ∀ n, progress = some n → n < nextInode)
    (htmp : ∀ n, tmp = some n → n < nextInode ∧ progress ≠ some n)
    (hcarried : ∀ i h, (s.pc t).Carries i h → pc.Carries i h ∨ h ∈ s'.onDisk)
    (hown : s'.ThreadOk t pc) : Inv s' := by
  subst hs
  have hl : Leaves s ({ s with
      files := files, nextInode := nextInode, progress := progress, tmp := tmp }.setPc t pc) t := {
    pc := fun t' hne => Shard.setPc_pc_of_ne _ hne _
    onDisk := hdisk
    marked := fun _ => List.Subset.refl _
    newlyMarked := fun _ _ hh => .inl hh
    pending := fun _ _ _ => List.Subset.refl _
    pendingLock := fun _ _ _ hlock => hlock
    carried := fun i h hc => (hcarried i h hc).elim (fun hc => .inr ⟨t, by rwa [Shard.setPc_pc]⟩) .inl
    busy := fun t' hne hb' => absurd (h.one t' t hb' hb) hne }
  refine h.of_leaves hl hprogress htmp (fun h' hh => hdisk (h.flushed hh)) (fun j h' hh => ?_)
    (fun _ => .inl hb) ?_
  · exact (h.marked j h' hh).imp_right hl.safe
  · rwa [Shard.setPc_pc]

omit [DecidableEq T] [DecidableEq I] in
theorem onDisk_update {s : Shard T I P} {c : Content}
    (hfiles : files = update s.files n c) (hn : s.progress ≠ some n) :
    Shard.onDisk { s with files := files, nextInode := nextInode, tmp := tmp } = s.onDisk := by
  subst hfiles
  simp only [Shard.onDisk, Shard.content]
  split
  · rfl
  · rename_i m hm
    have hm' : m ≠ n := fun he => hn (he ▸ hm)
    rw [update_of_ne hm']

omit [DecidableEq T] [DecidableEq I] in
theorem openTmp_eq (h : Inv s) : ∃ n next, s.openTmp =
    ({ s with files := update s.files n .empty, tmp := some n, nextInode := next }, n) ∧
      s.progress ≠ some n ∧ n < next ∧ s.nextInode ≤ next := by
  unfold Shard.openTmp
  split
  · rename_i n htmp
    obtain ⟨hlt, hne⟩ := h.tmp n htmp
    exact ⟨n, s.nextInode, by rw [htmp], hne, hlt, le_refl _⟩
  · exact ⟨s.nextInode, s.nextInode + 1, rfl, fun hp => lt_irrefl _ (h.progress _ hp), Nat.lt_succ_self _,
      Nat.le_succ _⟩

theorem opening (h : Inv s) (hpc : s.pc t = .writing k data .opening) :
    Inv (s.openTmp.1.setPc t (.writing k data (.opened s.openTmp.2))) := by
  obtain ⟨hdisk, hk, -⟩ : s.ThreadOk t (.writing k data .opening) := hpc ▸ h.threads t
  obtain ⟨n, next, heq, hne, hlt, hle⟩ := h.openTmp_eq
  have hsame : Shard.onDisk
      { s with files := update s.files n .empty, nextInode := next, tmp := some n } = s.onDisk :=
    onDisk_update rfl hne
  rw [heq]
  refine h.busyStep (by rw [hpc]; rfl) rfl (fun _ hh => hsame.symm ▸ hh) ?_ ?_ ?_ ?_
  · exact fun m hm => lt_of_lt_of_le (h.progress m hm) hle
  · rintro m ⟨⟩
    exact ⟨hlt, hne⟩
  · intro i h' hc
    rw [hpc] at hc
    cases k <;> exact .inl hc
  · exact ⟨fun h' hh => hdisk (hsame ▸ hh), by cases k <;> exact hk, rfl, update_self _ _ _⟩

theorem opened (h : Inv s) (hpc : s.pc t = .writing k data (.opened n))
    (clean : Bool) :
    Inv ({ s with files := update s.files n (Shard.written (s.files n) data clean) }.setPc t
      (.writing k data .closed)) := by
  obtain ⟨hdisk, hk, htmp, hempty⟩ : s.ThreadOk t (.writing k data (.opened n)) := hpc ▸ h.threads t
  have hsame : Shard.onDisk
      { s with files := update s.files n (Shard.written (s.files n) data clean) } = s.onDisk :=
    onDisk_update rfl (h.tmp n htmp).2
  refine h.busyStep (by rw [hpc]; rfl) rfl (fun _ hh => hsame.symm ▸ hh) h.progress h.tmp ?_ ?_
  · intro i h' hc
    rw [hpc] at hc
    cases k <;> exact .inl hc
  · refine ⟨fun h' hh => hdisk (hsame ▸ hh), by cases k <;> exact hk, n, htmp, ?_⟩
    refine (update_self _ _ _).trans ?_
    simp [Shard.written, hempty]

theorem closed (h : Inv s) (hpc : s.pc t = .writing k data .closed) : Inv (s.replaceTmp t k data) := by
  obtain ⟨hdisk, hk, n, htmp, hfile⟩ : s.ThreadOk t (.writing k data .closed) := hpc ▸ h.threads t
  have hnew : ∀ pc : Pc I, ({ s with progress := some n, tmp := none }.setPc t pc).onDisk =
      data.completedCommits := by
    intro pc
    show (s.files n).commits = _
    rw [hfile]
    rfl
  unfold Shard.replaceTmp
  simp only [htmp]
  refine h.busyStep (by rw [hpc]; rfl) rfl (hnew _ ▸ hdisk) ?_ nofun ?_ ?_
  · intro m hm
    cases hm
    exact (h.tmp n htmp).1
  · intro i h' hc
    rw [hpc] at hc
    rw [hnew]
    cases k with
    | migrateLoad j required =>
      obtain ⟨u, hu, -⟩ := hc
      cases hu
    | migrateUpdate u => exact .inl hc
    | update u =>
      obtain ⟨u', hu, -, -, hmem⟩ := hc
      cases hu
      exact .inr (hk hmem)
  · cases k with
    | migrateLoad j required => exact hk
    | migrateUpdate u =>
      refine ⟨fun h' hh => ?_, fun h' hh => Modifier.mem_apply.2 (.inr hh), trivial⟩
      rw [hnew] at hh
      exact Modifier.mem_apply.2 (.inl hh)
    | update u =>
      intro h' hh
      rw [hnew]
      exact hk hh

variable [DecidableEq P]

theorem releasing (owner : T → P) (h : Inv s) {ok : Bool} (hpc : s.pc t = .releasing u ok) :
    Inv (s.release owner t u ok) := by
  have hcarried : ∀ j h', ¬ (s.pc t).Carries j h' := by
    rintro j h' ⟨u, hu, -⟩
    rw [hpc] at hu
    cases hu
  cases ok with
  | false => exact h.moved _ (fun j h' hc => absurd hc (hcarried j h')) nofun trivial
  | true =>
    have hhashes : u.modifier.hashes ⊆ s.onDisk := (hpc ▸ h.threads t : s.ThreadOk t (.releasing u true))
    have hl : Leaves s (s.release owner t u true) t := {
      pc := fun t' hne => Shard.setPc_pc_of_ne _ hne _
      onDisk := List.Subset.refl _
      marked := fun j h' hh => (Shard.marked_addMarked s u.inst _ j h').2 (.inl hh)
      newlyMarked := fun j h' hh =>
        ((Shard.marked_addMarked s u.inst _ j h').1 hh).imp_right fun hnew => .inl (hhashes hnew.2)
      pending := fun _ _ _ => List.Subset.refl _
      pendingLock := fun _ _ _ hlock => hlock
      carried := fun j h' hc => absurd hc (hcarried j h')
      busy := fun _ _ _ => ⟨rfl, rfl, rfl⟩ }
    have hidle : (s.release owner t u true).pc t = .idle := Shard.setPc_pc _ _ _
    refine h.of_leaves hl h.progress h.tmp ?_ (fun j h' hh => ?_) ?_ ?_
    · exact append_subset.2 ⟨h.flushed, hhashes⟩
    · rcases (Shard.marked_addMarked s u.inst _ j h').1 hh with hold | ⟨-, hnew⟩
      · exact (h.marked j h' hold).imp_right hl.safe
      · exact .inr (.inl (hhashes hnew))
    · rw [hidle]
      nofun
    · rw [hidle]
      trivial

theorem go (h : Inv s) {clean : Bool} (hcalm : CalmAt s (s.pc t)) (hs : s.go owner t clean = some s') : Inv s' := by
  unfold Shard.go at hs
  split at hs
  all_goals
    rename_i hpc
    rw [hpc] at hcalm
  · cases hs
  · cases hs
  · refine h.startFlush (fun j h' hc => ?_) hs
    rw [hpc] at hc
    obtain ⟨u, hu, -⟩ := hc
    cases hu
  · cases hs
    exact h.clear hpc hcalm
  · split at hs <;> cases hs
    refine h.moved _ (fun i h' hc => .inl ?_) (fun _ => .inr hcalm) trivial
    rwa [hpc] at hc
  · cases hs
    exact h.locked hpc
  · cases hs
    exact h.opening hpc
  · cases hs
    exact h.opened hpc clean
  · cases hs
    exact h.closed hpc
  · cases hs
    exact h.releasing owner hpc
  · cases hs
    exact h.loading hpc hcalm
  · split at hs <;> cases hs
    have hreq := h.threads t
    rw [hpc] at hreq
    refine h.moved s.lock (fun j h' hc => ?_) nofun fun h' hh => mem_append.2 (hreq h' hh)
    rw [hpc] at hc
    obtain ⟨u, hu, -⟩ := hc
    cases hu

omit [DecidableEq T] [DecidableEq I] [DecidableEq P] in
theorem init (hf : Fresh s) : Inv s where
  progress := hf.progress
  tmp := hf.tmp
  flushed := hf.flushed ▸ nil_subset _
  marked i h hh := by
    rw [hf.marked i] at hh
    cases hh
  one t t' hb := by
    rw [hf.pc t] at hb
    cases hb
  threads t := by
    rw [hf.pc t]
    trivial

theorem of_reachable (h : (shard owner).Reachable Calm s) : Inv s := by
  refine h.invariant (fun s (hs : Fresh s) => init hs) ?_
  intro s a s' hinv hcalm hs
  cases a with
  | call t op =>
    simp only [shard, Shard.step] at hs
    split at hs
    · rename_i hready
      exact hinv.call hready hs
    · cases hs
  | go t clean => exact hinv.go hcalm hs

end Inv

/-- In every run of threads of one or several processes whose steps are all calm. -/
theorem marks_kept [DecidableEq P] {owner : T → P} {s : Shard T I P} (h : (shard owner).Reachable Calm s) :
    Kept s := by
  have hinv := Inv.of_reachable h
  refine ⟨fun t i required result hpc => ?_, hinv.flushed⟩
  have := hinv.threads t
  rw [hpc] at this
  exact this

/-- A directory with the progress file `c`, and no thread in a call. -/
def Shard.restarted (c : Option Content) : Shard T I P where
  files _ := c.getD .empty
  nextInode := 1
  progress := c.map fun _ => 0
  tmp := none
  lock := none
  pending _ := []
  pendingLock _ := none
  pc _ := .idle
  marked _ := []
  flushed := []

omit [DecidableEq T] [DecidableEq I] in
theorem fresh_restarted (c : Option Content) : Fresh (.restarted c : Shard T I P) where
  pc _ := rfl
  pending _ := rfl
  pendingLock _ := rfl
  marked _ := rfl
  flushed := rfl
  lock := rfl
  progress n hn := by
    obtain ⟨-, -, rfl⟩ := Option.map_eq_some_iff.1 hn
    exact Nat.zero_lt_one
  tmp _ := nofun

/-- Thread 0 stages `a1` and flushes it, with the migration of a legacy file; thread 1's `load_completed` begins
before the flush and goes on after it. -/
def flushWhileLoading : List (Act (Fin 2) Unit) :=
  [.call 0 (.markCommitIndexed () "a1"), .call 1 (.loadCompleted ()), .call 0 (.flushPending ())] ++
    List.replicate 10 (.go 0 false) ++ [.go 1 false, .go 1 false]

/-- Thread 1 loads between the clearing of `_pending` and the publication. -/
def loadWhileFlushing : List (Act (Fin 2) Unit) :=
  [.call 0 (.markCommitIndexed () "a1"), .call 0 (.flushPending ()), .go 0 false,
    .call 1 (.loadCompleted ()), .go 1 false, .go 1 false]

/-- Thread 1 reads a legacy file, thread 0 flushes `a1`, and then thread 1 migrates what it read. -/
def flushWhileMigrating : List (Act (Fin 2) Unit) :=
  [.call 1 (.loadCompleted ()), .go 1 false, .call 0 (.markCommitIndexed () "a1"),
    .call 0 (.flushPending ())] ++ List.replicate 10 (.go 0 false) ++ List.replicate 3 (.go 1 false)

/-- The load finds what the flush has published. -/
theorem marks_kept_by_flush_of_legacy :
    ∃ s : Shard (Fin 2) Unit (Fin 2), (shard id).Reachable Calm s ∧
      s.pc 1 = .loaded () ["a1".toList] ["a1".toList, "c0".toList] ∧ s.flushed = ["a1".toList] ∧ Kept s := by
  exact exists_of_run_and_and (.restarted (some (.doc (.legacy ["c0", "c0"] "failed")))) flushWhileLoading
    (fresh_restarted _) (by decide +kernel) fun s hreach _ _ => marks_kept hreach

/-- The load misses `a1`, and the migration takes `a1` off the disk. -/
theorem marks_lost_by_overlap :
    (∃ s : Shard (Fin 2) Unit (Fin 2), (shard id).Reachable Any s ∧
      s.pc 1 = .loaded () ["a1"] [] ∧ ¬ Kept s) ∧
    ∃ s : Shard (Fin 2) Unit (Fin 2), (shard id).Reachable Any s ∧
      s.flushed = ["a1".toList] ∧ s.onDisk = ["c0".toList] ∧ ¬ Kept s := by
  constructor
  · refine exists_of_run_and (.restarted none) loadWhileFlushing (fresh_restarted _) (by decide +kernel)
      fun s _ hpc hkept => ?_
    exact not_mem_nil (hkept.loaded 1 () _ _ hpc mem_cons_self)
  · refine exists_of_run_and_and (.restarted (some (.doc (.legacy ["c0"] "complete")))) flushWhileMigrating
      (fresh_restarted _) (by decide +kernel) fun s _ hflushed hdisk hkept => ?_
    have hmem := hkept.flushed (hflushed ▸ mem_singleton_self _)
    rw [hdisk] at hmem
    exact absurd (mem_singleton.1 hmem) (by decide)

end CodeIndexer.Temporal.Progress
