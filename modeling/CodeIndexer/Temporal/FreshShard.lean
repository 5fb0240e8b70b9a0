import CodeIndexer.Temporal.StaleBarrier

/-!
# When a fresh shard is consistent

A run that finds the shard stale deletes the unfinished points of the commits it is about to index, rebuilds
the index from every vector file and clears the flag. If its plan leaves out a commit that crashed half way,
the points of that commit stay. `Covered` says that the plan does not leave one out; then the flag reads
`False` only on a consistent shard (`Inv`).
-/

namespace CodeIndexer.Temporal.Barrier

open TransitionSystem List

variable {C D : Type}

def Single (files : List (File C D)) : Prop := ∀ p d d', (d, p) ∈ files → (d', p) ∈ files → d = d'

namespace Single

variable {files : List (File C D)}

theorem filter (h : Single files) (keep : File C D → Bool) : Single (files.filter keep) := fun p d d' hd hd' =>
  h p d d' (mem_of_mem_filter hd) (mem_of_mem_filter hd')

theorem insert [DecidableEq C] [DecidableEq D] (h : Single files) {d : D} {p : Point C} (hp : ¬ OnDisk files p) :
    Single (files.insert (d, p)) := by
  intro q d₁ d₂ h₁ h₂
  rcases mem_insert_iff.1 h₁ with he₁ | h₁ <;> rcases mem_insert_iff.1 h₂ with he₂ | h₂
  · exact (Prod.mk.inj he₁).1.trans (Prod.mk.inj he₂).1.symm
  · exact absurd ⟨d₂, (Prod.mk.inj he₁).2 ▸ h₂⟩ hp
  · exact absurd ⟨d₁, (Prod.mk.inj he₂).2 ▸ h₁⟩ hp
  · exact h q d₁ d₂ h₁ h₂

end Single

theorem onDisk_insert [DecidableEq C] [DecidableEq D] {files : List (File C D)} {d : D} {p q : Point C} :
    OnDisk (files.insert (d, p)) q ↔ q = p ∨ OnDisk files q := by
  constructor
  · rintro ⟨d', h⟩
    rcases mem_insert_iff.1 h with he | h
    · exact .inl (Prod.mk.inj he).2
    · exact .inr ⟨d', h⟩
  · rintro (rfl | ⟨d', h⟩)
    · exact ⟨d, mem_insert_self⟩
    · exact ⟨d', mem_insert_of_mem h⟩

/-! ### What reconciliation finds -/

section Scan

variable [DecidableEq C] {files : List (File C D)}

theorem scan_append_singleton (files : List (File C D)) (f : File C D) :
    scan (files ++ [f]) = (scan files).set f.2 f.1 := by
  rw [scan, foldl_append]
  rfl

variable {p : Point C} {c : C} {f : File C D} {commits completed : List C} {s : Shard C D} {R : Repo C}
  {r : Request C}

theorem mem_of_get?_scan {d : D} (h : (scan files).get? p = some d) : (d, p) ∈ files := by
  obtain ⟨f, hf, rfl, rfl⟩ := Dict.exists_of_get?_foldl_set h
  exact hf

theorem exists_get?_scan (h : OnDisk files p) : ∃ d, (scan files).get? p = some d := by
  induction files using List.reverseRecOn with
  | nil =>
    obtain ⟨d, hd⟩ := h
    cases hd
  | append_singleton files f ih =>
    rw [scan_append_singleton]
    by_cases hp : p = f.2
    · exact ⟨f.1, by rw [hp, Dict.get?_set_self]⟩
    · obtain ⟨d, hd⟩ := h
      have hold : (d, p) ∈ files := (mem_append.1 hd).resolve_right fun hf =>
        hp (congrArg Prod.snd (mem_singleton.1 hf))
      rw [Dict.get?_set_of_ne _ _ hp]
      exact ih ⟨d, hold⟩

theorem mem_pointsOf_iff : f ∈ pointsOf files c ↔ (scan files).get? f.2 = some f.1 ∧ f.2.1 = c := by
  rw [pointsOf, mem_map]
  constructor
  · rintro ⟨e, he, rfl⟩
    obtain ⟨hitem, hc⟩ := mem_filter.1 he
    exact ⟨Dict.mem_items_iff.1 hitem, of_decide_eq_true hc⟩
  · rintro ⟨hget, hc⟩
    exact ⟨(f.2, f.1), mem_filter.2 ⟨Dict.mem_items_iff.2 hget, decide_eq_true hc⟩, rfl⟩

theorem mem_pointsOf (hs : Single files) : f ∈ pointsOf files c ↔ f ∈ files ∧ f.2.1 = c := by
  rw [mem_pointsOf_iff]
  refine and_congr_left fun _ => ⟨mem_of_get?_scan, fun hf => ?_⟩
  obtain ⟨d, hd⟩ := exists_get?_scan ⟨f.1, hf⟩
  -- The one file of the point is the file that the scan kept.
  rw [hd, hs f.2 f.1 d hf (mem_of_get?_scan hd)]

theorem mem_strays (hs : Single s.files) :
    f ∈ strays s commits ↔ f ∈ s.files ∧ f.2.1 ∈ commits ∧ f.2.1 ∉ s.completed := by
  rw [strays, mem_flatMap]
  constructor
  · rintro ⟨c, hc, hf⟩
    split at hf
    · cases hf
    · rename_i hcompleted
      obtain ⟨hfile, rfl⟩ := (mem_pointsOf hs).1 hf
      exact ⟨hfile, hc, hcompleted⟩
  · rintro ⟨hf, hc, hcompleted⟩
    refine ⟨f.2.1, hc, ?_⟩
    rw [if_neg hcompleted]
    exact (mem_pointsOf hs).2 ⟨hf, rfl⟩

theorem mem_missing : c ∈ missing s commits ↔ c ∈ commits ∧ (pointsOf s.files c = [] ∨ c ∉ s.completed) := by
  rw [missing, mem_filter, decide_eq_true_iff]

theorem mem_strays_of_missing (hs : Single s.files)
    (hf : f ∈ s.files) (hc : f.2.1 ∈ missing s commits) : f ∈ strays s commits := by
  obtain ⟨hmem, hnone | hcompleted⟩ := mem_missing.1 hc
  · have hpoint := (mem_pointsOf hs).2 ⟨hf, rfl⟩
    rw [hnone] at hpoint
    cases hpoint
  · exact (mem_strays hs).2 ⟨hf, hmem, hcompleted⟩

theorem computePlan_eq (R : Repo C) (completed : List C) (r : Request C) :
    computePlan R completed r =
      let eligible := r.commits.1.filter fun c => r.Eligible R completed c
      (match r.maxCommits with
        | some n => if 0 < n then eligible.drop (eligible.length - n) else eligible
        | none => eligible).filter R.inShard := by
  obtain ⟨commits, elsewhere, sinceDate, maxCommits⟩ := r
  cases sinceDate with
  | none =>
    have h : (fun c => decide (c ∉ completed ∧ c ∉ elsewhere)) =
        fun c => decide (Request.Eligible R completed ⟨commits, elsewhere, none, maxCommits⟩ c) := by
      funext c
      simp [Request.Eligible]
    cases maxCommits <;> simp only [computePlan, h]
  | some cutoff =>
    have h : (fun c => decide (cutoff ≤ R.timestamp c) && decide (c ∉ completed ∧ c ∉ elsewhere)) =
        fun c => decide (Request.Eligible R completed ⟨commits, elsewhere, some cutoff, maxCommits⟩ c) := by
      funext c
      simp [Request.Eligible, Bool.and_comm, Bool.and_assoc]
    cases maxCommits <;> simp only [computePlan, filter_filter, h]

theorem computePlan_sublist (R : Repo C) (completed : List C) (r : Request C) :
    (computePlan R completed r).Sublist (r.commits.1.filter fun c => r.Eligible R completed c) := by
  rw [computePlan_eq]
  refine filter_sublist.trans ?_
  cases r.maxCommits with
  | none => exact .refl _
  | some n =>
    dsimp only
    split
    · exact drop_sublist _ _
    · exact .refl _

theorem nodup_computePlan (R : Repo C) (completed : List C) (r : Request C) : (computePlan R completed r).Nodup :=
  (r.commits.2.filter _).sublist (computePlan_sublist R completed r)

theorem not_completed_of_mem_computePlan (h : c ∈ computePlan R completed r) : c ∉ completed :=
  (of_decide_eq_true (mem_filter.1 ((computePlan_sublist R completed r).subset h)).2 :
    r.Eligible R completed c).1

omit [DecidableEq C] in
theorem mem_drop_of_newer {older newer : List C} {n : ℕ} (h : newer.length < n) :
    c ∈ (older ++ c :: newer).drop ((older ++ c :: newer).length - n) := by
  rw [drop_append_of_le_length (by simp; omega)]
  exact mem_append_right _ mem_cons_self

theorem mem_computePlan (h : r.Admits R completed c) : c ∈ computePlan R completed r := by
  obtain ⟨hlist, hshard, heligible, hnewest⟩ := h
  rw [computePlan_eq]
  refine mem_filter.2 ⟨?_, hshard⟩
  have hmem : c ∈ r.commits.1.filter fun c => r.Eligible R completed c :=
    mem_filter.2 ⟨hlist, decide_eq_true heligible⟩
  cases hmax : r.maxCommits with
  | none => exact hmem
  | some n =>
    dsimp only
    split
    · rename_i hn
      obtain ⟨older, newer, hsplit⟩ := append_of_mem hlist
      have hfresh : c ∉ newer := by
        have hnodup := r.commits.2
        rw [hsplit] at hnodup
        exact (nodup_cons.1 (nodup_append.1 hnodup).2.1).1
      have hnewer : r.commits.1.reverse.takeWhile (· ≠ c) = newer.reverse := by
        rw [hsplit, reverse_append, reverse_cons, append_assoc, takeWhile_append_of_pos]
        · simp
        · intro c' hc'
          exact decide_eq_true fun he => hfresh (he ▸ mem_reverse.1 hc')
      have hcount := hnewest n hmax hn
      rw [hnewer, filter_reverse, length_reverse] at hcount
      rw [hsplit, filter_append,
        filter_cons_of_pos (p := fun c => r.Eligible R completed c) (decide_eq_true heligible)]
      exact mem_drop_of_newer hcount
    · exact hmem

end Scan

/-! ### The invariant -/

/-- What the flag promises besides whole commits; the index is also not torn. -/
structure Settled (s : Shard C D) : Prop where
  index : ∀ p, s.content.Has p ↔ OnDisk s.files p
  marked : ∀ c j, OnDisk s.files (c, j) → c ∈ s.completed
  sound : s.content ≠ .torn

theorem Settled.go {s : Shard C D} (h : Settled s) (flag : Option Bool) (phase : Phase C D) :
    Settled { s with flag := flag, phase := phase } :=
  ⟨h.index, h.marked, h.sound⟩

/-- The index of a run that does not rebuild lacks only what the run wrote. -/
structure Appended (s : Shard C D) (session : List (Point C)) : Prop where
  sound : s.content ≠ .torn
  written : ∀ p, OnDisk s.files p ↔ s.content.Has p ∨ p ∈ session

namespace Shard

variable {s : Shard C D}

theorem flag_eq_of_isStale (h : s.isStale = false) : s.flag = some false := by
  unfold isStale at h
  cases hflag : s.flag with
  | none =>
    rw [hflag] at h
    cases h
  | some b =>
    rw [hflag] at h
    exact congrArg some h

theorem isStale_of_flag_ne (h : s.flag ≠ some false) : s.isStale = true := by
  by_contra hstale
  exact h (flag_eq_of_isStale (Bool.eq_false_iff.2 hstale))

theorem rebuilt_has (s : Shard C D) (p : Point C) : s.rebuilt.Has p ↔ OnDisk s.files p := by
  unfold rebuilt
  split
  · rename_i hnone
    rw [hnone]
    constructor
    · rintro ⟨ps, h, -⟩
      cases h
    · rintro ⟨d, hd⟩
      cases hd
  · constructor
    · rintro ⟨ps, h, hp⟩
      obtain rfl := Content.points.inj h
      obtain ⟨f, hf, rfl⟩ := mem_map.1 hp
      exact ⟨f.1, hf⟩
    · rintro ⟨d, hd⟩
      exact ⟨_, rfl, mem_map.2 ⟨_, hd, rfl⟩⟩

theorem rebuilt_ne_torn (s : Shard C D) : s.rebuilt ≠ .torn := by
  unfold rebuilt
  split <;> nofun

end Shard

section Inv

variable [DecidableEq C]

/-- Commits not begun have no points, those begun have the points written so far and those completed all of
them; the other points are of commits on disk as completed. -/
structure Writing (R : Repo C) (s : Shard C D) (queue : List C) (active : Dict C ℕ) (pending : List C) : Prop where
  nodup : queue.Nodup
  unstarted : ∀ c ∈ queue, ∀ j, ¬ OnDisk s.files (c, j)
  started : ∀ c j, active.get? c = some j → c ∉ queue ∧ ∀ i, OnDisk s.files (c, i) ↔ i < j
  whole : ∀ c ∈ pending, ∀ j < R.chunks c, OnDisk s.files (c, j)
  accounted : ∀ c j, OnDisk s.files (c, j) → c ∈ s.completed ∨ c ∈ pending ∨ (active.get? c).isSome = true

/-- Every file that does not belong to a completed commit is about to be unlinked, and so is every file of the
commits that come next. -/
structure Deleting (s : Shard C D) (left : List (File C D)) (next : Option (List C)) : Prop where
  uncompleted : ∀ f ∈ left, f.2.1 ∉ s.completed
  doomed : ∀ f ∈ s.files, f.2.1 ∈ s.completed ∨ f ∈ left
  done : next = none → Settled s
  nodup : ∀ commits ∈ next, commits.Nodup
  again : ∀ commits ∈ next, ∀ f ∈ s.files, f.2.1 ∈ commits → f ∈ left

structure Marking (s : Shard C D) (operator : Bool) (commits : List C) (wasStale : Bool) : Prop where
  stale : wasStale = s.isStale
  nodup : commits.Nodup
  new : operator = false → ∀ c ∈ commits, c ∉ s.completed
  covered : operator = true ∨ wasStale = true → ∀ f ∈ s.files, f.2.1 ∈ s.completed ∨ f.2.1 ∈ commits

def PhaseOk (R : Repo C) (s : Shard C D) : Phase C D → Prop
  | .idle => True
  | .marking operator commits wasStale => Marking s operator commits wasStale
  | .deleting left next => Deleting s left next
  | .writing force queue active pending session =>
    Writing R s queue active pending ∧ (force = false → Appended s session)
  | .publishing force session =>
    (∀ c j, OnDisk s.files (c, j) → c ∈ s.completed) ∧ (force = false → Appended s session)
  | .describing content => Settled { s with content := content }
  | .clearing => Settled s

def Phase.barred : Phase C D → Bool
  | .idle | .marking .. => false
  | _ => true

variable {R : Repo C} {s : Shard C D}

theorem Settled.writing (h : Settled s) {commits : List C} (hnodup : commits.Nodup)
    (hnew : ∀ c ∈ commits, c ∉ s.completed) : Writing R s commits .empty [] where
  nodup := hnodup
  unstarted c hc j hdisk := hnew c hc (h.marked c j hdisk)
  started _ _ hj := nomatch hj
  whole _ hc := nomatch hc
  accounted c j hdisk := .inl (h.marked c j hdisk)

omit [DecidableEq C] in
theorem Settled.appended (h : Settled s) : Appended s [] :=
  ⟨h.sound, fun p => by rw [h.index]; simp⟩

theorem PhaseOk.go {p : Phase C D} (h : PhaseOk R s p) (hb : p.barred = true)
    (flag : Option Bool) (phase : Phase C D) : PhaseOk R { s with flag := flag, phase := phase } p := by
  cases p with
  | idle => trivial
  | marking operator commits wasStale => cases hb
  | deleting left next => exact ⟨h.uncompleted, h.doomed, fun hn => (h.done hn).go _ _, h.nodup, h.again⟩
  | writing force queue active pending session =>
    obtain ⟨hw, ha⟩ := h
    exact ⟨⟨hw.nodup, hw.unstarted, hw.started, hw.whole, hw.accounted⟩,
      fun hf => ⟨(ha hf).sound, (ha hf).written⟩⟩
  | publishing force session => exact ⟨h.1, fun hf => ⟨(h.2 hf).sound, (h.2 hf).written⟩⟩
  | describing content | clearing => exact Settled.go h flag phase

structure Inv (R : Repo C) (s : Shard C D) : Prop where
  single : Single s.files
  whole : ∀ c ∈ s.completed, ∀ j < R.chunks c, OnDisk s.files (c, j)
  fresh : s.flag = some false → Settled s
  barred : s.phase.barred = true → s.flag ≠ some false
  phase : PhaseOk R s s.phase

namespace Shard

variable {s : Shard C D}

variable {force : Bool} {session : List (Point C)}

theorem finalized_has (h : force = false → Appended s session)
    (p : Point C) : (s.finalized force session).Has p ↔ OnDisk s.files p := by
  unfold finalized
  split
  · exact s.rebuilt_has p
  · rename_i hforce
    obtain ⟨hsound, hwritten⟩ := h (by simp at hforce; exact hforce.1)
    rw [hwritten p]
    split
    · rename_i habsent
      rw [s.rebuilt_has, hwritten, habsent]
    · contradiction
    · rename_i ps hps
      rw [hps]
      simp only [Content.Has, Content.points.injEq, exists_eq_left', mem_append, mem_filter,
        decide_eq_true_iff]
      by_cases hp : p ∈ ps <;> simp [hp]

theorem finalized_ne_torn (h : force = false → Appended s session) : s.finalized force session ≠ .torn := by
  unfold finalized
  split
  · exact s.rebuilt_ne_torn
  · rename_i hforce
    obtain ⟨hsound, -⟩ := h (by simp at hforce; exact hforce.1)
    split
    · exact s.rebuilt_ne_torn
    · contradiction
    · nofun

end Shard

namespace Inv

variable {R : Repo C} {s : Shard C D}

theorem run (h : Inv R s) {r : Request C} (hc : Covered R s (.run r)) :
    Inv R { s with phase := .marking false (computePlan R s.completed r) s.isStale } where
  single := h.single
  whole := h.whole
  fresh hf := (h.fresh hf).go _ _
  barred := nofun
  phase := {
    stale := rfl
    nodup := nodup_computePlan R s.completed r
    new := fun _ _ => not_completed_of_mem_computePlan
    covered := fun hs f hf => (hc (hs.resolve_left nofun) f hf).imp_right mem_computePlan }

theorem reconcile (h : Inv R s) {u : Universe C} (hc : Covered R s (.reconcile u)) :
    Inv R { s with phase := .marking true (u.1.filter R.inShard) s.isStale } where
  single := h.single
  whole := h.whole
  fresh hf := (h.fresh hf).go _ _
  barred := nofun
  phase := {
    stale := rfl
    nodup := u.2.filter _
    new := nofun
    covered := fun _ f hf => (hc f hf).imp_right mem_filter.2 }

theorem flag_map_true_ne (flag : Option Bool) : (flag.map fun _ => true) ≠ some false := by
  cases flag <;> nofun

variable {operator wasStale : Bool} {commits : List C} {next : Option (List C)}

theorem deleting_of_marking (h : Inv R s)
    (hm : Marking s operator commits wasStale) (hcovered : operator = true ∨ wasStale = true)
    (hdone : next = none → Settled s) (hsub : ∀ commits' ∈ next, commits'.Sublist commits)
    (hagain : ∀ commits' ∈ next, ∀ f ∈ s.files, f.2.1 ∈ commits' → f ∈ strays s commits) :
    Deleting s (strays s commits) next where
  uncompleted f hf := ((mem_strays h.single).1 hf).2.2
  doomed f hf := by
    by_cases hcompleted : f.2.1 ∈ s.completed
    · exact .inl hcompleted
    · have hmem := (hm.covered hcovered f hf).resolve_left hcompleted
      exact .inr ((mem_strays h.single).2 ⟨hf, hmem, hcompleted⟩)
  done := hdone
  nodup commits' hc := hm.nodup.sublist (hsub commits' hc)
  again := hagain

theorem phaseOk_afterMark (h : Inv R s)
    (hm : Marking s operator commits wasStale) : PhaseOk R s (s.afterMark operator commits wasStale) := by
  have hfresh (hw : wasStale = false) : Settled s := h.fresh (Shard.flag_eq_of_isStale (hm.stale.symm.trans hw))
  cases operator with
  | true =>
    refine h.deleting_of_marking hm (.inl rfl) (fun hnone => ?_) (fun commits' hc => ?_) fun commits' hc f hf hmem => ?_
    · split at hnone
      · rename_i hnothing
        exact hfresh hnothing.2
      · cases hnone
    · split at hc <;> cases hc
      exact filter_sublist
    · split at hc <;> cases hc
      exact mem_strays_of_missing h.single hf hmem
  | false =>
    cases wasStale with
    | true =>
      refine h.deleting_of_marking hm (.inr rfl) nofun (fun commits' hc => ?_) fun commits' hc f hf hmem => ?_
      · cases hc
        exact .refl _
      · cases hc
        exact (mem_strays h.single).2 ⟨hf, hmem, hm.new rfl _ hmem⟩
    | false =>
      have hs := hfresh rfl
      exact ⟨hs.writing hm.nodup (hm.new rfl), fun _ => hs.appended⟩

theorem advance (h : Inv R s) {flag : Option Bool} {p : Phase C D} (hflag : flag ≠ some false)
    (hb : p.barred = true) (hp : PhaseOk R s p) : Inv R { s with flag := flag, phase := p } where
  single := h.single
  whole := h.whole
  fresh hf := absurd hf hflag
  barred _ := hflag
  phase := hp.go hb flag p

theorem unlink [DecidableEq D] (h : Inv R s) {f : File C D} {left : List (File C D)}
    (hflag : s.flag ≠ some false) (hp : Deleting s (f :: left) next) :
    Inv R { s with files := s.files.filter (· ≠ f), phase := .deleting left next } := by
  have hkept {g : File C D} : g ∈ s.files.filter (· ≠ f) ↔ g ∈ s.files ∧ g ≠ f := by
    rw [mem_filter, decide_eq_true_iff]
  have huncompleted : f.2.1 ∉ s.completed := hp.uncompleted f mem_cons_self
  have hleft {g : File C D} (hg : g ≠ f) (hmem : g ∈ f :: left) : g ∈ left := (mem_cons.1 hmem).resolve_left hg
  refine ⟨h.single.filter _, fun c hc j hj => ?_, fun hf => absurd hf hflag, fun _ => hflag, ?_⟩
  · obtain ⟨d, hd⟩ := h.whole c hc j hj
    refine ⟨d, hkept.2 ⟨hd, fun he => huncompleted ?_⟩⟩
    rw [← he]
    exact hc
  · refine ⟨fun g hg => hp.uncompleted g (mem_cons_of_mem f hg), fun g hg => ?_, fun hnone => ?_, hp.nodup,
      fun commits hc g hg hmem => ?_⟩
    · obtain ⟨hg, hne⟩ := hkept.1 hg
      exact (hp.doomed g hg).imp_right (hleft hne)
    · -- On a settled shard the file to unlink is not there.
      have hs := hp.done hnone
      have hfiles : s.files.filter (· ≠ f) = s.files := filter_eq_self.2 fun g hg =>
        decide_eq_true fun he => huncompleted (hs.marked _ _ ⟨f.1, he ▸ hg⟩)
      rw [hfiles]
      exact ⟨hs.index, hs.marked, hs.sound⟩
    · obtain ⟨hg, hne⟩ := hkept.1 hg
      exact hleft hne (hp.again commits hc g hg hmem)

theorem writing_of_deleting (hp : Deleting s [] (some commits)) :
    Writing R s commits .empty [] where
  nodup := hp.nodup commits rfl
  unstarted c hc j := by
    rintro ⟨d, hd⟩
    exact not_mem_nil (hp.again commits rfl _ hd hc)
  started := nofun
  whole := nofun
  accounted c j := by
    rintro ⟨d, hd⟩
    exact .inl ((hp.doomed _ hd).resolve_right not_mem_nil)

end Inv

namespace Writing

variable {R : Repo C} {s : Shard C D} {queue : List C} {active : Dict C ℕ} {pending : List C}

variable {c : C}

theorem start (h : Writing R s queue active pending) (hc : c ∈ queue) :
    Writing R s (queue.erase c) (active.set c 0) pending where
  nodup := h.nodup.erase c
  unstarted c' hc' := h.unstarted c' (mem_of_mem_erase hc')
  started c' j hj := by
    rw [Dict.get?_set] at hj
    split at hj
    · rename_i he
      cases hj
      subst he
      refine ⟨h.nodup.not_mem_erase, fun i => ?_⟩
      simp [h.unstarted c' hc i]
    · exact ⟨fun hmem => (h.started c' j hj).1 (mem_of_mem_erase hmem), (h.started c' j hj).2⟩
  whole := h.whole
  accounted c' j hdisk := by
    rw [Dict.get?_set]
    split
    · exact .inr (.inr rfl)
    · exact h.accounted c' j hdisk

theorem write [DecidableEq D] (h : Writing R s queue active pending) {j : ℕ} (hc : active.get? c = some j)
    (dir : D) (phase : Phase C D) :
    Writing R { s with files := s.files.insert (dir, c, j), phase := phase } queue (active.set c (j + 1)) pending where
  nodup := h.nodup
  unstarted c' hc' i hdisk := by
    rcases onDisk_insert.1 hdisk with he | hdisk
    · exact (h.started c j hc).1 ((Prod.mk.inj he).1 ▸ hc')
    · exact h.unstarted c' hc' i hdisk
  started c' i hi := by
    rw [Dict.get?_set] at hi
    split at hi
    · rename_i he
      cases hi
      subst he
      obtain ⟨hqueue, hpoints⟩ := h.started c' j hc
      refine ⟨hqueue, fun i => ?_⟩
      rw [onDisk_insert, hpoints, Prod.mk.injEq]
      simp only [true_and]
      omega
    · rename_i hne
      obtain ⟨hqueue, hpoints⟩ := h.started c' i hi
      refine ⟨hqueue, fun k => ?_⟩
      rw [onDisk_insert, hpoints, Prod.mk.injEq]
      simp only [hne, false_and, false_or]
  whole c' hc' i hi := onDisk_insert.2 (.inr (h.whole c' hc' i hi))
  accounted c' i hdisk := by
    rw [Dict.get?_set]
    split
    · exact .inr (.inr rfl)
    · rename_i hne
      exact h.accounted c' i ((onDisk_insert.1 hdisk).resolve_left fun he => hne (Prod.mk.inj he).1)

theorem complete (h : Writing R s queue active pending) (hc : active.get? c = some (R.chunks c)) :
    Writing R s queue (active.erase c) (c :: pending) where
  nodup := h.nodup
  unstarted := h.unstarted
  started c' j hj := h.started c' j (Dict.get?_erase_eq_some.1 hj).2
  whole c' hc' j hj := by
    rcases mem_cons.1 hc' with rfl | hc'
    · exact ((h.started c' _ hc).2 j).2 hj
    · exact h.whole c' hc' j hj
  accounted c' j hdisk := by
    rw [Dict.get?_erase]
    split
    · rename_i he
      exact .inr (.inl (he ▸ mem_cons_self))
    · exact (h.accounted c' j hdisk).imp_right (Or.imp_left (mem_cons_of_mem c))

end Writing

namespace Inv

variable {R : Repo C} {s s' : Shard C D}

variable {active : Dict C ℕ} {queue pending : List C} {s : Shard C D}

theorem record (h : Inv R s)
    (hflag : s.flag ≠ some false) (hw : Writing R s queue active pending) {p : Phase C D} (hb : p.barred = true)
    (hp : PhaseOk R { s with completed := s.completed ++ pending } p) :
    Inv R { s with completed := s.completed ++ pending, phase := p } where
  single := h.single
  whole c hc := (mem_append.1 hc).elim (h.whole c) (hw.whole c)
  fresh hf := absurd hf hflag
  barred _ := hflag
  phase := hp.go hb s.flag p

variable [DecidableEq D]

theorem write (h : Inv R s) {force : Bool} {session : List (Point C)}
    (hflag : s.flag ≠ some false) (hw : Writing R s queue active pending) (ha : force = false → Appended s session)
    {c : C} {j : ℕ} (hc : active.get? c = some j) (dir : D) :
    Inv R { s with
      files := s.files.insert (dir, c, j)
      phase := .writing force queue (active.set c (j + 1)) pending ((c, j) :: session) } where
  single := h.single.insert fun hdisk => Nat.lt_irrefl j (((hw.started c j hc).2 j).1 hdisk)
  whole c' hc' i hi := onDisk_insert.2 (.inr (h.whole c' hc' i hi))
  fresh hf := absurd hf hflag
  barred _ := hflag
  phase := by
    refine ⟨hw.write hc dir _, fun hf => ⟨(ha hf).sound, fun p => ?_⟩⟩
    rw [onDisk_insert, (ha hf).written, mem_cons]
    exact or_left_comm

theorem step (h : Inv R s) {a : Act C D} (hc : Covered R s a) (hs : s.step R a = some s') : Inv R s' := by
  obtain ⟨files, completed, content, flag, phase⟩ := s
  have hphase := h.phase
  have hbarred := h.barred
  cases a <;> simp only [Shard.step] at hs
  case run r =>
    split at hs
    · split at hs <;> cases hs
      exact h.run hc
    · cases hs
  case reconcile u =>
    split at hs
    · split at hs <;> cases hs
      exact h.reconcile hc
    · cases hs
  case mark =>
    split at hs <;> cases hs
    refine h.advance (flag_map_true_ne flag) ?_ (h.phaseOk_afterMark hphase)
    unfold Shard.afterMark
    split
    · rfl
    · split <;> rfl
  case unlink =>
    split at hs <;> cases hs
    exact h.unlink (hbarred rfl) hphase
  case begin =>
    split at hs <;> cases hs
    · exact h.advance (hbarred rfl) rfl ⟨writing_of_deleting hphase, fun hf => absurd hf (by decide)⟩
    · exact h.advance (p := .clearing) (hbarred rfl) rfl (hphase.done rfl)
  case start c =>
    split at hs
    · split at hs
      · rename_i hmem
        cases hs
        exact h.advance (hbarred rfl) rfl ⟨hphase.1.start hmem, hphase.2⟩
      · cases hs
    · cases hs
  case write c dir =>
    split at hs
    · split at hs
      · rename_i j hj
        split at hs <;> cases hs
        exact h.write (hbarred rfl) hphase.1 hphase.2 hj dir
      · cases hs
    · cases hs
  case complete c =>
    split at hs
    · split at hs
      · rename_i hall
        cases hs
        exact h.advance (hbarred rfl) rfl ⟨hphase.1.complete hall, hphase.2⟩
      · cases hs
    · cases hs
  case flush =>
    split at hs <;> cases hs
    obtain ⟨hw, ha⟩ := hphase
    refine h.record (hbarred rfl) hw rfl ⟨⟨hw.nodup, hw.unstarted, hw.started,
      by simp, fun c j hdisk => ?_⟩, fun hf => ⟨(ha hf).sound, (ha hf).written⟩⟩
    rcases hw.accounted c j hdisk with hmem | hmem | hmem
    · exact .inl (mem_append_left _ hmem)
    · exact .inl (mem_append_right _ hmem)
    · exact .inr (.inr hmem)
  case finish =>
    split at hs
    · split at hs
      · rename_i hnone
        cases hs
        obtain ⟨hw, ha⟩ := hphase
        refine h.record (hbarred rfl) hw rfl ⟨fun c j hdisk => ?_, fun hf => ⟨(ha hf).sound, (ha hf).written⟩⟩
        rcases hw.accounted c j hdisk with hmem | hmem | hmem
        · exact mem_append_left _ hmem
        · exact mem_append_right _ hmem
        · simp [Dict.get?, hnone] at hmem
      · cases hs
    · cases hs
  case publish =>
    split at hs <;> cases hs
    exact ⟨h.single, h.whole, fun hf => absurd hf (hbarred rfl), fun _ => hbarred rfl,
      ⟨Shard.finalized_has hphase.2, hphase.1, Shard.finalized_ne_torn hphase.2⟩⟩
  case describe =>
    split at hs <;> cases hs
    have hstale := Bool.ne_false_iff.2 (Shard.isStale_of_flag_ne (hbarred rfl))
    exact ⟨h.single, h.whole, fun hf => absurd (Option.some.inj hf) hstale,
      fun _ hf => absurd (Option.some.inj hf) hstale, ⟨hphase.index, hphase.marked, hphase.sound⟩⟩
  case clear =>
    split at hs <;> cases hs
    exact ⟨h.single, h.whole, fun _ => Settled.go hphase _ _, fun hb => absurd hb Bool.false_ne_true, trivial⟩
  case crash =>
    cases hs
    exact ⟨h.single, h.whole, fun hf => (h.fresh hf).go _ _, fun hb => absurd hb Bool.false_ne_true, trivial⟩

theorem init (h : (shard R).init s) : Inv R s := by
  obtain rfl := h
  exact ⟨nofun, nofun, nofun, nofun, trivial⟩

theorem of_reachable (h : (shard R).Reachable (Covered R) s) : Inv R s :=
  h.invariant (I := Inv R) (fun _ => init) fun _ _ _ hi hc hs => hi.step hc hs

end Inv

/-- In every history whose runs cover the unfinished commits, a shard that reads as fresh is consistent. -/
theorem fresh_shard_consistent [DecidableEq D] (R : Repo C) {s : Shard C D} (h : (shard R).Reachable (Covered R) s)
    (hfresh : s.flag = some false) : Consistent R s := by
  have hinv := Inv.of_reachable h
  have hsettled := hinv.fresh hfresh
  exact ⟨hsettled.index, hsettled.marked, hinv.whole⟩

end Inv

def twoCommits : Repo ℕ where
  timestamp := id
  inShard _ := true
  chunks c := if c = 1 then 2 else 1

def request (maxCommits : Option ℕ) : Request ℕ := ⟨⟨[1, 2], by decide⟩, [], none, maxCommits⟩

def crashedRun : List (Act ℕ ℕ) := [.run (request none), .mark, .begin, .start 1, .write 1 0, .crash]

def fullRun : List (Act ℕ ℕ) :=
  [.run (request none), .mark, .unlink, .begin, .start 1, .write 1 5, .write 1 6, .complete 1, .flush, .start 2,
    .write 2 7, .complete 2, .finish, .publish, .describe, .clear]

def limitedRun : List (Act ℕ ℕ) :=
  [.run (request (some 1)), .mark, .begin, .start 2, .write 2 7, .complete 2, .finish, .publish, .describe, .clear]

theorem consistent_after_crash_and_full_run : ∃ s : Shard ℕ ℕ, (shard twoCommits).Reachable (Covered twoCommits) s ∧
    s.flag = some false ∧ s.files = [(7, 2, 0), (6, 1, 1), (5, 1, 0)] ∧ Consistent twoCommits s := by
  exact exists_of_run_and_and ⟨[], [], .absent, none, .idle⟩ (crashedRun ++ fullRun) rfl (by decide +kernel)
    fun s hreach hflag _ => fresh_shard_consistent twoCommits hreach hflag

/-- A second run with `max_commits = 1` takes commit 2 only and clears the flag over the point of commit 1. -/
theorem crashed_commit_left_out : ∃ s : Shard ℕ ℕ, (shard twoCommits).Reachable Any s ∧
    s.flag = some false ∧ OnDisk s.files (1, 0) ∧ 1 ∉ s.completed ∧ ¬ Consistent twoCommits s := by
  refine exists_of_run_imp (fun s => s.flag = some false ∧ (0, 1, 0) ∈ s.files ∧ 1 ∉ s.completed)
    ⟨[], [], .absent, none, .idle⟩ (crashedRun ++ limitedRun) rfl (by decide +kernel) fun s _
    ⟨hflag, hfile, hmark⟩ => ?_
  have hdisk : OnDisk s.files (1, 0) := ⟨0, hfile⟩
  exact ⟨hflag, hdisk, hmark, fun hconsistent => hmark (hconsistent.marked 1 0 hdisk)⟩

end CodeIndexer.Temporal.Barrier
