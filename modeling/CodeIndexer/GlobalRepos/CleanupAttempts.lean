import CodeIndexer.GlobalRepos.Cleanup

/-!
# Attempts for a scheduled path

A path leaves the cleanup queue after its deletion or when its breaker trips. `Ledger` adds to the state what was tried
for each path since it was put into the queue. The failure count of a path that was given up is never reset, so when it
is scheduled again it is dropped at once (`dropped_unattempted`).
-/

namespace CodeIndexer.Cleanup

open TransitionSystem Function

/-- For each path, whether the deletions tried since it was put into the queue raised. -/
abbrev Attempts (P : Type) := P → List Bool

structure Ledger (P W : Type) where
  state : State P W
  attempts : Attempts P

section Steps

variable {P W : Type} [DecidableEq P] [DecidableEq W]

def noted (s : State P W) (attempts : Attempts P) : Act P W → Attempts P
  | .scheduleCleanup p => if p ∈ s.cleanupQueue then attempts else update attempts p []
  | .endDelete w false =>
    match s.pc w with
    | .deleting p _ => update attempts p (false :: attempts p)
    | _ => attempts
  | .recordFailure w _ =>
    match s.pc w with
    | .failing p _ => update attempts p (true :: attempts p)
    | _ => attempts
  | _ => attempts

def Ledger.step (l : Ledger P W) (a : Act P W) : Option (Ledger P W) :=
  (Cleanup.step l.state a).map (⟨·, noted l.state l.attempts a⟩)

end Steps

def ledger (P W : Type) [DecidableEq P] [DecidableEq W] : TransitionSystem (Ledger P W) (Act P W) where
  init l := l = ⟨.init, fun _ => []⟩
  step := Ledger.step

/-- A deletion succeeded, or as many failed as are allowed. -/
def Settled (attempts : List Bool) : Prop := false ∈ attempts ∨ maxFailures ≤ attempts.count true

variable {P W : Type}

/-- The path that a pass removes from the queue next. -/
def Pc.drops : Pc P → Option P
  | .tripped p _ | .discarding p _ => some p
  | _ => none

def Act.schedules : Act P W → Option P
  | .scheduleCleanup p => some p
  | _ => none

/-- A path is put into the queue when no failure of it is counted and no pass is about to remove it. -/
def Afresh (l : Ledger P W) (a : Act P W) : Prop :=
  ∀ p ∈ a.schedules, p ∈ l.state.cleanupQueue ∨ l.state.failureCounts p = 0 ∧ ∀ w, (l.state.pc w).drops ≠ some p

instance [DecidableEq P] [Fintype W] (l : Ledger P W) (a : Act P W) : Decidable (Afresh l a) :=
  inferInstanceAs (Decidable (∀ p ∈ a.schedules, _ ∨ _ ∧ ∀ w, (l.state.pc w).drops ≠ some p))

structure Counted (s : State P W) (attempts : Attempts P) : Prop where
  counts : ∀ p ∈ s.cleanupQueue, s.failureCounts p ≤ (attempts p).count true
  settled : ∀ w, ∀ p ∈ s.cleanupQueue, (s.pc w).drops = some p → Settled (attempts p)

variable {s s' : State P W} {attempts attempts' : Attempts P}

theorem Settled.mono {as bs : List Bool} (h : Settled as) (hsub : as.Sublist bs) : Settled bs :=
  h.imp hsub.mem (·.trans (hsub.count_le true))

variable [DecidableEq W] {w : W} {pc : Pc P}

/-- A pass moves on: the queue does not grow, and every failure that is counted was noted. -/
theorem Counted.moved (h : Counted s attempts) (hqueue : s'.cleanupQueue ⊆ s.cleanupQueue)
    (hpc : s'.pc = update s.pc w pc) (hsub : ∀ p, (attempts p).Sublist (attempts' p))
    (hcounts : ∀ p ∈ s.cleanupQueue, s'.failureCounts p ≤ (attempts' p).count true)
    (hdrops : ∀ p ∈ s'.cleanupQueue, pc.drops = some p → Settled (attempts' p)) : Counted s' attempts' where
  counts p hp := hcounts p (hqueue hp)
  settled v p hp hv := by
    rw [hpc] at hv
    by_cases hw : v = w
    · subst hw
      rw [update_self] at hv
      exact hdrops p hp hv
    · rw [update_of_ne hw] at hv
      exact (h.settled v p (hqueue hp) hv).mono (hsub p)

theorem Counted.goto (h : Counted s attempts)
    (hdrops : ∀ p ∈ s.cleanupQueue, pc.drops = some p → Settled (attempts p)) :
    Counted (s.goto w pc) attempts ∧ ∀ p ∈ s.cleanupQueue, p ∉ s.cleanupQueue → Settled (attempts p) :=
  ⟨h.moved (Finset.Subset.refl _) rfl (fun _ => .refl _) h.counts hdrops, fun _ hin hout => absurd hin hout⟩

variable [DecidableEq P] {a : Act P W}

omit [DecidableEq W] in
theorem Counted.schedule (h : Counted s attempts) {p : P} (hzero : s.failureCounts p = 0)
    (hfree : ∀ w, (s.pc w).drops ≠ some p) (hp : p ∉ s.cleanupQueue) :
    Counted { s with cleanupQueue := insert p s.cleanupQueue } (update attempts p []) := by
  have hother : ∀ q ∈ s.cleanupQueue, update attempts p [] q = attempts q := by
    intro q hq
    refine update_of_ne ?_ _ _
    rintro rfl
    exact hp hq
  constructor
  · intro q hq
    rcases Finset.mem_insert.1 hq with rfl | hq
    · exact hzero.trans_le (Nat.zero_le _)
    · rw [hother q hq]
      exact h.counts q hq
  · intro w q hq hdrops
    rcases Finset.mem_insert.1 hq with rfl | hq
    · exact absurd hdrops (hfree w)
    · rw [hother q hq]
      exact h.settled w q hq hdrops

omit [DecidableEq W] in
theorem Counted.note (h : Counted s attempts) (b : Bool) (p : P) :
    (∀ q, (attempts q).Sublist (update attempts p (b :: attempts p) q)) ∧
    ∀ q ∈ s.cleanupQueue, s.failureCounts q + (if b ∧ q = p then 1 else 0) ≤
      (update attempts p (b :: attempts p) q).count true := by
  constructor
  · intro q
    rw [update_apply]
    split_ifs with hq
    · subst hq
      exact List.sublist_cons_self _ _
    · exact .refl _
  · intro q hq
    have hle := h.counts q hq
    rw [update_apply]
    by_cases hp : q = p <;> cases b <;> simp_all

theorem Counted.step (h : Counted s attempts) (hc : Afresh ⟨s, attempts⟩ a) (hs : step s a = some s') :
    Counted s' (noted s attempts a) ∧ ∀ p ∈ s.cleanupQueue, p ∉ s'.cleanupQueue → Settled (attempts p) := by
  cases a <;> simp only [Cleanup.step] at hs
  case incrementRef p =>
    cases hs
    exact ⟨⟨h.counts, h.settled⟩, fun q hin hout => absurd hin hout⟩
  case decrementRef p =>
    split at hs <;> cases hs <;> exact ⟨⟨h.counts, h.settled⟩, fun q hin hout => absurd hin hout⟩
  case scheduleCleanup p =>
    cases hs
    refine ⟨?_, fun q hin hout => absurd (Finset.mem_insert_of_mem hin) hout⟩
    rw [noted]
    split_ifs with hp
    · rw [Finset.insert_eq_of_mem hp]
      exact h
    · obtain ⟨hzero, hfree⟩ := (hc p rfl).resolve_left hp
      exact h.schedule hzero hfree hp
  case start w fdUsageHigh order =>
    split at hs
    · split_ifs at hs <;> cases hs <;> exact h.goto (by rintro _ - ⟨⟩)
    · cases hs
  case finish w | beginDelete w =>
    split at hs <;> cases hs
    exact h.goto (by rintro _ - ⟨⟩)
  case getFailureCount w =>
    split at hs <;> cases hs
    refine h.goto fun q hq hdrops => ?_
    split_ifs at hdrops with htripped <;> cases hdrops
    exact .inr (htripped.trans (h.counts _ hq))
  case isReadyForRetry w now | getRefCount w =>
    split at hs <;> cases hs
    refine h.goto fun q hq hdrops => ?_
    split_ifs at hdrops <;> cases hdrops
  case discardTripped w | discardDeleted w =>
    split at hs <;> cases hs
    rename_i p todo hpc
    refine ⟨h.moved (Finset.erase_subset _ _) rfl (fun _ => .refl _) h.counts (by rintro _ - ⟨⟩), fun q hin hout => ?_⟩
    have hq : q = p := by simpa [State.goto, hin] using hout
    exact h.settled w q hin (by rw [hpc, hq]; rfl)
  case endDelete w raised =>
    split at hs <;> cases hs
    rename_i p todo hpc
    cases raised with
    | true => exact h.goto (by rintro _ - ⟨⟩)
    | false =>
      obtain ⟨hsub, hcounts⟩ := h.note false p
      simp only [noted, hpc]
      refine ⟨h.moved (Finset.Subset.refl _) rfl hsub hcounts fun q hq hdrops => ?_, fun q hin hout => absurd hin hout⟩
      cases hdrops
      simp [Settled]
  case resetFailureCount w =>
    split at hs <;> cases hs
    refine ⟨h.moved (Finset.Subset.refl _) rfl (fun _ => .refl _) (fun q hq => ?_) (by rintro _ - ⟨⟩),
      fun q hin hout => absurd hin hout⟩
    simp only [State.goto, update_apply]
    split_ifs
    · exact Nat.zero_le _
    · exact h.counts q hq
  case recordFailure w now =>
    split at hs <;> cases hs
    rename_i p todo hpc
    obtain ⟨hsub, hcounts⟩ := h.note true p
    simp only [noted, hpc]
    refine ⟨h.moved (Finset.Subset.refl _) rfl hsub (fun q hq => ?_) (by rintro _ - ⟨⟩),
      fun q hin hout => absurd hin hout⟩
    have hle := hcounts q hq
    simp only [State.goto, update_apply] at hle ⊢
    split_ifs at hle ⊢ <;> simp_all

/-- When paths are put into the queue afresh, one leaves it only after attempts since then, of which one succeeded or
the full number failed. -/
theorem settled_of_dropped {l l' : Ledger P W} (h : (ledger P W).Reachable Afresh l) (hc : Afresh l a)
    (hs : (ledger P W).step l a = some l') :
    ∀ p ∈ l.state.cleanupQueue, p ∉ l'.state.cleanupQueue → l.attempts p ≠ [] ∧ Settled (l.attempts p) := by
  have hcounted : Counted l.state l.attempts := by
    refine h.invariant (I := fun l => Counted l.state l.attempts) ?_ fun l a l' hl hc hs => ?_
    · rintro l rfl
      exact ⟨nofun, nofun⟩
    · obtain ⟨s', hs', rfl⟩ := Option.map_eq_some_iff.1 hs
      exact (hl.step hc hs').1
  obtain ⟨s', hs', rfl⟩ := Option.map_eq_some_iff.1 hs
  intro p hin hout
  have hsettled := (hcounted.step hc hs').2 p hin hout
  refine ⟨fun hnil => ?_, hsettled⟩
  simp [Settled, hnil, maxFailures] at hsettled

def failedPass (now : ℚ) : List (Act ℕ Unit) :=
  [.start () false [7], .getFailureCount (), .isReadyForRetry () now, .getRefCount (), .beginDelete (),
   .endDelete () true, .recordFailure () now, .finish ()]

/-- A deletion succeeds after one that failed. -/
theorem settled_of_dropped_retried : ∃ l, (ledger ℕ Unit).Reachable Afresh l ∧
    ∃ l' ∈ l.step (.discardDeleted ()), 7 ∈ l.state.cleanupQueue ∧ 7 ∉ l'.state.cleanupQueue ∧
      Settled (l.attempts 7) := by
  refine exists_of_run_imp (fun l => ∃ l' ∈ l.step (.discardDeleted ()),
      7 ∈ l.state.cleanupQueue ∧ 7 ∉ l'.state.cleanupQueue) ⟨.init, fun _ => []⟩
    (.scheduleCleanup 7 :: failedPass 0 ++ [.start () false [7], .getFailureCount (), .isReadyForRetry () 1,
     .getRefCount (), .beginDelete (), .endDelete () false]) rfl (by decide +kernel) fun l hl ⟨l', hs, hin, hout⟩ => ?_
  exact ⟨l', hs, hin, hout, (settled_of_dropped hl (fun _ hp => by cases hp) hs 7 hin hout).2⟩

/-- The path was given up after five failures. Scheduled again, it is dropped by the next pass. -/
theorem dropped_unattempted : ∃ l, (ledger ℕ Unit).Reachable Any l ∧
    ∃ l' ∈ l.step (.discardTripped ()), 7 ∈ l.state.cleanupQueue ∧ 7 ∉ l'.state.cleanupQueue ∧ l.attempts 7 = [] := by
  exact exists_of_run_mem ⟨.init, fun _ => []⟩
    (.scheduleCleanup 7 :: [0, 100, 200, 300, 400].flatMap failedPass ++
     [.start () false [7], .getFailureCount (), .discardTripped (), .finish (), .scheduleCleanup 7,
      .start () false [7], .getFailureCount ()]) rfl (by decide +kernel)

end CodeIndexer.Cleanup
