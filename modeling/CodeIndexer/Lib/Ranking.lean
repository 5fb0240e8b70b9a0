import Mathlib

/-!
# Rankings

A list in descending order of a weight, elements of one weight in the order of the list; what is taken from its front
are the elements with few heavier ones.
-/

namespace Ranking

open List

variable {α β : Type*} [LinearOrder β] (w : α → β) {l l' : List α} {a x y : α}

def ranked (l : List α) : List α := l.insertionSort fun a b => w b ≤ w a

def heavier (l : List α) (x : α) : ℕ := l.countP fun y => w x < w y

theorem ranked_perm (l : List α) : (ranked w l).Perm l := perm_insertionSort _ l

theorem map_ranked {γ : Type*} {v : γ → β} (f : γ → α) {l : List γ} (h : ∀ c ∈ l, v c = w (f c)) :
    (ranked v l).map f = ranked w (l.map f) :=
  map_insertionSort _ _ f l fun a ha b hb => by rw [h a ha, h b hb]

theorem ranked_pairwise (l : List α) : (ranked w l).Pairwise fun a b => w b ≤ w a :=
  pairwise_insertionSort _ l

theorem heavier_perm (h : l'.Perm l) (x : α) : heavier w l' x = heavier w l x := h.countP_eq _

theorem heavier_lt_length (hx : x ∈ l) : heavier w l x < l.length := by
  refine countP_lt_length_iff.mpr ⟨x, hx, ?_⟩
  simp

theorem heavier_cons_le (a : α) (l : List α) (x : α) : heavier w (a :: l) x ≤ heavier w l x + 1 := by
  rw [heavier, heavier, countP_cons]
  split_ifs <;> omega

theorem le_heavier_cons (a : α) (l : List α) (x : α) : heavier w l x ≤ heavier w (a :: l) x := by
  rw [heavier, heavier, countP_cons]
  exact Nat.le_add_right _ _

theorem heavier_lt_of_lt (hx : x ∈ l) (h : w y < w x) : heavier w l x < heavier w l y := by
  induction l with
  | nil => cases hx
  | cons a l ih =>
    rw [heavier, heavier, countP_cons, countP_cons]
    have hmono : l.countP (fun z => w x < w z) ≤ l.countP fun z => w y < w z :=
      countP_mono_left fun z _ hz => by simpa using h.trans (of_decide_eq_true hz)
    rcases mem_cons.mp hx with rfl | hx
    · simp [h, hmono]
    · have hlt := ih hx
      rw [heavier, heavier] at hlt
      by_cases ha : w x < w a
      · simpa [ha, h.trans ha] using hlt
      · simp only [ha, decide_false, Bool.false_eq_true, if_false]
        omega

theorem mem_take_iff (hl : l.Pairwise fun a b => w b < w a) (k : ℕ) : x ∈ l.take k ↔ x ∈ l ∧ heavier w l x < k := by
  induction l generalizing k with
  | nil => simp
  | cons a l ih =>
    obtain ⟨ha, hl⟩ := pairwise_cons.mp hl
    cases k with
    | zero => simp
    | succ k =>
      rw [take_succ_cons, mem_cons, mem_cons, ih hl, heavier, heavier, countP_cons]
      by_cases hx : x = a
      · subst hx
        have hnone : l.countP (fun y => w x < w y) = 0 := by
          rw [countP_eq_zero]
          intro y hy
          simpa using (ha y hy).le
        simp [hnone]
      · simp only [hx, false_or]
        refine and_congr_right fun hmem => ?_
        simp [ha x hmem]

variable {w} {k : ℕ}

theorem heavier_injective (hl : (l.map w).Nodup) (hx : x ∈ l) (hy : y ∈ l)
    (h : heavier w l x = heavier w l y) : x = y := by
  rcases lt_trichotomy (w x) (w y) with hlt | heq | hlt
  · exact absurd h (heavier_lt_of_lt w hy hlt).ne'
  · exact inj_on_of_nodup_map hl hx hy heq
  · exact absurd h (heavier_lt_of_lt w hx hlt).ne

theorem ranked_pairwise_lt (hl : (l.map w).Nodup) : (ranked w l).Pairwise fun a b => w b < w a := by
  have hne : (ranked w l).Pairwise fun a b => w a ≠ w b :=
    pairwise_map.mp (((ranked_perm w l).map w).nodup_iff.mpr hl)
  exact (ranked_pairwise w l).imp₂ (fun a b hle hne => lt_of_le_of_ne hle hne.symm) hne

theorem ranked_eq_of_perm (hl : (l.map w).Nodup) (h : l'.Perm l) : ranked w l' = ranked w l :=
  ((ranked_perm w l').trans (h.trans (ranked_perm w l).symm)).eq_of_pairwise
    (fun _ _ _ _ hab hba => absurd hab (not_lt.mpr hba.le))
    (ranked_pairwise_lt ((h.map w).nodup_iff.mpr hl)) (ranked_pairwise_lt hl)

theorem mem_take_ranked (hl : (l.map w).Nodup) (k : ℕ) : x ∈ (ranked w l).take k ↔ x ∈ l ∧ heavier w l x < k := by
  rw [mem_take_iff w (ranked_pairwise_lt hl), (ranked_perm w l).mem_iff, heavier_perm w (ranked_perm w l)]

/-- An element that is not in front may as well not be there. -/
theorem take_ranked_cons (hl : ((a :: l).map w).Nodup) (ha : a ∉ (ranked w (a :: l)).take k) :
    (ranked w (a :: l)).take k = (ranked w l).take k := by
  obtain ⟨s, t, hst⟩ := append_of_mem ((ranked_perm w (a :: l)).mem_iff.mpr mem_cons_self)
  have hrest : (s ++ t).Perm l := by
    have hperm := ranked_perm w (a :: l)
    rw [hst] at hperm
    exact (perm_middle.symm.trans hperm).cons_inv
  have hsorted := ranked_pairwise_lt hl
  rw [hst] at hsorted
  have hranked : ranked w l = s ++ t := by
    refine ((ranked_perm w l).trans hrest.symm).eq_of_pairwise (fun _ _ _ _ hab hba => absurd hab (not_lt.mpr hba.le))
      (ranked_pairwise_lt (nodup_cons.mp hl).2) (hsorted.sublist ?_)
    exact (List.Sublist.refl s).append (sublist_cons_self a t)
  rw [hst] at ha
  have hk : k ≤ s.length := by
    by_contra hlt
    refine ha ?_
    rw [take_append, take_of_length_le (by omega)]
    refine mem_append_right _ ?_
    obtain ⟨j, hj⟩ : ∃ j, k - s.length = j + 1 := ⟨k - s.length - 1, by omega⟩
    rw [hj, take_succ_cons]
    exact mem_cons_self
  rw [hst, hranked, take_append_of_le_length hk, take_append_of_le_length hk]

theorem take_ranked_append {e : List α} (hl : ((e ++ l).map w).Nodup)
    (he : ∀ a ∈ e, a ∉ (ranked w (e ++ l)).take k) : (ranked w (e ++ l)).take k = (ranked w l).take k := by
  induction e with
  | nil => rfl
  | cons a e ih =>
    rw [cons_append] at hl he ⊢
    have hcons := take_ranked_cons hl (he a mem_cons_self)
    rw [hcons] at he ⊢
    exact ih (nodup_cons.mp hl).2 fun b hb => he b (mem_cons_of_mem a hb)

theorem flatten_drop_append_take (n : ℕ) (ls : List (List α)) : ((ls.map fun l => (ranked w l).drop n).flatten ++
    (ls.map fun l => (ranked w l).take n).flatten).Perm ls.flatten := by
  induction ls with
  | nil => exact .refl _
  | cons l ls ih =>
    have hl : ((ranked w l).drop n ++ (ranked w l).take n).Perm l :=
      perm_append_comm.trans ((take_append_drop n (ranked w l)).symm ▸ ranked_perm w l)
    simp only [map_cons, flatten_cons]
    refine .trans ?_ (hl.append ih)
    rw [append_assoc, append_assoc]
    exact .append_left _ (perm_append_comm_assoc _ _ _)

theorem nodup_map_flatten_take {γ : Type*} {f : α → γ} {ls : List (List α)} (h : (ls.flatten.map f).Nodup) (n : ℕ) :
    ((ls.map fun l => (ranked w l).take n).flatten.map f).Nodup := by
  rw [← ((flatten_drop_append_take (w := w) n ls).map f).nodup_iff, map_append] at h
  exact h.of_append_right

/-- The first of all are found among the first of each part. -/
theorem take_ranked_flatten {n : ℕ} (hk : k ≤ n) {ls : List (List α)} (hl : (ls.flatten.map w).Nodup) :
    (ranked w (ls.map fun l => (ranked w l).take n).flatten).take k = (ranked w ls.flatten).take k := by
  have hperm := flatten_drop_append_take (w := w) n ls
  rw [← ranked_eq_of_perm hl hperm]
  refine (take_ranked_append (((hperm.map w).nodup_iff).mpr hl) fun a ha hmem => ?_).symm
  obtain ⟨_, hdrop, ha⟩ := mem_flatten.mp ha
  obtain ⟨l, hls, rfl⟩ := mem_map.mp hdrop
  -- At least `n` of its own part are heavier.
  have hsub : l.Sublist ls.flatten := sublist_flatten_of_mem hls
  have hlw := hl.sublist (hsub.map w)
  rw [ranked_eq_of_perm hl hperm, mem_take_ranked hl] at hmem
  have hheavier : heavier w l a < n := (hsub.countP_le.trans_lt hmem.2).trans_le hk
  have htake := (mem_take_ranked hlw n).mpr ⟨(ranked_perm w l).mem_iff.mp (mem_of_mem_drop ha), hheavier⟩
  have hnodup : (ranked w l).Nodup := (ranked_perm w l).nodup_iff.mpr (.of_map w hlw)
  rw [← take_append_drop n (ranked w l), nodup_append] at hnodup
  exact hnodup.2.2 a htake a ha rfl

end Ranking
