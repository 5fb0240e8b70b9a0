import Mathlib

/-!
# Interleavings

A system of interleaved parties is a set of initial states and a step function on labels; a label
names the party that moves and what its environment answers. `Reachable C` are the states of the runs
whose steps all meet `C`, a condition on the label and the state it is taken from.
-/

structure TransitionSystem (σ α : Type*) where
  init : σ → Prop
  step : σ → α → Option σ

namespace TransitionSystem

variable {σ α : Type*}

inductive Reachable (M : TransitionSystem σ α) (C : σ → α → Prop) : σ → Prop
  | init {s : σ} : M.init s → Reachable M C s
  | step {s s' : σ} {a : α} : Reachable M C s → C s a → M.step s a = some s' → Reachable M C s'

abbrev Any : σ → α → Prop := fun _ _ => True

/-- Run a list of labels, stopping at one that breaks `C`. -/
def run (M : TransitionSystem σ α) (C : σ → α → Prop) [∀ s a, Decidable (C s a)] : σ → List α → Option σ
  | s, [] => some s
  | s, a :: as => if C s a then (M.step s a).bind fun s' => M.run C s' as else none

/-- The runs that go on from a state. -/
def startedAt (M : TransitionSystem σ α) (s : σ) : TransitionSystem σ α := ⟨(· = s), M.step⟩

variable {M : TransitionSystem σ α} {C : σ → α → Prop}

namespace Reachable

variable {s : σ}

theorem invariant {I : σ → Prop} (hinit : ∀ s, M.init s → I s)
    (hstep : ∀ s a s', I s → C s a → M.step s a = some s' → I s') (h : M.Reachable C s) : I s := by
  induction h with
  | init h => exact hinit _ h
  | step _ hc hs ih => exact hstep _ _ _ ih hc hs

theorem mono {C' : σ → α → Prop} (h : M.Reachable C s) (hC : ∀ s a, C s a → C' s a) : M.Reachable C' s := by
  induction h with
  | init h => exact .init h
  | step _ hc hs ih => exact .step ih (hC _ _ hc) hs

theorem run [∀ s a, Decidable (C s a)] {s' : σ} {as : List α} (h : M.Reachable C s)
    (hrun : M.run C s as = some s') : M.Reachable C s' := by
  induction as generalizing s with
  | nil =>
    cases hrun
    exact h
  | cons a as ih =>
    rw [TransitionSystem.run] at hrun
    split at hrun
    · rename_i hc
      obtain ⟨s₁, hs, hrun⟩ := Option.bind_eq_some_iff.1 hrun
      exact ih (h.step hc hs) hrun
    · cases hrun

end Reachable

section Runs

variable [∀ s a, Decidable (C s a)] {A B P : σ → Prop} (D : σ → Prop) (s : σ) (as : List α) (hinit : M.init s)

include hinit

/-- A run on fixed labels whose last state is evaluated. -/
theorem exists_of_run_mem (hrun : ∃ s' ∈ M.run C s as, P s') : ∃ s', M.Reachable C s' ∧ P s' := by
  obtain ⟨s', hs', hP⟩ := hrun
  exact ⟨s', (Reachable.init hinit).run hs', hP⟩

/-- What is evaluated in the last state, and what follows from that. -/
theorem exists_of_run_imp (hrun : ∃ s' ∈ M.run C s as, D s') (hP : ∀ s', M.Reachable C s' → D s' → P s') :
    ∃ s', M.Reachable C s' ∧ P s' := by
  obtain ⟨s', hs', hD⟩ := exists_of_run_mem s as hinit hrun
  exact ⟨s', hs', hP s' hs' hD⟩

theorem exists_of_run_and (hrun : ∃ s' ∈ M.run C s as, A s') (hP : ∀ s', M.Reachable C s' → A s' → P s') :
    ∃ s', M.Reachable C s' ∧ A s' ∧ P s' :=
  exists_of_run_imp A s as hinit hrun fun s' hs' hA => ⟨hA, hP s' hs' hA⟩

theorem exists_of_run_and_and (hrun : ∃ s' ∈ M.run C s as, A s' ∧ B s')
    (hP : ∀ s', M.Reachable C s' → A s' → B s' → P s') : ∃ s', M.Reachable C s' ∧ A s' ∧ B s' ∧ P s' :=
  exists_of_run_imp _ s as hinit hrun fun s' hs' ⟨hA, hB⟩ => ⟨hA, hB, hP s' hs' hA hB⟩

end Runs

variable {s : σ}

theorem run_cons [∀ s a, Decidable (C s a)] {s' : σ} {a : α} (hc : C s a) (hs : M.step s a = some s') (as : List α) :
    M.run C s (a :: as) = M.run C s' as := by
  rw [TransitionSystem.run, if_pos hc, hs]
  rfl

theorem startedAt_run [∀ s a, Decidable (C s a)] (s₀ s : σ) (as : List α) :
    (M.startedAt s₀).run C s as = M.run C s as := by
  induction as generalizing s with
  | nil => rfl
  | cons a as ih =>
    rw [TransitionSystem.run, TransitionSystem.run]
    simp only [ih]
    rfl

section TwoRuns

variable [∀ s a, Decidable (C s a)] {A P : σ → σ → Prop} (s : σ) (as as' : List α) (hinit : M.init s)

include hinit

theorem exists_of_runs_mem (hrun : ∃ s₁ ∈ M.run C s as, ∃ s₂ ∈ M.run C s₁ as', P s₁ s₂) :
    ∃ s₁ s₂, M.Reachable C s₁ ∧ (M.startedAt s₁).Reachable C s₂ ∧ P s₁ s₂ := by
  obtain ⟨s₁, hs₁, s₂, hs₂, hP⟩ := hrun
  rw [← startedAt_run s₁] at hs₂
  exact ⟨s₁, s₂, (Reachable.init hinit).run hs₁, (Reachable.init rfl).run hs₂, hP⟩

theorem exists_of_runs_and (hrun : ∃ s₁ ∈ M.run C s as, ∃ s₂ ∈ M.run C s₁ as', A s₁ s₂)
    (hP : ∀ s₁ s₂, M.Reachable C s₁ → (M.startedAt s₁).Reachable C s₂ → P s₁ s₂) :
    ∃ s₁ s₂, M.Reachable C s₁ ∧ (M.startedAt s₁).Reachable C s₂ ∧ A s₁ s₂ ∧ P s₁ s₂ := by
  obtain ⟨s₁, s₂, hs₁, hs₂, hA⟩ := exists_of_runs_mem s as as' hinit hrun
  exact ⟨s₁, s₂, hs₁, hs₂, hA, hP s₁ s₂ hs₁ hs₂⟩

end TwoRuns

end TransitionSystem
