import Mathlib

/-!
# Histories

A history is the list of what has happened, the oldest event first. It is legal if every event is allowed by the events
before it; one event at a time is added.
-/

namespace History

variable {ε : Type*} {ok : List ε → ε → Prop} {log : List ε}

def Legal (ok : List ε → ε → Prop) (log : List ε) : Prop := ∀ before e after, log = before ++ e :: after → ok before e

theorem legal_nil : Legal ok [] := fun before e after hsplit => absurd hsplit.symm (by simp)

theorem Legal.concat {e : ε} (h : Legal ok log) (he : ok log e) : Legal ok (log ++ [e]) := by
  intro before x after hsplit
  rcases List.eq_nil_or_concat after with rfl | ⟨after, last, rfl⟩
  · obtain ⟨rfl, hlast⟩ := List.append_inj' hsplit rfl
    obtain rfl := List.head_eq_of_cons_eq hlast
    exact he
  · rw [List.concat_eq_append, ← List.cons_append, ← List.append_assoc] at hsplit
    exact h before x after (List.append_inj' hsplit rfl).1

end History
