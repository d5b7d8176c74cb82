import Mathlib.Data.List.Basic

namespace Rag3db.Library.History

variable {α : Type} {events history newer older : List α} {a : α}

/-- A history keeps its latest event first. An event of a longer history is
one of the history before, at the same place, or one of those added. -/
theorem split_append (h : events ++ history = newer ++ a :: older) :
    (∃ rest, newer = events ++ rest ∧ history = rest ++ a :: older) ∨
      ∃ rest, events = newer ++ a :: rest ∧ older = rest ++ history := by
  rcases List.append_eq_append_iff.mp h with ⟨rest, hn, hh⟩ | ⟨rest, he, ho⟩
  · exact .inl ⟨rest, hn, hh⟩
  · cases rest with
    | nil => exact .inl ⟨[], by simpa using he.symm, by simpa using ho.symm⟩
    | cons b rest =>
      obtain ⟨rfl, rfl⟩ := List.cons.inj ho
      exact .inr ⟨rest, he, rfl⟩

theorem split_of_not_mem (h : events ++ history = newer ++ a :: older) (ha : a ∉ events) :
    ∃ rest, newer = events ++ rest ∧ history = rest ++ a :: older := by
  rcases split_append h with h | ⟨rest, rfl, _⟩
  · exact h
  · simp at ha

theorem split_cons {e : α} (h : e :: history = newer ++ a :: older) (ha : a ≠ e) :
    ∃ rest, newer = e :: rest ∧ history = rest ++ a :: older := by
  rw [← List.singleton_append] at h
  exact split_of_not_mem h (by simpa using ha)

theorem mem_of_split (h : history = newer ++ a :: older) : a ∈ history := by
  rw [h]
  simp

end Rag3db.Library.History
