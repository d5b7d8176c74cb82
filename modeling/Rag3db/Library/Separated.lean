import Mathlib

open List

namespace Rag3db.Library.Separated

variable {α : Type} {sep : α} {xs ys us vs : List α}

/-! Texts with a separator: where the parts end can be read back. -/

theorem append_cons_inj (hxs : sep ∉ xs) (hys : sep ∉ ys) (h : xs ++ sep :: us = ys ++ sep :: vs) :
    xs = ys ∧ us = vs := by
  induction xs generalizing ys with
  | nil =>
    cases ys with
    | nil => exact ⟨rfl, (List.cons.inj h).2⟩
    | cons y ys => exact absurd ((List.cons.inj h).1 ▸ mem_cons_self) hys
  | cons x xs ih =>
    cases ys with
    | nil => exact absurd ((List.cons.inj h).1 ▸ mem_cons_self) hxs
    | cons y ys =>
      obtain ⟨hhead, htail⟩ := List.cons.inj h
      obtain ⟨hrest, hus⟩ := ih (not_mem_of_not_mem_cons hxs) (not_mem_of_not_mem_cons hys) htail
      exact ⟨by rw [hhead, hrest], hus⟩

theorem exists_append_eq_iff : (∃ us vs, xs ++ us = ys ++ vs) ↔ xs <+: ys ∨ ys <+: xs := by
  constructor
  · rintro ⟨us, vs, h⟩
    exact prefix_or_prefix_of_prefix (prefix_append xs us) (h ▸ prefix_append ys vs)
  · rintro (⟨us, rfl⟩ | ⟨vs, rfl⟩)
    · exact ⟨us, [], (append_nil _).symm⟩
    · exact ⟨[], vs, append_nil _⟩

theorem exists_eq_append_iff : (∃ us vs, us ++ xs = vs ++ ys) ↔ xs <:+ ys ∨ ys <:+ xs := by
  constructor
  · rintro ⟨us, vs, h⟩
    exact suffix_or_suffix_of_suffix (suffix_append us xs) (h ▸ suffix_append vs ys)
  · rintro (⟨us, rfl⟩ | ⟨vs, rfl⟩)
    · exact ⟨us, [], rfl⟩
    · exact ⟨[], vs, rfl⟩

/-- The parts one after another, each with the separator behind it. -/
def terminated (sep : α) (parts : List (List α)) : List α := parts.flatMap (· ++ [sep])

theorem terminated_append (parts others : List (List α)) :
    terminated sep (parts ++ others) = terminated sep parts ++ terminated sep others :=
  flatMap_append

theorem terminated_cons (part : List α) (parts : List (List α)) :
    terminated sep (part :: parts) = part ++ sep :: terminated sep parts := by
  simp [terminated]

/-- Where no part holds the separator, the text of some parts begins with the
text of others only if the parts do. -/
theorem terminated_prefix_iff {parts others : List (List α)} (hparts : ∀ part ∈ parts, sep ∉ part)
    (hothers : ∀ part ∈ others, sep ∉ part) :
    terminated sep parts <+: terminated sep others ↔ parts <+: others := by
  constructor
  · intro h
    induction parts generalizing others with
    | nil => exact nil_prefix
    | cons part parts ih =>
      obtain ⟨rest, hrest⟩ := h
      rw [terminated_cons, append_assoc] at hrest
      cases others with
      | nil => simp [terminated] at hrest
      | cons other others =>
        rw [terminated_cons] at hrest
        obtain ⟨rfl, htail⟩ := append_cons_inj (hparts _ mem_cons_self) (hothers _ mem_cons_self) hrest
        refine (prefix_cons_inj part).mpr (ih (fun p hp => hparts p (mem_cons_of_mem _ hp))
          (fun p hp => hothers p (mem_cons_of_mem _ hp)) ⟨rest, htail⟩)
  · rintro ⟨rest, rfl⟩
    rw [terminated_append]
    exact prefix_append _ _

section Split

variable [DecidableEq α]

theorem not_mem_of_mem_splitOn {part : List α} (h : part ∈ xs.splitOn sep) : sep ∉ part := by
  induction xs generalizing part with
  | nil =>
    rw [splitOn_nil, mem_singleton] at h
    simp [h]
  | cons x xs ih =>
    rw [List.splitOn, splitOnP_cons_eq_if_modifyHead] at h
    split_ifs at h with hx
    · rcases mem_cons.mp h with rfl | h
      · exact not_mem_nil
      · exact ih h
    · cases hsplit : xs.splitOnP (· == sep) with
      | nil => exact absurd hsplit (splitOnP_ne_nil _ _)
      | cons first rest =>
        rw [hsplit] at h
        have hfirst : ∀ p ∈ first :: rest, sep ∉ p := fun p hp => ih (by rw [List.splitOn, hsplit]; exact hp)
        rcases mem_cons.mp h with rfl | h
        · have hne : sep ≠ x := fun he => hx (by simp [he])
          simp [hne, hfirst first mem_cons_self]
        · exact hfirst part (mem_cons_of_mem _ h)

theorem terminated_splitOn (xs : List α) : terminated sep (xs.splitOn sep) = xs ++ [sep] := by
  induction xs with
  | nil => simp [terminated]
  | cons x xs ih =>
    rw [List.splitOn, splitOnP_cons_eq_if_modifyHead]
    split_ifs with hx
    · rw [List.splitOn] at ih
      rw [terminated_cons, ih, beq_iff_eq.mp hx]
      rfl
    · cases hsplit : xs.splitOnP (· == sep) with
      | nil => exact absurd hsplit (splitOnP_ne_nil _ _)
      | cons first rest =>
        rw [List.splitOn, hsplit, terminated_cons] at ih
        rw [modifyHead_cons, terminated_cons, cons_append, ih, cons_append]

end Split

end Rag3db.Library.Separated
