import Mathlib

namespace Rag3db.Library.Registers

variable {κ δ : Type} [DecidableEq κ]

/-- What a key holds after the writes of a log, its latest write first; a write
of nothing is a removal. -/
def current (base : κ → Option δ) (k : κ) : List (κ × Option δ) → Option δ
  | [] => base k
  | (k', v) :: log => if k' = k then v else current base k log

/-- The key held `v` at some moment since the log had `start` writes. -/
def HeldSince (base : κ → Option δ) (start : Nat) (k : κ) (v : Option δ) (log : List (κ × Option δ)) : Prop :=
  ∃ newer older, log = newer ++ older ∧ start ≤ older.length ∧ current base k older = v

variable {base : κ → Option δ} {start : Nat} {k k' : κ} {v : Option δ} {log : List (κ × Option δ)}

theorem current_self : current base k ((k, v) :: log) = v := if_pos rfl

theorem current_of_ne (h : k' ≠ k) : current base k ((k', v) :: log) = current base k log := if_neg h

theorem HeldSince.now (h : start ≤ log.length) : HeldSince base start k (current base k log) log :=
  ⟨[], log, rfl, h, rfl⟩

theorem HeldSince.cons (h : HeldSince base start k v log) (e : κ × Option δ) : HeldSince base start k v (e :: log) := by
  obtain ⟨newer, older, rfl, hstart, hv⟩ := h
  exact ⟨e :: newer, older, rfl, hstart, hv⟩

end Rag3db.Library.Registers
