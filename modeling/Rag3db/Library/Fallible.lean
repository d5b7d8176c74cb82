namespace Rag3db.Library.Fallible

variable {ε ε' α β : Type}

/-! What a fallible computation that succeeds was made of. -/

variable {x : Except ε α}

theorem bind_eq_ok {f : α → Except ε β} {b : β} (h : (x >>= f) = .ok b) : ∃ a, x = .ok a ∧ f a = .ok b := by
  cases x with
  | error e => simp [bind, Except.bind] at h
  | ok a => exact ⟨a, rfl, h⟩

theorem map_eq_ok {f : α → β} {b : β} (h : x.map f = .ok b) : ∃ a, x = .ok a ∧ f a = b := by
  cases x with
  | error e => simp [Except.map] at h
  | ok a => exact ⟨a, rfl, by simpa [Except.map] using h⟩

theorem mapError_eq_ok {f : ε → ε'} {a : α} (h : x.mapError f = .ok a) : x = .ok a := by
  cases x with
  | error e => cases h
  | ok b =>
    have hb : (.ok b : Except ε' α) = .ok a := h
    rw [Except.ok.inj hb]

end Rag3db.Library.Fallible
