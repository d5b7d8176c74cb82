import Mathlib

namespace Rag3db.Library.Saturation

variable {α : Type} {f : Finset α → Finset α} {s t : Finset α}

/-- `f` again and again until nothing is new, at most as often as `fuel` says. -/
def saturate (f : Finset α → Finset α) : Nat → Finset α → Finset α
  | 0, s => s
  | fuel + 1, s => if (f s).card = s.card then f s else saturate f fuel (f s)

theorem saturate_induction {P : Finset α → Prop} (h : ∀ s, P s → P (f s)) (hs : P s) (fuel : Nat) :
    P (saturate f fuel s) := by
  induction fuel generalizing s with
  | zero => exact hs
  | succ fuel ih =>
    unfold saturate
    split_ifs
    · exact h s hs
    · exact ih (h s hs)

/-- A set that `f` does not leave bounds the number of rounds. -/
theorem saturate_fixed (hgrow : ∀ s, s ⊆ f s) (hstay : ∀ s, s ⊆ t → f s ⊆ t) (hs : s ⊆ t) {fuel : Nat}
    (hfuel : t.card < s.card + fuel) : f (saturate f fuel s) = saturate f fuel s := by
  induction fuel generalizing s with
  | zero => exact absurd (Finset.card_le_card hs) (Nat.not_le.mpr hfuel)
  | succ fuel ih =>
    unfold saturate
    split_ifs with hcard
    · have hsame : f s = s := (Finset.eq_of_subset_of_card_le (hgrow s) hcard.le).symm
      rw [hsame, hsame]
    · have hmore : s.card < (f s).card := (Finset.card_le_card (hgrow s)).lt_of_ne (Ne.symm hcard)
      exact ih (hstay s hs) (by omega)

end Rag3db.Library.Saturation
