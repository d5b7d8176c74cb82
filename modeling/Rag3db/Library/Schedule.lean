import Mathlib.Logic.Function.Basic
import Mathlib.Order.WellFounded

open Option

namespace Rag3db.Library.Schedule

variable {ι β : Type} {needs : ι → ι → Prop} {f : ι → (ι → Option β) → β} {given v w : ι → Option β}

/-- A job only reads the values of the jobs that it needs. -/
def Local (needs : ι → ι → Prop) (f : ι → (ι → Option β) → β) : Prop :=
  ∀ i v w, (∀ j, needs j i → v j = w j) → f i v = f i w

/-- Every job with a value has the value that those it needs give it, or the one
it was given. -/
def Consistent (needs : ι → ι → Prop) (f : ι → (ι → Option β) → β) (given v : ι → Option β) : Prop :=
  ∀ i b, v i = some b → given i = some b ∨ given i = none ∧ (∀ j, needs j i → (v j).isSome) ∧ b = f i v

variable {i : ι} {b c : β}

theorem Consistent.rule (hv : Consistent needs f given v) (hi : given i = none) (hb : v i = some b) :
    (∀ j, needs j i → (v j).isSome) ∧ b = f i v := by
  rcases hv i b hb with h | ⟨-, h⟩
  · rw [hi] at h
    cases h
  · exact h

/-- However the jobs were scheduled, two runs agree on every job that both have
done and none was given, if what was given does the same for the others. -/
theorem Consistent.agree (hwf : WellFounded needs) (hv : Consistent needs f given v)
    (hw : Consistent needs f (fun _ => none) w)
    (hsame : ∀ i, given i = none → (∀ j, needs j i → (v j).isSome ∧ (w j).isSome) →
      (∀ j, needs j i → given j = none → v j = w j) → f i v = f i w) (hi : given i = none) (hb : v i = some b)
    (hc : w i = some c) : b = c := by
  induction i using hwf.induction generalizing b c with
  | _ i ih =>
    obtain ⟨hvn, rfl⟩ := hv.rule hi hb
    obtain ⟨hwn, rfl⟩ := hw.rule rfl hc
    refine hsame i hi (fun j hj => ⟨hvn j hj, hwn j hj⟩) fun j hj hgiven => ?_
    obtain ⟨x, hx⟩ := isSome_iff_exists.mp (hvn j hj)
    obtain ⟨y, hy⟩ := isSome_iff_exists.mp (hwn j hj)
    rw [hx, hy, ih j hj hgiven hx hy]

theorem Consistent.extend [DecidableEq ι] (hlocal : Local needs f) (hv : Consistent needs f given v)
    (hi : v i = none) (hgiven : given i = none) (hneeds : ∀ j, needs j i → (v j).isSome) (hb : b = f i v)
    (hw : w = Function.update v i (some b)) : Consistent needs f given w := by
  have hkeep : ∀ j, (v j).isSome → w j = v j := fun j hj => by
    rw [hw, Function.update_of_ne]
    rintro rfl
    simp [hi] at hj
  have hmet : ∀ k, (∀ j, needs j k → (v j).isSome) → (∀ j, needs j k → (w j).isSome) ∧ f k v = f k w := fun k hk =>
    ⟨fun j hj => by rw [hkeep j (hk j hj)]; exact hk j hj, hlocal k v w fun j hj => (hkeep j (hk j hj)).symm⟩
  intro k c hc
  by_cases hki : k = i
  · subst hki
    rw [hw, Function.update_self] at hc
    cases hc
    exact .inr ⟨hgiven, (hmet k hneeds).1, hb.trans (hmet k hneeds).2⟩
  · rw [hw, Function.update_of_ne hki] at hc
    refine (hv k c hc).imp_right fun ⟨hnone, hk, hck⟩ => ?_
    exact ⟨hnone, (hmet k hk).1, hck.trans (hmet k hk).2⟩

section Fresh

variable (hwf : WellFounded needs) (hlocal : Local needs f) (hv : Consistent needs f (fun _ => none) v)
  (hw : Consistent needs f (fun _ => none) w)
include hwf hlocal hv hw

theorem Consistent.eq_of_some (hb : v i = some b) (hc : w i = some c) : b = c :=
  hv.agree hwf hw (fun i _ _ h => hlocal i v w fun j hj => h j hj rfl) rfl hb hc

theorem Consistent.eq_of_isSome_iff (hdone : ∀ i, (v i).isSome ↔ (w i).isSome) : v = w := by
  funext i
  cases hb : v i with
  | none =>
    have hnone : ¬ (w i).isSome := fun h => by simpa [hb] using (hdone i).mpr h
    exact (not_isSome_iff_eq_none.mp hnone).symm
  | some b =>
    obtain ⟨c, hc⟩ := isSome_iff_exists.mp ((hdone i).mp (by rw [hb]; rfl))
    rw [hc, hv.eq_of_some hwf hlocal hw hb hc]

theorem Consistent.value_eq (hb : v i = some b) (hneeds : ∀ j, needs j i → (w j).isSome) : b = f i w := by
  obtain ⟨hvn, rfl⟩ := hv.rule rfl hb
  refine hlocal i v w fun j hj => ?_
  obtain ⟨x, hx⟩ := isSome_iff_exists.mp (hvn j hj)
  obtain ⟨y, hy⟩ := isSome_iff_exists.mp (hneeds j hj)
  rw [hx, hy, hv.eq_of_some hwf hlocal hw hx hy]

end Fresh

end Rag3db.Library.Schedule
