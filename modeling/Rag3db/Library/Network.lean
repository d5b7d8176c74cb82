import Mathlib.Logic.Relation
import Mathlib.Order.Basic
import Mathlib.Order.WellFounded
import Rag3db.Library.Transition

namespace Rag3db.Library

/-- Components that only see what others put out. What one does it also does
when it sees more, and what it has put out it never takes back. -/
structure Network (ι σ O : Type) [Preorder O] where
  needs : ι → ι → Prop
  next : ι → (ι → O) → σ → Option σ
  out : σ → O
  mono : ∀ {i : ι} {h h' : ι → O} {x y : σ}, (∀ j, needs j i → h j ≤ h' j) → next i h x = some y → next i h' x = some y
  grow : ∀ {i : ι} {h : ι → O} {x y : σ}, next i h x = some y → out x ≤ out y

namespace Network

open Transition

variable {ι σ O : Type} [DecidableEq ι] [Preorder O] (N : Network ι σ O)

def outs (s : ι → σ) (i : ι) : O := N.out (s i)

def step (s : ι → σ) (i : ι) : Option (ι → σ) := (N.next i (N.outs s) (s i)).map (Function.update s i)

def Goes (i : ι) (h : ι → O) : σ → σ → Prop := Relation.ReflTransGen fun x y => N.next i h x = some y

def Halted (i : ι) (x : σ) : Prop := ∀ h, N.next i h x = none

variable {N} {i : ι} {h h' : ι → O} {x y z : σ} {start start' s s' : ι → σ}

omit [DecidableEq ι] in
theorem Goes.mono (hle : ∀ j, N.needs j i → h j ≤ h' j) (hgoes : N.Goes i h x y) : N.Goes i h' x y :=
  Relation.ReflTransGen.mono (fun _ _ hxy => N.mono hle hxy) _ _ hgoes

omit [DecidableEq ι] in
theorem Goes.out_le (hgoes : N.Goes i h x y) : N.out x ≤ N.out y := by
  induction hgoes with
  | refl => exact le_rfl
  | tail _ hstep ih => exact ih.trans (N.grow hstep)

omit [DecidableEq ι] in
theorem Goes.total (hy : N.Goes i h x y) (hz : N.Goes i h x z) : N.Goes i h y z ∨ N.Goes i h z y :=
  Relation.ReflTransGen.total_of_right_unique (fun _ _ _ hab hac => Option.some.inj (hab.symm.trans hac)) hy hz

omit [DecidableEq ι] in
theorem Halted.eq (hx : N.Halted i x) (hgoes : N.Goes i h x y) : y = x := by
  cases hgoes.cases_head with
  | inl heq => exact heq.symm
  | inr hstep =>
    obtain ⟨z, hxz, -⟩ := hstep
    rw [hx h] at hxz
    cases hxz

theorem outs_le_step {k : ι} (hs : N.step s k = some s') (j : ι) : N.outs s j ≤ N.outs s' j := by
  obtain ⟨y, hy, rfl⟩ := Option.map_eq_some_iff.mp hs
  by_cases hj : j = k
  · subst hj
    simpa [outs] using N.grow hy
  · simp [outs, Function.update_of_ne hj]

/-- In every run each component has gone, by itself, from where it started to
where it is: what it sees by now made no difference before. -/
theorem goes_of_reachable (hs : Reachable N.step start s) (i : ι) : N.Goes i (N.outs s) (start i) (s i) := by
  refine hs.invariant (P := fun s => ∀ i, N.Goes i (N.outs s) (start i) (s i)) (fun _ => .refl)
    (fun s k s' ih hstep i => ?_) i
  have hle := outs_le_step hstep
  refine ((ih i).mono fun j _ => hle j).trans ?_
  obtain ⟨y, hy, rfl⟩ := Option.map_eq_some_iff.mp hstep
  by_cases hik : i = k
  · subst hik
    rw [Function.update_self]
    exact .single (N.mono (fun j _ => hle j) hy)
  · rw [Function.update_of_ne hik]

theorem exists_goes_of_bounds (hstart : start i = start' i) (hs : Reachable N.step start s)
    (hs' : Reachable N.step start' s') (hbound : ∀ j, N.needs j i → ∃ u, N.outs s j ≤ u ∧ N.outs s' j ≤ u) :
    ∃ h, N.Goes i h (start i) (s i) ∧ N.Goes i h (start i) (s' i) := by
  classical
  let h : ι → O := fun j => if hj : N.needs j i then (hbound j hj).choose else N.outs s j
  have hh : ∀ j, N.needs j i → N.outs s j ≤ h j ∧ N.outs s' j ≤ h j := fun j hj => by
    simp only [h, dif_pos hj]
    exact (hbound j hj).choose_spec
  refine ⟨h, (goes_of_reachable hs i).mono fun j hj => (hh j hj).1, ?_⟩
  rw [hstart]
  exact (goes_of_reachable hs' i).mono fun j hj => (hh j hj).2

/-- Two runs that start alike but for the `given` components take every other
component the same way, one of them maybe further, if what the given ones put
out in them can be part of one thing. -/
theorem exists_goes (hwf : WellFounded N.needs) (given : ι → Prop) (hstart : ∀ i, ¬ given i → start i = start' i)
    (hs : Reachable N.step start s) (hs' : Reachable N.step start' s')
    (hgiven : ∀ i, given i → ∃ u, N.outs s i ≤ u ∧ N.outs s' i ≤ u) (hi : ¬ given i) :
    ∃ h, N.Goes i h (start i) (s i) ∧ N.Goes i h (start i) (s' i) := by
  have hbound : ∀ i, ∃ u, N.outs s i ≤ u ∧ N.outs s' i ≤ u := by
    intro i
    induction i using hwf.induction with
    | _ i ih =>
      by_cases hi : given i
      · exact hgiven i hi
      · obtain ⟨h, hgo, hgo'⟩ := exists_goes_of_bounds (hstart i hi) hs hs' ih
        rcases hgo.total hgo' with hle | hle
        · exact ⟨N.outs s' i, hle.out_le, le_rfl⟩
        · exact ⟨N.outs s i, le_rfl, hle.out_le⟩
  exact exists_goes_of_bounds (hstart i hi) hs hs' fun j _ => hbound j

end Network

end Rag3db.Library
