import Mathlib.Data.Option.Basic

open Option

namespace Rag3db.Library.Transition

variable {σ ι : Type} {step : σ → ι → Option σ} {init s s' : σ}

/-- The states a run of `step` can reach from `init`. -/
inductive Reachable (step : σ → ι → Option σ) (init : σ) : σ → Prop
  | init : Reachable step init init
  | step {s s' : σ} (a : ι) : Reachable step init s → step s a = some s' → Reachable step init s'

def run (step : σ → ι → Option σ) : σ → List ι → Option σ
  | s, [] => some s
  | s, a :: as => (step s a).bind fun s' => run step s' as

variable {as : List ι}

theorem Reachable.run (h : Reachable step init s) (hr : run step s as = some s') : Reachable step init s' := by
  induction as generalizing s with
  | nil => exact some.inj hr ▸ h
  | cons a as ih =>
    obtain ⟨t, ht, hr⟩ := bind_eq_some_iff.mp hr
    exact ih (h.step a ht) hr

/-- A property of the initial state that every step keeps holds in every
reachable state. -/
theorem Reachable.invariant {P : σ → Prop} (h : Reachable step init s) (hinit : P init)
    (hstep : ∀ s a s', P s → step s a = some s' → P s') : P s := by
  induction h with
  | init => exact hinit
  | step a _ hs ih => exact hstep _ a _ ih hs

def guarded (P : σ → ι → Bool) (step : σ → ι → Option σ) : σ → ι → Option σ :=
  fun s a => if P s a then step s a else none

theorem guarded_eq_some {P : σ → ι → Bool} {a : ι} :
    guarded P step s a = some s' ↔ P s a = true ∧ step s a = some s' := by
  simp [guarded]

/-- The states a run can reach if all its steps keep to `P`. -/
inductive ReachableWithin (P : σ → σ → Prop) (step : σ → ι → Option σ) (init : σ) : σ → Prop
  | init : ReachableWithin P step init init
  | step {s s' : σ} (a : ι) : ReachableWithin P step init s → step s a = some s' → P s s' →
      ReachableWithin P step init s'

def runWithin (P : σ → σ → Prop) [DecidableRel P] (step : σ → ι → Option σ) : σ → List ι → Option σ
  | s, [] => some s
  | s, a :: as => (step s a).bind fun s' => if P s s' then runWithin P step s' as else none

variable {P : σ → σ → Prop}

theorem ReachableWithin.run [DecidableRel P]
    (h : ReachableWithin P step init s) (hr : runWithin P step s as = some s') :
    ReachableWithin P step init s' := by
  induction as generalizing s with
  | nil => exact some.inj hr ▸ h
  | cons a as ih =>
    obtain ⟨t, ht, hr⟩ := bind_eq_some_iff.mp hr
    obtain ⟨hp, hr⟩ := ite_none_right_eq_some.mp hr
    exact ih (h.step a ht hp) hr

variable {Q : σ → Prop}

theorem ReachableWithin.invariant (h : ReachableWithin P step init s)
    (hinit : Q init) (hstep : ∀ s a s', Q s → step s a = some s' → P s s' → Q s') : Q s := by
  induction h with
  | init => exact hinit
  | step a _ hs hp ih => exact hstep _ a _ ih hs hp

/-- The states a run can reach if every step is taken where `P` allows it. -/
inductive ReachableUnder (P : σ → ι → Prop) (step : σ → ι → Option σ) (init : σ) : σ → Prop
  | init : ReachableUnder P step init init
  | step {s s' : σ} (a : ι) : ReachableUnder P step init s → P s a → step s a = some s' →
      ReachableUnder P step init s'

theorem ReachableUnder.invariant {P : σ → ι → Prop} (h : ReachableUnder P step init s)
    (hinit : Q init) (hstep : ∀ s a s', Q s → P s a → step s a = some s' → Q s') : Q s := by
  induction h with
  | init => exact hinit
  | step a _ hp hs ih => exact hstep _ a _ ih hp hs

def Allowed (P : σ → ι → Prop) (step : σ → ι → Option σ) : σ → List ι → Prop
  | _, [] => True
  | s, a :: as =>
    P s a ∧ match step s a with
      | some s' => Allowed P step s' as
      | none => True

theorem ReachableUnder.run {P : σ → ι → Prop} (h : ReachableUnder P step init s)
    (hp : Allowed P step s as) (hr : run step s as = some s') : ReachableUnder P step init s' := by
  induction as generalizing s with
  | nil => exact some.inj hr ▸ h
  | cons a as ih =>
    obtain ⟨t, ht, hr⟩ := bind_eq_some_iff.mp hr
    obtain ⟨ha, hp⟩ := hp
    rw [ht] at hp
    exact ih (h.step a ha ht) hp hr

end Rag3db.Library.Transition
