import Mathlib.Data.List.Basic

open List

namespace Rag3db.Library.Interruptible

variable {σ τ ι ε : Type} {s : σ} {is : List ι}

/-- The states a computation passes through, in their order, and whether it
came to its end. An exception leaves the last of them. -/
structure Outcome (σ : Type) where
  passed : List σ
  finished : Bool

def Outcome.last (o : Outcome σ) (s : σ) : σ := o.passed.getLastD s

abbrev Steps (σ : Type) : Type := σ → Outcome σ

namespace Steps

def skip : Steps σ := fun _ => ⟨[], true⟩

def step (f : σ → σ) : Steps σ := fun s => ⟨[f s], true⟩

def attempt (f : σ → Except ε σ) : Steps σ := fun s =>
  match f s with
  | .ok s' => ⟨[s'], true⟩
  | .error _ => ⟨[], false⟩

def andThen (f g : Steps σ) : Steps σ := fun s =>
  let o := f s
  if o.finished then ⟨o.passed ++ (g (o.last s)).passed, (g (o.last s)).finished⟩ else o

def each (f : ι → Steps σ) : List ι → Steps σ
  | [] => skip
  | i :: is => (f i).andThen (each f is)

def within (get : σ → τ) (put : σ → τ → σ) (f : Steps τ) : Steps σ := fun s =>
  ⟨(f (get s)).passed.map (put s), (f (get s)).finished⟩

def points (f : Steps σ) (s : σ) : List σ := s :: (f s).passed

def result (f : Steps σ) (s : σ) : Option σ := if (f s).finished then some ((f s).last s) else none

variable {f g : Steps σ}

theorem andThen_finished (h : (f.andThen g s).finished = true) :
    (f s).finished = true ∧ (g ((f s).last s)).finished = true := by
  unfold andThen at h
  cases hf : (f s).finished with
  | false => simp [hf] at h
  | true => exact ⟨rfl, by simpa [hf] using h⟩

theorem andThen_last (h : (f s).finished = true) : (f.andThen g s).last s = (g ((f s).last s)).last ((f s).last s) := by
  simp [andThen, h, Outcome.last]

theorem andThen_unfinished (h : (f s).finished = false) : f.andThen g s = f s := by
  simp [andThen, h]

theorem last_mem_points (f : Steps σ) (s : σ) : (f s).last s ∈ f.points s :=
  getLastD_mem_cons

end Steps

/-- From a state of `P` the computation passes only through states of `I`, and
if it comes to its end, it ends in a state of `Q`. -/
structure Triple (P : σ → Prop) (f : Steps σ) (I Q : σ → Prop) : Prop where
  passes : ∀ {s}, P s → ∀ s' ∈ (f s).passed, I s'
  ends : ∀ {s}, P s → (f s).finished = true → Q ((f s).last s)

namespace Triple

variable {P P' Q Q' R I I' : σ → Prop} {f g : Steps σ} {s' : σ}

theorem skip : Triple P Steps.skip I P := ⟨fun _ _ h => absurd h not_mem_nil, fun h _ => h⟩

theorem step {f : σ → σ} (hI : ∀ s, P s → I (f s)) (hQ : ∀ s, P s → Q (f s)) : Triple P (Steps.step f) I Q where
  passes h s' hs := by
    rw [mem_singleton.mp hs]
    exact hI _ h
  ends h _ := hQ _ h

theorem attempt {f : σ → Except ε σ} (hI : ∀ s s', P s → f s = .ok s' → I s')
    (hQ : ∀ s s', P s → f s = .ok s' → Q s') : Triple P (Steps.attempt f) I Q where
  passes {s} h s' hs := by
    unfold Steps.attempt at hs
    cases he : f s with
    | error e => simp [he] at hs
    | ok s'' =>
      rw [he] at hs
      rw [mem_singleton.mp hs]
      exact hI _ _ h he
  ends {s} h hf := by
    unfold Steps.attempt at hf ⊢
    cases he : f s with
    | error e => simp [he] at hf
    | ok s'' => exact hQ _ _ h he

theorem andThen (hf : Triple P f I Q) (hg : Triple Q g I R) : Triple P (f.andThen g) I R where
  passes {s} h s' hs := by
    unfold Steps.andThen at hs
    cases hfin : (f s).finished with
    | false =>
      simp only [hfin] at hs
      exact hf.passes h s' hs
    | true =>
      simp only [hfin, if_true, mem_append] at hs
      exact hs.elim (hf.passes h s') (hg.passes (hf.ends h hfin) s')
  ends {s} h hfin := by
    unfold Steps.andThen at hfin ⊢
    cases hff : (f s).finished with
    | false => simp [hff] at hfin
    | true =>
      simp only [hff] at hfin ⊢
      have hlast := hg.ends (hf.ends h hff) hfin
      simpa [Outcome.last] using hlast

theorem each {f : ι → Steps σ} (h : ∀ i ∈ is, Triple P (f i) I P) : Triple P (Steps.each f is) I P := by
  induction is with
  | nil => exact skip
  | cons i is ih =>
    exact (h i mem_cons_self).andThen (ih fun j hj => h j (mem_cons_of_mem i hj))

theorem pointwise (h : ∀ s, P s → ∃ g, f s = g s ∧ Triple (s = ·) g I Q) : Triple P f I Q where
  passes {s} hs := by
    obtain ⟨g, he, hg⟩ := h s hs
    rw [he]
    exact hg.passes rfl
  ends {s} hs := by
    obtain ⟨g, he, hg⟩ := h s hs
    rw [he]
    exact hg.ends rfl

theorem read {f : σ → Steps σ} (h : ∀ s, P s → Triple (s = ·) (f s) I Q) : Triple P (fun s => f s s) I Q :=
  pointwise fun s hs => ⟨f s, rfl, h s hs⟩

theorem within {get : σ → τ} {put : σ → τ → σ} {f : Steps τ} (hput : put s (get s) = s)
    (h : Triple (get s = ·) f (fun x => I (put s x)) (fun x => Q (put s x))) :
    Triple (s = ·) (Steps.within get put f) I Q where
  passes := by
    rintro _ rfl s' hs
    obtain ⟨x, hx, rfl⟩ := mem_map.mp hs
    exact h.passes rfl x hx
  ends := by
    rintro _ rfl hfin
    have hlast : ((f (get s)).passed.map (put s)).getLastD s = put s ((f (get s)).passed.getLastD (get s)) := by
      cases hp : (f (get s)).passed with
      | nil => exact hput.symm
      | cons x xs => simp [getLast?_cons]
    simpa only [Outcome.last, Steps.within, hlast] using h.ends rfl hfin

theorem consequence (h : Triple P f I Q) (hP : ∀ s, P' s → P s) (hI : ∀ s, I s → I' s)
    (hQ : ∀ s, Q s → Q' s) : Triple P' f I' Q' :=
  ⟨fun hs s' hm => hI _ (h.passes (hP _ hs) s' hm), fun hs hf => hQ _ (h.ends (hP _ hs) hf)⟩

theorem result (h : Triple P f I Q) (hs : P s) (hr : f.result s = some s') : Q s' := by
  unfold Steps.result at hr
  split_ifs at hr with hf
  exact Option.some.inj hr ▸ h.ends hs hf

theorem points (h : Triple P f I Q) (hs : P s) (hI : I s) (hp : s' ∈ f.points s) : I s' := by
  rcases mem_cons.mp hp with rfl | hm
  · exact hI
  · exact h.passes hs s' hm

end Triple

/-- A triple that also says what an exception of the computation itself leaves. -/
structure Contract (P : σ → Prop) (f : Steps σ) (I Q E : σ → Prop) : Prop extends Triple P f I Q where
  raises : ∀ {s}, P s → (f s).finished = false → E ((f s).last s)

namespace Contract

variable {P P' Q Q' R I E : σ → Prop} {f g : Steps σ}

theorem skip : Contract P Steps.skip I P E := ⟨Triple.skip, nofun⟩

theorem step {f : σ → σ} (hI : ∀ s, P s → I (f s)) (hQ : ∀ s, P s → Q (f s)) :
    Contract P (Steps.step f) I Q E := ⟨Triple.step hI hQ, nofun⟩

theorem attempt {f : σ → Except ε σ} (hI : ∀ s s', P s → f s = .ok s' → I s')
    (hQ : ∀ s s', P s → f s = .ok s' → Q s') (hE : ∀ s, P s → E s) : Contract P (Steps.attempt f) I Q E where
  toTriple := Triple.attempt hI hQ
  raises {s} h hf := by
    unfold Steps.attempt at hf ⊢
    cases he : f s with
    | error e => exact hE s h
    | ok s' => simp [he] at hf

theorem andThen (hf : Contract P f I Q E) (hg : Contract Q g I R E) : Contract P (f.andThen g) I R E where
  toTriple := hf.toTriple.andThen hg.toTriple
  raises {s} h hfin := by
    unfold Steps.andThen at hfin ⊢
    cases hff : (f s).finished with
    | false =>
      simp only [hff]
      exact hf.raises h hff
    | true =>
      simp only [hff] at hfin ⊢
      have hlast := hg.raises (hf.ends h hff) hfin
      simpa [Outcome.last] using hlast

theorem pointwise (h : ∀ s, P s → ∃ g, f s = g s ∧ Contract (s = ·) g I Q E) : Contract P f I Q E where
  toTriple := .pointwise fun s hs => (h s hs).imp fun _ hg => ⟨hg.1, hg.2.toTriple⟩
  raises {s} hs hf := by
    obtain ⟨g, he, hg⟩ := h s hs
    rw [he] at hf ⊢
    exact hg.raises rfl hf

theorem of_eq (g : Steps σ) (he : f s = g s) (h : Contract (s = ·) g I Q E) : Contract (s = ·) f I Q E :=
  pointwise fun _ hs => ⟨g, hs ▸ he, hs ▸ h⟩

theorem pre (h : Contract P f I Q E) (hP : ∀ s, P' s → P s) : Contract P' f I Q E :=
  ⟨h.toTriple.consequence hP (fun _ => id) fun _ => id, fun hs hf => h.raises (hP _ hs) hf⟩

theorem post (h : Contract P f I Q E) (hQ : ∀ s, Q s → Q' s) : Contract P f I Q' E :=
  ⟨h.toTriple.consequence (fun _ => id) (fun _ => id) hQ, h.raises⟩

theorem choose (h : ∀ s, P s → ∃ g, f s = g s ∧ Contract P g I Q E) : Contract P f I Q E :=
  pointwise fun s hs => (h s hs).imp fun _ hg => ⟨hg.1, hg.2.pre fun _ he => he ▸ hs⟩

theorem each {f : ι → Steps σ} (h : ∀ i, Contract P (f i) I P E) : Contract P (Steps.each f is) I P E := by
  induction is with
  | nil => exact skip
  | cons i is ih => exact (h i).andThen ih

theorem assuming {p : Prop} (h : p → Contract (s = ·) f I Q E) : Contract (fun s' => s = s' ∧ p) f I Q E :=
  pointwise fun _ hs => ⟨f, rfl, hs.1 ▸ h hs.2⟩

theorem last (h : Contract P f I Q E) (hs : P s) (hQE : ∀ s, Q s → E s) : E ((f s).last s) := by
  cases hf : (f s).finished with
  | false => exact h.raises hs hf
  | true => exact hQE _ (h.ends hs hf)

end Contract

end Rag3db.Library.Interruptible
