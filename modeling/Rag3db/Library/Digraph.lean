import Mathlib.Logic.Relation
import Mathlib.Data.List.Basic
import Mathlib.Data.Finset.Card

open List

namespace Rag3db.Library.Digraph

open Relation

variable {α : Type}

def Acyclic (r : α → α → Prop) : Prop := ∀ a, ¬ TransGen r a a

variable {r r' : α → α → Prop}

theorem Acyclic.mono (h : Acyclic r) (hle : ∀ a b, r' a b → r a b) : Acyclic r' :=
  fun a ha => h a (TransGen.mono hle _ _ ha)

variable {t : α}

/-- New edges into a node with no outgoing edge close no cycle. -/
theorem Acyclic.of_sink (h : Acyclic r) (hsink : ∀ b, ¬ r' t b) (hle : ∀ a b, r' a b → r a b ∨ b = t) : Acyclic r' := by
  have hold : ∀ a b, TransGen r' a b → TransGen r a b ∨ b = t := by
    intro a b hab
    induction hab with
    | single hab => exact (hle _ _ hab).imp_left TransGen.single
    | tail _ hbc ih =>
      rcases hle _ _ hbc with hr | rfl
      · rcases ih with ih | rfl
        · exact .inl (ih.tail hr)
        · exact absurd hbc (hsink _)
      · exact .inr rfl
  intro a ha
  rcases hold a a ha with hr | rfl
  · exact h a hr
  · obtain ⟨b, hab, _⟩ := TransGen.head'_iff.mp ha
    exact hsink b hab

variable {a : α}

theorem reflTransGen_to_source
    (hle : ∀ a b, r' a b → r a b ∨ a = t) (h : ReflTransGen r' a t) : ReflTransGen r a t := by
  induction h using ReflTransGen.head_induction_on with
  | refl => exact .refl
  | head hab _ ih =>
    rcases hle _ _ hab with hr | rfl
    · exact ih.head hr
    · exact .refl

/-- New edges out of one node close no cycle when none of their ends led
back to that node. -/
theorem Acyclic.of_source (h : Acyclic r)
    (hle : ∀ a b, r' a b → r a b ∨ (a = t ∧ ¬ ReflTransGen r b t)) : Acyclic r' := by
  -- a path is either old or split at its last new edge
  have hsplit : ∀ a b, TransGen r' a b → TransGen r a b ∨
      ∃ x, ¬ ReflTransGen r x t ∧ ReflTransGen r' a t ∧ ReflTransGen r x b := by
    intro a b hab
    induction hab with
    | single hab =>
      rcases hle _ _ hab with hr | ⟨rfl, hb⟩
      · exact .inl (.single hr)
      · exact .inr ⟨_, hb, .refl, .refl⟩
    | tail hab hbc ih =>
      rcases hle _ _ hbc with hr | ⟨rfl, hc⟩
      · rcases ih with ih | ⟨x, hx, hat, hxb⟩
        · exact .inl (ih.tail hr)
        · exact .inr ⟨x, hx, hat, hxb.tail hr⟩
      · exact .inr ⟨_, hc, hab.to_reflTransGen, .refl⟩
  intro a ha
  rcases hsplit a a ha with hr | ⟨x, hx, hat, hxa⟩
  · exact h a hr
  · exact hx (hxa.trans (reflTransGen_to_source (fun _ _ h => (hle _ _ h).imp_right And.left) hat))

def searchAll (search : α → List α → Bool × List α) : List α → List α → Bool × List α
  | [], visited => (false, visited)
  | a :: as, visited =>
    match search a visited with
    | (true, visited) => (true, visited)
    | (false, visited) => searchAll search as visited

/-- Depth-first search for `target` along `next`, never expanding a node
twice. The fuel bounds the depth of the recursion. -/
def reaches [DecidableEq α] (next : α → List α) (target : α) : Nat → α → List α → Bool × List α
  | 0, _, visited => (false, visited)
  | fuel + 1, a, visited =>
    if a = target then (true, visited)
    else if a ∈ visited then (false, visited)
    else searchAll (reaches next target fuel) (next a) (visited ++ [a])

def Edge (next : α → List α) (a b : α) : Prop := b ∈ next a

variable {search : α → List α → Bool × List α} {as visited : List α}

theorem searchAll_true (h : (searchAll search as visited).1 = true) : ∃ a ∈ as, ∃ seen, (search a seen).1 = true := by
  induction as generalizing visited with
  | nil => simp [searchAll] at h
  | cons a as ih =>
    cases hs : search a visited with
    | mk found seen =>
      cases found with
      | true => exact ⟨a, mem_cons_self, visited, by rw [hs]⟩
      | false =>
        simp only [searchAll, hs] at h
        obtain ⟨b, hb, seen', hsb⟩ := ih h
        exact ⟨b, mem_cons_of_mem a hb, seen', hsb⟩

theorem reaches_sound [DecidableEq α] {next : α → List α} {target : α} {fuel : Nat}
    (h : (reaches next target fuel a visited).1 = true) : ReflTransGen (Edge next) a target := by
  induction fuel generalizing a visited with
  | zero => simp [reaches] at h
  | succ fuel ih =>
    rw [reaches] at h
    split_ifs at h with ht hv
    · rw [ht]
    · obtain ⟨b, hb, seen, hs⟩ := searchAll_true h
      exact ReflTransGen.head hb (ih hs)

/-- What an unsuccessful search leaves behind: a larger set of visited nodes,
closed under `next` except at the nodes visited before, without the target. -/
structure Exhausted (next : α → List α) (target : α) (visited seen : List α) : Prop where
  mono : visited ⊆ seen
  closed : ∀ a ∈ seen, a ∈ visited ∨ ∀ b ∈ next a, b ∈ seen
  target : target ∈ seen → target ∈ visited

theorem Exhausted.refl (next : α → List α) (target : α) (visited : List α) : Exhausted next target visited visited :=
  ⟨List.Subset.refl _, fun _ ha => .inl ha, id⟩

theorem Exhausted.trans {next : α → List α} {target : α} {seen seen' : List α}
    (h : Exhausted next target visited seen) (h' : Exhausted next target seen seen') :
    Exhausted next target visited seen' where
  mono := List.Subset.trans h.mono h'.mono
  closed a ha := by
    rcases h'.closed a ha with hs | hn
    · exact (h.closed a hs).imp_right fun hn b hb => h'.mono (hn b hb)
    · exact .inr hn
  target ht := h.target (h'.target ht)

theorem searchAll_exhausted (next : α → List α) (target : α)
    (hs : ∀ a ∈ as, ∀ seen, visited ⊆ seen → (search a seen).1 = false →
      Exhausted next target seen (search a seen).2 ∧ a ∈ (search a seen).2)
    (h : (searchAll search as visited).1 = false) :
    Exhausted next target visited (searchAll search as visited).2 ∧ ∀ a ∈ as, a ∈ (searchAll search as visited).2 := by
  induction as generalizing visited with
  | nil => exact ⟨Exhausted.refl _ _ _, by simp⟩
  | cons a as ih =>
    have ha := hs a mem_cons_self visited (List.Subset.refl _)
    cases hr : search a visited with
    | mk found seen =>
      cases found with
      | true => simp [searchAll, hr] at h
      | false =>
        simp only [searchAll, hr] at h ⊢
        simp only [hr, forall_const] at ha
        obtain ⟨hx, hm⟩ := ih (fun b hb seen' hsub =>
          hs b (mem_cons_of_mem a hb) seen' (List.Subset.trans ha.1.mono hsub)) h
        refine ⟨ha.1.trans hx, fun b hb => ?_⟩
        rcases mem_cons.mp hb with rfl | hb
        · exact hx.mono ha.2
        · exact hm b hb

section Complete

variable [DecidableEq α] {next : α → List α} {target : α} {expand : Finset α} {a : α} {visited : List α}

theorem card_unvisited_lt {b : α} {seen : List α} (hn : ∀ a, next a ≠ [] → a ∈ expand)
    (ha : a ∉ visited) (hb : b ∈ next a) (hsub : visited ++ [a] ⊆ seen) :
    (expand.filter (· ∉ seen)).card < (expand.filter (· ∉ visited)).card := by
  have hae : a ∈ expand := hn a (ne_nil_of_mem hb)
  have has : a ∈ seen := hsub (by simp)
  refine Finset.card_lt_card ⟨fun x hx => ?_, fun hle => ?_⟩
  · simp only [Finset.mem_filter] at hx ⊢
    exact ⟨hx.1, fun hv => hx.2 (hsub (mem_append_left _ hv))⟩
  · have := hle (Finset.mem_filter.mpr ⟨hae, ha⟩)
    exact (Finset.mem_filter.mp this).2 has

variable {fuel : Nat}

/-- Fuel above the number of unvisited nodes that can be expanded is enough. -/
theorem reaches_exhausted (hn : ∀ a, next a ≠ [] → a ∈ expand) (hf : (expand.filter (· ∉ visited)).card < fuel)
    (h : (reaches next target fuel a visited).1 = false) :
    Exhausted next target visited (reaches next target fuel a visited).2 ∧
      a ∈ (reaches next target fuel a visited).2 := by
  induction fuel generalizing a visited with
  | zero => omega
  | succ fuel ih =>
    rw [reaches] at h ⊢
    split_ifs at h ⊢ with ht hv
    · exact ⟨Exhausted.refl _ _ _, hv⟩
    · obtain ⟨hx, hm⟩ := searchAll_exhausted next target (fun b hb seen hsub hr => ih
          (by have := card_unvisited_lt hn hv hb hsub; omega) hr) h
      refine ⟨⟨fun x hxv => hx.mono (mem_append_left _ hxv), fun x hxs => ?_, fun hts => ?_⟩, hx.mono (by simp)⟩
      · rcases hx.closed x hxs with hxv | hxn
        · rcases mem_append.mp hxv with hxv | hxa
          · exact .inl hxv
          · rw [mem_singleton.mp hxa]
            exact .inr hm
        · exact .inr hxn
      · rcases mem_append.mp (hx.target hts) with htv | hta
        · exact htv
        · exact absurd (mem_singleton.mp hta).symm ht

/-- A search from `as` that fails with enough fuel proves that no path leads
from them to the target. -/
theorem searchAll_complete (hn : ∀ a, next a ≠ [] → a ∈ expand) {as : List α}
    (hf : expand.card < fuel) (h : (searchAll (reaches next target fuel) as []).1 = false) :
    ∀ a ∈ as, ¬ ReflTransGen (Edge next) a target := by
  obtain ⟨hx, hm⟩ := searchAll_exhausted next target (fun a _ seen _ hr => reaches_exhausted hn
      (lt_of_le_of_lt (Finset.card_filter_le expand (· ∉ seen)) hf) hr) h
  intro a ha hpath
  have hseen : ∀ b, ReflTransGen (Edge next) a b → b ∈ (searchAll (reaches next target fuel) as []).2 := by
    intro b hb
    induction hb with
    | refl => exact hm a ha
    | tail _ hbc ih => exact ((hx.closed _ ih).resolve_left not_mem_nil) _ hbc
  exact not_mem_nil (hx.target (hseen target hpath))

end Complete

end Rag3db.Library.Digraph
