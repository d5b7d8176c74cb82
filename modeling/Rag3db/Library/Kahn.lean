import Mathlib.Data.List.Basic
import Mathlib.Data.List.Perm.Basic
import Mathlib.Data.List.Perm.Subperm
import Mathlib.Data.List.Nodup

open List

namespace Rag3db.Library.Kahn

variable {α : Type} [DecidableEq α]

/-- Takes the edges out of a node away; what has no edge left into it is
queued. -/
def relax (node : α) : List (α × α) → (α → Nat) → List α → (α → Nat) × List α
  | [], degree, queue => (degree, queue)
  | e :: es, degree, queue =>
    if e.1 = node then
      let d := degree e.2 - 1
      relax node es (Function.update degree e.2 d) (if d = 0 then queue ++ [e.2] else queue)
    else relax node es degree queue

def loop (edges : List (α × α)) : Nat → (α → Nat) → List α → List α → List α
  | fuel + 1, degree, node :: queue, order =>
    let (degree, queue) := relax node edges degree queue
    loop edges fuel degree queue (order ++ [node])
  | _, _, _, order => order

def inDegree (edges : List (α × α)) (n : α) : Nat := edges.countP fun e => e.2 = n

/-- Kahn's algorithm: an order of all nodes in which edges go forward, if there
is one. -/
def sort (nodes : List α) (edges : List (α × α)) : Option (List α) :=
  let degree := inDegree edges
  let order := loop edges nodes.length degree (nodes.filter fun n => degree n = 0) []
  if order.length = nodes.length then some order else none

/-- Whatever has an edge into a node of the list stands before it. -/
def Closed (edges : List (α × α)) (order : List α) : Prop :=
  ∀ before a after, order = before ++ a :: after → ∀ e ∈ edges, e.2 = a → e.1 ∈ before

variable {nodes order queue es : List α} {edges : List (α × α)} {degree : α → Nat} {node a : α}

theorem relax_spec {es : List (α × α)} (h : ∀ n, es.countP (fun e => e.1 = node ∧ e.2 = n) ≤ degree n) :
    (∀ n, (relax node es degree queue).1 n = degree n - es.countP fun e => e.1 = node ∧ e.2 = n) ∧
      ∃ new, (relax node es degree queue).2 = queue ++ new ∧ new.Nodup ∧
        ∀ n, n ∈ new ↔ degree n ≠ 0 ∧ (relax node es degree queue).1 n = 0 := by
  induction es generalizing degree queue with
  | nil => exact ⟨fun n => rfl, [], by simp [relax], nodup_nil, fun n => by simp [relax]⟩
  | cons e es ih =>
    unfold relax
    by_cases he : e.1 = node
    · rw [if_pos he]
      dsimp only
      have hcount : ∀ n, (e :: es).countP (fun e => e.1 = node ∧ e.2 = n) =
          es.countP (fun e => e.1 = node ∧ e.2 = n) + if e.2 = n then 1 else 0 := fun n => by
        simp [countP_cons, he]
      have hdeg : ∀ n, Function.update degree e.2 (degree e.2 - 1) n =
          degree n - if e.2 = n then 1 else 0 := fun n => by
        by_cases hn : n = e.2
        · subst hn; simp
        · simp [hn, Ne.symm hn]
      have hle : ∀ n, es.countP (fun e => e.1 = node ∧ e.2 = n) ≤
          Function.update degree e.2 (degree e.2 - 1) n := fun n => by
        have := h n
        rw [hcount] at this
        rw [hdeg]
        omega
      have hpos : degree e.2 ≠ 0 := by
        have := h e.2
        rw [hcount, if_pos rfl] at this
        omega
      obtain ⟨hd, new, hq, hnodup, hmem⟩ := @ih (if degree e.2 - 1 = 0 then queue ++ [e.2] else queue) _ hle
      refine ⟨fun n => by rw [hd, hdeg, hcount]; omega, ?_⟩
      by_cases hz : degree e.2 - 1 = 0
      · rw [if_pos hz] at hd hq hmem ⊢
        refine ⟨e.2 :: new, by rw [hq]; simp, nodup_cons.mpr ⟨fun hin => ?_, hnodup⟩, fun n => ?_⟩
        · have := ((hmem e.2).mp hin).1
          simp [hz] at this
        · by_cases hn : n = e.2
          · subst hn
            simp only [mem_cons, true_or, true_iff]
            rw [hd, hdeg, if_pos rfl]
            omega
          · rw [mem_cons, hmem, hdeg, if_neg (Ne.symm hn)]
            simp [hn]
      · rw [if_neg hz] at hd hq hmem ⊢
        refine ⟨new, hq, hnodup, fun n => ?_⟩
        rw [hmem, hdeg]
        by_cases hn : e.2 = n
        · subst hn
          simp [hz, hpos]
        · simp [hn]
    · rw [if_neg he]
      have hcount : ∀ n, (e :: es).countP (fun e => e.1 = node ∧ e.2 = n) =
          es.countP (fun e => e.1 = node ∧ e.2 = n) := fun n => by simp [he]
      simp only [hcount] at h ⊢
      exact ih h

/-- What holds at every round: the nodes ordered or queued are those without
an edge from a node that is still to be ordered. -/
structure Inv (nodes : List α) (edges : List (α × α)) (degree : α → Nat) (queue order : List α) : Prop where
  nodup : (order ++ queue).Nodup
  mem : ∀ n, n ∈ order ++ queue ↔ n ∈ nodes ∧ degree n = 0
  degree : ∀ n, degree n = edges.countP fun e => e.2 = n ∧ e.1 ∉ order
  closed : Closed edges order

omit [DecidableEq α] in
theorem Closed.append (h : Closed edges order) (ha : ∀ e ∈ edges, e.2 = a → e.1 ∈ order) :
    Closed edges (order ++ [a]) := by
  intro before b after hsplit e he hb
  rcases eq_nil_or_concat after with rfl | ⟨rest, c, rfl⟩
  · obtain ⟨rfl, hab⟩ := append_inj' hsplit rfl
    cases hab
    exact ha e he hb
  · rw [concat_eq_append, ← cons_append, ← append_assoc] at hsplit
    exact h before b rest (append_inj' hsplit rfl).1 e he hb

theorem Inv.start (hnodup : nodes.Nodup) :
    Inv nodes edges (inDegree edges) (nodes.filter fun n => inDegree edges n = 0) [] where
  nodup := List.Nodup.filter _ hnodup
  mem n := by simp
  degree n := by simp [inDegree]
  closed := by
    intro before a after h
    simp at h

theorem countP_ordered (h : node ∉ order) (n : α) : (edges.countP fun e => e.2 = n ∧ e.1 ∉ order) =
      (edges.countP fun e => e.2 = n ∧ e.1 ∉ order ++ [node]) + edges.countP fun e => e.1 = node ∧ e.2 = n := by
  induction edges with
  | nil => rfl
  | cons e es ih =>
    simp only [countP_cons, ih]
    by_cases hn : e.2 = n
    · by_cases he : e.1 = node
      · simp [he, h]
        omega
      · simp [he]
        omega
    · simp [hn]

theorem Inv.node_mem (h : Inv nodes edges degree (node :: queue) order) :
    node ∈ nodes ∧ degree node = 0 ∧ node ∉ order := by
  have hnode := (h.mem node).mp (by simp)
  refine ⟨hnode.1, hnode.2, fun hin => ?_⟩
  exact (nodup_append.mp h.nodup).2.2 node hin node mem_cons_self rfl

variable (hto : ∀ e ∈ edges, e.2 ∈ nodes)

include hto

theorem Inv.round (h : Inv nodes edges degree (node :: queue) order) :
    Inv nodes edges (relax node edges degree queue).1 (relax node edges degree queue).2 (order ++ [node]) := by
  obtain ⟨hnode, hzero, hfresh⟩ := h.node_mem
  have hle : ∀ n, edges.countP (fun e => e.1 = node ∧ e.2 = n) ≤ degree n := fun n => by
    rw [h.degree, countP_ordered hfresh]
    omega
  obtain ⟨hdegree, new, hqueue, hnodup, hnew⟩ := @relax_spec _ _ queue _ _ _ hle
  rw [hqueue]
  have hassoc : order ++ [node] ++ (queue ++ new) = order ++ node :: queue ++ new := by simp
  refine ⟨?_, fun n => ?_, fun n => ?_, ?_⟩
  · rw [hassoc]
    refine nodup_append.mpr ⟨h.nodup, hnodup, fun n hn m hm hnm => ?_⟩
    subst hnm
    exact ((hnew n).mp hm).1 ((h.mem n).mp hn).2
  · rw [hassoc, mem_append, h.mem, hnew]
    constructor
    · rintro (⟨hn, hd⟩ | ⟨hd, hd'⟩)
      · exact ⟨hn, by rw [hdegree, hd, Nat.zero_sub]⟩
      · rw [h.degree] at hd
        obtain ⟨e, he, hen⟩ := countP_pos_iff.mp (Nat.pos_of_ne_zero hd)
        obtain ⟨rfl, -⟩ := of_decide_eq_true hen
        exact ⟨hto e he, hd'⟩
    · rintro ⟨hn, hd'⟩
      by_cases hd : degree n = 0
      · exact .inl ⟨hn, hd⟩
      · exact .inr ⟨hd, hd'⟩
  · rw [hdegree, h.degree, countP_ordered hfresh]
    omega
  · refine h.closed.append fun e he hen => ?_
    have := h.degree node
    rw [hzero] at this
    have hnone := countP_eq_zero.mp this.symm e he
    simpa [hen] using hnone

theorem Inv.loop {fuel : Nat} (h : Inv nodes edges degree queue order) (hfuel : nodes.length ≤ fuel + order.length) :
    ∃ degree', Inv nodes edges degree' [] (loop edges fuel degree queue order) := by
  induction fuel generalizing degree queue order with
  | zero =>
    cases queue with
    | nil => exact ⟨degree, h⟩
    | cons node queue =>
      have hsub : order ++ node :: queue ⊆ nodes := fun n hn => ((h.mem n).mp hn).1
      have hlen := (subperm_of_subset h.nodup hsub).length_le
      simp only [length_append, length_cons] at hlen
      omega
  | succ fuel ih =>
    cases queue with
    | nil => exact ⟨degree, h⟩
    | cons node queue => exact ih (h.round hto) (by simp; omega)

theorem sort_spec (hnodup : nodes.Nodup) : ∃ degree, Inv nodes edges degree []
      (loop edges nodes.length (inDegree edges) (nodes.filter fun n => inDegree edges n = 0) []) :=
  (Inv.start hnodup).loop hto (by simp)

omit hto in
theorem Inv.perm (h : Inv nodes edges degree [] order) (hnodup : nodes.Nodup) (hall : ∀ n ∈ nodes, degree n = 0) :
    order.Perm nodes := by
  have horder := h.nodup
  rw [append_nil] at horder
  refine (perm_ext_iff_of_nodup horder hnodup).mpr fun n => ?_
  rw [← append_nil order, h.mem]
  exact ⟨And.left, fun hn => ⟨hn, hall n hn⟩⟩

theorem sort_eq_some (hnodup : nodes.Nodup) (h : sort nodes edges = some order) :
    order.Perm nodes ∧ Closed edges order := by
  obtain ⟨degree, hinv⟩ := sort_spec hto hnodup
  unfold sort at h
  dsimp only at h
  split_ifs at h with hlen
  cases h
  refine ⟨?_, hinv.closed⟩
  have hnd := hinv.nodup
  rw [append_nil] at hnd
  refine (subperm_of_subset hnd fun n hn => ?_).perm_of_length_le (Nat.le_of_eq hlen.symm)
  exact ((hinv.mem n).mp (by simpa using hn)).1

theorem sort_of_wellFounded (hnodup : nodes.Nodup) (hfrom : ∀ e ∈ edges, e.1 ∈ nodes)
    (hwf : WellFounded fun a b => (a, b) ∈ edges) : ∃ order, sort nodes edges = some order := by
  obtain ⟨degree, hinv⟩ := sort_spec hto hnodup
  have hall : ∀ n, n ∈ nodes → degree n = 0 := by
    intro n
    induction n using hwf.induction with
    | _ n ih =>
      intro _
      rw [hinv.degree, countP_eq_zero]
      intro e he
      simp only [decide_eq_true_eq, not_and]
      rintro rfl
      have hmem := (hinv.mem e.1).mpr ⟨hfrom e he, ih e.1 he (hfrom e he)⟩
      simpa using hmem
  exact ⟨_, if_pos (hinv.perm hnodup hall).length_eq⟩

end Rag3db.Library.Kahn
