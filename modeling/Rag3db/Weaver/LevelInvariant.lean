import Rag3db.Library.Fallible
import Rag3db.Weaver.LevelExecutor

open List Option Function

namespace Rag3db.Weaver

open Library.Schedule LevelState DataflowGraph

namespace LevelState

variable {V : Type} {M : Merge V} {g : DataflowGraph V} {init : Initial V} {s s' : LevelState V} {n m : Node V}
  {es : List Edge} {given : Ended V} {prepared : String → Bool} {inputs outputs : Ports V}

def value (s : LevelState V) (k : PortKey) : Option V := (s.ended k.1).bind fun o => o.outputs k.2

def readers (g : DataflowGraph V) (consumed : String → Bool) (k : PortKey) : Nat :=
  g.edges.countP fun e => e.key = k ∧ !consumed e.toNode

/-- The books of a run: what is available, what is kept and for how many
readers. `prepared` are the nodes that have read their inputs but not ended,
`given` those that had ended before the run. What only they read may be kept. -/
structure Books (g : DataflowGraph V) (init : Initial V) (given : Ended V) (prepared : String → Bool)
    (s : LevelState V) : Prop where
  available : ∀ k, s.available k = (s.value k).isSome
  remaining : ∀ k, (s.completed k.1 → (s.value k).isSome) →
    s.remaining k = readers g (fun m => s.completed m || prepared m) k
  portData : ∀ k, (s.portData k = if (g.edges.any fun e => e.key = k) ∧ s.remaining k = 0 then none else s.value k) ∨
    s.portData k = s.value k ∧ ∃ e ∈ g.edges, e.key = k ∧ (given e.toNode).isSome
  initial : ∀ m, s.completed m = false → prepared m = false → s.initial m = init m
  closed : ∀ m, s.completed m || prepared m → given m = none → ∀ e ∈ g.into m, s.completed e.fromNode

/-- Every node that has ended did so as its producers, which had ended before,
made it. -/
structure Settled (M : Merge V) (g : DataflowGraph V) (init : Initial V) (given : Ended V)
    (s : LevelState V) : Prop where
  mem : ∀ name, s.completed name → name ∈ g.names
  consistent : Consistent g.needs (levelRule M g init) given s.ended
  fine : ∀ name o, s.ended name = some o → o.isFailed = false
  kept : ∀ name o, given name = some o → s.ended name = some o

theorem remaining_release (s : LevelState V) (k k' : PortKey) :
    (s.release k).remaining k' = s.remaining k' - if k = k' then 1 else 0 := by
  by_cases hk : k = k'
  · subst hk; simp [release]
  · simp [release, hk, Ne.symm hk]

theorem portData_release (s : LevelState V) (k k' : PortKey) :
    (s.release k).portData k' = if k = k' ∧ s.remaining k' ≤ 1 then none else s.portData k' := by
  by_cases hk : k = k'
  · subst hk
    by_cases hz : s.remaining k - 1 = 0
    · simp [release, show s.remaining k ≤ 1 by omega]
    · simp [release, hz, show ¬ s.remaining k ≤ 1 by omega]
  · unfold release
    dsimp only
    split_ifs <;> simp_all [Ne.symm hk]

theorem remaining_releases (s : LevelState V) (k : PortKey) :
    (es.foldl (fun s e => s.release e.key) s).remaining k = s.remaining k - es.countP fun e => e.key = k := by
  induction es generalizing s with
  | nil => rfl
  | cons e es ih =>
    rw [foldl_cons, ih, countP_cons, remaining_release]
    simp only [decide_eq_true_eq]
    omega

theorem portData_releases (s : LevelState V) (k : PortKey) : (es.foldl (fun s e => s.release e.key) s).portData k =
      if 0 < (es.countP fun e => e.key = k) ∧ s.remaining k ≤ (es.countP fun e => e.key = k) then none
      else s.portData k := by
  induction es generalizing s with
  | nil => simp
  | cons e es ih =>
    rw [foldl_cons, ih, countP_cons, remaining_release, portData_release]
    by_cases hk : e.key = k
    · simp only [hk, decide_true, true_and]
      split_ifs <;> first | rfl | omega
    · simp [hk]

theorem releases_frame (s : LevelState V) : (es.foldl (fun s e => s.release e.key) s).available = s.available ∧
      (es.foldl (fun s e => s.release e.key) s).initial = s.initial ∧
      (es.foldl (fun s e => s.release e.key) s).ended = s.ended := by
  induction es generalizing s with
  | nil => exact ⟨rfl, rfl, rfl⟩
  | cons e es ih => exact ih (s.release e.key)

variable {consumed : String → Bool} {name : String}

theorem readers_consume (h : consumed name = false) (k : PortKey) :
    readers g consumed k =
      readers g (fun m => consumed m || m == name) k + (g.into name).countP fun e => e.key = k := by
  unfold readers into
  generalize g.edges = edges
  induction edges with
  | nil => rfl
  | cons e es ih =>
    rw [countP_cons, countP_cons, ih]
    by_cases hn : e.toNode = name
    · by_cases hk : e.key = k
      · simp [hn, hk, h]
        omega
      · simp [hn, hk]
    · by_cases hk : e.key = k
      · cases hc : consumed e.toNode <;> simp [hn, hc]
        omega
      · simp [hn, hk]

theorem le_readers (h : consumed name = false) (k : PortKey) :
    ((g.into name).countP fun e => e.key = k) ≤ readers g consumed k := by
  rw [readers_consume h k]
  omega

theorem countP_into_eq_zero {k : PortKey} (hclosed : ∀ e ∈ g.into name, s.completed e.fromNode)
    (hk : s.completed k.1 = false) : ((g.into name).countP fun e => e.key = k) = 0 := by
  refine countP_eq_zero.mpr fun e he hek => ?_
  have hfrom : e.fromNode = k.1 := congrArg Prod.fst (of_decide_eq_true hek)
  rw [← hfrom, hclosed e he] at hk
  cases hk

theorem completed_congr (hended : s'.ended = s.ended) : s'.completed = s.completed := by
  unfold completed
  rw [hended]

/-- A node that reads its inputs, or gives up on them, takes its edges out of
the books. `c` counts what it releases: all its edges on which something came. -/
theorem Books.consume (h : Books g init given prepared s) (hn : s.completed n.name = false)
    (hp : prepared n.name = false)
    (hclosed : ∀ e ∈ g.into n.name, s.completed e.fromNode) {c : PortKey → Nat}
    (hc : ∀ k, c k ≤ (g.into n.name).countP fun e => e.key = k)
    (hsome : ∀ k, (s.value k).isSome → c k = (g.into n.name).countP fun e => e.key = k)
    (hended : s'.ended = s.ended) (havailable : s'.available = s.available)
    (hinitial : ∀ m, m ≠ n.name → s'.initial m = s.initial m)
    (hremaining : ∀ k, s'.remaining k = s.remaining k - c k)
    (hdata : ∀ k, s'.portData k = if 0 < c k ∧ s.remaining k ≤ c k then none else s.portData k) :
    Books g init given (fun m => prepared m || m == n.name) s' := by
  have hvalue : s'.value = s.value := by unfold value; rw [hended]
  have hcompleted := completed_congr hended
  have hassoc : (fun m => s.completed m || (prepared m || m == n.name)) =
      fun m => (s.completed m || prepared m) || m == n.name := by
    funext m
    rw [Bool.or_assoc]
  have hcount : ∀ k, (s.completed k.1 → (s.value k).isSome) → c k = (g.into n.name).countP fun e => e.key = k := by
    intro k hk
    cases hck : s.completed k.1 with
    | true => exact hsome k (hk hck)
    | false =>
      have hzero := countP_into_eq_zero hclosed hck
      have hle := hc k
      omega
  have hreaders := fun k => @readers_consume V g (fun m => s.completed m || prepared m) n.name (by simp [hn, hp]) k
  refine ⟨fun k => by rw [havailable, hvalue, h.available], fun k hk => ?_, fun k => ?_, fun m hm hpm => ?_,
    fun m hm hgiven e he => ?_⟩
  · rw [hvalue, hcompleted] at hk
    rw [hcompleted, hremaining, h.remaining k hk, hassoc, hreaders, hcount k hk]
    omega
  · rw [hdata, hremaining, hvalue]
    rcases h.portData k with hold | ⟨hold, e, he, hek, hgiven⟩
    · refine .inl ?_
      rw [hold]
      cases hv : s.value k with
      | none => simp
      | some x =>
        have hck := hsome k (by rw [hv]; rfl)
        by_cases hz : c k = 0
        · simp [hz]
        · have hedge : (g.edges.any fun e => e.key = k) = true := by
            obtain ⟨e, he, hek⟩ := countP_pos_iff.mp (Nat.pos_of_ne_zero (hck ▸ hz))
            exact any_eq_true.mpr ⟨e, mem_of_mem_filter he, hek⟩
          by_cases hlast : s.remaining k ≤ c k
          · simp [hedge, hlast, Nat.pos_of_ne_zero hz]
          · simp only [hlast, and_false, if_false]
            rw [if_neg (by omega), if_neg (by omega)]
    · -- a value that a given node has read is kept until another reads it last
      by_cases hlast : 0 < c k ∧ s.remaining k ≤ c k
      · have hedge : (g.edges.any fun e => e.key = k) = true := any_eq_true.mpr ⟨e, he, by simpa using hek⟩
        refine .inl ?_
        rw [if_pos hlast, if_pos ⟨hedge, by omega⟩]
      · exact .inr ⟨by rw [if_neg hlast, hold], e, he, hek, hgiven⟩
  · rw [hcompleted] at hm
    obtain ⟨hpm, hne⟩ := Bool.or_eq_false_iff.mp hpm
    rw [hinitial m (by simpa using hne), h.initial m hm hpm]
  · rw [hcompleted] at hm ⊢
    rcases (by simpa using hm : s.completed m = true ∨ prepared m = true ∨ m = n.name) with hm | hm | rfl
    · exact h.closed m (by simp [hm]) hgiven e he
    · exact h.closed m (by simp [hm]) hgiven e he
    · exact hclosed e he

variable {o : Outcome V} {reason : String}

theorem completed_update (hended : s'.ended = update s.ended n.name (some o)) (m : String) :
    s'.completed m = (s.completed m || m == n.name) := by
  unfold completed
  rw [hended]
  by_cases hm : m = n.name <;> simp [hm]

theorem Books.finish (h : Books g init given prepared s) (hn : s.completed n.name = false)
    (hp : prepared n.name) (hended : s'.ended = update s.ended n.name (some o))
    (havailable : ∀ k, s'.available k = (s.available k || (k.1 == n.name && (o.outputs k.2).isSome)))
    (hinitial : s'.initial = s.initial) (hremaining : s'.remaining = s.remaining)
    (hdata : ∀ k, s'.portData k = if k.1 = n.name then (o.outputs k.2).or (s.portData k) else s.portData k) :
    Books g init given (fun m => prepared m && m != n.name) s' := by
  have hcompleted := completed_update hended
  have hown : ∀ k : PortKey, k.1 = n.name → s.value k = none := fun k hk => by
    have : s.ended n.name = none := by simpa [completed] using hn
    simp [value, hk, this]
  have hvalue : ∀ k : PortKey, s'.value k = if k.1 = n.name then o.outputs k.2 else s.value k := fun k => by
    unfold value
    rw [hended]
    by_cases hk : k.1 = n.name <;> simp [hk]
  have hconsumed : (fun m => s'.completed m || (prepared m && m != n.name)) = fun m => s.completed m || prepared m := by
    funext m
    rw [hcompleted]
    by_cases hm : m = n.name
    · simp [hm, hp]
    · simp [beq_false_of_ne hm, bne_iff_ne.mpr hm]
  -- no reader of the node has read, it waits for the node to end, unless it had read before the run
  have hall : ∀ k : PortKey, k.1 = n.name → (g.edges.any fun e => e.key = k) → s.remaining k = 0 →
      ∃ e ∈ g.edges, e.key = k ∧ (given e.toNode).isSome := by
    intro k hk hedge hzero
    obtain ⟨e, he, hek⟩ := any_eq_true.mp hedge
    have hkey : e.key = k := of_decide_eq_true hek
    refine ⟨e, he, hkey, ?_⟩
    by_contra hgiven
    rw [not_isSome_iff_eq_none] at hgiven
    rw [h.remaining k fun hck => by rw [hk, hn] at hck; cases hck] at hzero
    have hto : (s.completed e.toNode || prepared e.toNode) = true := by
      cases hc : s.completed e.toNode || prepared e.toNode with
      | true => rfl
      | false =>
        have hnot := countP_eq_zero.mp hzero e he
        simp only [hkey, hc] at hnot
        simp at hnot
    have hfrom := h.closed e.toNode hto hgiven e (mem_into.mpr ⟨he, rfl⟩)
    have : e.fromNode = n.name := (congrArg Prod.fst hkey).trans hk
    rw [this, hn] at hfrom
    cases hfrom
  refine ⟨fun k => ?_, fun k hk => ?_, fun k => ?_, fun m hm hpm => ?_, fun m hm hgiven e he => ?_⟩
  · rw [havailable, h.available, hvalue]
    by_cases hk : k.1 = n.name
    · simp [hk, hown k hk]
    · simp [hk]
  · rw [hremaining, hconsumed]
    refine h.remaining k fun hck => ?_
    have hne : k.1 ≠ n.name := fun hk => by rw [hk, hn] at hck; cases hck
    rw [hvalue, if_neg hne] at hk
    exact hk (by rw [hcompleted, hck, Bool.true_or])
  · rw [hdata, hvalue, hremaining]
    by_cases hk : k.1 = n.name
    · have hold : s.portData k = none := by
        rcases h.portData k with hold | ⟨hold, -⟩
        · rw [hold, hown k hk, ite_self]
        · rw [hold, hown k hk]
      rw [hold, or_none]
      split_ifs with hz
      · exact .inr ⟨rfl, hall k hk hz.1 hz.2⟩
      · exact .inl rfl
    · rw [if_neg hk, if_neg hk]
      exact h.portData k
  · rw [hcompleted, Bool.or_eq_false_iff] at hm
    rw [hinitial]
    exact h.initial m hm.1 (by simpa [show (m != n.name) = true by simpa using hm.2] using hpm)
  · rw [hcompleted, h.closed m (by rw [← congrFun hconsumed m]; exact hm) hgiven e he, Bool.true_or]

theorem Settled.finish (h : Settled M g init given s) (hn : n ∈ g.nodes) (hnew : s.completed n.name = false)
    (hclosed : ∀ e ∈ g.into n.name, s.completed e.fromNode)
    (ho : o = levelOutcome M g init s.ended n) (hok : o.isFailed = false)
    (hended : s'.ended = update s.ended n.name (some o)) : Settled M g init given s' := by
  have hnone : s.ended n.name = none := by simpa [completed] using hnew
  have hgiven : given n.name = none := by
    by_contra hsome
    obtain ⟨o', ho'⟩ := ne_none_iff_exists'.mp hsome
    rw [h.kept _ _ ho'] at hnone
    cases hnone
  refine ⟨fun name hname => ?_, h.consistent.extend local_levelRule hnone hgiven (fun j hj => ?_) ?_ hended,
    fun name o' ho' => ?_, fun name o' ho' => ?_⟩
  · by_cases hne : name = n.name
    · exact hne ▸ mem_map_of_mem hn
    · refine h.mem name ?_
      rwa [completed, hended, update_of_ne hne] at hname
  · obtain ⟨e, he, rfl, hto⟩ := hj
    exact hclosed e (mem_into.mpr ⟨he, hto⟩)
  · rw [ho, levelRule, byName_name hn]
  · by_cases hne : name = n.name
    · rw [hended, hne, update_self] at ho'
      cases ho'
      exact hok
    · rw [hended, update_of_ne hne] at ho'
      exact h.fine name o' ho'
  · have hne : name ≠ n.name := by
      rintro rfl
      rw [hgiven] at ho'
      cases ho'
    rw [hended, update_of_ne hne]
    exact h.kept name o' ho'

theorem Settled.congr (h : Settled M g init given s) (hended : s'.ended = s.ended) : Settled M g init given s' := by
  exact ⟨completed_congr hended ▸ h.mem, hended ▸ h.consistent, hended ▸ h.fine, hended ▸ h.kept⟩

theorem takes_eq {acc : List (String × V)} (hdata : ∀ e ∈ es, s.portData e.key = s.value e.key)
    (hle : ∀ e ∈ es, (s.value e.key).isSome → (es.countP fun e' => e'.key = e.key) ≤ s.remaining e.key) :
    es.foldl take (s, acc) = ((es.filter fun e => (s.value e.key).isSome).foldl (fun s e => s.release e.key) s,
        acc ++ es.filterMap fun e => (s.value e.key).map fun x => (e.toPort, x)) := by
  induction es generalizing s acc with
  | nil => simp
  | cons e es ih =>
    have hhead := hdata e mem_cons_self
    cases hv : s.value e.key with
    | none =>
      have htake : take (s, acc) e = (s, acc) := by simp [take, hhead, hv]
      rw [foldl_cons, htake, ih (fun e' he' => hdata e' (mem_cons_of_mem _ he')) fun e' he' hs => ?_]
      · simp [hv]
      · have := hle e' (mem_cons_of_mem _ he') hs
        rw [countP_cons] at this
        omega
    | some x =>
      have htake : take (s, acc) e = (s.release e.key, acc ++ [(e.toPort, x)]) := by simp [take, hhead, hv]
      have hcount := hle e mem_cons_self (by rw [hv]; rfl)
      rw [countP_cons] at hcount
      simp only [decide_true, if_true] at hcount
      have hvalue : (s.release e.key).value = s.value := rfl
      rw [foldl_cons, htake, ih (fun e' he' => ?_) fun e' he' hs => ?_, hvalue]
      · simp [hv]
      · rw [portData_release, hdata e' (mem_cons_of_mem _ he')]
        refine if_neg fun ⟨hk, hone⟩ => ?_
        rw [← hk] at hone
        have hpos : 0 < es.countP fun e'' => e''.key = e.key :=
          countP_pos_iff.mpr ⟨e', he', by simpa using hk.symm⟩
        omega
      · have := hle e' (mem_cons_of_mem _ he') hs
        rw [countP_cons] at this
        rw [remaining_release]
        by_cases hk : e.key = e'.key
        · simp only [hk, decide_true] at this ⊢
          omega
        · simpa [hk] using this

theorem arrived_eq (port : String) :
    (((g.into n.name).filterMap fun e => (s.value e.key).map fun x => (e.toPort, x)).filter
      fun p => p.1 = port).map (·.2) = g.arrived s.ended n port := by
  unfold arrived incoming
  generalize g.into n.name = es
  induction es with
  | nil => rfl
  | cons e es ih =>
    have hvalue : ((s.ended e.fromNode).bind fun o => o.outputs e.fromPort) = s.value e.key := rfl
    cases hv : s.value e.key with
    | none | some x => by_cases hp : e.toPort = port <;> simp [hp, hvalue, hv, ← ih]

theorem countP_filter_value (k : PortKey) : ((es.filter fun e => (s.value e.key).isSome).countP fun e => e.key = k) =
      if (s.value k).isSome then es.countP fun e => e.key = k else 0 := by
  rw [countP_filter]
  split_ifs with hv
  · refine countP_congr fun e _ => ?_
    by_cases hk : e.key = k <;> simp [hk, hv]
  · refine countP_eq_zero.mpr fun e _ he => hv ?_
    simp only [Bool.and_eq_true, decide_eq_true_eq] at he
    exact he.1 ▸ he.2

section Reading

variable (h : Books g init given prepared s) (hn : s.completed n.name = false) (hp : prepared n.name = false)
  (hclosed : ∀ e ∈ g.into n.name, s.completed e.fromNode)
include h hn hp

variable {e : Edge}

theorem Books.count_le_remaining (hv : (s.value e.key).isSome) :
    ((g.into n.name).countP fun e' => e'.key = e.key) ≤ s.remaining e.key := by
  rw [h.remaining e.key fun _ => hv]
  exact le_readers (by simp [hn, hp]) _

theorem Books.portData_into (he : e ∈ g.into n.name) : s.portData e.key = s.value e.key := by
  rcases h.portData e.key with hdata | ⟨hdata, -⟩
  · rw [hdata]
    cases hv : s.value e.key with
    | none => exact ite_self _
    | some x =>
      have hle := h.count_le_remaining hn hp (by rw [hv]; rfl)
      have hpos : 0 < (g.into n.name).countP fun e' => e'.key = e.key :=
        countP_pos_iff.mpr ⟨e, he, by simp⟩
      exact if_neg fun hz => by omega
  · exact hdata

include hclosed

theorem Books.prepare : (s.prepare M g n).2 = levelInputs M g init s.ended n ∧ (s.prepare M g n).1.ended = s.ended ∧
      Books g init given (fun m => prepared m || m == n.name) (s.prepare M g n).1 := by
  have htakes := @takes_eq V s (g.into n.name) [] (fun e he => h.portData_into hn hp he)
    fun e _ hv => h.count_le_remaining hn hp hv
  have hframe := @releases_frame V ((g.into n.name).filter fun e => (s.value e.key).isSome) s
  unfold LevelState.prepare
  rw [htakes]
  dsimp only
  refine ⟨funext fun port => ?_, hframe.2.2, ?_⟩
  · rw [nil_append, arrived_eq, hframe.2.1, h.initial n.name hn hp]
    rfl
  · refine h.consume
      hn hp hclosed (fun k => ?_) (fun k hk => ?_) hframe.2.2 hframe.1 (fun m hm => ?_) (remaining_releases s)
      (portData_releases s)
    · exact filter_sublist.countP_le
    · rw [countP_filter_value, if_pos hk]
    · dsimp only
      rw [update_of_ne hm, hframe.2.1]

theorem Books.skip : Books g init given prepared (s.skip g n reason) := by
  have hframe := @releases_frame V (g.into n.name) s
  have hconsumed := h.consume hn hp hclosed
    (fun k => Nat.le_refl _) (fun k _ => rfl) hframe.2.2 hframe.1 (fun m _ => by rw [hframe.2.1])
    (remaining_releases s) (portData_releases s)
  have hsame : (fun m => (prepared m || m == n.name) && m != n.name) = prepared := by
    funext m
    by_cases hm : m = n.name
    · simp [hm, hp]
    · simp [beq_false_of_ne hm, bne_iff_ne.mpr hm]
  rw [← hsame]
  refine hconsumed.finish (o := .skipped reason) ?_ (by simp) ?_ (fun k => ?_) rfl rfl fun k => ?_
  · rwa [completed, hframe.2.2]
  · rfl
  · simp [LevelState.skip, Outcome.outputs]
  · simp [LevelState.skip, Outcome.outputs]

end Reading

/-- Between two levels no node is under way. -/
structure Quiet (M : Merge V) (g : DataflowGraph V) (init : Initial V) (given : Ended V)
    (s : LevelState V) : Prop where
  books : Books g init given (fun _ => false) s
  settled : Settled M g init given s

theorem Quiet.start : Quiet M g init (fun _ => none) (start g init) where
  books := by
    refine ⟨fun k => rfl, fun k _ => ?_, fun k => ?_, fun m _ _ => rfl, fun m hm => ?_⟩
    · simp [LevelState.start, readers, completed]
    · simp [LevelState.start, value]
    · simp [LevelState.start, completed] at hm
  settled := by
    refine ⟨fun name hname => ?_, fun name o ho => ?_, fun name o ho => ?_, fun name o ho => ?_⟩
    · simp [LevelState.start, completed] at hname
    · simp [LevelState.start] at ho
    · simp [LevelState.start] at ho
    · cases ho

theorem Books.hasData_eq (h : Books g init given prepared s) (input : PortDef) :
    s.hasData g n input = !(g.arrived s.ended n input.name).isEmpty := by
  unfold hasData arrived
  generalize g.incoming n.name input.name = es
  induction es with
  | nil => rfl
  | cons e es ih =>
    rw [any_cons, ih, h.available]
    have hvalue : ((s.ended e.fromNode).bind fun o => o.outputs e.fromPort) = s.value e.key := rfl
    cases hv : s.value e.key with
    | none => simp [hvalue, hv]
    | some x => simp [hvalue, hv]

section Missing

variable (h : Books g init given prepared s) (hn : s.completed n.name = false) (hp : prepared n.name = false)
include h hn hp

theorem Books.missing_eq (input : PortDef) :
    (!(g.incoming n.name input.name).isEmpty && input.required && !s.hasData g n input && !s.hasInitial n input) =
      g.missing init s.ended n input := by
  rw [h.hasData_eq, hasInitial, h.initial n.name hn hp, missing, Bool.not_not,
    not_isSome, Bool.and_comm (!_) input.required]

theorem Books.skipReason_eq_some (hnode : n ∈ g.nodes) (hr : s.skipReason g n = some reason) :
    (∀ e ∈ g.into n.name, s.completed e.fromNode) ∧ levelOutcome M g init s.ended n = .skipped reason := by
  unfold skipReason at hr
  split_ifs at hr with hfin
  obtain ⟨input, hinput, rfl⟩ := map_eq_some_iff.mp hr
  refine ⟨(forall_into_iff hnode).mpr fun input hi e he => ?_, ?_⟩
  · exact all_eq_true.mp (all_eq_true.mp hfin input hi) e he
  · have hfind : n.inputs.find? (g.missing init s.ended n) = some input := by
      rw [← hinput]
      congr 1
      funext input
      exact (h.missing_eq hn hp input).symm
    rw [levelOutcome, hfind]

theorem Books.skipReason_eq_none (hnode : n ∈ g.nodes) (hr : s.skipReason g n = none)
    (hclosed : ∀ e ∈ g.into n.name, s.completed e.fromNode) : n.inputs.find? (g.missing init s.ended n) = none := by
  unfold skipReason at hr
  have hfin : (n.inputs.all fun input => s.producersFinished g n input) = true :=
    all_eq_true.mpr fun input hi => all_eq_true.mpr fun e he =>
      (forall_into_iff hnode).mp hclosed input hi e he
  rw [if_pos hfin, map_eq_none_iff] at hr
  rw [← hr]
  congr 1
  funext input
  exact (h.missing_eq hn hp input).symm

end Missing

/-- A node that can end, and how. -/
structure Pending (M : Merge V) (g : DataflowGraph V) (init : Initial V) (s : LevelState V) (n : Node V)
    (o : Outcome V) : Prop where
  mem : n ∈ g.nodes
  new : s.completed n.name = false
  closed : ∀ e ∈ g.into n.name, s.completed e.fromNode
  outcome : levelOutcome M g init s.ended n = o

variable {o' : Outcome V}

theorem Pending.ended_into (h : Pending M g init s n o) (hm : s.completed m.name = false)
    (hended : s'.ended = update s.ended m.name (some o')) {e : Edge} (he : e ∈ g.into n.name) :
    s'.ended e.fromNode = s.ended e.fromNode := by
  refine (congrFun hended _).trans (update_of_ne (fun hem => ?_) _ _)
  have := h.closed e he
  rw [hem, hm] at this
  cases this

theorem Pending.other (h : Pending M g init s n o) (hm : s.completed m.name = false)
    (hne : n.name ≠ m.name) (hended : s'.ended = update s.ended m.name (some o')) :
    Pending M g init s' n o := by
  have hsame := fun e he => h.ended_into hm hended (e := e) he
  refine ⟨h.mem, ?_, fun e he => ?_, ?_⟩
  · have := h.new
    rwa [completed, hended, update_of_ne hne]
  · rw [completed, hsame e he]
    exact h.closed e he
  · rw [← h.outcome]
    exact levelOutcome_congr (arrived_congr fun e he => by rw [hsame e he])

theorem Pending.congr (h : Pending M g init s n o) (hended : s'.ended = s.ended) : Pending M g init s' n o := by
  exact ⟨h.mem, completed_congr hended ▸ h.new, completed_congr hended ▸ h.closed, hended ▸ h.outcome⟩

theorem skip_ended (s : LevelState V) (n : Node V) (reason : String) :
    (s.skip g n reason).ended = update s.ended n.name (some (.skipped reason)) := by
  rw [skip, ← (@releases_frame V (g.into n.name) s).2.2]

theorem Quiet.skip (h : Quiet M g init given s) (hn : Pending M g init s n (.skipped reason)) :
    Quiet M g init given (s.skip g n reason) where
  books := h.books.skip hn.new rfl hn.closed
  settled := h.settled.finish hn.mem hn.new hn.closed hn.outcome.symm rfl (skip_ended s n reason)

/-- Each turn ends nodes that had not ended, after all their producers. -/
inductive Leads (g : DataflowGraph V) : LevelState V → List (List String) → LevelState V → Prop
  | refl {s : LevelState V} : Leads g s [] s
  | turn {s s₁ s' : LevelState V} {t : List String} {turns : List (List String)} (hnodup : t.Nodup)
    (hpending : ∀ m ∈ t, s.completed m = false ∧ ∀ e ∈ g.into m, s.completed e.fromNode)
    (hcompleted : ∀ m, s₁.completed m = (s.completed m || t.contains m)) (hrest : Leads g s₁ turns s') :
    Leads g s (t :: turns) s'

variable {s₁ : LevelState V} {turns turns' : List (List String)}

theorem Leads.trans (h : Leads g s turns s₁) (h' : Leads g s₁ turns' s') : Leads g s (turns ++ turns') s' := by
  induction h with
  | refl => exact h'
  | turn hnodup hpending hcompleted _ ih => exact .turn hnodup hpending hcompleted (ih h')

theorem Leads.completed_eq (h : Leads g s turns s') (m : String) :
    s'.completed m = (s.completed m || turns.flatten.contains m) := by
  induction h with
  | refl => simp
  | turn _ _ hcompleted _ ih => rw [ih, hcompleted, flatten_cons, contains_append, Bool.or_assoc]

theorem Leads.mono (h : Leads g s turns s') (m : String) (hm : s.completed m) : s'.completed m := by
  rw [h.completed_eq, hm, Bool.true_or]

theorem Leads.once (h : Leads g s turns s') : turns.flatten.Nodup ∧ ∀ m ∈ turns.flatten, s.completed m = false := by
  induction h with
  | refl => simp
  | @turn s _ _ t turns hnodup hpending hcompleted _ ih =>
    have hlater : ∀ m ∈ turns.flatten, s.completed m = false ∧ m ∉ t := fun m hm => by
      simpa [hcompleted] using ih.2 m hm
    refine ⟨nodup_append.mpr ⟨hnodup, ih.1, fun a ha b hb hab => (hlater b hb).2 (hab ▸ ha)⟩, fun m hm => ?_⟩
    exact (mem_append.mp hm).elim (fun hm => (hpending m hm).1) fun hm => (hlater m hm).1

theorem Leads.closed (h : Leads g s turns s') {before after : List (List String)} {t : List String}
    (hturns : turns = before ++ t :: after) {e : Edge} (he : e ∈ g.edges) (hto : e.toNode ∈ t) :
    s.completed e.fromNode ∨ e.fromNode ∈ before.flatten := by
  induction h generalizing before with
  | refl => simp at hturns
  | turn _ hpending hcompleted _ ih =>
    cases before with
    | nil =>
      cases hturns
      exact .inl ((hpending _ hto).2 e (mem_into.mpr ⟨he, rfl⟩))
    | cons b before =>
      cases hturns
      rcases ih rfl with hdone | hin
      · rw [hcompleted, Bool.or_eq_true] at hdone
        exact hdone.imp_right fun hb => mem_append_left _ (contains_iff_mem.mp hb)
      · exact .inr (mem_append_right _ hin)

theorem Quiet.skips {skips : List (Node V × String)} (h : Quiet M g init given s)
    (hnodup : (skips.map fun p => p.1.name).Nodup)
    (hskips : ∀ p ∈ skips, Pending M g init s p.1 (.skipped p.2)) :
    Quiet M g init given (skips.foldl (fun s p => s.skip g p.1 p.2) s) ∧
      ∀ m, (skips.foldl (fun s p => s.skip g p.1 p.2) s).completed m =
        (s.completed m || (skips.map fun p => p.1.name).contains m) := by
  induction skips generalizing s with
  | nil => exact ⟨h, fun m => by simp⟩
  | cons p skips ih =>
    obtain ⟨hhead, hrest⟩ := forall_mem_cons.mp hskips
    rw [map_cons, nodup_cons] at hnodup
    obtain ⟨hquiet, hcompleted⟩ := ih (h.skip hhead) hnodup.2 fun q hq => by
      refine (hrest q hq).other hhead.new (fun hqp => hnodup.1 ?_) (skip_ended s p.1 p.2)
      exact mem_map.mpr ⟨q, hq, hqp⟩
    refine ⟨hquiet, fun m => ?_⟩
    rw [foldl_cons, hcompleted, completed_update (skip_ended s p.1 p.2), map_cons, contains_cons, Bool.or_assoc]

def waiting (order : List (Node V)) (s : LevelState V) : Nat := order.countP fun n => !s.completed n.name

variable {order : List (Node V)} {fuel : Nat}

theorem waiting_lt (hmono : ∀ m, s.completed m → s'.completed m) (hn : n ∈ order) (hold : s.completed n.name = false)
    (hnew : s'.completed n.name = true) : waiting order s' < waiting order s := by
  have hle : ∀ l : List (Node V), waiting l s' ≤ waiting l s := fun l =>
    countP_mono_left fun m _ hm => by
      cases hs : s.completed m.name with
      | false => rfl
      | true => simp [hmono _ hs] at hm
  obtain ⟨before, after, rfl⟩ := append_of_mem hn
  have hbefore := hle before
  have hafter := hle after
  simp only [waiting, countP_append, countP_cons, hold, hnew] at hbefore hafter ⊢
  simp
  omega

theorem names_sublist (f : Node V → Option String) (l : List (Node V)) :
    ((l.filterMap fun n => (f n).map fun r => (n, r)).map fun p => p.1.name).Sublist (l.map (·.name)) := by
  induction l with
  | nil => exact List.Sublist.slnil
  | cons n l ih =>
    rw [filterMap_cons]
    cases f n with
    | none => exact ih.cons _
    | some r => exact ih.cons_cons _

section Order

variable {order : List (Node V)} (hperm : order.Perm g.nodes)
include hperm

theorem order_nodup : (order.map (·.name)).Nodup := (hperm.map _).nodup_iff.mpr g.nodup

theorem Quiet.toSkip (h : Quiet M g init given s) : ((s.toSkip g order).map fun p => p.1.name).Nodup ∧
      ∀ p ∈ s.toSkip g order, p.1 ∈ order ∧ Pending M g init s p.1 (.skipped p.2) := by
  constructor
  · have hsub : ((s.toSkip g order).map fun p => p.1.name).Sublist (order.map (·.name)) :=
      (names_sublist _ _).trans (filter_sublist.map _)
    exact hsub.nodup (order_nodup hperm)
  · intro p hp
    obtain ⟨n, hn, hr⟩ := mem_filterMap.mp hp
    obtain ⟨reason, hreason, rfl⟩ := map_eq_some_iff.mp hr
    obtain ⟨hn, hnew⟩ := mem_filter.mp hn
    have hnew : s.completed n.name = false := by simpa using hnew
    have hnode := hperm.mem_iff.mp hn
    obtain ⟨hclosed, hout⟩ := h.books.skipReason_eq_some hnew rfl hnode hreason
    exact ⟨hn, hnode, hnew, hclosed, hout⟩

theorem Quiet.skipUntilFixpoint (h : Quiet M g init given s) (hfuel : waiting order s < fuel) :
    Quiet M g init given (skipUntilFixpoint g order fuel s) ∧ (skipUntilFixpoint g order fuel s).toSkip g order = [] ∧
      Leads g s (skipTurns g order fuel s) (skipUntilFixpoint g order fuel s) := by
  induction fuel generalizing s with
  | zero => omega
  | succ fuel ih =>
    unfold skipUntilFixpoint skipTurns
    cases hskips : s.toSkip g order with
    | nil => exact ⟨h, hskips, .refl⟩
    | cons p skips =>
      obtain ⟨hnodup, hpending⟩ := h.toSkip hperm
      rw [hskips] at hnodup hpending
      obtain ⟨hquiet, hcompleted⟩ := h.skips hnodup fun q hq => (hpending q hq).2
      have hmono : ∀ m, s.completed m →
          ((p :: skips).foldl (fun s p => s.skip g p.1 p.2) s).completed m := fun m hm => by
        rw [hcompleted, hm, Bool.true_or]
      obtain ⟨hp, hhead⟩ := hpending p mem_cons_self
      have hlt := waiting_lt hmono hp hhead.new (by rw [hcompleted]; simp)
      obtain ⟨hq, hnone, hleads⟩ := ih hquiet (by omega)
      refine ⟨hq, hnone, .turn hnodup (fun m hm => ?_) hcompleted hleads⟩
      obtain ⟨q, hq, rfl⟩ := mem_map.mp hm
      exact ⟨(hpending q hq).2.new, (hpending q hq).2.closed⟩

theorem Quiet.ready (h : Quiet M g init given s) (hn : n ∈ s.ready g order) : n ∈ order ∧ Pending M g init s n
      (.ofResult (levelInputs M g init s.ended n) (n.run (levelInputs M g init s.ended n))) := by
  obtain ⟨hn, hready⟩ := mem_filter.mp hn
  obtain ⟨hn, hnew⟩ := mem_filter.mp hn
  have hnew : s.completed n.name = false := by simpa using hnew
  have hnode := hperm.mem_iff.mp hn
  have hinput : ∀ input ∈ n.inputs, s.producersFinished g n input ∧ g.missing init s.ended n input = false := by
    intro input hi
    have hr := all_eq_true.mp hready input hi
    rw [← h.books.missing_eq hnew rfl]
    unfold inputReady at hr
    split_ifs at hr with hempty
    · have hnil := isEmpty_iff.mp hempty
      exact ⟨by simp [producersFinished, hnil], by simp [hempty]⟩
    · obtain ⟨hfin, hdata⟩ := Bool.and_eq_true_iff.mp hr
      refine ⟨hfin, ?_⟩
      cases hreq : input.required with
      | false => simp
      | true =>
        cases hd : s.hasData g n input with
        | true => simp
        | false =>
          have hinit : s.hasInitial n input = true := by simpa [hreq, hd] using hdata
          simp [hinit]
  refine ⟨hn, hnode, hnew, (forall_into_iff hnode).mpr fun input hi e he => ?_, ?_⟩
  · exact all_eq_true.mp (hinput input hi).1 e he
  · have hnone : n.inputs.find? (g.missing init s.ended n) = none :=
      find?_eq_none.mpr fun input hi => by simp [(hinput input hi).2]
    rw [levelOutcome, hnone]

theorem ready_nodup : ((s.ready g order).map (·.name)).Nodup :=
  ((filter_sublist.trans filter_sublist).map _).nodup (order_nodup hperm)

end Order

theorem Books.prepareAll {nodes : List (Node V)} (h : Books g init given prepared s)
    (hnodup : (nodes.map (·.name)).Nodup)
    (hall : ∀ n ∈ nodes, s.completed n.name = false ∧ prepared n.name = false ∧
      ∀ e ∈ g.into n.name, s.completed e.fromNode) :
    (s.prepareAll M g nodes).2 = nodes.map (fun n => (n, levelInputs M g init s.ended n)) ∧
      (s.prepareAll M g nodes).1.ended = s.ended ∧
      Books g init given (fun m => prepared m || (nodes.map (·.name)).contains m) (s.prepareAll M g nodes).1 := by
  induction nodes generalizing s prepared with
  | nil => exact ⟨rfl, rfl, by simpa [prepareAll] using h⟩
  | cons n nodes ih =>
    obtain ⟨⟨hn, hp, hclosed⟩, hrest⟩ := forall_mem_cons.mp hall
    rw [map_cons, nodup_cons] at hnodup
    obtain ⟨hinputs, hended, hbooks⟩ := h.prepare hn hp hclosed
    have hcompleted := completed_congr hended
    obtain ⟨hlist, hended', hbooks'⟩ := ih hbooks hnodup.2 fun m hm => by
      obtain ⟨hm1, hm2, hm3⟩ := hrest m hm
      have hne : m.name ≠ n.name := fun heq => hnodup.1 (mem_map.mpr ⟨m, hm, heq⟩)
      rw [hcompleted]
      exact ⟨hm1, by simp [hm2, hne], hm3⟩
    refine ⟨?_, hended'.trans hended, ?_⟩
    · have hcons : (s.prepareAll M g (n :: nodes)).2 =
          (n, (s.prepare M g n).2) :: ((s.prepare M g n).1.prepareAll M g nodes).2 := rfl
      rw [hcons, map_cons, hlist, hinputs, hended]
    · have hset : (fun m => prepared m || ((n :: nodes).map (·.name)).contains m) =
          fun m => (prepared m || m == n.name) || (nodes.map (·.name)).contains m := by
        funext m
        rw [map_cons, contains_cons, Bool.or_assoc]
      rw [hset]
      exact hbooks'

theorem Books.store (h : Books g init given prepared s) (hn : s.completed n.name = false) (hp : prepared n.name) :
    Books g init given (fun m => prepared m && m != n.name) (s.store n inputs outputs) :=
  h.finish hn hp rfl (fun _ => rfl) rfl rfl fun _ => rfl

/-- Storing the results of a level ends its nodes, or stops at one that failed. -/
theorem Books.storeAll {results : List (Node V × Ports V)} (hb : Books g init given prepared s)
    (hs : Settled M g init given s) (hnodup : (results.map fun p => p.1.name).Nodup)
    (hall : ∀ p ∈ results, prepared p.1.name ∧ Pending M g init s p.1 (.ofResult p.2 (p.1.run p.2))) :
    (∃ s', storeAll s results = .ok s' ∧
      Books g init given (fun m => prepared m && !(results.map fun p => p.1.name).contains m) s' ∧
      Settled M g init given s' ∧
      ∀ m, s'.completed m = (s.completed m || (results.map fun p => p.1.name).contains m)) ∨
    ∃ e s' n, storeAll s results = .error e ∧ Settled M g init given s' ∧ Pending M g init s' n (.failed e) := by
  induction results generalizing s prepared with
  | nil => exact .inl ⟨s, rfl, by simpa using hb, hs, fun m => by simp⟩
  | cons p results ih =>
    obtain ⟨⟨hp, hhead⟩, hrest⟩ := forall_mem_cons.mp hall
    rw [map_cons, nodup_cons] at hnodup
    unfold storeAll
    cases hrun : p.1.run p.2 with
    | error e =>
      rw [hrun] at hhead
      exact .inr ⟨e, s, p.1, rfl, hs, hhead⟩
    | ok outputs =>
      rw [hrun] at hhead
      have hended : (s.store p.1 p.2 outputs).ended = update s.ended p.1.name (some (.ran p.2 outputs)) := rfl
      have hset : (fun m => prepared m && !((p :: results).map fun p => p.1.name).contains m) =
          fun m => (prepared m && m != p.1.name) && !(results.map fun p => p.1.name).contains m := by
        funext m
        rw [map_cons, contains_cons, Bool.not_or, Bool.and_assoc]
        rfl
      rw [hset]
      rcases ih (hb.store hhead.new hp)
        (hs.finish hhead.mem hhead.new hhead.closed hhead.outcome.symm rfl hended) hnodup.2
        (fun q hq => by
          obtain ⟨hqp, hq'⟩ := hrest q hq
          have hne : q.1.name ≠ p.1.name := fun heq => hnodup.1 (mem_map.mpr ⟨q, hq, heq⟩)
          exact ⟨by simp [hqp, hne], hq'.other hhead.new hne hended⟩) with
        ⟨s', hok, hb', hs', hcompleted⟩ | herror
      · refine .inl ⟨s', hok, hb', hs', fun m => ?_⟩
        rw [hcompleted, completed_update hended, map_cons, contains_cons, Bool.or_assoc]
      · exact .inr herror

theorem allCompleted_iff : s.allCompleted g = true ↔ ∀ n ∈ g.nodes, s.completed n.name = true := all_eq_true

/-- While a node has not ended and none is to be skipped, one is ready: the
first in the order of the edges. -/
theorem Quiet.exists_ready (h : Quiet M g init given s) (hperm : order.Perm g.nodes) (hwf : WellFounded g.needs)
    (hvalid : g.unconnected init = []) (hfix : s.toSkip g order = []) (hnot : ¬ s.allCompleted g) :
    ∃ n, n ∈ s.ready g order := by
  have hset : {name | name ∈ g.names ∧ s.completed name = false}.Nonempty := by
    by_contra hempty
    refine hnot (allCompleted_iff.mpr fun n hn => ?_)
    by_contra hc
    exact hempty ⟨n.name, mem_map_of_mem hn, by simpa using hc⟩
  obtain ⟨name, ⟨hname, hnew⟩, hmin⟩ := hwf.has_min _ hset
  obtain ⟨n, hn, rfl⟩ := mem_map.mp hname
  have hclosed : ∀ e ∈ g.into n.name, s.completed e.fromNode := by
    intro e he
    by_contra hc
    exact hmin e.fromNode ⟨g.from_mem e (mem_of_mem_filter he), by simpa using hc⟩ (needs_of_mem_into he)
  have horder := hperm.mem_iff.mpr hn
  have hreason : s.skipReason g n = none := by
    have hnone := filterMap_eq_nil_iff.mp hfix n (mem_filter.mpr ⟨horder, by simp [hnew]⟩)
    simpa using hnone
  have hmissing := h.books.skipReason_eq_none hnew rfl hn hreason hclosed
  refine ⟨n, mem_filter.mpr ⟨mem_filter.mpr ⟨horder, by simp [hnew]⟩, all_eq_true.mpr ?_⟩⟩
  intro input hi
  have hm : g.missing init s.ended n input = false := by simpa using find?_eq_none.mp hmissing input hi
  rw [← h.books.missing_eq hnew rfl] at hm
  unfold inputReady
  split_ifs with hempty
  · have hun := flatMap_eq_nil_iff.mp hvalid n hn
    rw [map_eq_nil_iff, filter_eq_nil_iff] at hun
    have := hun input hi
    rw [hasInitial, h.books.initial n.name hnew rfl]
    cases hreq : input.required with
    | false => rfl
    | true => simpa [hreq, hempty, isSome_iff_ne_none] using this
  · have hfin : s.producersFinished g n input = true :=
      all_eq_true.mpr fun e he => (forall_into_iff hn).mp hclosed input hi e he
    rw [hfin]
    cases hreq : input.required with
    | false => rfl
    | true =>
      cases hd : s.hasData g n input with
      | true => rfl
      | false => simpa [hempty, hreq, hd] using hm

theorem waiting_eq_zero (hperm : order.Perm g.nodes) (h : waiting order s = 0) : s.allCompleted g := by
  refine allCompleted_iff.mpr fun n hn => ?_
  simpa using countP_eq_zero.mp h n (hperm.mem_iff.mpr hn)

theorem waiting_lt_succ (hperm : order.Perm g.nodes) : waiting order s < g.nodes.length + 1 := by
  have hle : waiting order s ≤ order.length := countP_le_length
  rw [hperm.length_eq] at hle
  omega

section

variable (h : Quiet M g init given s) (hperm : order.Perm g.nodes)

include h hperm

theorem Quiet.prepareAll :
    ((s.prepareAll M g (s.ready g order)).2.map fun p => p.1.name) = (s.ready g order).map (·.name) ∧
      (s.prepareAll M g (s.ready g order)).1.ended = s.ended ∧
      Books g init given (fun m => ((s.ready g order).map (·.name)).contains m) (s.prepareAll M g (s.ready g order)).1 ∧
      ∀ p ∈ (s.prepareAll M g (s.ready g order)).2,
        Pending M g init (s.prepareAll M g (s.ready g order)).1 p.1 (.ofResult p.2 (p.1.run p.2)) ∧
          p.2 = levelInputs M g init s.ended p.1 := by
  have hpending := fun m hm => h.ready (n := m) hperm hm
  obtain ⟨hlist, hended, hbooks⟩ := h.books.prepareAll (M := M) (ready_nodup hperm) fun m hm =>
    ⟨(hpending m hm).2.new, rfl, (hpending m hm).2.closed⟩
  refine ⟨?_, hended, by simpa using hbooks, fun p hp => ?_⟩
  · rw [hlist, List.map_map]
    rfl
  · rw [hlist] at hp
    obtain ⟨n, hn, rfl⟩ := mem_map.mp hp
    exact ⟨(hpending n hn).2.congr hended, rfl⟩

theorem Quiet.level :
    (∃ s', storeAll (s.prepareAll M g (s.ready g order)).1 (s.prepareAll M g (s.ready g order)).2 = .ok s' ∧
      Quiet M g init given s' ∧ ∀ m, s'.completed m = (s.completed m || ((s.ready g order).map (·.name)).contains m)) ∨
    ∃ e s' n, storeAll (s.prepareAll M g (s.ready g order)).1 (s.prepareAll M g (s.ready g order)).2 = .error e ∧
      Settled M g init given s' ∧ Pending M g init s' n (.failed e) := by
  obtain ⟨hnames, hended, hbooks, hpending⟩ := h.prepareAll hperm
  rcases hbooks.storeAll (h.settled.congr hended) (hnames ▸ ready_nodup hperm) (fun p hp =>
      ⟨contains_iff_mem.mpr (hnames ▸ mem_map_of_mem hp), (hpending p hp).1⟩) with
    ⟨s', hok, hb, hs, hcompleted⟩ | herror
  · refine .inl ⟨s', hok, ⟨?_, hs⟩, fun m => ?_⟩
    · simpa only [hnames, Bool.and_not_self] using hb
    · rw [hcompleted, hnames, completed_congr hended]
  · exact .inr herror

/-- How the iterations of the level executor end, if there are enough of them:
every node has ended, or one has failed on what its producers made. -/
theorem Quiet.executeLevels
    (hwf : WellFounded g.needs) (hvalid : g.unconnected init = []) (hfuel : waiting order s ≤ fuel) :
    (∃ s', executeLevels M g order fuel s = .ok s' ∧ Quiet M g init given s' ∧ s'.allCompleted g ∧
      Leads g s (levelTurns M g order fuel s) s') ∨
      ∃ e s' n, executeLevels M g order fuel s = .error e ∧ Settled M g init given s' ∧
        Pending M g init s' n (.failed e) := by
  induction fuel generalizing s with
  | zero => exact .inl ⟨s, rfl, h, waiting_eq_zero hperm (by omega), .refl⟩
  | succ fuel ih =>
    obtain ⟨hquiet, hfix, hskips⟩ := h.skipUntilFixpoint hperm (waiting_lt_succ hperm)
    unfold Weaver.executeLevels levelTurns
    dsimp only
    generalize LevelState.skipUntilFixpoint g order (g.nodes.length + 1) s = s₁ at hquiet hfix hskips ⊢
    cases hready : s₁.ready g order with
    | nil =>
      have hall : s₁.allCompleted g := by
        by_contra hnot
        obtain ⟨n, hn⟩ := hquiet.exists_ready hperm hwf hvalid hfix hnot
        rw [hready] at hn
        cases hn
      exact .inl ⟨s₁, if_pos hall, hquiet, hall, by simpa using hskips⟩
    | cons n nodes =>
      have hlevel := hquiet.level hperm
      have hnodup := ready_nodup (s := s₁) hperm
      have hpending := fun m hm => hquiet.ready (n := m) hperm hm
      rw [hready] at hlevel hnodup hpending
      rcases hlevel with ⟨s', hok, hquiet', hcompleted⟩ | ⟨e, s', m, herror, hs, hm⟩
      · have hturn : ∀ {turns s₂}, Leads g s' turns s₂ → Leads g s₁ (((n :: nodes).map (·.name)) :: turns) s₂ :=
          .turn hnodup (fun m hm => by
            obtain ⟨q, hq, rfl⟩ := mem_map.mp hm
            exact ⟨(hpending q hq).2.new, (hpending q hq).2.closed⟩) hcompleted
        dsimp only
        rw [hok]
        dsimp only
        split_ifs with hall
        · exact .inl ⟨s', rfl, hquiet', hall, hskips.trans (hturn .refl)⟩
        · obtain ⟨horder, hhead⟩ := hpending n mem_cons_self
          have hnew : s.completed n.name = false := by
            by_contra hc
            have := hskips.mono _ (by simpa using hc)
            rw [hhead.new] at this
            cases this
          have hlt := waiting_lt (hskips.trans (hturn .refl)).mono horder hnew (by rw [hcompleted]; simp)
          refine (ih hquiet' (by omega)).imp_left fun ⟨s₂, hrest, hquiet₂, hall, hleads⟩ => ?_
          exact ⟨s₂, hrest, hquiet₂, hall, hskips.trans (hturn hleads)⟩
      · dsimp only
        rw [herror]
        exact .inr ⟨e, s', m, rfl, hs, hm⟩

end

theorem Quiet.portData_of_allCompleted (h : Quiet M g init (fun _ => none) s) (hall : s.allCompleted g) (k : PortKey) :
    s.portData k = if (g.edges.any fun e => e.key = k) then none else s.value k := by
  have hdata := (h.books.portData k).resolve_right fun ⟨_, _, _, _, hgiven⟩ => by cases hgiven
  rw [hdata]
  cases hv : s.value k with
  | none => rw [ite_self, ite_self]
  | some x =>
    have hzero : s.remaining k = 0 := by
      rw [h.books.remaining k fun _ => by rw [hv]; rfl]
      refine countP_eq_zero.mpr fun e he => ?_
      obtain ⟨n, hn, hname, -⟩ := g.to_mem e he
      simp [← hname, allCompleted_iff.mp hall n hn]
    simp [hzero]

end LevelState

theorem validate_eq_ok {V : Type} {g : DataflowGraph V} {init : Initial V} {order : List (Node V)}
    (h : g.validate init = .ok order) : g.topologicalSort = .ok order ∧ g.unconnected init = [] := by
  obtain ⟨order', hsort, h⟩ := Library.Fallible.bind_eq_ok h
  split at h
  · cases h
    exact ⟨hsort, ‹_›⟩
  · cases h

/-- How a run of the level executor ends, with iterations for every node. -/
theorem executeInner_cases {V : Type} {M : Merge V} {g : DataflowGraph V} {init : Initial V}
    {order : List (Node V)} {maxIterations : Nat} (hvalid : g.validate init = .ok order)
    (hmax : g.nodes.length ≤ maxIterations) :
    (∃ s, executeInner M g maxIterations init = .ok s ∧ LevelState.Quiet M g init (fun _ => none) s ∧ s.allCompleted g ∧
      LevelState.Leads g (.start g init) (levelTurns M g order maxIterations (.start g init)) s) ∨
      ∃ e s n, executeInner M g maxIterations init = .error e ∧ LevelState.Settled M g init (fun _ => none) s ∧
        LevelState.Pending M g init s n (.failed e) := by
  obtain ⟨hsort, hun⟩ := validate_eq_ok hvalid
  have hperm := perm_of_topologicalSort hsort
  have hle : waiting order (.start g init) ≤ order.length := countP_le_length
  have hstart : LevelState.Quiet M g init (fun _ => none) (.start g init) := .start
  have hlevels := hstart.executeLevels hperm
    (wellFounded_of_topologicalSort hsort) hun (hle.trans (hperm.length_eq ▸ hmax))
  rcases hlevels with ⟨s, hok, hquiet, hall, hleads⟩ | ⟨e, s, n, herror, hs, hn⟩
  · refine .inl ⟨s, ?_, hquiet, hall, hleads⟩
    simp only [executeInner, hvalid, hok, bind, Except.bind, hall, if_true]
  · refine .inr ⟨e, s, n, ?_, hs, hn⟩
    simp only [executeInner, hvalid, herror, bind, Except.bind]

end Rag3db.Weaver
