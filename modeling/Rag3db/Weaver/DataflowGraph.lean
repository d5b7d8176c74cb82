import Mathlib
import Rag3db.Library.Kahn
import Rag3db.Library.Schedule

open List

namespace Rag3db.Weaver

open Library Library.Schedule

structure PortDef where
  name : String
  required : Bool

abbrev Ports (V : Type) := String → Option V

/-- A deterministic node: what it puts out depends on its inputs only. -/
structure Node (V : Type) where
  name : String
  inputs : List PortDef
  outputs : List PortDef
  execute : Ports V → Except String (Ports V)

structure Edge where
  fromNode : String
  fromPort : String
  toNode : String
  toPort : String
  deriving DecidableEq

abbrev PortKey := String × String

def Edge.key (e : Edge) : PortKey := (e.fromNode, e.fromPort)

/-- How two values that meet on a port become one; a trigger gives way to any
other value. -/
structure Merge (V : Type) where
  trigger : V
  merge : V → V → Except String V

/-- A graph with what `add_node` and `connect` check. -/
structure DataflowGraph (V : Type) where
  nodes : List (Node V)
  edges : List Edge
  nodup : (nodes.map (·.name)).Nodup
  from_mem : ∀ e ∈ edges, e.fromNode ∈ nodes.map (·.name)
  to_mem : ∀ e ∈ edges, ∃ n ∈ nodes, n.name = e.toNode ∧ e.toPort ∈ n.inputs.map (·.name)

/-- What is put on the inputs of the nodes before a run. -/
abbrev Initial (V : Type) := String → Ports V

namespace DataflowGraph

variable {V : Type} (g : DataflowGraph V)

def names : List String := g.nodes.map (·.name)

def into (name : String) : List Edge := g.edges.filter fun e => e.toNode = name

def incoming (name port : String) : List Edge := (g.into name).filter fun e => e.toPort = port

def topologicalSort : Except String (List (Node V)) :=
  match Kahn.sort g.names (g.edges.map fun e => (e.fromNode, e.toNode)) with
  | some order => .ok (order.filterMap fun name => g.nodes.find? fun n => n.name = name)
  | none => .error "cycle detected in dataflow graph"

def unconnected (initial : Initial V) : List String :=
  g.nodes.flatMap fun n =>
    (n.inputs.filter fun input =>
      input.required && (g.incoming n.name input.name).isEmpty && (initial n.name input.name).isNone).map fun input =>
        s!"required input '{input.name}' on node '{n.name}' is not connected"

def validate (initial : Initial V) : Except String (List (Node V)) := do
  let order ← g.topologicalSort
  match g.unconnected initial with
  | [] => .ok order
  | warnings => .error ("; ".intercalate warnings)

def needs (m n : String) : Prop := ∃ e ∈ g.edges, e.fromNode = m ∧ e.toNode = n

variable {g} {name port : String} {e : Edge} {n m : Node V}

theorem mem_into : e ∈ g.into name ↔ e ∈ g.edges ∧ e.toNode = name := by simp [into]

theorem mem_incoming : e ∈ g.incoming name port ↔ e ∈ g.edges ∧ e.toNode = name ∧ e.toPort = port := by
  simp [incoming, into, and_comm]

theorem needs_of_mem_into (h : e ∈ g.into name) : g.needs e.fromNode name :=
  ⟨e, (mem_into.mp h).1, rfl, (mem_into.mp h).2⟩

theorem eq_of_name (hn : n ∈ g.nodes) (hm : m ∈ g.nodes) (h : n.name = m.name) : n = m :=
  inj_on_of_nodup_map g.nodup hn hm h

theorem find?_name (hn : n ∈ g.nodes) : (g.nodes.find? fun m => m.name = n.name) = some n := by
  obtain ⟨m, hm⟩ : ∃ m, (g.nodes.find? fun m => m.name = n.name) = some m :=
    Option.isSome_iff_exists.mp (find?_isSome.mpr ⟨n, hn, by simp⟩)
  rw [hm, eq_of_name (mem_of_find?_eq_some hm) hn (by simpa using find?_some hm)]

theorem edges_to_mem (g : DataflowGraph V) : ∀ e ∈ g.edges.map fun e => (e.fromNode, e.toNode), e.2 ∈ g.names := by
  intro p hp
  obtain ⟨e, he, rfl⟩ := mem_map.mp hp
  obtain ⟨n, hn, hname, -⟩ := g.to_mem e he
  exact mem_map.mpr ⟨n, hn, hname⟩

variable {order : List (Node V)}

theorem perm_of_topologicalSort (h : g.topologicalSort = .ok order) : order.Perm g.nodes := by
  unfold topologicalSort at h
  split at h
  · rename_i sorted hsort
    cases h
    have hperm := (Kahn.sort_eq_some g.edges_to_mem g.nodup hsort).1
    refine (hperm.filterMap _).trans ?_
    have hself : (g.nodes.map (·.name)).filterMap (fun name => g.nodes.find? fun n => n.name = name) = g.nodes := by
      rw [filterMap_map]
      refine (filterMap_congr fun n hn => ?_).trans filterMap_some
      exact find?_name hn
    exact .of_eq hself
  · cases h

theorem wellFounded_of_topologicalSort (h : g.topologicalSort = .ok order) : WellFounded g.needs := by
  unfold topologicalSort at h
  split at h
  · rename_i sorted hsort
    obtain ⟨hperm, hclosed⟩ := Kahn.sort_eq_some g.edges_to_mem g.nodup hsort
    refine Subrelation.wf ?_ (measure (sorted.idxOf ·)).wf
    intro m n hneeds
    obtain ⟨e, he, rfl, rfl⟩ := hneeds
    have hto : e.toNode ∈ sorted := hperm.mem_iff.mpr (g.edges_to_mem _ (mem_map_of_mem he))
    obtain ⟨before, after, hsplit⟩ := append_of_mem hto
    have hfrom := hclosed before _ after hsplit _ (mem_map_of_mem he) rfl
    have hnodup : (before ++ e.toNode :: after).Nodup := hsplit ▸ hperm.nodup_iff.mpr g.nodup
    have hnot : e.toNode ∉ before := fun hin => (nodup_append.mp hnodup).2.2 _ hin _ mem_cons_self rfl
    show sorted.idxOf e.fromNode < sorted.idxOf e.toNode
    rw [hsplit, idxOf_append_of_mem hfrom, idxOf_append_of_notMem hnot, idxOf_cons_self]
    exact idxOf_lt_length_of_mem hfrom
  · cases h

/-- A graph is sorted unless it has a cycle. -/
theorem topologicalSort_ok_iff : (∃ order, g.topologicalSort = .ok order) ↔ WellFounded g.needs := by
  refine ⟨fun ⟨_, h⟩ => wellFounded_of_topologicalSort h, fun hwf => ?_⟩
  have hfrom : ∀ e ∈ g.edges.map fun e => (e.fromNode, e.toNode), e.1 ∈ g.names := by
    intro p hp
    obtain ⟨e, he, rfl⟩ := mem_map.mp hp
    exact g.from_mem e he
  obtain ⟨order, horder⟩ : ∃ order, Kahn.sort g.names (g.edges.map fun e => (e.fromNode, e.toNode)) = some order :=
    Kahn.sort_of_wellFounded g.edges_to_mem g.nodup hfrom <| Subrelation.wf (fun {a b} hab => by
      obtain ⟨e, he, heq⟩ := mem_map.mp hab
      exact ⟨e, he, congrArg Prod.fst heq, congrArg Prod.snd heq⟩) hwf
  exact ⟨_, by rw [topologicalSort, horder]⟩

end DataflowGraph

namespace Merge

variable {V : Type} (M : Merge V)

/-- What becomes of two values in the level executor, also if they do not merge. -/
def mergeOrTrigger (a b : V) : V :=
  match M.merge a b with
  | .ok v => v
  | .error _ => M.trigger

def fold : List V → Option V
  | [] => none
  | a :: vs => some (vs.foldl M.mergeOrTrigger a)

def clashFrom (a : V) : List V → Option String
  | [] => none
  | b :: vs =>
    match M.merge a b with
    | .ok c => clashFrom c vs
    | .error e => some e

def clash : List V → Option String
  | [] => none
  | a :: vs => M.clashFrom a vs

end Merge

/-- How a node ended. -/
inductive Outcome (V : Type)
  | skipped (reason : String)
  | ran (inputs outputs : Ports V)
  | failed (error : String)

namespace Outcome

variable {V : Type}

def outputs : Outcome V → Ports V
  | .ran _ outputs => outputs
  | _ => fun _ => none

def isFailed : Outcome V → Bool
  | .failed _ => true
  | _ => false

def ofResult (inputs : Ports V) : Except String (Ports V) → Outcome V
  | .ok outputs => .ran inputs outputs
  | .error e => .failed e

end Outcome

abbrev Ended (V : Type) := String → Option (Outcome V)

section Outcomes

variable {V : Type} (M : Merge V) (g : DataflowGraph V) (initial : Initial V) (v : Ended V) (n : Node V)

def Node.requiredOutputMissing (outputs : Ports V) : Option String :=
  match (n.outputs.filter fun p => p.required && (outputs p.name).isNone).map (·.name) with
  | [] => none
  | missing =>
    let noms := ", ".intercalate missing
    let debut := s!"{n.name} : sortie requise non posée ({noms})"
    some (debut ++ " — une sortie requise doit émettre ; seule une sortie optionnelle peut finir vide")

def Node.settle : Except String (Ports V) → Except String (Ports V)
  | .error e => .error e
  | .ok outputs =>
    match n.requiredOutputMissing outputs with
    | some e => .error e
    | none => .ok outputs

def Node.run (inputs : Ports V) : Except String (Ports V) := n.settle (n.execute inputs)

/-- The values that the producers of a port have put out, in the order of the
edges. -/
def DataflowGraph.arrived (port : String) : List V :=
  (g.incoming n.name port).filterMap fun e => (v e.fromNode).bind fun o => o.outputs e.fromPort

def DataflowGraph.missing (input : PortDef) : Bool :=
  input.required && !(g.incoming n.name input.name).isEmpty && (g.arrived v n input.name).isEmpty &&
    (initial n.name input.name).isNone

def DataflowGraph.missingReason (input : PortDef) : String :=
  let producers := ", ".intercalate ((g.incoming n.name input.name).map fun e => e.fromNode ++ "." ++ e.fromPort)
  s!"entrée requise « {input.name} » sans donnée : {producers} n'a rien émis (branche non prise)"

/-- The level executor sets what arrived and then the initial values. -/
def levelInputs : Ports V := fun port => (initial n.name port).or (M.fold (g.arrived v n port))

def levelOutcome : Outcome V :=
  match n.inputs.find? (g.missing initial v n) with
  | some input => .skipped (g.missingReason n input)
  | none => .ofResult (levelInputs M g initial v n) (n.run (levelInputs M g initial v n))

/-- The concurrent executor takes an initial value only where nothing arrived,
and only on a declared input. -/
def concurrentInputs : Ports V := fun port =>
  if port ∈ n.inputs.map (·.name) then (M.fold (g.arrived v n port)).or (initial n.name port) else none

def concurrentOutcome : Outcome V :=
  match n.inputs.findSome? fun input => (M.clash (g.arrived v n input.name)).map fun e => (input, e) with
  | some (input, e) =>
    .failed s!"« {n.name} », entrée « {input.name} » : deux producteurs ne se fondent pas en une valeur ({e})"
  | none =>
    match n.inputs.find? (g.missing initial v n) with
    | some input => .skipped (g.missingReason n input)
    | none => .ofResult (concurrentInputs M g initial v n) (n.run (concurrentInputs M g initial v n))

end Outcomes

section Local

variable {V : Type} {M : Merge V} {g : DataflowGraph V} {initial : Initial V} {v w : Ended V} {n : Node V}

/-- How a node ends depends only on what its producers put out for it. -/
theorem arrived_congr (h : ∀ e ∈ g.into n.name, ((v e.fromNode).bind fun o => o.outputs e.fromPort) =
    (w e.fromNode).bind fun o => o.outputs e.fromPort) (port : String) : g.arrived v n port = g.arrived w n port :=
  filterMap_congr fun e he => h e (mem_of_mem_filter he)

variable (h : ∀ port, g.arrived v n port = g.arrived w n port)

include h

theorem levelInputs_congr : levelInputs M g initial v n = levelInputs M g initial w n := by
  funext port
  simp only [levelInputs, h]

theorem levelOutcome_congr : levelOutcome M g initial v n = levelOutcome M g initial w n := by
  have hmissing : g.missing initial v n = g.missing initial w n := by
    funext input
    simp only [DataflowGraph.missing, h]
  rw [levelOutcome, levelOutcome, hmissing, levelInputs_congr h]

theorem concurrentOutcome_congr : concurrentOutcome M g initial v n = concurrentOutcome M g initial w n := by
  have hinputs : concurrentInputs M g initial v n = concurrentInputs M g initial w n := by
    funext port
    simp only [concurrentInputs, h]
  have hmissing : g.missing initial v n = g.missing initial w n := by
    funext input
    simp only [DataflowGraph.missing, h]
  simp only [concurrentOutcome, hmissing, hinputs, h]

omit h

/-- Every edge into a node comes in on a declared input. -/
theorem forall_into_iff (hn : n ∈ g.nodes) {P : Edge → Prop} :
    (∀ e ∈ g.into n.name, P e) ↔ ∀ input ∈ n.inputs, ∀ e ∈ g.incoming n.name input.name, P e := by
  refine ⟨fun h input _ e he => h e (mem_of_mem_filter he), fun h e he => ?_⟩
  obtain ⟨hedge, hto⟩ := DataflowGraph.mem_into.mp he
  obtain ⟨m, hm, hname, hport⟩ := g.to_mem e hedge
  obtain rfl : m = n := DataflowGraph.eq_of_name hm hn (hname.trans hto)
  obtain ⟨input, hinput, hport⟩ := mem_map.mp hport
  exact h input hinput e (DataflowGraph.mem_incoming.mpr ⟨hedge, hto, hport.symm⟩)

end Local

section Rules

variable {V : Type} (M : Merge V) (g : DataflowGraph V) (init : Initial V)

def byName (rule : Ended V → Node V → Outcome V) (name : String) (v : Ended V) : Outcome V :=
  match g.nodes.find? fun n => n.name = name with
  | some n => rule v n
  | none => .skipped ""

def levelRule : String → Ended V → Outcome V := byName g (levelOutcome M g init)

def concurrentRule : String → Ended V → Outcome V := byName g (concurrentOutcome M g init)

variable {M g init} {rule : Ended V → Node V → Outcome V}

theorem local_byName (h : ∀ v w n, (∀ port, g.arrived v n port = g.arrived w n port) → rule v n = rule w n) :
    Local g.needs (byName g rule) := by
  intro name v w hsame
  unfold byName
  split
  · rename_i n hn
    have hname : n.name = name := by simpa using find?_some hn
    refine h v w n (arrived_congr fun e he => ?_)
    rw [hsame _ (hname ▸ DataflowGraph.needs_of_mem_into he)]
  · rfl

theorem local_levelRule : Local g.needs (levelRule M g init) := local_byName fun _ _ _ => levelOutcome_congr

theorem local_concurrentRule : Local g.needs (concurrentRule M g init) :=
  local_byName fun _ _ _ => concurrentOutcome_congr

theorem byName_name {n : Node V} (hn : n ∈ g.nodes) (v : Ended V) : byName g rule n.name v = rule v n := by
  simp [byName, DataflowGraph.find?_name hn]

end Rules

end Rag3db.Weaver
