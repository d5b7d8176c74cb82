import Rag3db.Weaver.DataflowGraph

namespace Rag3db.Weaver

/-- What the level executor keeps between two levels. The nodes that have ended
are those completed, with what the events of the run tell of them. -/
structure LevelState (V : Type) where
  portData : PortKey → Option V
  available : PortKey → Bool
  remaining : PortKey → Nat
  initial : Initial V
  ended : Ended V

namespace LevelState

variable {V : Type} (M : Merge V) (g : DataflowGraph V) (s : LevelState V) (n : Node V)

def start (initial : Initial V) : LevelState V where
  portData _ := none
  available _ := false
  remaining k := g.edges.countP fun e => e.key = k
  initial := initial
  ended _ := none

def completed (name : String) : Bool := (s.ended name).isSome

def allCompleted : Bool := g.nodes.all fun n => s.completed n.name

/-- One reader less of a value; the last one takes it out of the store. -/
def release (k : PortKey) : LevelState V :=
  let left := s.remaining k - 1
  { s with
    remaining := Function.update s.remaining k left
    portData := if left = 0 then Function.update s.portData k none else s.portData }

def producersFinished (input : PortDef) : Bool :=
  (g.incoming n.name input.name).all fun e => s.completed e.fromNode

def hasData (input : PortDef) : Bool := (g.incoming n.name input.name).any fun e => s.available e.key

def hasInitial (input : PortDef) : Bool := (s.initial n.name input.name).isSome

/-- Why a node is skipped: all its producers have ended, and one required
input has an edge but got nothing. -/
def skipReason : Option String :=
  if n.inputs.all fun input => s.producersFinished g n input then
    (n.inputs.find? fun input =>
      !(g.incoming n.name input.name).isEmpty && input.required && !s.hasData g n input && !s.hasInitial n input).map
        (g.missingReason n)
  else none

def skip (reason : String) : LevelState V :=
  let s := (g.into n.name).foldl (fun s e => s.release e.key) s
  { s with ended := Function.update s.ended n.name (some (.skipped reason)) }

def toSkip (order : List (Node V)) : List (Node V × String) :=
  (order.filter fun n => !s.completed n.name).filterMap fun n => (s.skipReason g n).map fun reason => (n, reason)

/-- Skips until nothing more is to be skipped; a round skips at least one node. -/
def skipUntilFixpoint (order : List (Node V)) : Nat → LevelState V → LevelState V
  | 0, s => s
  | fuel + 1, s =>
    match s.toSkip g order with
    | [] => s
    | skips => skipUntilFixpoint order fuel (skips.foldl (fun s p => s.skip g p.1 p.2) s)

/-- The nodes that it skips, round by round. -/
def skipTurns (order : List (Node V)) : Nat → LevelState V → List (List String)
  | 0, _ => []
  | fuel + 1, s =>
    match s.toSkip g order with
    | [] => []
    | skips => skips.map (·.1.name) :: skipTurns order fuel (skips.foldl (fun s p => s.skip g p.1 p.2) s)

def inputReady (input : PortDef) : Bool :=
  if (g.incoming n.name input.name).isEmpty then !input.required || s.hasInitial n input
  else s.producersFinished g n input && (!input.required || s.hasData g n input || s.hasInitial n input)

def ready (order : List (Node V)) : List (Node V) :=
  (order.filter fun n => !s.completed n.name).filter fun n => n.inputs.all (s.inputReady g n)

def take (p : LevelState V × List (String × V)) (e : Edge) : LevelState V × List (String × V) :=
  match p.1.portData e.key with
  | some x => (p.1.release e.key, p.2 ++ [(e.toPort, x)])
  | none => p

def prepare : LevelState V × Ports V :=
  let (s, values) := (g.into n.name).foldl take (s, [])
  ({ s with initial := Function.update s.initial n.name fun _ => none },
    fun port => (s.initial n.name port).or (M.fold ((values.filter fun p => p.1 = port).map (·.2))))

def prepareAll : LevelState V → List (Node V) → LevelState V × List (Node V × Ports V)
  | s, [] => (s, [])
  | s, n :: nodes =>
    let (s, inputs) := s.prepare M g n
    let (s, prepared) := prepareAll s nodes
    (s, (n, inputs) :: prepared)

def store (inputs outputs : Ports V) : LevelState V :=
  { s with
    portData := fun k => if k.1 = n.name then (outputs k.2).or (s.portData k) else s.portData k
    available := fun k => s.available k || (k.1 == n.name && (outputs k.2).isSome)
    ended := Function.update s.ended n.name (some (.ran inputs outputs)) }

def storeAll : LevelState V → List (Node V × Ports V) → Except String (LevelState V)
  | s, [] => .ok s
  | s, (n, inputs) :: prepared =>
    match n.run inputs with
    | .ok outputs => storeAll (s.store n inputs outputs) prepared
    | .error e => .error e

end LevelState

open LevelState

variable {V : Type} (M : Merge V) (g : DataflowGraph V)

def deadlockError (order : List (Node V)) (s : LevelState V) : String :=
  let remaining := ", ".intercalate ((order.filter fun n => !s.completed n.name).map (·.name))
  s!"deadlock: nodes [{remaining}] cannot execute"

def executeLevels (order : List (Node V)) : Nat → LevelState V → Except String (LevelState V)
  | 0, s => .ok s
  | fuel + 1, s =>
    let s := skipUntilFixpoint g order (g.nodes.length + 1) s
    match s.ready g order with
    | [] => if s.allCompleted g then .ok s else .error (deadlockError order s)
    | ready =>
      let (s, prepared) := s.prepareAll M g ready
      match storeAll s prepared with
      | .error e => .error e
      | .ok s => if s.allCompleted g then .ok s else executeLevels order fuel s

/-- The nodes that end in a run, turn by turn: a round of skips, or a level,
which starts when the turns before it are over. -/
def levelTurns (order : List (Node V)) : Nat → LevelState V → List (List String)
  | 0, _ => []
  | fuel + 1, s =>
    skipTurns g order (g.nodes.length + 1) s ++
      let s := skipUntilFixpoint g order (g.nodes.length + 1) s
      match s.ready g order with
      | [] => []
      | ready =>
        ready.map (·.name) ::
          let (s, prepared) := s.prepareAll M g ready
          match storeAll s prepared with
          | .error _ => []
          | .ok s => if s.allCompleted g then [] else levelTurns order fuel s

def executeInner (maxIterations : Nat) (initial : Initial V) : Except String (LevelState V) := do
  let order ← g.validate initial
  let s ← executeLevels M g order maxIterations (start g initial)
  let done := (g.nodes.filter fun n => s.completed n.name).length
  if s.allCompleted g then .ok s
  else .error s!"max iterations ({maxIterations}) exceeded, {done} of {g.nodes.length} nodes completed"

end Rag3db.Weaver
