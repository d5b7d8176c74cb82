import Rag3db.Weaver.StreamEffects

namespace Rag3db.Weaver

structure FlowEdge where
  fromNode : String
  fromPort : String
  toNode : String
  toPort : String

/-- A node of a graph: one that runs its own code, or a sub-graph. `exposed`
gives each free output of a sub-graph its outer name, and `refusal` is what the
validation of the sub-graph says against it. -/
inductive FlowNode
  | leaf (name : String)
  | sub (name : String) (inner : List FlowNode) (edges : List FlowEdge)
      (exposed : List (String × String × String)) (refusal : Option String)

namespace FlowNode

def name : FlowNode → String
  | .leaf name => name
  | .sub name .. => name

/-- The node has a place for what is sent on this port. -/
def Offers (port : String) : FlowNode → Prop
  | .leaf _ => True
  | .sub _ _ _ exposed _ => ∃ inner, (port, inner) ∈ exposed

/-- The outer names of a sub-graph stand for outputs of its own nodes. -/
inductive WellFormed : FlowNode → Prop
  | leaf (name : String) : WellFormed (.leaf name)
  | sub {name : String} {inner : List FlowNode} {edges : List FlowEdge}
      {exposed : List (String × String × String)} {refusal : Option String} :
      (∀ n ∈ inner, WellFormed n) → (inner.map FlowNode.name).Nodup →
      (∀ x ∈ exposed, ∃ n ∈ inner, n.name = x.2.1 ∧ n.Offers x.2.2) →
      WellFormed (.sub name inner edges exposed refusal)

end FlowNode

/-- A graph launched in the background with an output stream. `refusal` is what
the validation says against it; `timed` that the run has a time limit. -/
structure FlowLaunch where
  handle : String
  nodes : List FlowNode
  edges : List FlowEdge
  input : Option (String × String)
  output : String × String
  capacity : Nat
  refusal : Option String
  timed : Bool
  wellFormed : ∀ n ∈ nodes, n.WellFormed
  distinct : (nodes.map FlowNode.name).Nodup

/-- How the code of a node ends. -/
inductive NodeExit
  | completed
  | skipped
  | cancelled
  | failed

/-- `refused` is a sub-graph whose validation has failed after its channels were
handed over; `delegated` one that waits for its inner nodes. -/
inductive ThreadPhase
  | working
  | refused (e : String)
  | delegated
  | joined
  | leaving
  | finished
  | unwound
  | ended (panicked : Bool)

structure FlowThread where
  node : FlowNode
  workerName : String
  worker : WorkerId
  outputs : List (String × ChannelId)
  parent : Option Nat
  phase : ThreadPhase

def FlowThread.isEnded (t : FlowThread) : Bool :=
  match t.phase with
  | .ended _ => true
  | _ => false

def FlowThread.hasPanicked (t : FlowThread) : Bool :=
  match t.phase with
  | .ended panicked => panicked
  | _ => false

/-- Where the thread of the run is. The hub is attached to the handle that
stops the run from `attached` to `joined`. -/
inductive RunPhase
  | launched
  | attached
  | executing
  | joined
  | closing
  | closed
  | done
  | panicked

inductive TimerPhase
  | watching
  | grace
  | gone

structure SpawnedRun (T : Type) where
  sys : System T
  phase : RunPhase
  timer : TimerPhase
  inputOpen : Bool
  stopped : Bool
  threads : List FlowThread

inductive ThreadStep
  | delegate
  | joinInner
  | settle (exit : NodeExit)
  | panic
  | finish
  | done

inductive RunStep
  | attach
  | validate
  | join
  | detach
  | close
  | leave

inductive TimerStep
  | timeout
  | expire
  | leave

/-- `io` is a call of a node or of the caller on its channels, `stop` asks the
run to stop, and `closeInput` is the caller's. -/
inductive FlowAction (T : Type)
  | io (a : Action T)
  | stop
  | closeInput
  | timer (a : TimerStep)
  | run (a : RunStep)
  | thread (i : Nat) (a : ThreadStep)

variable {T : Type}

/-- The calls that neither end a stream nor a worker nor the run. -/
def Action.isIo : Action T → Bool
  | .releaseSender .. | .workerDone _ | .cancel _ => false
  | _ => true

namespace FlowLaunch

variable (l : FlowLaunch)

def external : WorkerId := 0

def leaver : WorkerId := 1

def timer : WorkerId := 2

/-- The timer is a worker of the hub where there is an input to close. -/
def hasTimer : Bool := l.timed && l.input.isSome

def inputChannel : ChannelId := 0

def outputChannel : ChannelId := if l.input.isSome then 1 else 0

def hub : Hub T :=
  let handle := l.handle
  let workers := (Hub.new.worker s!"appelant de #{handle}").worker s!"lancement de #{handle}"
  let withInput := match l.input with
    | some (node, port) => workers.channel s!"appelant → {node}.{port}" l.capacity 1 1
    | none => workers
  let (node, port) := l.output
  let withOutput := withInput.channel s!"{node}.{port} → appelant" l.capacity 1 1
  if l.hasTimer then withOutput.worker s!"minuteur de #{handle}" else withOutput

def start : SpawnedRun T where
  sys := ⟨l.hub, fun _ => .running, []⟩
  phase := .launched
  timer := if l.hasTimer then .watching else .gone
  inputOpen := l.input.isSome
  stopped := false
  threads := []

end FlowLaunch

/-- The channels of the edges and the workers of the nodes, with the threads
that will own them; `outer` are the channels of the outside, by inner node and port. -/
structure Mounting where
  nodes : List FlowNode
  edges : List FlowEdge
  outer : List ((String × String) × ChannelId)
  lead : String
  parent : Option Nat
  capacity : Nat

namespace Mounting

variable (m : Mounting)

def label (e : FlowEdge) : String :=
  m.lead ++ e.fromNode ++ "." ++ e.fromPort ++ " → " ++ m.lead ++ e.toNode ++ "." ++ e.toPort

def channels (hub : Hub T) : Hub T := m.edges.foldl (fun h e => h.channel (m.label e) m.capacity 1 1) hub

def workers (hub : Hub T) : Hub T := m.nodes.foldl (fun h n => h.worker (m.lead ++ n.name)) hub

def outputs (firstChannel : ChannelId) (n : FlowNode) : List (String × ChannelId) :=
  (m.edges.zipIdx.filter fun e => e.1.fromNode = n.name).map (fun e => (e.1.fromPort, firstChannel + e.2)) ++
    (m.outer.filter fun o => o.1.1 = n.name).map fun o => (o.1.2, o.2)

def threads (hub : Hub T) : List FlowThread :=
  m.nodes.zipIdx.map fun n =>
    ⟨n.1, m.lead ++ n.1.name, hub.nextId + n.2, m.outputs hub.numChannels n.1, m.parent, .working⟩

end Mounting

namespace SpawnedRun

variable (s : SpawnedRun T)

def announce (hub : Hub T) : SpawnedRun T := { s with sys := { s.sys with hub := hub }.notifyAll }

def put (i : Nat) (t : FlowThread) : SpawnedRun T := { s with threads := s.threads.set i t }

/-- The workers of the nodes register before `leaving` leaves. -/
def mount (m : Mounting) (leaving : WorkerId) : SpawnedRun T :=
  { s.announce ((m.workers (m.channels s.sys.hub)).workerDone leaving) with
    threads := s.threads ++ m.threads s.sys.hub }

def close : SpawnedRun T :=
  if s.inputOpen then
    { s.announce (s.sys.hub.releaseSender FlowLaunch.inputChannel) with inputOpen := false }
  else s

def isAttached : Bool :=
  match s.phase with
  | .attached | .executing | .joined => true
  | _ => false

def cancel (cause : CancelCause) : SpawnedRun T := s.announce (s.sys.hub.setCancel cause)

/-- The handle that stops the run reaches the hub while it is attached. -/
def stop : SpawnedRun T :=
  let s := { s with stopped := true }
  if s.isAttached then s.cancel .external else s

/-- All threads that this one, or the run itself, has started are over. -/
def joinable (parent : Option Nat) : Bool := (s.threads.filter (·.parent = parent)).all FlowThread.isEnded

def anyPanicked (parent : Option Nat) : Bool := (s.threads.filter (·.parent = parent)).any FlowThread.hasPanicked

/-- The cause of the cancellation is this node or a node inside it. -/
def ownFailure (t : FlowThread) : Bool :=
  match s.sys.hub.cancel with
  | some (.failed node) => node == t.workerName || (t.workerName ++ "/").isPrefixOf node
  | _ => false

/-- A node that fails stops the run; one that is stopped leaves as it is. -/
def settle (i : Nat) (t : FlowThread) : NodeExit → Option (SpawnedRun T)
  | .completed => if s.sys.hub.cancel.isNone then some (s.put i { t with phase := .leaving }) else none
  | .skipped => some (s.put i { t with phase := .leaving })
  | .cancelled => if s.sys.hub.cancel.isSome then some (s.put i { t with phase := .leaving }) else none
  | .failed =>
    if s.sys.hub.cancel.isNone || s.ownFailure t then
      some ((s.cancel (.failed t.workerName)).put i { t with phase := .leaving })
    else none

/-- A sub-graph hands its outputs over before its validation. -/
def delegate (capacity i : Nat) (t : FlowThread) : Option (SpawnedRun T) :=
  match t.node with
  | .leaf _ => none
  | .sub _ inner edges exposed refusal =>
    match refusal with
    | some e => some (s.put i { t with outputs := [], phase := .refused e })
    | none =>
      let outer := exposed.flatMap fun x =>
        (t.outputs.filter fun o => o.1 = x.1).map fun o => (x.2, o.2)
      some ((s.put i { t with outputs := [], phase := .delegated }).mount
        ⟨inner, edges, outer, t.workerName ++ "/", some i, capacity⟩ t.worker)

/-- What the thread of a node does next, by its phase. -/
def advance (capacity i : Nat) (t : FlowThread) : ThreadStep → Option (SpawnedRun T)
  | .delegate =>
    match t.phase with
    | .working => s.delegate capacity i t
    | _ => none
  | .joinInner =>
    match t.phase with
    | .delegated =>
      if s.joinable (some i) then
        if s.anyPanicked (some i) then
          some ((s.cancel (.failed t.workerName)).put i { t with phase := .unwound })
        else some (s.put i { t with phase := .joined })
      else none
    | _ => none
  | .settle exit =>
    match t.phase with
    | .working | .joined => s.settle i t exit
    | .refused _ =>
      match exit with
      | .failed | .cancelled => s.settle i t exit
      | _ => none
    | _ => none
  | .panic =>
    match t.phase with
    | .working | .joined => some ((s.cancel (.failed t.workerName)).put i { t with phase := .unwound })
    | _ => none
  | .finish =>
    match t.phase with
    | .leaving =>
      some ((s.announce (t.outputs.foldl (fun h o => h.releaseSender o.2) s.sys.hub)).put i
        { t with outputs := [], phase := .finished })
    | _ => none
  | .done =>
    match t.phase with
    | .finished => some ((s.announce (s.sys.hub.workerDone t.worker)).put i { t with phase := .ended false })
    | .unwound => some ((s.announce (s.sys.hub.workerDone t.worker)).put i { t with phase := .ended true })
    | _ => none

/-- What the thread of the run does next. -/
def proceed (l : FlowLaunch) : RunStep → Option (SpawnedRun T)
  | .attach =>
    match s.phase with
    | .launched => some { (if s.stopped then s.cancel .external else s) with phase := .attached }
    | _ => none
  | .validate =>
    match s.phase with
    | .attached =>
      match l.refusal with
      | some _ => some { s with phase := .joined }
      | none =>
        some { s.mount ⟨l.nodes, l.edges, [(l.output, l.outputChannel)], "#" ++ l.handle ++ "/", none,
          l.capacity⟩ FlowLaunch.leaver with phase := .executing }
    | _ => none
  | .join =>
    match s.phase with
    | .executing =>
      if s.joinable none then
        some { s with phase := if s.anyPanicked none then .panicked else .joined }
      else none
    | _ => none
  | .detach =>
    match s.phase with
    | .joined => some { s with phase := .closing }
    | _ => none
  | .close =>
    match s.phase with
    | .closing => some { s.close with phase := .closed }
    | _ => none
  | .leave =>
    match s.phase with
    | .closed => some { s.announce (s.sys.hub.workerDone FlowLaunch.external) with phase := .done }
    | _ => none

/-- The timer closes the input, then stops the run; it leaves when it has acted
or when the run is over. -/
def watch : TimerStep → Option (SpawnedRun T)
  | .timeout =>
    match s.timer with
    | .watching => some { s.close with timer := .grace }
    | _ => none
  | .expire =>
    match s.timer with
    | .grace => some { s.stop.announce (s.stop.sys.hub.workerDone FlowLaunch.timer) with timer := .gone }
    | _ => none
  | .leave =>
    match s.timer, s.phase with
    | .watching, .done | .grace, .done =>
      some { s.announce (s.sys.hub.workerDone FlowLaunch.timer) with timer := .gone }
    | _, _ => none

def step (l : FlowLaunch) : FlowAction T → Option (SpawnedRun T)
  | .io a => if a.isIo then (s.sys.step a).map fun sys => { s with sys := sys } else none
  | .stop => some s.stop
  | .closeInput => some s.close
  | .timer a => s.watch a
  | .run a => s.proceed l a
  | .thread i a => s.threads[i]?.bind fun t => s.advance l.capacity i t a

end SpawnedRun

end Rag3db.Weaver
