import Rag3db.Library.Transition
import Rag3db.Weaver.StreamHub

namespace Rag3db.Weaver

/-- The calls of the hub that may wait. -/
inductive Call (T : Type)
  | send (chans : List ChannelId) (v : T)
  | sendTimeout (chans : List ChannelId) (v : T)
  | recvAny (chans : List ChannelId)
  | recvTimeout (chans : List ChannelId)

/-- Where the thread of a worker stands. A worker that sleeps on the condition
variable is `asleep` until it is notified; a `woken` one takes the lock back. A
timed call looks at its channels and goes to sleep under two holdings of the
lock: `trying` and `parking` say which one comes next. -/
inductive Phase (T : Type)
  | running
  | asleep (call : Call T)
  | woken (call : Call T)
  | trying (call : Call T)
  | parking (call : Call T)

/-- What a call reported, or a release that took place. -/
inductive Event (T : Type)
  | sent (live : List ChannelId) (v : T)
  | refused (why : Stopped)
  | full (v : T)
  | received (position : Nat) (chan : ChannelId) (v : T)
  | ended (chans : List ChannelId)
  | empty
  | interrupted (cause : CancelCause)
  | releasedSender (chan : ChannelId)
  | releasedReceiver (chan : ChannelId)

/-- A hub and the threads of its workers, with the events so far, oldest
first. -/
structure System (T : Type) where
  hub : Hub T
  phase : WorkerId → Phase T
  log : List (WorkerId × Event T)

inductive Action (T : Type)
  | call (w : WorkerId) (call : Call T)
  | trySend (w : WorkerId) (chans : List ChannelId) (v : T)
  | tryRecv (w : WorkerId) (chans : List ChannelId)
  /-- A wake-up of the condition variable that no notification caused. -/
  | wake (w : WorkerId)
  /-- A worker inside a call takes the lock; for a timed call `expired` says
  whether its deadline has passed. -/
  | resume (w : WorkerId) (expired : Bool)
  | releaseSender (w : WorkerId) (chan : ChannelId)
  | releaseReceiver (w : WorkerId) (chan : ChannelId)
  | workerDone (w : WorkerId)
  | cancel (cause : CancelCause)

variable {T : Type}

def Call.chans : Call T → List ChannelId
  | .send chans _ | .sendTimeout chans _ | .recvAny chans | .recvTimeout chans => chans

def Call.timed : Call T → Bool
  | .send .. | .recvAny _ => false
  | .sendTimeout .. | .recvTimeout _ => true

def CancelCause.isDeadlock : CancelCause → Bool
  | .deadlock _ => true
  | _ => false

def Phase.notified : Phase T → Phase T
  | .asleep call => .woken call
  | p => p

namespace System

def setPhase (s : System T) (w : WorkerId) (p : Phase T) : System T :=
  { s with phase := Function.update s.phase w p }

def notifyAll (s : System T) : System T := { s with phase := fun w => (s.phase w).notified }

def report (s : System T) (w : WorkerId) (e : Event T) : System T :=
  { s.setPhase w .running with log := s.log ++ [(w, e)] }


@[simp] theorem notifyAll_hub (s : System T) : s.notifyAll.hub = s.hub := rfl

@[simp] theorem report_hub (s : System T) (w : WorkerId) (e : Event T) : (s.report w e).hub = s.hub := rfl

/-- What a call interrupted by the cancellation reports. -/
def interruption (cause : CancelCause) : Call T → Event T
  | .send .. | .sendTimeout .. => .refused (.cancelled cause)
  | .recvAny _ | .recvTimeout _ => .interrupted cause

/-- Registers, looks for a deadlock, sleeps. Once the run is cancelled the loop
around the wait reports the cause. -/
def wait (s : System T) (w : WorkerId) (call : Call T) (what : Wait) : System T :=
  let hub := (s.hub.register w what).detectDeadlock
  match hub.cancel with
  | some cause => ({ s with hub := hub.unregister w }.notifyAll).report w (interruption cause call)
  | none => { s with hub := hub }.setPhase w (.asleep call)

def waitUntil (s : System T) (w : WorkerId) (call : Call T) (what : Wait) (expired : Bool) : System T :=
  let hub := (s.hub.register w what).detectDeadlock
  if hub.cancel.isSome then ({ s with hub := hub.unregister w }.notifyAll).setPhase w (.trying call)
  else if expired then { s with hub := hub.unregister w }.setPhase w (.trying call)
  else { s with hub := hub }.setPhase w (.asleep call)

/-- One look of a send at its channels; `blocked` says what happens when one of
them is full. -/
def sendOnce (s : System T) (w : WorkerId) (chans : List ChannelId) (v : T)
    (blocked : ChannelId → System T) : System T :=
  match s.hub.offer chans v with
  | .stopped why => s.report w (.refused why)
  | .full c => blocked c
  | .sent live hub => ({ s with hub := hub }.notifyAll).report w (.sent live v)

/-- One look of a receive at its channels; `blocked` is what happens when there
is nothing to read yet. -/
def recvOnce (s : System T) (w : WorkerId) (chans : List ChannelId) (blocked : System T) : System T :=
  match s.hub.take chans with
  | .cancelled cause => s.report w (.interrupted cause)
  | .taken i c v hub => ({ s with hub := hub }.notifyAll).report w (.received i c v)
  | .ended => s.report w (.ended chans)
  | .empty => blocked

def turn (s : System T) (w : WorkerId) (expired : Bool) : Call T → System T
  | .send chans v => s.sendOnce w chans v fun c => s.wait w (.send chans v) (.send c)
  | .recvAny chans => s.recvOnce w chans (s.wait w (.recvAny chans) (.recv chans))
  | .sendTimeout chans v =>
    s.sendOnce w chans v fun _ =>
      if expired then s.report w (.full v) else s.setPhase w (.parking (.sendTimeout chans v))
  | .recvTimeout chans =>
    s.recvOnce w chans (if expired then s.report w .empty else s.setPhase w (.parking (.recvTimeout chans)))

/-- The second holding of the lock of a timed call. -/
def park (s : System T) (w : WorkerId) (expired : Bool) : Call T → System T
  | .sendTimeout chans v =>
    match chans.find? fun c => (s.hub.channels c).isFull with
    | some c => s.waitUntil w (.sendTimeout chans v) (.send c) expired
    | none => s.setPhase w (.trying (.sendTimeout chans v))
  | .recvTimeout chans => s.waitUntil w (.recvTimeout chans) (.recv chans) expired
  | call => s.setPhase w (.trying call)

def isLiving (s : System T) (w : WorkerId) : Bool := (s.hub.names w).isSome

def isFree (s : System T) (w : WorkerId) : Bool :=
  s.isLiving w && match s.phase w with
    | .running => true
    | _ => false

def channelsExist (s : System T) (chans : List ChannelId) : Bool := chans.all (· < s.hub.numChannels)

/-- One holding of the lock. A call on a channel that does not exist panics and
is no step; only the detector cancels for a deadlock. -/
def step (s : System T) : Action T → Option (System T)
  | .call w call =>
    if s.isFree w && s.channelsExist call.chans then
      some (if call.timed then s.setPhase w (.trying call) else s.turn w false call)
    else none
  | .trySend w chans v =>
    if s.isFree w && s.channelsExist chans then
      some (s.sendOnce w chans v fun _ => s.report w (.full v))
    else none
  | .tryRecv w chans =>
    if s.isFree w && s.channelsExist chans then
      some (s.recvOnce w chans (s.report w .empty))
    else none
  | .wake w =>
    match s.phase w with
    | .asleep call => some (s.setPhase w (.woken call))
    | _ => none
  | .resume w expired =>
    match s.phase w with
    | .woken call =>
      let s := { s with hub := s.hub.unregister w }
      some (if call.timed then s.setPhase w (.trying call) else s.turn w expired call)
    | .trying call => some (s.turn w expired call)
    | .parking call => some (s.park w expired call)
    | _ => none
  | .releaseSender w c =>
    if s.isFree w && s.channelsExist [c] then
      some (({ s with hub := s.hub.releaseSender c }.notifyAll).report w (.releasedSender c))
    else none
  | .releaseReceiver w c =>
    if s.isFree w && s.channelsExist [c] then
      some (({ s with hub := s.hub.releaseReceiver c }.notifyAll).report w (.releasedReceiver c))
    else none
  | .workerDone w =>
    if s.isFree w then some ({ s with hub := s.hub.workerDone w }.notifyAll) else none
  | .cancel cause =>
    if cause.isDeadlock then none else some ({ s with hub := s.hub.setCancel cause }.notifyAll)

end System

/-- The counts a channel is created with. -/
structure ChannelSpec where
  label : String
  capacity : Nat
  senders : Nat
  receivers : Nat

def Hub.setUp (specs : List ChannelSpec) (names : List String) : Hub T :=
  names.foldl Hub.worker (specs.foldl (fun s c => s.channel c.label c.capacity c.senders c.receivers) Hub.new)

def System.start (specs : List ChannelSpec) (names : List String) : System T :=
  ⟨Hub.setUp specs names, fun _ => .running, []⟩

/-- A hub before the first step of its workers. -/
structure Hub.Fresh (h : Hub T) : Prop where
  waiting : ∀ w, h.waiting w = none
  known : ∀ w, (h.names w).isSome → w < h.nextId
  buf : ∀ c, (h.channels c).buf = []
  cancel : h.cancel = none

theorem Hub.Fresh.channel {h : Hub T} (hf : h.Fresh) (label : String) (capacity senders receivers : Nat) :
    (h.channel label capacity senders receivers).Fresh where
  waiting := hf.waiting
  known := hf.known
  buf c := by
    by_cases hc : c = h.numChannels
    · simp [Hub.channel, hc]
    · simpa [Hub.channel, hc] using hf.buf c
  cancel := hf.cancel

theorem Hub.Fresh.worker {h : Hub T} (hf : h.Fresh) (name : String) : (h.worker name).Fresh where
  waiting := hf.waiting
  known w hw := by
    by_cases hn : w = h.nextId
    · exact hn ▸ Nat.lt_succ_self _
    · exact Nat.lt_succ_of_lt (hf.known w (by simpa [Hub.worker, hn] using hw))
  buf := hf.buf
  cancel := hf.cancel

theorem Hub.setUp_fresh (specs : List ChannelSpec) (names : List String) : (Hub.setUp (T := T) specs names).Fresh := by
  refine List.foldlRecOn names _ ?_ fun h hf name _ => hf.worker name
  refine List.foldlRecOn specs _ ?_ fun h hf spec _ => hf.channel ..
  exact ⟨fun _ => rfl, fun _ hw => absurd hw (by simp [Hub.new]), fun _ => rfl, rfl⟩

end Rag3db.Weaver
