import Mathlib

open List

namespace Rag3db.Weaver

abbrev ChannelId := Nat

abbrev WorkerId := Nat

/-- Why a run stops before its end. -/
inductive CancelCause
  | failed (node : String)
  | deadlock (why : String)
  | external
  deriving DecidableEq, Repr

/-- Why a send did not take place. -/
inductive Stopped
  | noReader
  | cancelled (cause : CancelCause)
  deriving DecidableEq, Repr

structure Channel (T : Type) where
  label : String
  buf : List T
  capacity : Nat
  senders : Nat
  receivers : Nat

inductive Wait
  | recv (chans : List ChannelId)
  | send (chan : ChannelId)
  deriving DecidableEq, Repr

/-- What the lock of a hub protects. The names of the living workers and the
waits are maps over the worker numbers given out so far. -/
structure Hub (T : Type) where
  channels : ChannelId → Channel T
  numChannels : Nat
  names : WorkerId → Option String
  nextId : WorkerId
  waiting : WorkerId → Option Wait
  cancel : Option CancelCause

namespace Channel

variable {T : Type}

def isFull (c : Channel T) : Bool := c.capacity ≤ c.buf.length

def isRead (c : Channel T) : Bool := 0 < c.receivers

def isClosed (c : Channel T) : Bool := c.senders == 0

def push (v : T) (c : Channel T) : Channel T := { c with buf := c.buf ++ [v] }

end Channel

namespace Hub

variable {T : Type}

def new : Hub T where
  channels := fun _ => ⟨"", [], 1, 0, 0⟩
  numChannels := 0
  names := fun _ => none
  nextId := 0
  waiting := fun _ => none
  cancel := none

def modify (s : Hub T) (c : ChannelId) (f : Channel T → Channel T) : Hub T :=
  { s with channels := Function.update s.channels c (f (s.channels c)) }

def channel (s : Hub T) (label : String) (capacity senders receivers : Nat) : Hub T :=
  { s with
    channels := Function.update s.channels s.numChannels ⟨label, [], max capacity 1, senders, receivers⟩
    numChannels := s.numChannels + 1 }

def worker (s : Hub T) (name : String) : Hub T :=
  { s with names := Function.update s.names s.nextId (some name), nextId := s.nextId + 1 }

def setCancel (s : Hub T) (cause : CancelCause) : Hub T :=
  if s.cancel.isSome then s else { s with cancel := some cause }

def living (s : Hub T) : List WorkerId := (List.range s.nextId).filter fun w => (s.names w).isSome

def waits (s : Hub T) : List (WorkerId × Wait) :=
  (List.range s.nextId).filterMap fun w => (s.waiting w).map (w, ·)

/-- Whether the detector takes a wait for one that is about to be served. -/
def servable (s : Hub T) : Wait → Bool
  | .recv chans => chans.any fun c => !(s.channels c).buf.isEmpty || (s.channels c).isClosed
  | .send c => !(s.channels c).isFull || !(s.channels c).isRead

def describe (s : Hub T) : Wait → String
  | .recv chans =>
    "attend une lecture sur " ++ String.intercalate ", " (chans.map fun c => (s.channels c).label)
  | .send c => "attend d'écrire sur " ++ (s.channels c).label ++ ", plein"

def deadlockCause (s : Hub T) : CancelCause :=
  .deadlock (String.intercalate " ; " (s.waits.map fun p => (s.names p.1).getD "?" ++ " " ++ s.describe p.2))

def detectDeadlock (s : Hub T) : Hub T :=
  if s.cancel.isSome || s.living.isEmpty then s
  -- a worker outside the register of waits is alive: nothing is declared
  else if s.living.any fun w => (s.waiting w).isNone then s
  else if s.waits.any fun p => s.servable p.2 then s
  else s.setCancel s.deadlockCause

def register (s : Hub T) (w : WorkerId) (what : Wait) : Hub T :=
  { s with waiting := Function.update s.waiting w (some what) }

def unregister (s : Hub T) (w : WorkerId) : Hub T :=
  { s with waiting := Function.update s.waiting w none }

def workerDone (s : Hub T) (w : WorkerId) : Hub T :=
  ({ s with names := Function.update s.names w none }.unregister w).detectDeadlock

def releaseSender (s : Hub T) (c : ChannelId) : Hub T :=
  s.modify c fun ch => { ch with senders := ch.senders - 1 }

def releaseReceiver (s : Hub T) (c : ChannelId) : Hub T :=
  s.modify c fun ch =>
    { ch with
      receivers := ch.receivers - 1
      buf := if ch.receivers - 1 = 0 then [] else ch.buf }

def pushAll (s : Hub T) (live : List ChannelId) (v : T) : Hub T :=
  live.foldl (fun s c => s.modify c (Channel.push v)) s

/-- What one look at the channels of a send finds. -/
inductive Offer (T : Type)
  | stopped (why : Stopped)
  | full (chan : ChannelId)
  | sent (live : List ChannelId) (hub : Hub T)

def offer (s : Hub T) (chans : List ChannelId) (v : T) : Offer T :=
  match s.cancel with
  | some cause => .stopped (.cancelled cause)
  | none =>
    let live := chans.filter fun c => (s.channels c).isRead
    if live.isEmpty then .stopped .noReader
    else
      match live.find? fun c => (s.channels c).isFull with
      | some full => .full full
      | none => .sent live (s.pushAll live v)

/-- What one look at the channels of a receive finds. -/
inductive Take (T : Type)
  | cancelled (cause : CancelCause)
  | taken (position : Nat) (chan : ChannelId) (v : T) (hub : Hub T)
  | ended
  | empty

def front (s : Hub T) (chans : List ChannelId) : Option (Nat × ChannelId × T) :=
  chans.zipIdx.findSome? fun p => (s.channels p.1).buf.head?.map fun v => (p.2, p.1, v)

def take (s : Hub T) (chans : List ChannelId) : Take T :=
  match s.cancel with
  | some cause => .cancelled cause
  | none =>
    match s.front chans with
    | some (i, c, v) => .taken i c v (s.modify c fun ch => { ch with buf := ch.buf.tail })
    | none => if chans.all fun c => (s.channels c).isClosed then .ended else .empty

section

variable {h h' : Hub T} {chans live : List ChannelId} {c : ChannelId} {v : T} {i : Nat}

theorem offer_eq_full : h.offer chans v = .full c ↔
      h.cancel = none ∧ (chans.filter fun c => (h.channels c).isRead).find?
        (fun c => (h.channels c).isFull) = some c := by
  unfold offer
  cases h.cancel with
  | some cause => simp
  | none =>
    dsimp only
    split_ifs with he
    · simp [isEmpty_iff.mp he]
    · cases hf : (chans.filter fun c => (h.channels c).isRead).find? (fun c => (h.channels c).isFull) <;> simp

theorem offer_eq_sent (ho : h.offer chans v = .sent live h') :
    h.cancel = none ∧ live = chans.filter (fun c => (h.channels c).isRead) ∧ live ≠ [] ∧
      (∀ c ∈ live, (h.channels c).isFull = false) ∧ h' = h.pushAll live v := by
  unfold offer at ho
  cases hc : h.cancel with
  | some cause => simp [hc] at ho
  | none =>
    simp only [hc] at ho
    split_ifs at ho with he
    split at ho
    · cases ho
    · cases ho
      rename_i hf
      simp only [find?_eq_none, Bool.not_eq_true] at hf
      exact ⟨rfl, rfl, by simpa using he, hf, rfl⟩

theorem front_eq_none : h.front chans = none ↔ ∀ c ∈ chans, (h.channels c).buf = [] := by
  simp only [front, findSome?_eq_none_iff, Option.map_eq_none_iff, head?_eq_none_iff]
  constructor
  · intro hn c hc
    obtain ⟨i, hi, rfl⟩ := mem_iff_getElem.mp hc
    exact hn (chans[i], i) (mem_zipIdx_iff_getElem?.mpr (getElem?_eq_getElem hi))
  · intro hn p hp
    exact hn p.1 (fst_mem_of_mem_zipIdx hp)

theorem take_eq_taken (ht : h.take chans = .taken i c v h') : h.cancel = none ∧ h.front chans = some (i, c, v) ∧
      h' = h.modify c fun ch => { ch with buf := ch.buf.tail } := by
  unfold take at ht
  cases hc : h.cancel with
  | some cause => simp [hc] at ht
  | none =>
    simp only [hc] at ht
    split at ht
    · cases ht
      exact ⟨rfl, ‹_›, rfl⟩
    · split_ifs at ht

theorem take_eq_ended (ht : h.take chans = .ended) : h.cancel = none ∧ (∀ c ∈ chans, (h.channels c).buf = []) ∧
      ∀ c ∈ chans, (h.channels c).isClosed = true := by
  unfold take at ht
  cases hc : h.cancel with
  | some cause => simp [hc] at ht
  | none =>
    simp only [hc] at ht
    split at ht
    · cases ht
    · rename_i hf
      split_ifs at ht with ha
      exact ⟨rfl, front_eq_none.mp hf, all_eq_true.mp ha⟩

end

end Hub

end Rag3db.Weaver
