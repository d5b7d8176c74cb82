import Mathlib
import Rag3db.Library.Digraph

namespace Rag3db.Transaction

open Library.Digraph

abbrev TransactionId := Nat

inductive LockMode
  | shared
  | exclusive
  deriving DecidableEq, Repr

def LockMode.value : LockMode → Nat
  | shared => 0
  | exclusive => 1

inductive LockResourceKind
  | row
  | index
  deriving DecidableEq, Repr

def LockResourceKind.value : LockResourceKind → Nat
  | row => 0
  | index => 1

instance byteSizeNeZero : NeZero 256 := ⟨by decide⟩

/-- A resource; `value` holds the bytes of the key of a row, and is empty for
an index. -/
structure LockResource where
  kind : LockResourceKind
  tableID : Nat
  value : List (Fin 256)
  deriving DecidableEq, Repr

def LockResource.fields (r : LockResource) : ℕ ×ₗ ℕ ×ₗ List (Fin 256) :=
  toLex (r.kind.value, toLex (r.tableID, r.value))

theorem LockResource.fields_injective : Function.Injective LockResource.fields := by
  rintro ⟨k, i, v⟩ ⟨k', i', v'⟩ h
  simp only [fields] at h
  cases k <;> cases k' <;> simp_all [LockResourceKind.value]

/-- The default three-way comparison of the source: field by field, in the
order of declaration. -/
instance : LinearOrder LockResource := LinearOrder.lift' LockResource.fields LockResource.fields_injective

@[ext] structure LockRequest where
  resource : LockResource
  mode : LockMode
  deriving DecidableEq, Repr

inductive LockOutcome
  | acquired
  | deadlock
  | timeout
  | interrupted
  deriving DecidableEq, Repr

structure Waiter where
  transactionID : TransactionId
  mode : LockMode
  deriving DecidableEq, Repr

structure ResourceState where
  holders : AList fun _ : TransactionId => LockMode := ∅
  waiters : List Waiter := []
  deriving DecidableEq

/-- What a waiting thread reads at one turn of its loop: whether its
connection was interrupted, whether its deadline has passed. -/
structure Poll where
  interrupted : Bool
  expired : Bool
  deriving DecidableEq, Repr

structure LockManager where
  resources : AList fun _ : LockResource => ResourceState := ∅
  heldBy : AList fun _ : TransactionId => List LockResource := ∅
  waitingFor : AList fun _ : TransactionId => LockResource := ∅

/-- The comparison given to the sort of a grouped acquire. -/
def LockRequest.before (a b : LockRequest) : Prop :=
  if a.resource ≠ b.resource then a.resource < b.resource else a.mode.value > b.mode.value

instance (a b : LockRequest) : Decidable (a.before b) :=
  inferInstanceAs (Decidable (if a.resource ≠ b.resource then _ else _))

/-- The requests in the one order of grouped acquires: by resource, each
resource once, in its strongest mode. -/
def ordered (requests : List LockRequest) : List LockRequest :=
  (requests.insertionSort fun a b => ¬ b.before a).destutter (·.resource ≠ ·.resource)

def incompatible (mode other : LockMode) : Bool :=
  mode = .exclusive || other = .exclusive

def canGrantNoLock (state : ResourceState) (t : TransactionId) (mode : LockMode) (positionInQueue : Nat) : Bool :=
  if state.holders.entries.any fun h => h.1 ≠ t && incompatible mode h.2 then false
  else if t ∈ state.holders then true
  else !(state.waiters.take positionInQueue).any fun w => incompatible mode w.mode

def collectBlockersNoLock (state : ResourceState) (t : TransactionId) (mode : LockMode)
    (positionInQueue : Nat) : List TransactionId :=
  let holders := (state.holders.entries.filter fun h => h.1 ≠ t && incompatible mode h.2).map (·.1)
  if t ∈ state.holders then holders
  else holders ++ ((state.waiters.take positionInQueue).filter fun w =>
    w.transactionID ≠ t && incompatible mode w.mode).map (·.transactionID)

def removeWaiterNoLock (state : ResourceState) (t : TransactionId) : ResourceState :=
  { state with waiters := state.waiters.filter (·.transactionID ≠ t) }

/-- The holders once a request is granted: a new holder gets the mode it
asked for, a holder only ever moves from shared to exclusive. -/
def grantedHolders (holders : AList fun _ : TransactionId => LockMode) (t : TransactionId)
    (mode : LockMode) : AList fun _ : TransactionId => LockMode :=
  if t ∈ holders then
    if mode = .exclusive then holders.insert t .exclusive else holders
  else holders.insert t mode

namespace LockManager

variable (m : LockManager) (t : TransactionId) (request : LockRequest)

def stateOf (r : LockResource) : ResourceState := (m.resources.lookup r).getD {}

def setState (r : LockResource) (state : ResourceState) : LockManager :=
  { m with resources := m.resources.insert r state }

def setHeld (resources : List LockResource) : LockManager :=
  { m with heldBy := m.heldBy.insert t resources }

def setWaiting (r : LockResource) : LockManager :=
  { m with waitingFor := m.waitingFor.insert t r }

def clearWaiting : LockManager :=
  { m with waitingFor := m.waitingFor.erase t }

def held : List LockResource := (m.heldBy.lookup t).getD []

def blockersOf : List TransactionId :=
  match m.waitingFor.lookup t with
  | none => []
  | some r =>
    match m.resources.lookup r with
    | none => []
    | some state =>
      match state.waiters.find? (·.transactionID = t) with
      | none => []
      | some self => collectBlockersNoLock state t self.mode (state.waiters.findIdx (·.transactionID = t))

def reachesNoLock (target : TransactionId) : TransactionId → List TransactionId → Bool × List TransactionId :=
  reaches m.blockersOf target (m.waitingFor.entries.length + 1)

def closesCycle (blockers : List TransactionId) : Bool :=
  (searchAll (m.reachesNoLock t) blockers []).1

def eraseIfUnusedNoLock (r : LockResource) : LockManager :=
  match m.resources.lookup r with
  | none => m
  | some state =>
    if state.holders.entries = [] ∧ state.waiters = [] then
      { m with resources := m.resources.erase r }
    else m

def grant : LockManager :=
  let state := m.stateOf request.resource
  let granted := m.setState request.resource { state with holders := grantedHolders state.holders t request.mode }
  if t ∈ state.holders then granted
  else granted.setHeld t (m.held t ++ [request.resource])

def joinTheQueue : LockManager :=
  let state := m.stateOf request.resource
  (m.setState request.resource
    { state with waiters := state.waiters ++ [⟨t, request.mode⟩] }).setWaiting t request.resource

def leaveTheQueue : LockManager :=
  (m.setState request.resource (removeWaiterNoLock (m.stateOf request.resource) t)).clearWaiting t

/-- One turn of the waiting loop; without an outcome the thread goes on
waiting. -/
def waitTurn (poll : Poll) : LockManager × Option LockOutcome :=
  let state := m.stateOf request.resource
  let position := state.waiters.findIdx (·.transactionID = t)
  if canGrantNoLock state t request.mode position then
    ((m.leaveTheQueue t request).grant t request, some .acquired)
  else if poll.interrupted then
    ((m.leaveTheQueue t request).eraseIfUnusedNoLock request.resource, some .interrupted)
  else if poll.expired then
    ((m.leaveTheQueue t request).eraseIfUnusedNoLock request.resource, some .timeout)
  else (m, none)

/-- A request up to the point where its thread waits, first turn included. -/
def acquireOneNoLock (poll : Poll) : LockManager × Option LockOutcome :=
  let state := m.stateOf request.resource
  let m := m.setState request.resource state
  if state.holders.lookup t = some .exclusive ∨ (t ∈ state.holders ∧ request.mode = .shared) then (m, some .acquired)
  else if canGrantNoLock state t request.mode state.waiters.length then
    (m.grant t request, some .acquired)
  else if m.closesCycle t (collectBlockersNoLock state t request.mode state.waiters.length) then
    (m.eraseIfUnusedNoLock request.resource, some .deadlock)
  else (m.joinTheQueue t request).waitTurn t request poll

end LockManager

/-- Where a grouped acquire stands: returned, with the resource it failed on,
or waiting for one request with others to come. -/
inductive Progress
  | returned (outcome : LockOutcome) (failedOn : Option LockResource)
  | waiting (request : LockRequest) (rest : List LockRequest)
  deriving DecidableEq, Repr

/-- What one request makes of a grouped acquire: the loop goes on only after
a lock that was granted. -/
def Progress.next (request : LockRequest) (rest : List LockRequest)
    (go : LockManager → LockManager × Progress) : LockManager × Option LockOutcome → LockManager × Progress
  | (m, some .acquired) => go m
  | (m, some outcome) => (m, .returned outcome (some request.resource))
  | (m, none) => (m, .waiting request rest)

namespace LockManager

/-- The loop of a grouped acquire over the requests that remain. -/
def acquireRest (t : TransactionId) (poll : LockRequest → Poll) :
    List LockRequest → LockManager → LockManager × Progress
  | [], m => (m, .returned .acquired none)
  | request :: rest, m =>
    Progress.next request rest (acquireRest t poll rest) (m.acquireOneNoLock t request (poll request))

def acquire (m : LockManager) (t : TransactionId) (requests : List LockRequest)
    (poll : LockRequest → Poll) : LockManager × Progress :=
  acquireRest t poll (ordered requests) m

/-- A thread that waits for `request` wakes up, and takes the remaining
requests once it is served. -/
def wakeUp (m : LockManager) (t : TransactionId) (request : LockRequest) (rest : List LockRequest)
    (poll : LockRequest → Poll) : LockManager × Progress :=
  Progress.next request rest (acquireRest t poll rest) (m.waitTurn t request (poll request))

def releaseOne (t : TransactionId) (m : LockManager) (r : LockResource) : LockManager :=
  match m.resources.lookup r with
  | none => m
  | some state =>
    (m.setState r { state with holders := state.holders.erase t }).eraseIfUnusedNoLock r

def releaseAll (m : LockManager) (t : TransactionId) : LockManager :=
  match m.heldBy.lookup t with
  | none => m
  | some held => { held.foldl (releaseOne t) m with heldBy := m.heldBy.erase t }

end LockManager

/-- A thread blocked in a grouped acquire. -/
structure Call where
  request : LockRequest
  rest : List LockRequest
  deriving DecidableEq, Repr

/-- The lock manager and the threads that wait in it, at most one for each
transaction. -/
structure LockSystem where
  manager : LockManager := {}
  calls : AList fun _ : TransactionId => Call := ∅

inductive LockAction
  | acquire (t : TransactionId) (requests : List LockRequest) (poll : LockRequest → Poll)
  | wakeUp (t : TransactionId) (poll : LockRequest → Poll)
  | releaseAll (t : TransactionId)

namespace LockSystem

def settle (s : LockSystem) (t : TransactionId) : LockManager × Progress → LockSystem
  | (m, .returned _ _) => ⟨m, s.calls.erase t⟩
  | (m, .waiting request rest) => ⟨m, s.calls.insert t ⟨request, rest⟩⟩

/-- One atomic step, from a lock of the mutex to its release, with where the
call stands after it. -/
def perform (s : LockSystem) : LockAction → Option (LockSystem × Option Progress)
  | .acquire t requests poll =>
    if t ∈ s.calls then none
    else
      let result := s.manager.acquire t requests poll
      some (s.settle t result, some result.2)
  | .wakeUp t poll =>
    match s.calls.lookup t with
    | none => none
    | some call =>
      let result := s.manager.wakeUp t call.request call.rest poll
      some (s.settle t result, some result.2)
  | .releaseAll t => some (⟨s.manager.releaseAll t, s.calls⟩, none)

def step (s : LockSystem) (a : LockAction) : Option LockSystem := (s.perform a).map (·.1)

end LockSystem

end Rag3db.Transaction
