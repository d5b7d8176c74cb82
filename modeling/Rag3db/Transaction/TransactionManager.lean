import Rag3db.Transaction.LockManager

namespace Rag3db.Transaction

inductive TransactionType
  | readOnly
  | write
  | recovery
  deriving DecidableEq, Repr

/-- What the manager reads of an open transaction. After a statement has
failed, or its commit has raised, only a rollback is left to it. -/
structure ActiveTransaction where
  id : TransactionId
  type : TransactionType
  startTS : Nat
  snapshotFloorTS : Nat
  forceCheckpoint : Bool := false
  preCommitActions : Bool := false
  written : Bool := false
  failed : Bool := false
  commitRaised : Bool := false
  deriving DecidableEq, Repr

structure Config where
  inMemory : Bool
  enableMultiWrites : Bool
  autoCheckpoint : Bool
  deriving DecidableEq, Repr

namespace ActiveTransaction

def start (id : TransactionId) (type : TransactionType) (startTS : Nat) : ActiveTransaction :=
  { id, type, startTS, snapshotFloorTS := startTS }

def shouldLogToWAL (config : Config) (x : ActiveTransaction) : Bool :=
  x.type = .write && !config.inMemory

def shouldForceCheckpoint (config : Config) (x : ActiveTransaction) : Bool :=
  !config.inMemory && x.forceCheckpoint

/-- `exceeds` says whether the journals together pass the threshold. -/
def canAutoCheckpoint (config : Config) (x : ActiveTransaction) (exceeds : Bool) : Bool :=
  !config.inMemory && config.autoCheckpoint && x.type ≠ .recovery && exceeds

/-- A commit that waits for the others to leave although no checkpoint
follows it. -/
def waitsWithoutCheckpoint (config : Config) (x : ActiveTransaction) : Bool :=
  !x.shouldForceCheckpoint config && x.preCommitActions

end ActiveTransaction

/-- Whose checkpoint is written: that of a forced commit, the automatic one of
a commit, the requested one written by the last to leave, the one a queued
commit writes itself, or an explicit CHECKPOINT. -/
inductive Origin
  | forced (t : TransactionId)
  | auto (t : TransactionId)
  | requested (t : TransactionId)
  | queue (t : TransactionId)
  | explicit
  deriving DecidableEq, Repr

/-- What the others must leave for. -/
inductive Purpose
  | forced (t : TransactionId)
  | preCommit (t : TransactionId)
  | checkpoint (origin : Origin)
  deriving DecidableEq, Repr

def Purpose.staying : Purpose → Option TransactionId
  | forced t | preCommit t => some t
  | checkpoint _ => none

def Purpose.readersToo : Purpose → Bool
  | forced _ | preCommit _ => true
  | checkpoint _ => false

/-- The three waits of `stopNewTransactionsAndWaitForOthersNoLock`: for the
checkpoint before, for the others to leave or queue up, for the queue. -/
inductive Phase
  | pending
  | others
  | queued
  deriving DecidableEq, Repr

/-- Where a thread stands that has released the public lock inside a call. -/
inductive Wait
  | queued (t : TransactionId)
  | queueDone (t : TransactionId) (ticket : Nat)
  | stopping (purpose : Purpose) (phase : Phase)
  | writing (origin : Origin) (number : Nat) (carriesForcedCommit : Bool)
  deriving DecidableEq, Repr

def Wait.transaction : Wait → Option TransactionId
  | queued t => some t
  | stopping purpose _ => purpose.staying
  | queueDone _ _ | writing _ _ _ => none

inductive Event
  | began (t : TransactionId) (type : TransactionType)
  | applied (t : TransactionId) (commitTS oldestActiveStartTS : Nat) (forced : Bool)
  | appended (commitTS : Nat)
  | raised (t : TransactionId)
  | returned (t : TransactionId)
  | started (number checkpointTS : Nat)
  | completed (number checkpointTS : Nat)
  | condemned
  deriving DecidableEq, Repr

abbrev ThreadId := Nat

/-- The transaction manager with the threads that wait in it, and the history
of what they did, latest first. -/
structure TransactionManager where
  config : Config
  opened : Bool := false
  activeTransactions : List ActiveTransaction := []
  lastTransactionID : Nat := 2 ^ 63
  lastTimestamp : Nat := 1
  checkpointPending : Bool := false
  checkpointWriting : Bool := false
  checkpointTS : Nat := 0
  oldestReaderTS : Nat := 0
  queuedCheckpointCommits : List TransactionId := []
  commitQueuedNow : Bool := false
  autoCheckpointRequested : Bool := false
  lastBlockingTransactionID : Nat := 0
  checkpointsStarted : Nat := 0
  lastCompletedCheckpoint : Nat := 0
  checkpointFailed : Bool := false
  rollbackFailed : Bool := false
  checkpointCarriesForcedCommit : Bool := false
  threads : AList (fun _ : ThreadId => Wait) := ∅
  trace : List Event := []

end Rag3db.Transaction
