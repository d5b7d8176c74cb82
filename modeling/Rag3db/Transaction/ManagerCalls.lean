import Rag3db.Transaction.TransactionManager

namespace Rag3db.Transaction

/-- How `Transaction::commit` ends: done, or raised before or after its
records reached the journal. -/
inductive CommitResult
  | done
  | raised (appended : Bool)
  deriving DecidableEq, Repr

/-- What a commit meets outside the manager. -/
structure CommitInput where
  result : CommitResult := .done
  exceeds : Bool := false
  deriving DecidableEq, Repr

/-- How `writeCheckpoint` ends: complete, or failed with the structures
served from memory changed or not. -/
inductive WriteResult
  | completed
  | failed (changedMemory : Bool)
  deriving DecidableEq, Repr

/-- How the undoing of a transaction ends: done, or raised, with part of the
shared storage undone or none of it. -/
inductive UndoResult
  | done
  | raised (halfDone : Bool)
  deriving DecidableEq, Repr

/-- How a wait for the others ends, or that it goes on. -/
inductive Verdict
  | waits (phase : Phase)
  | timedOut
  | passed
  deriving DecidableEq, Repr

namespace TransactionManager

variable (s : TransactionManager) (i : ThreadId) (t : TransactionId)

def emit (e : Event) : TransactionManager := { s with trace := e :: s.trace }

def park (w : Wait) : TransactionManager := { s with threads := s.threads.insert i w }

def leave : TransactionManager := { s with threads := s.threads.erase i }

def returns : TransactionManager := (s.leave i).emit (.returned t)

def hasActiveWriteTransactionNoLock : Bool := s.activeTransactions.any (·.type = .write)

def refuses : Bool := s.rollbackFailed || s.checkpointFailed

def allowNewTransactionsNoLock : TransactionManager := { s with checkpointPending := false }

def clearTransactionNoLock : TransactionManager :=
  { s with activeTransactions := s.activeTransactions.filter (·.id ≠ t) }

def modify (f : ActiveTransaction → ActiveTransaction) : TransactionManager :=
  { s with activeTransactions := s.activeTransactions.map fun x => if x.id = t then f x else x }

def oldestActiveSnapshotNoLock (commitTS : Nat) : Nat :=
  s.activeTransactions.foldl (fun oldest x =>
    if x.id ≠ t ∧ x.snapshotFloorTS < oldest then x.snapshotFloorTS else oldest) commitTS

def cancelAutoCheckpointRequestNoLock : TransactionManager :=
  { s with
    autoCheckpointRequested := false
    lastBlockingTransactionID := s.activeTransactions.foldl (fun last (x : ActiveTransaction) => max last x.id)
      s.lastBlockingTransactionID }.allowNewTransactionsNoLock

def othersLeftOrQueued (p : Purpose) : Bool :=
  s.activeTransactions.all fun x =>
    some x.id = p.staying || (!p.readersToo && x.type = .readOnly) || x.id ∈ s.queuedCheckpointCommits

def othersLeft (p : Purpose) : Bool :=
  s.activeTransactions.all fun x => some x.id = p.staying || (!p.readersToo && x.type = .readOnly)

def stopQueuedTurn (p : Purpose) (expired : Bool) : TransactionManager × Verdict :=
  if s.othersLeft p then ({ s with commitQueuedNow := false }, .passed)
  else if expired then ({ s with commitQueuedNow := false }.allowNewTransactionsNoLock, .timedOut)
  else (s, .waits .queued)

def stopOthersTurn (p : Purpose) (expired : Bool) : TransactionManager × Verdict :=
  if s.othersLeftOrQueued p then
    if s.queuedCheckpointCommits = [] then (s, .passed)
    else { s with commitQueuedNow := true }.stopQueuedTurn p false
  else if expired then (s.allowNewTransactionsNoLock, .timedOut)
  else (s, .waits .others)

def stopNewTransactionsAndWaitForOthersNoLock (p : Purpose) : TransactionManager × Verdict :=
  if s.autoCheckpointRequested then
    { s with autoCheckpointRequested := false, checkpointPending := true }.stopOthersTurn p false
  else if s.checkpointPending then (s, .waits .pending)
  else { s with checkpointPending := true }.stopOthersTurn p false

def stopTurn (p : Purpose) (expired : Bool) : Phase → TransactionManager × Verdict
  | .pending =>
    if s.checkpointPending then (s, .waits .pending)
    else { s with checkpointPending := true }.stopOthersTurn p false
  | .others => s.stopOthersTurn p expired
  | .queued => s.stopQueuedTurn p expired

/-- The checkpoint takes its timestamps and its number, and is written with
the public lock released. -/
def startWriting (origin : Origin) : TransactionManager :=
  ({ s with
    checkpointTS := s.lastTimestamp
    oldestReaderTS := s.activeTransactions.foldl (fun oldest (x : ActiveTransaction) =>
      if x.snapshotFloorTS < oldest then x.snapshotFloorTS else oldest) s.lastTimestamp
    checkpointsStarted := s.checkpointsStarted + 1
    checkpointCarriesForcedCommit := false
    checkpointWriting := true }.emit (.started (s.checkpointsStarted + 1) s.lastTimestamp)).park i
    (.writing origin (s.checkpointsStarted + 1) s.checkpointCarriesForcedCommit)

def afterStop (p : Purpose) (goOn : TransactionManager → TransactionManager) :
    TransactionManager × Verdict → TransactionManager
  | (s, .waits phase) => s.park i (.stopping p phase)
  | (s, .timedOut) => s.leave i
  | (s, .passed) => goOn s

def afterCheckpointStop (origin : Origin) : TransactionManager × Verdict → TransactionManager :=
  afterStop i (.checkpoint origin) fun s => s.startWriting i origin

/-- `checkpointNoLock` when new transactions are not stopped yet. -/
def checkpointNoLock (origin : Origin) : TransactionManager :=
  afterCheckpointStop i origin (s.stopNewTransactionsAndWaitForOthersNoLock (.checkpoint origin))

def writeRequestedCheckpointIfLastNoLock : TransactionManager :=
  if s.autoCheckpointRequested && !s.hasActiveWriteTransactionNoLock then
    { s with autoCheckpointRequested := false }.startWriting i (.requested t)
  else s.returns i t

def commitRaises (x : ActiveTransaction) (appended : Bool) : TransactionManager :=
  let s := if appended && x.shouldLogToWAL s.config && !x.shouldForceCheckpoint s.config then
      s.emit (.appended s.lastTimestamp) else s
  (s.modify x.id fun y => { y with commitRaised := true }).emit (.raised x.id)

def commitApplies (x : ActiveTransaction) : TransactionManager :=
  let forced := x.shouldForceCheckpoint s.config
  let applied := s.emit (.applied x.id s.lastTimestamp (s.oldestActiveSnapshotNoLock x.id s.lastTimestamp) forced)
  let logged := if x.shouldLogToWAL s.config && !forced then applied.emit (.appended s.lastTimestamp)
    else applied
  logged.clearTransactionNoLock x.id

/-- The automatic checkpoint after an ordinary commit: written now, postponed
or requested. -/
def autoCheckpoint : TransactionManager :=
  if s.checkpointPending then s.writeRequestedCheckpointIfLastNoLock i t
  else if !s.hasActiveWriteTransactionNoLock then s.checkpointNoLock i (.auto t)
  else if s.activeTransactions.any (·.id ≤ s.lastBlockingTransactionID) then
    s.writeRequestedCheckpointIfLastNoLock i t
  else { s with checkpointPending := true, autoCheckpointRequested := true
    }.writeRequestedCheckpointIfLastNoLock i t

def checkpointAfterCommit (x : ActiveTransaction) (exceeds : Bool) : TransactionManager :=
  if x.shouldForceCheckpoint s.config then
    { s with checkpointCarriesForcedCommit := true }.startWriting i (.forced x.id)
  else if x.canAutoCheckpoint s.config exceeds then s.autoCheckpoint i x.id
  else s.writeRequestedCheckpointIfLastNoLock i x.id

/-- `commit` from the timestamp on, the others having left if they had to. -/
def commitNow (x : ActiveTransaction) (input : CommitInput) : TransactionManager :=
  let forced := x.shouldForceCheckpoint s.config
  let waits := x.waitsWithoutCheckpoint s.config
  let stamped := { s with lastTimestamp := s.lastTimestamp + 1 }
  match input.result with
  | .raised appended =>
    let raised := stamped.commitRaises x appended
    (if forced || waits then raised.allowNewTransactionsNoLock else raised).leave i
  | .done =>
    let applied := stamped.commitApplies x
    (if waits then applied.allowNewTransactionsNoLock else applied).checkpointAfterCommit i x input.exceeds

def afterCommitStop (x : ActiveTransaction) (p : Purpose) (input : CommitInput) :
    TransactionManager × Verdict → TransactionManager :=
  afterStop i p fun s => s.commitNow i x input

/-- `commit` of a writer outside the queue. -/
def commitOrdinary (x : ActiveTransaction) (input : CommitInput) : TransactionManager :=
  if x.shouldForceCheckpoint s.config then afterCommitStop i x (.forced x.id) input
    (s.stopNewTransactionsAndWaitForOthersNoLock (.forced x.id))
  else if x.waitsWithoutCheckpoint s.config then afterCommitStop i x (.preCommit x.id) input
    (s.stopNewTransactionsAndWaitForOthersNoLock (.preCommit x.id))
  else s.commitNow i x input

def leaveQueue : TransactionManager :=
  { s with queuedCheckpointCommits := s.queuedCheckpointCommits.filter (· ≠ t) }

/-- A commit made in the queue looks for a checkpoint begun after it. -/
def queueDoneTurn (ticket : Nat) : TransactionManager :=
  if !(ticket < s.lastCompletedCheckpoint || s.checkpointFailed || !s.checkpointPending) then
    s.park i (.queueDone t ticket)
  else if s.refuses then s.leave i
  else if s.lastCompletedCheckpoint ≤ ticket then s.checkpointNoLock i (.queue t)
  else s.returns i t

/-- A commit in the queue that has been called. -/
def commitCalled (x : ActiveTransaction) (input : CommitInput) : TransactionManager :=
  let stamped := { s with lastTimestamp := s.lastTimestamp + 1 }
  match input.result with
  | .raised appended => ((stamped.commitRaises x appended).leaveQueue x.id).leave i
  | .done =>
    ({ stamped.commitApplies x with checkpointCarriesForcedCommit := true }.leaveQueue x.id).queueDoneTurn
      i x.id s.checkpointsStarted

def queueTurn (x : ActiveTransaction) (input : CommitInput) : TransactionManager :=
  if !(s.commitQueuedNow || !s.checkpointPending || s.checkpointFailed) then s.park i (.queued x.id)
  else if s.checkpointFailed || !s.commitQueuedNow then
    if s.refuses then (s.leaveQueue x.id).leave i
    else (s.leaveQueue x.id).commitOrdinary i x input
  else s.commitCalled i x input

def commit (x : ActiveTransaction) (input : CommitInput) : TransactionManager :=
  if x.type = .readOnly then (s.clearTransactionNoLock x.id).writeRequestedCheckpointIfLastNoLock i x.id
  else
    let forced := x.shouldForceCheckpoint s.config
    let s := if forced && s.autoCheckpointRequested then
        { s with autoCheckpointRequested := false }.allowNewTransactionsNoLock else s
    if forced && s.checkpointPending then
      { s with queuedCheckpointCommits := s.queuedCheckpointCommits ++ [x.id] }.queueTurn i x input
    else s.commitOrdinary i x input

def afterWriting : Origin → TransactionManager
  | .forced t | .auto t => s.writeRequestedCheckpointIfLastNoLock i t
  | .requested t | .queue t => s.returns i t
  | .explicit => s.leave i

/-- The end of `checkpointNoLock`, the public lock taken again. -/
def finishWriting (origin : Origin) (number : Nat) (carriesForcedCommit : Bool) : WriteResult → TransactionManager
  | .completed => ({ s with
      checkpointWriting := false
      lastCompletedCheckpoint := number }.allowNewTransactionsNoLock.emit
        (.completed number s.checkpointTS)).afterWriting i origin
  | .failed changedMemory =>
    let opened := { s with checkpointWriting := false }.allowNewTransactionsNoLock
    if !carriesForcedCommit && !changedMemory then opened.leave i
    else ({ opened with checkpointFailed := true }.emit .condemned).leave i

def undone : UndoResult → TransactionManager
  | .raised true => { s with rollbackFailed := true }.emit .condemned
  | .raised false | .done => s

def failAfterStatement (x : ActiveTransaction) (result : UndoResult) : TransactionManager :=
  if x.type = .write then (s.modify x.id fun y => { y with failed := true }).undone result else s

/-- A transaction leaves by a rollback: the last to leave gives up a request. -/
def leaveRolledBack : TransactionManager :=
  let cleared := s.clearTransactionNoLock t
  if cleared.autoCheckpointRequested && cleared.activeTransactions = [] then
    cleared.cancelAutoCheckpointRequestNoLock
  else cleared

def rollback (x : ActiveTransaction) (result : UndoResult) : TransactionManager :=
  (if x.type ≠ .readOnly && !x.failed then s.undone result else s).leaveRolledBack x.id

def checkpoint : TransactionManager :=
  if s.config.inMemory || s.refuses then s else s.checkpointNoLock i .explicit

def begun (type : TransactionType) : TransactionManager :=
  { s with
    lastTransactionID := s.lastTransactionID + 1
    activeTransactions := s.activeTransactions ++
      [ActiveTransaction.start (s.lastTransactionID + 1) type s.lastTimestamp] }.emit
      (.began (s.lastTransactionID + 1) type)

/-- `beginTransaction` once nothing holds it back. -/
def begin (type : TransactionType) : TransactionManager :=
  if s.refuses then s
  else if type ≠ .readOnly && !s.config.enableMultiWrites && s.hasActiveWriteTransactionNoLock then s
  else s.begun type

def held (readOnly : Bool) : Bool := s.checkpointPending && !(readOnly && s.checkpointWriting)

/-- `waitWhileCheckpointPendingNoLock`: past its bound, a wait behind an
automatic request gives the request up. -/
def waitWhileCheckpointPendingNoLock (readOnly expired : Bool) : Option TransactionManager :=
  if s.held readOnly then
    if s.autoCheckpointRequested && expired then some s.cancelAutoCheckpointRequestNoLock else none
  else some s

def refreshSnapshot : TransactionManager :=
  s.modify t fun y => { y with startTS := s.lastTimestamp, snapshotFloorTS := s.lastTimestamp }

end TransactionManager

end Rag3db.Transaction
