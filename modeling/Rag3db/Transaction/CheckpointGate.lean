import Rag3db.Transaction.ManagerSteps

namespace Rag3db.Transaction

def Wait.gate : Wait → Bool
  | .stopping _ .others | .stopping _ .queued | .writing _ _ _ => true
  | .queued _ | .queueDone _ _ | .stopping _ .pending => false

def Checkpointed (events : List Event) : Prop :=
  ∃ number ts, .started number ts ∈ events ∧ .completed number ts ∈ events

/-- Every forced commit of the transaction is followed by a checkpoint that
started after it and completed. -/
def Settled (trace : List Event) (t : TransactionId) : Prop :=
  ∀ newer older ts oldest, trace = newer ++ .applied t ts oldest true :: older → Checkpointed newer

/-- The records of the transaction go to the journal when it commits. -/
def ActiveTransaction.journaled (config : Config) (x : ActiveTransaction) : Bool :=
  x.shouldLogToWAL config && !x.shouldForceCheckpoint config

namespace TransactionManager

def Idle (s : TransactionManager) (i : ThreadId) : Prop :=
  ∀ w, s.threads.lookup i = some w → ∃ t ticket, w = .queueDone t ticket

def MayStop (s : TransactionManager) (i : ThreadId) (p : Purpose) : Prop :=
  s.Idle i ∨ s.threads.lookup i = some (.stopping p .pending)

/-- The transaction has left, and its identifier is not given again. -/
def Gone (s : TransactionManager) (t : TransactionId) : Prop :=
  (∀ x ∈ s.activeTransactions, x.id ≠ t) ∧ t ≤ s.lastTransactionID

/-- What is known of a commit that makes the others leave, and of the commit
behind a checkpoint before it is written. -/
def Ready (s : TransactionManager) : Purpose → Prop
  | .forced t => t ≤ s.lastTransactionID ∧ ∀ x ∈ s.activeTransactions, x.id = t →
      x.type ≠ .readOnly ∧ x.shouldForceCheckpoint s.config = true
  | .preCommit t => t ≤ s.lastTransactionID ∧ ∀ x ∈ s.activeTransactions, x.id = t →
      x.type ≠ .readOnly ∧ x.waitsWithoutCheckpoint s.config = true
  | .checkpoint .explicit => True
  | .checkpoint (.auto t) | .checkpoint (.requested t) => s.Gone t ∧ Settled s.trace t
  | .checkpoint (.queue t) | .checkpoint (.forced t) => s.Gone t

/-- What a connection may change of a transaction it works with. -/
structure Tweak (s : TransactionManager) (y z : ActiveTransaction) : Prop where
  id : z.id = y.id
  type : z.type = y.type
  floor : z.snapshotFloorTS = y.snapshotFloorTS ∨ z.snapshotFloorTS = s.lastTimestamp
  raised : z.commitRaised = y.commitRaised
  forced : (y.preCommitActions = true → y.forceCheckpoint = true) → z.preCommitActions = true → z.forceCheckpoint = true

def endCall (s : TransactionManager) (phase : Phase) : TransactionManager :=
  { s with commitQueuedNow := s.commitQueuedNow && phase ≠ .queued }

def stamped (s : TransactionManager) : TransactionManager :=
  { s with lastTimestamp := s.lastTimestamp + 1 }

def commitEvents (s : TransactionManager) (x : ActiveTransaction) : List Event :=
  (if x.journaled s.config then [.appended s.lastTimestamp] else []) ++
    [.applied x.id s.lastTimestamp (s.oldestActiveSnapshotNoLock x.id s.lastTimestamp)
      (x.shouldForceCheckpoint s.config)]

def applied (s : TransactionManager) (x : ActiveTransaction) : TransactionManager :=
  { s.clearTransactionNoLock x.id with trace := s.commitEvents x ++ s.trace }

theorem commitApplies_eq (s : TransactionManager) (x : ActiveTransaction) : s.commitApplies x = s.applied x := by
  unfold commitApplies applied commitEvents ActiveTransaction.journaled
  dsimp only
  split_ifs <;> rfl

def raiseEvents (s : TransactionManager) (x : ActiveTransaction) (appended : Bool) : List Event :=
  .raised x.id :: if appended && x.journaled s.config then [.appended s.lastTimestamp] else []

def raised (s : TransactionManager) (x : ActiveTransaction) (appended : Bool) : TransactionManager :=
  { s.modify x.id (fun y => { y with commitRaised := true }) with
    trace := s.raiseEvents x appended ++ s.trace }

theorem commitRaises_eq (s : TransactionManager) (x : ActiveTransaction) (appended : Bool) :
    s.commitRaises x appended = s.raised x appended := by
  unfold commitRaises raised raiseEvents ActiveTransaction.journaled
  rw [Bool.and_assoc]
  split_ifs <;> rfl

/-- What one thread does to the gate, the queue, the open transactions and
the history, one effect at a time, with what the code has checked before it. -/
inductive Effect (i : ThreadId) (s : TransactionManager) : TransactionManager → Prop
  | openDatabase : s.activeTransactions = [] → Effect i s { s with opened := true }
  | begin (type : TransactionType) : s.held (type = .readOnly) = false →
      s.refuses = false → (type = .recovery ↔ s.opened = false) → Effect i s (s.begun type)
  | modify (t : TransactionId) (f : ActiveTransaction → ActiveTransaction) :
      (∀ y ∈ s.activeTransactions, y.id = t → s.Tweak y (f y)) → s.busy t = false →
      Effect i s (s.modify t f)
  | condemn : Effect i s ({ s with rollbackFailed := true }.emit .condemned)
  | clear (t : TransactionId) : s.busy t = false → Effect i s (s.clearTransactionNoLock t)
  | dropRequest : s.autoCheckpointRequested = true →
      Effect i s { s with autoCheckpointRequested := false }.allowNewTransactionsNoLock
  | cancelRequest : s.autoCheckpointRequested = true →
      Effect i s s.cancelAutoCheckpointRequestNoLock
  | request : s.checkpointPending = false → s.hasActiveWriteTransactionNoLock = true →
      Effect i s { s with checkpointPending := true, autoCheckpointRequested := true }
  | takeRequest (p : Purpose) : s.autoCheckpointRequested = true → s.Idle i → s.Ready p →
      Effect i s ({ s with autoCheckpointRequested := false, checkpointPending := true }.park i (.stopping p .others))
  | closeGate (p : Purpose) : s.checkpointPending = false → s.MayStop i p → s.Ready p →
      Effect i s ({ s with checkpointPending := true }.park i (.stopping p .others))
  | again (w : Wait) : s.threads.lookup i = some w → Effect i s (s.park i w)
  | waitForGate (p : Purpose) : s.Idle i → s.Ready p →
      Effect i s (s.park i (.stopping p .pending))
  | leave : s.Idle i → Effect i s (s.leave i)
  | callQueue (p : Purpose) :
      s.threads.lookup i = some (.stopping p .others) → s.othersLeftOrQueued p = true →
      Effect i s ({ s with commitQueuedNow := true }.park i (.stopping p .queued))
  | giveUp (p : Purpose) (phase : Phase) : phase ≠ .pending →
      s.threads.lookup i = some (.stopping p phase) →
      Effect i s ((s.endCall phase).allowNewTransactionsNoLock.leave i)
  | enqueue (x : ActiveTransaction) : s.Idle i → x ∈ s.activeTransactions →
      s.Ready (.forced x.id) →
      Effect i s ({ s with queuedCheckpointCommits := s.queuedCheckpointCommits ++ [x.id] }.park i (.queued x.id))
  | dequeue (t : TransactionId) : s.threads.lookup i = some (.queued t) →
      s.commitQueuedNow = false ∨ s.checkpointFailed = true →
      Effect i s ((s.leaveQueue t).leave i)
  | commitInQueue (x : ActiveTransaction) : x ∈ s.activeTransactions →
      x.type ≠ .readOnly → x.shouldForceCheckpoint s.config = true →
      s.threads.lookup i = some (.queued x.id) → s.commitQueuedNow = true →
      Effect i s (({ s.stamped.applied x with checkpointCarriesForcedCommit := true }.leaveQueue
        x.id).park i (.queueDone x.id s.checkpointsStarted))
  | raiseInQueue (x : ActiveTransaction) (appended : Bool) :
      x ∈ s.activeTransactions → x.type ≠ .readOnly → x.shouldForceCheckpoint s.config = true →
      s.threads.lookup i = some (.queued x.id) → s.commitQueuedNow = true →
      Effect i s (((s.stamped.raised x appended).leaveQueue x.id).leave i)
  | commitForced (x : ActiveTransaction) (phase : Phase) : phase ≠ .pending →
      x ∈ s.activeTransactions → x.type ≠ .readOnly → x.shouldForceCheckpoint s.config = true →
      s.threads.lookup i = some (.stopping (.forced x.id) phase) → s.othersLeft (.forced x.id) = true →
      Effect i s ({ (s.endCall phase).stamped.applied x with
        checkpointCarriesForcedCommit := true }.startWriting i (.forced x.id))
  | commitAlone (x : ActiveTransaction) (phase : Phase) : phase ≠ .pending →
      x ∈ s.activeTransactions → x.type ≠ .readOnly →
      s.threads.lookup i = some (.stopping (.preCommit x.id) phase) →
      s.othersLeft (.preCommit x.id) = true → s.config.inMemory = true →
      Effect i s (((s.endCall phase).stamped.applied x).allowNewTransactionsNoLock.leave i)
  | raiseAlone (x : ActiveTransaction) (p : Purpose) (phase : Phase)
      (appended : Bool) : phase ≠ .pending → x ∈ s.activeTransactions → x.type ≠ .readOnly →
      p.staying = some x.id → x.journaled s.config = false → s.threads.lookup i = some (.stopping p phase) →
      Effect i s (((s.endCall phase).stamped.raised x appended).allowNewTransactionsNoLock.leave i)
  | commitPlain (x : ActiveTransaction) : s.Idle i → x ∈ s.activeTransactions →
      x.type ≠ .readOnly → x.commitRaised = false → x.shouldForceCheckpoint s.config = false →
      s.busy x.id = false → Effect i s (s.stamped.applied x)
  | raisePlain (x : ActiveTransaction) (appended : Bool) : s.Idle i →
      x ∈ s.activeTransactions → x.type ≠ .readOnly → x.commitRaised = false →
      x.shouldForceCheckpoint s.config = false → s.busy x.id = false →
      Effect i s ((s.stamped.raised x appended).leave i)
  | write (origin : Origin) (phase : Phase) : phase ≠ .pending →
      s.threads.lookup i = some (.stopping (.checkpoint origin) phase) →
      s.othersLeft (.checkpoint origin) = true → Effect i s ((s.endCall phase).startWriting i origin)
  | writeRequested (t : TransactionId) : s.Idle i → s.Ready (.checkpoint (.requested t)) →
      s.autoCheckpointRequested = true → s.hasActiveWriteTransactionNoLock = false →
      Effect i s ({ s with autoCheckpointRequested := false }.startWriting i (.requested t))
  | complete (origin : Origin) (number : Nat) (carries : Bool) :
      s.threads.lookup i = some (.writing origin number carries) →
      Effect i s (({ s with checkpointWriting := false, lastCompletedCheckpoint := number
        }.allowNewTransactionsNoLock.emit (.completed number s.checkpointTS)).leave i)
  | refuse (origin : Origin) (number : Nat) :
      s.threads.lookup i = some (.writing origin number false) →
      Effect i s ({ s with checkpointWriting := false }.allowNewTransactionsNoLock.leave i)
  | fail (origin : Origin) (number : Nat) (carries : Bool) :
      s.threads.lookup i = some (.writing origin number carries) →
      Effect i s (({ { s with checkpointWriting := false }.allowNewTransactionsNoLock with
        checkpointFailed := true }.emit .condemned).leave i)
  | returns (t : TransactionId) : s.Idle i → Settled s.trace t → Effect i s (s.returns i t)

end TransactionManager

end Rag3db.Transaction
