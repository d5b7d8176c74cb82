import Rag3db.Library.Transition
import Rag3db.Transaction.ManagerCalls

namespace Rag3db.Transaction

inductive ManagerAction
  | openDatabase
  | beginTransaction (type : TransactionType) (expired : Bool)
  | waitUntilNewTransactionsAreAllowed (readOnly expired : Bool)
  | write (t : TransactionId)
  | setForceCheckpoint (t : TransactionId)
  | addPreCommitAction (t : TransactionId)
  | refreshSnapshot (t : TransactionId)
  | failAfterStatement (t : TransactionId) (result : UndoResult)
  | rollback (t : TransactionId) (result : UndoResult)
  | commit (i : ThreadId) (t : TransactionId) (input : CommitInput)
  | checkpoint (i : ThreadId)
  | resume (i : ThreadId) (expired : Bool) (input : CommitInput)
  | finishWriting (i : ThreadId) (result : WriteResult)
  deriving DecidableEq, Repr

namespace TransactionManager

variable (s : TransactionManager)

def find (t : TransactionId) : Option ActiveTransaction := s.activeTransactions.find? (·.id = t)

def busy (t : TransactionId) : Bool := s.threads.entries.any fun e => e.2.transaction = some t

def closable (t : TransactionId) : Option ActiveTransaction :=
  if s.busy t then none else s.find t

/-- A transaction that its connection can still work with: once a statement
has failed or a commit has raised, the connection only rolls back. -/
def usable (t : TransactionId) : Option ActiveTransaction :=
  (s.closable t).filter fun x => !x.failed && !x.commitRaised

def resume (i : ThreadId) (expired : Bool) (input : CommitInput) : Wait → Option TransactionManager
  | .queued t => (s.find t).map fun x => s.queueTurn i x input
  | .queueDone t ticket => some (s.queueDoneTurn i t ticket)
  | .stopping (.checkpoint origin) phase =>
    some (afterCheckpointStop i origin (s.stopTurn (.checkpoint origin) expired phase))
  | .stopping (.forced t) phase =>
    (s.find t).map fun x => afterCommitStop i x (.forced t) input (s.stopTurn (.forced t) expired phase)
  | .stopping (.preCommit t) phase =>
    (s.find t).map fun x => afterCommitStop i x (.preCommit t) input (s.stopTurn (.preCommit t) expired phase)
  | .writing _ _ _ => none

/-- One step of one thread, from a lock of the public mutex to its release.
Recovery transactions run before the database is open, all others after, and
a pre-commit action is only ever added to a transaction made forced before. -/
def step : ManagerAction → Option TransactionManager
  | .openDatabase =>
    if s.activeTransactions = [] ∧ s.threads.entries = [] then some { s with opened := true } else none
  | .beginTransaction type expired =>
    if type = .recovery ↔ s.opened = false then
      (s.waitWhileCheckpointPendingNoLock (type = .readOnly) expired).map fun s => s.begin type
    else none
  | .waitUntilNewTransactionsAreAllowed readOnly expired =>
    s.waitWhileCheckpointPendingNoLock readOnly expired
  | .write t => (s.usable t).map fun _ => s.modify t fun y => { y with written := true }
  | .setForceCheckpoint t => (s.usable t).map fun _ => s.modify t fun y => { y with forceCheckpoint := true }
  | .addPreCommitAction t => ((s.usable t).filter (·.forceCheckpoint)).map fun _ =>
    s.modify t fun y => { y with preCommitActions := true }
  | .refreshSnapshot t => ((s.usable t).filter fun x => !x.written).map fun _ => s.refreshSnapshot t
  | .failAfterStatement t result => (s.usable t).map fun x => s.failAfterStatement x result
  | .rollback t result => (s.closable t).map fun x => s.rollback x result
  | .commit i t input => if i ∈ s.threads then none else (s.usable t).map fun x => s.commit i x input
  | .checkpoint i => if i ∈ s.threads then none else some (s.checkpoint i)
  | .resume i expired input => (s.threads.lookup i).bind (s.resume i expired input)
  | .finishWriting i result =>
    match s.threads.lookup i with
    | some (.writing origin number carries) => some (s.finishWriting i origin number carries result)
    | _ => none

end TransactionManager

end Rag3db.Transaction
