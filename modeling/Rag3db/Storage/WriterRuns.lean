import Rag3db.Library.Transition
import Rag3db.Storage.CommitViews

namespace Rag3db.Storage

variable {α : Type}

/-- Where a transaction stands. A commit that raises may have given its
timestamp to some of the writes. -/
inductive Progress
  | working
  | raised (stamp : Option Nat)
  deriving DecidableEq, Repr

def Progress.isStamping : Progress → Bool
  | raised (some _) => true
  | _ => false

/-- An open transaction, with what it has of its own. -/
structure Writer (α : Type) where
  snapshot : Snapshot
  undoBuffer : List UndoRecord := []
  localTable : Option (LocalNodeTable α) := none
  progress : Progress := .working

namespace Writer

variable (x : Writer α)

def id : Nat := x.snapshot.id

def state (table : NodeTable α) : TransactionState α :=
  { table, undoBuffer := x.undoBuffer, localTable := x.localTable }

def after (s : TransactionState α) (progress : Progress) : Writer α :=
  { x with undoBuffer := s.undoBuffer, localTable := s.localTable, progress }

def hasWritten : Bool := !x.undoBuffer.isEmpty || x.localTable.isSome

def names (table : NodeTable α) : Operation α → Bool
  | .insert _ => true
  | .update offset _ _ | .delete offset => (x.state table).isUnCommitted offset ||
      (table.cell (offset / nodeGroupSize) (offset % nodeGroupSize)).any (x.snapshot.sees ·.insertion)

end Writer

/-- A table, and the transactions that read and write it under the transaction manager. -/
structure TableRun (α : Type) where
  table : NodeTable α
  lastTimestamp : Nat
  lastTransactionID : Nat
  active : List (Writer α) := []

/-- A commit runs to its end, or raises after `n` of the steps of the part it is in. -/
inductive Action (α : Type)
  | begin
  | refreshSnapshot (id : Nat)
  | execute (id : Nat) (operation : Operation α)
  | commit (id : Nat)
  | raiseAppending (id n : Nat)
  | raiseStamping (id n : Nat)
  | rollback (id : Nat)

namespace TableRun

variable (s : TableRun α)

def writer (id : Nat) : Option (Writer α) := s.active.find? fun x => x.id = id

def put (x : Writer α) : List (Writer α) := s.active.map fun y => if y.id = x.id then x else y

def clear (id : Nat) : List (Writer α) := s.active.filter fun x => x.id ≠ id

/-- The snapshot of a transaction that starts now, as long as there are numbers left. -/
def snapshot? (id : Nat) : Option Snapshot :=
  if h : s.lastTimestamp < startTransactionId ∧ startTransactionId ≤ id ∧ id < invalidTransaction then
    some ⟨s.lastTimestamp, id, h.1, h.2.2, .inr h.2.1⟩
  else none

def beginTransaction : Option (TableRun α) :=
  (s.snapshot? (s.lastTransactionID + 1)).map fun snapshot =>
    { s with lastTransactionID := s.lastTransactionID + 1, active := s.active ++ [{ snapshot }] }

def refreshSnapshot (x : Writer α) : Option (TableRun α) :=
  if x.progress = .working ∧ x.hasWritten = false then
    (s.snapshot? x.id).map fun snapshot => { s with active := s.put { x with snapshot } }
  else none

def execute (x : Writer α) (op : Operation α) : Option (TableRun α) :=
  if x.progress = .working ∧ x.names s.table op then
    match (x.state s.table).execute x.snapshot op with
    | .ok t => some { s with table := t.table, active := s.put (x.after t .working) }
    | .error _ => none
  else none

def commitTS : Nat := s.lastTimestamp + 1

/-- The timestamp is handed out before the commit can fail. -/
def withTimestamp (x : Writer α) (f : Option (TableRun α)) : Option (TableRun α) :=
  if x.progress = .working ∧ s.commitTS < startTransactionId then
    f.map fun s' => { s' with lastTimestamp := s.commitTS }
  else none

def commit (x : Writer α) : Option (TableRun α) :=
  s.withTimestamp x (((TransactionState.commit x.id s.commitTS).result (x.state s.table)).map fun t =>
    { s with table := t.table, active := s.clear x.id })

def raiseAppending (x : Writer α) (n : Nat) : Option (TableRun α) :=
  s.withTimestamp x (((TransactionState.commitLocalTable x.id).points (x.state s.table))[n]?.map fun t =>
    { s with table := t.table, active := s.put (x.after t (.raised none)) })

def raiseStamping (x : Writer α) (n : Nat) : Option (TableRun α) :=
  s.withTimestamp x (((TransactionState.commitLocalTable x.id).result (x.state s.table)).bind fun t =>
    ((TransactionState.commitUndoBuffer s.commitTS).points t)[n]?.map fun t =>
      { s with table := t.table, active := s.put (x.after t (.raised (some s.commitTS))) })

def rollback (x : Writer α) : TableRun α :=
  { s with table := (x.state s.table).rollback.table, active := s.clear x.id }

def step : Action α → Option (TableRun α)
  | .begin => s.beginTransaction
  | .refreshSnapshot id => (s.writer id).bind s.refreshSnapshot
  | .execute id op => (s.writer id).bind fun x => s.execute x op
  | .commit id => (s.writer id).bind s.commit
  | .raiseAppending id n => (s.writer id).bind fun x => s.raiseAppending x n
  | .raiseStamping id n => (s.writer id).bind fun x => s.raiseStamping x n
  | .rollback id => (s.writer id).map s.rollback

/-- Whether a step keeps off the time between a commit that has raised and the
rollback that follows it: no other commit starts in it, and no snapshot is
taken if a timestamp has been given to writes. -/
def careful : Action α → Bool
  | .begin | .refreshSnapshot _ => s.active.all fun x => !x.progress.isStamping
  | .commit _ | .raiseAppending _ _ | .raiseStamping _ _ => s.active.all fun x => x.progress = .working
  | .execute _ _ | .rollback _ => true

end TableRun

end Rag3db.Storage
