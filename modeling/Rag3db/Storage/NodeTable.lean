import Rag3db.Storage.NodeGroup

namespace Rag3db.Storage

open Library.Interruptible Steps

variable {α : Type}

structure NodeTable (α : Type) where
  nodeGroups : List (NodeGroup α) := []
  numTotalRows : Nat := 0
  pkColumnID : Nat := 0

namespace NodeTable

variable (table : NodeTable α)

def lookup (s : Snapshot) (offset columnID : Nat) : Option α :=
  table.nodeGroups[offset / nodeGroupSize]?.bind fun g => g.lookup s (offset % nodeGroupSize) columnID

def modifyNodeGroup (nodeGroupIdx : Nat) (f : NodeGroup α → NodeGroup α) : NodeTable α :=
  { table with nodeGroups := table.nodeGroups.modify nodeGroupIdx f }

def openNodeGroup : NodeTable α :=
  match table.nodeGroups.getLast? with
  | none => { table with nodeGroups := [{}] }
  | some g => if g.isFull then { table with nodeGroups := table.nodeGroups ++ [{}] } else table

/-- `NodeGroupCollection::rollbackInsert`. -/
def rollbackInsert (numRows : Nat) : NodeTable α :=
  { table with
    nodeGroups := table.nodeGroups.rdropWhile (·.isEmpty)
    numTotalRows := table.numTotalRows - numRows }

end NodeTable

/-- What a transaction did to the rows that everybody shares, as its undo
buffer has it. A record of an update names the block, and so the chain, that
the source keeps an address of. -/
inductive UndoRecord
  | insertInfo (nodeGroupIdx startRow numRows : Nat)
  | deleteInfo (nodeGroupIdx startRow numRows : Nat)
  | updateInfo (nodeGroupIdx chunkedGroupIdx columnID vectorIdx version : Nat)
  deriving DecidableEq, Repr

namespace NodeGroup

variable (g : NodeGroup α)

def modifyUpdateInfo (chunkedGroupIdx columnID : Nat) (f : UpdateInfo α → UpdateInfo α) : NodeGroup α :=
  { g with chunkedGroups := g.chunkedGroups.modify chunkedGroupIdx fun b =>
      b.setColumn columnID { b.columns columnID with updateInfo := f (b.columns columnID).updateInfo } }

end NodeGroup

namespace UndoRecord

def commitRecord (commitTS : Nat) : UndoRecord → NodeTable α → NodeTable α
  | insertInfo g startRow numRows, table => table.modifyNodeGroup g fun group =>
    group.applyFuncToChunkedGroups (·.commitInsert commitTS) startRow numRows
  | deleteInfo g startRow numRows, table => table.modifyNodeGroup g fun group =>
    group.applyFuncToChunkedGroups (·.commitDelete commitTS) startRow numRows
  | updateInfo g idx columnID vectorIdx version, table => table.modifyNodeGroup g fun group =>
    group.modifyUpdateInfo idx columnID (·.commit vectorIdx version commitTS)

/-- A node group that a rollback has removed before is left out. -/
def rollbackRecord : UndoRecord → NodeTable α → NodeTable α
  | insertInfo g startRow numRows, table =>
    (table.modifyNodeGroup g fun group =>
      (group.applyFuncToChunkedGroups (·.rollbackInsert) startRow numRows).rollbackInsert
        startRow).rollbackInsert numRows
  | deleteInfo g startRow numRows, table => table.modifyNodeGroup g fun group =>
    group.applyFuncToChunkedGroups (·.rollbackDelete) startRow numRows
  | updateInfo g idx columnID vectorIdx version, table => table.modifyNodeGroup g fun group =>
    group.modifyUpdateInfo idx columnID (·.rollback vectorIdx version)

end UndoRecord

structure LocalRow (α : Type) where
  values : Nat → α
  isDeleted : Bool := false

/-- The rows a transaction has inserted and not yet committed. -/
structure LocalNodeTable (α : Type) where
  startOffset : Nat
  rows : List (LocalRow α) := []

/-- The table, and what one transaction has of its own. -/
structure TransactionState (α : Type) where
  table : NodeTable α
  undoBuffer : List UndoRecord := []
  localTable : Option (LocalNodeTable α) := none

inductive Operation (α : Type)
  | insert (values : Nat → α)
  | update (offset columnID : Nat) (value : α)
  | delete (offset : Nat)

namespace TransactionState

variable (s : TransactionState α)

def isUnCommitted (offset : Nat) : Bool :=
  s.localTable.any fun l => decide (l.startOffset ≤ offset)

def push (record : UndoRecord) : TransactionState α :=
  { s with undoBuffer := s.undoBuffer ++ [record] }

def modifyLocal (offset : Nat) (f : LocalRow α → LocalRow α) : Except String (TransactionState α) :=
  match s.localTable with
  | none => .error NodeGroup.noSuchRow
  | some l =>
    if offset - l.startOffset < l.rows.length then
      .ok { s with localTable := some { l with rows := l.rows.modify (offset - l.startOffset) f } }
    else .error NodeGroup.noSuchRow

def setNodeGroup (nodeGroupIdx : Nat) (g : NodeGroup α) : TransactionState α :=
  { s with table := s.table.modifyNodeGroup nodeGroupIdx fun _ => g }

def updateRow (t : Snapshot) (offset columnID : Nat) (value : α) : Except String (TransactionState α) :=
  match s.table.nodeGroups[offset / nodeGroupSize]? with
  | none => .error NodeGroup.noSuchRow
  | some g => (g.update t (offset % nodeGroupSize) columnID value).map fun r =>
    (s.setNodeGroup (offset / nodeGroupSize) r.1).push (.updateInfo (offset / nodeGroupSize) r.2.1 columnID r.2.2 t.id)

def deleteRow (transactionID offset : Nat) : Except String (TransactionState α) :=
  match s.table.nodeGroups[offset / nodeGroupSize]? with
  | none => .error NodeGroup.noSuchRow
  | some g => (g.delete transactionID (offset % nodeGroupSize)).map fun r =>
    s.setNodeGroup (offset / nodeGroupSize) r.1

def pushDeleteInfo (offset : Nat) : TransactionState α :=
  s.push (.deleteInfo (offset / nodeGroupSize) (offset % nodeGroupSize) 1)

/-- The rows are counted as soon as they are recorded: nothing raises in between. -/
def pushInsertInfo (nodeGroupIdx startRow numRows : Nat) : TransactionState α :=
  { s.push (.insertInfo nodeGroupIdx startRow numRows) with
    table := { s.table with numTotalRows := s.table.numTotalRows + numRows } }

def cannotUpdatePk : String := "Cannot update pk."

def execute (t : Snapshot) : Operation α → Except String (TransactionState α)
  | .insert values =>
    let l := s.localTable.getD { startOffset := s.table.numTotalRows }
    .ok { s with localTable := some { l with rows := l.rows ++ [{ values }] } }
  | .update offset columnID value =>
    if columnID = s.table.pkColumnID then .error cannotUpdatePk
    else if s.isUnCommitted offset then
      s.modifyLocal offset fun row => { row with values := Function.update row.values columnID value }
    else s.updateRow t offset columnID value
  | .delete offset =>
    if s.isUnCommitted offset then s.modifyLocal offset fun row => { row with isDeleted := true }
    else (s.deleteRow t.id offset).map (·.pushDeleteInfo offset)

def executeAll (t : Snapshot) : List (Operation α) → TransactionState α → Except String (TransactionState α)
  | [], s => .ok s
  | op :: ops, s => (s.execute t op).bind (executeAll t ops)

section Commit

def onNodeGroup (nodeGroupIdx : Nat) (f : Steps (NodeGroup α)) : Steps (TransactionState α) :=
  within (fun s => s.table.nodeGroups[nodeGroupIdx]?.getD {}) (fun s g => s.setNodeGroup nodeGroupIdx g) f

/-- The rows of one local block go to the last node group, or to new ones. -/
def appendBatch (transactionID : Nat) : Nat → List (Nat → α) → Steps (TransactionState α)
  | 0, _ => .skip
  | fuel + 1, rows =>
    if rows.isEmpty then .skip
    else (step fun s => { s with table := s.table.openNodeGroup }).andThen fun s =>
      let idx := s.table.nodeGroups.length - 1
      let last := s.table.nodeGroups[idx]?.getD {}
      let numToAppend := min rows.length last.getNumRowsLeftToAppend
      ((step fun s => s.setNodeGroup idx (last.moveNextRowToAppend numToAppend)).andThen
        ((step (pushInsertInfo · idx last.numRows numToAppend)).andThen
          ((onNodeGroup idx (NodeGroup.append transactionID (rows.take numToAppend))).andThen
            (appendBatch transactionID fuel (rows.drop numToAppend))))) s

def batches {β : Type} : Nat → List β → List (List β)
  | 0, _ => []
  | fuel + 1, rows =>
    if rows.isEmpty then []
    else rows.take chunkedNodeGroupCapacity :: batches fuel (rows.drop chunkedNodeGroupCapacity)

def deletedOffsets (startNodeOffset : Nat) : List (LocalRow α) → List Nat
  | [] => []
  | row :: rows =>
    if row.isDeleted then startNodeOffset :: deletedOffsets (startNodeOffset + 1) rows
    else deletedOffsets (startNodeOffset + 1) rows

/-- `NodeTable::commit`: all local rows, then the marks of those deleted. -/
def commitLocalTable (transactionID : Nat) : Steps (TransactionState α) := fun s =>
  match s.localTable with
  | none => skip s
  | some l =>
    let rows := l.rows.map (·.values)
    ((each (fun batch => appendBatch transactionID batch.length batch) (batches rows.length rows)).andThen
      ((each (fun offset => (attempt (deleteRow · transactionID offset)).andThen
        (step (pushDeleteInfo · offset))) (deletedOffsets s.table.numTotalRows l.rows)).andThen
        (step fun s => { s with localTable := none }))) s

def commitUndoBuffer (commitTS : Nat) : Steps (TransactionState α) := fun s =>
  each (fun record => step fun s => { s with table := record.commitRecord commitTS s.table }) s.undoBuffer s

/-- `Transaction::commit`, with every state in which it can raise. -/
def commit (transactionID commitTS : Nat) : Steps (TransactionState α) :=
  (commitLocalTable transactionID).andThen (commitUndoBuffer commitTS)

end Commit

/-- `Transaction::rollback`: the records in reverse order, then the local rows. -/
def rollback : TransactionState α where
  table := s.undoBuffer.foldr (fun record table => record.rollbackRecord table) s.table

end TransactionState

end Rag3db.Storage
