import Rag3db.Library.Interruptible
import Rag3db.Storage.ChunkedNodeGroup

namespace Rag3db.Storage

open Library.Interruptible

variable {α : Type}

def chunkedNodeGroupCapacity : Nat := 2048

def nodeGroupSize : Nat := 2 ^ 17

/-- The blocks a checkpoint replaced, for the transactions older than it. -/
structure PreviousGeneration (α : Type) where
  checkpointTS : Nat
  groups : List (ChunkedNodeGroup α)

structure NodeGroup (α : Type) where
  numRows : Nat := 0
  nextRowToAppend : Nat := 0
  capacity : Nat := nodeGroupSize
  chunkedGroups : List (ChunkedNodeGroup α) := []
  previousGenerations : List (PreviousGeneration α) := []

/-- The first block holds its own rows, each of the others
`chunkedNodeGroupCapacity`: the block of a row, and the row in it. -/
def findChunkedGroupIdx (groups : List (ChunkedNodeGroup α)) (rowIdx : Nat) : Option (Nat × Nat) :=
  match groups with
  | [] => none
  | first :: rest =>
    if rowIdx < first.startRowIdx then none
    else if rowIdx - first.startRowIdx < first.numRows then some (0, rowIdx - first.startRowIdx)
    else
      let row := rowIdx - first.startRowIdx - first.numRows
      let idx := row / chunkedNodeGroupCapacity + 1
      if rest.length < idx then none else some (idx, row % chunkedNodeGroupCapacity)

/-- The loop of `applyFuncToChunkedGroups` from the block of the first row on. -/
def applyFrom (func : ChunkedNodeGroup α → Nat → Nat → ChunkedNodeGroup α) :
    List (ChunkedNodeGroup α) → Nat → Nat → List (ChunkedNodeGroup α)
  | [], _, _ => []
  | b :: groups, startRow, numRowsLeft =>
    if numRowsLeft = 0 then b :: groups
    else
      let numRowsForGroup := min numRowsLeft (b.numRows - startRow)
      func b startRow numRowsForGroup :: applyFrom func groups 0 (numRowsLeft - numRowsForGroup)

namespace NodeGroup

variable (g : NodeGroup α)

def isEmpty : Bool := g.numRows = 0

def isFull : Bool := g.numRows = g.capacity

def getNumRowsLeftToAppend : Nat := g.capacity - g.nextRowToAppend

def moveNextRowToAppend (numRowsToAppend : Nat) : NodeGroup α :=
  { g with nextRowToAppend := g.nextRowToAppend + numRowsToAppend }

def groupsFor (startTS : Nat) : List (ChunkedNodeGroup α) :=
  match g.previousGenerations.find? (startTS < ·.checkpointTS) with
  | some generation => generation.groups
  | none => g.chunkedGroups

def newChunkedGroup (startRowIdx : Nat) : ChunkedNodeGroup α where
  residencyState := .inMemory
  startRowIdx := startRowIdx
  capacity := chunkedNodeGroupCapacity

def appendGroup (b : ChunkedNodeGroup α) : NodeGroup α :=
  { g with chunkedGroups := g.chunkedGroups ++ [b] }

def openFirst : NodeGroup α :=
  if g.chunkedGroups.isEmpty then g.appendGroup (newChunkedGroup 0) else g

def openChunkedGroup (startRowIdx : Nat) : NodeGroup α :=
  match g.chunkedGroups.getLast? with
  | none => g.appendGroup (newChunkedGroup startRowIdx)
  | some b => if b.isFullOrOnDisk then g.appendGroup (newChunkedGroup startRowIdx) else g

def numToCopyIntoChunk : Nat :=
  match g.chunkedGroups.getLast? with
  | none => 0
  | some b => chunkedNodeGroupCapacity - b.numRows

def appendToLast (transactionID : Nat) (rows : List (Nat → α)) : NodeGroup α :=
  match g.chunkedGroups.getLast? with
  | none => g
  | some b => { g with chunkedGroups := g.chunkedGroups.dropLast ++ [b.append transactionID rows] }

/-- The loop of `append`, with what an exception can find: a block is opened
before rows are put into it. Each turn takes one row at least. -/
def appendRows (transactionID numRowsBeforeAppend : Nat) : Nat → Nat → List (Nat → α) → Steps (NodeGroup α)
  | 0, _, _ => .skip
  | fuel + 1, numRowsAppended, rows =>
    if rows.isEmpty then .skip
    else (Steps.step (openChunkedGroup · (numRowsBeforeAppend + numRowsAppended))).andThen fun g =>
      let batch := rows.take g.numToCopyIntoChunk
      ((Steps.step (appendToLast · transactionID batch)).andThen
        (appendRows transactionID numRowsBeforeAppend fuel (numRowsAppended + batch.length) (rows.drop batch.length))) g

def appendFrom (transactionID : Nat) (rows : List (Nat → α)) (numRowsBeforeAppend : Nat) : Steps (NodeGroup α) :=
  (Steps.step openFirst).andThen ((appendRows transactionID numRowsBeforeAppend rows.length 0 rows).andThen
      (Steps.step fun g => { g with numRows := g.numRows + rows.length }))

def append (transactionID : Nat) (rows : List (Nat → α)) : Steps (NodeGroup α) := fun g =>
  appendFrom transactionID rows g.numRows g

def setChunkedGroup (chunkedGroupIdx : Nat) (b : ChunkedNodeGroup α) : NodeGroup α :=
  { g with chunkedGroups := g.chunkedGroups.set chunkedGroupIdx b }

/-- `findChunkedGroupFromRowIdx`, with the number of the block. -/
def findChunkedGroup (rowIdx : Nat) : Option (Nat × ChunkedNodeGroup α) :=
  (findChunkedGroupIdx g.chunkedGroups rowIdx).bind fun found =>
    g.chunkedGroups[found.1]?.map fun b => (found.1, b)

def noSuchRow : String := "KU_ASSERT"

def update (t : Snapshot) (rowIdxInGroup columnID : Nat) (value : α) : Except String (NodeGroup α × Nat × Nat) :=
  match g.findChunkedGroup rowIdxInGroup with
  | none => .error noSuchRow
  | some (idx, b) => (b.update t (rowIdxInGroup - b.startRowIdx) columnID value).map fun b' =>
    (g.setChunkedGroup idx b', idx, (rowIdxInGroup - b.startRowIdx) / vectorCapacity)

def delete (transactionID rowIdxInGroup : Nat) : Except String (NodeGroup α × Bool) :=
  match g.findChunkedGroup rowIdxInGroup with
  | none => .error noSuchRow
  | some (idx, b) => (b.delete transactionID (rowIdxInGroup - b.startRowIdx)).map fun r =>
    (g.setChunkedGroup idx r.1, r.2)

def applyFuncToChunkedGroups (func : ChunkedNodeGroup α → Nat → Nat → ChunkedNodeGroup α)
    (startRow numRows : Nat) : NodeGroup α :=
  match findChunkedGroupIdx g.chunkedGroups startRow with
  | none => g
  | some (idx, startRowInChunkedGroup) =>
    { g with chunkedGroups := g.chunkedGroups.take idx ++
        applyFrom func (g.chunkedGroups.drop idx) startRowInChunkedGroup numRows }

def rollbackInsert (startRow : Nat) : NodeGroup α :=
  { g with
    chunkedGroups := g.chunkedGroups.rdropWhile (·.isEmpty)
    numRows := startRow
    nextRowToAppend := startRow }

def lookup (s : Snapshot) (rowIdxInGroup columnID : Nat) : Option α :=
  (findChunkedGroupIdx (g.groupsFor s.startTS) rowIdxInGroup).bind fun found =>
    (g.groupsFor s.startTS)[found.1]?.bind fun b => b.lookup s (rowIdxInGroup - b.startRowIdx) columnID

end NodeGroup

end Rag3db.Storage
