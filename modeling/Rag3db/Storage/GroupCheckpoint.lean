import Rag3db.Storage.NodeGroup

namespace Rag3db.Storage

variable {α : Type}

def ChunkedNodeGroup.seal (b : ChunkedNodeGroup α) : ChunkedNodeGroup α := { b with isSealed := true }

def sealLast (groups : List (ChunkedNodeGroup α)) : List (ChunkedNodeGroup α) :=
  match groups.getLast? with
  | none => groups
  | some b => if b.residencyState = .inMemory then groups.dropLast ++ [b.seal] else groups

/-- `delete_` by the checkpoint's transaction. -/
def markDeleted (info : VersionInfo) (row : Nat) : VersionInfo :=
  match info.delete Snapshot.checkpoint.id row with
  | .ok r => r.1
  | .error _ => info

def checkpointVersionInfo : VersionInfo → Nat → List (ChunkedNodeGroup α) → VersionInfo
  | info, _, [] => info
  | info, currRow, b :: groups =>
    checkpointVersionInfo (((List.range b.numRows).filter fun i => b.isDeleted Snapshot.checkpoint i).foldl
        (fun info i => markDeleted info (currRow + i)) info)
      (currRow + b.numRows) groups

def scanCommitted (groups : List (ChunkedNodeGroup α)) (column : Nat) : List α :=
  groups.flatMap fun b => (List.range b.numRows).filterMap fun i =>
    (b.columns column).lookup Snapshot.checkpoint i

namespace NodeGroup

def numRowsOf (groups : List (ChunkedNodeGroup α)) : Nat := (groups.map (·.numRows)).sum

/-- `checkpointInMemAndOnDisk` goes on from the first block, `checkpointInMemOnly`
flushes a block that starts at row 0. -/
def mergedGroup (first : ChunkedNodeGroup α) (groups : List (ChunkedNodeGroup α)) (info : VersionInfo) :
    ChunkedNodeGroup α where
  residencyState := .onDisk
  startRowIdx := match first.residencyState with
    | .onDisk => first.startRowIdx
    | .inMemory => 0
  capacity := numRowsOf groups
  numRows := numRowsOf groups
  versionInfo := some info
  columns := fun column => { data := scanCommitted groups column }

def flushEmpty (startRowIdx : Nat) : ChunkedNodeGroup α where
  residencyState := .onDisk
  startRowIdx := startRowIdx
  capacity := chunkedNodeGroupCapacity

variable (g : NodeGroup α)

def retireAndKeepGeneration (checkpointTS oldestReaderTS : Nat) (oldGroups : List (ChunkedNodeGroup α)) :
    List (PreviousGeneration α) :=
  let kept := g.previousGenerations.filter fun generation => oldestReaderTS < generation.checkpointTS
  if oldestReaderTS < checkpointTS then kept ++ [{ checkpointTS, groups := oldGroups }] else kept

def checkpointedGroup (first : ChunkedNodeGroup α) (groups : List (ChunkedNodeGroup α)) : ChunkedNodeGroup α :=
  let info := checkpointVersionInfo {} 0 groups
  if info.getNumDeletions Snapshot.checkpoint 0 g.numRows = g.numRows - first.startRowIdx then
    flushEmpty g.numRows
  else mergedGroup first groups info

/-- `none` stands for the assertion that there is a block. -/
def checkpoint (checkpointTS oldestReaderTS : Nat) : Option (NodeGroup α) :=
  match g.chunkedGroups with
  | [] => none
  | first :: rest =>
    let groups := sealLast (first :: rest)
    some { g with
      chunkedGroups := [g.checkpointedGroup first groups]
      previousGenerations := g.retireAndKeepGeneration checkpointTS oldestReaderTS groups }

/-- A checkpoint that fails before it changes memory has sealed the last block. -/
def refusedCheckpoint : NodeGroup α := { g with chunkedGroups := sealLast g.chunkedGroups }

def merge (b : ChunkedNodeGroup α) : NodeGroup α :=
  { g with chunkedGroups := g.chunkedGroups ++ [b], numRows := g.numRows + b.numRows }

/-- The rollback of one insertion record, as `VersionRecordHandler` does it. -/
def rollbackRange (startRow numRows : Nat) : NodeGroup α :=
  (g.applyFuncToChunkedGroups ChunkedNodeGroup.rollbackInsert startRow numRows).rollbackInsert startRow

end NodeGroup

end Rag3db.Storage
