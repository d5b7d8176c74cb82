import Rag3db.Storage.VersionInfo

namespace Rag3db.Storage

variable {α : Type}

/-- The new values a transaction gave to rows of a vector. The undo buffer
keeps its address; a transaction makes one for a vector, so that its
identifier, `creator`, stands for the address. -/
structure VectorUpdateInfo (α : Type) where
  version : Nat
  creator : Nat
  values : Nat → Option α

namespace VectorUpdateInfo

def write (u : VectorUpdateInfo α) (rowInVector : Nat) (value : α) : VectorUpdateInfo α :=
  { u with values := Function.update u.values rowInVector (some value) }

def create (transactionID : Nat) : VectorUpdateInfo α where
  version := transactionID
  creator := transactionID
  values := fun _ => none

end VectorUpdateInfo

/-- The versions of a column, for each vector a chain with the newest first. -/
structure UpdateInfo (α : Type) where
  updates : Nat → List (VectorUpdateInfo α) := fun _ => []

namespace UpdateInfo

def updateConflict : String := "Write-write conflict of updating the same row."

/-- The chain with the value written to what the transaction has in it, the
oldest if there are several. -/
def writeOwn (transactionID rowInVector : Nat) (value : α) :
    List (VectorUpdateInfo α) → Option (List (VectorUpdateInfo α))
  | [] => none
  | u :: chain =>
    match writeOwn transactionID rowInVector value chain with
    | some chain' => some (u :: chain')
    | none => if u.version = transactionID then some (u.write rowInVector value :: chain) else none

def conflicts (t : Snapshot) (rowInVector : Nat) (u : VectorUpdateInfo α) : Bool :=
  u.version ≠ t.id && t.startTS < u.version && (u.values rowInVector).isSome

def setChain (info : UpdateInfo α) (vectorIdx : Nat) (chain : List (VectorUpdateInfo α)) : UpdateInfo α :=
  { updates := Function.update info.updates vectorIdx chain }

def update (info : UpdateInfo α) (t : Snapshot) (vectorIdx rowInVector : Nat) (value : α) :
    Except String (UpdateInfo α) :=
  let chain := info.updates vectorIdx
  if chain.any (conflicts t rowInVector) then .error updateConflict
  else .ok (info.setChain vectorIdx ((writeOwn t.id rowInVector value chain).getD
    ((VectorUpdateInfo.create t.id).write rowInVector value :: chain)))

def lookup (info : UpdateInfo α) (s : Snapshot) (rowInChunk : Nat) : Option α :=
  (info.updates (rowInChunk / vectorCapacity)).findSome? fun u =>
    if s.sees u.version then u.values (rowInChunk % vectorCapacity) else none

def commit (info : UpdateInfo α) (vectorIdx creator commitTS : Nat) : UpdateInfo α :=
  info.setChain vectorIdx ((info.updates vectorIdx).map fun u =>
    if u.creator = creator then { u with version := commitTS } else u)

def rollback (info : UpdateInfo α) (vectorIdx version : Nat) : UpdateInfo α :=
  info.setChain vectorIdx ((info.updates vectorIdx).eraseP (·.version = version))

end UpdateInfo

structure ColumnChunk (α : Type) where
  data : List α := []
  updateInfo : UpdateInfo α := {}

namespace ColumnChunk

def lookup (chunk : ColumnChunk α) (s : Snapshot) (rowInChunk : Nat) : Option α :=
  (chunk.updateInfo.lookup s rowInChunk).or chunk.data[rowInChunk]?

def update (chunk : ColumnChunk α) (t : Snapshot) (offsetInChunk : Nat) (value : α) : Except String (ColumnChunk α) :=
  (chunk.updateInfo.update t (offsetInChunk / vectorCapacity) (offsetInChunk % vectorCapacity) value).map
    fun info => { chunk with updateInfo := info }

def append (chunk : ColumnChunk α) (values : List α) : ColumnChunk α :=
  { chunk with data := chunk.data ++ values }

def truncate (chunk : ColumnChunk α) (numRows : Nat) : ColumnChunk α :=
  { chunk with data := chunk.data.take numRows }

end ColumnChunk

inductive ResidencyState
  | inMemory
  | onDisk
  deriving DecidableEq, Repr

/-- A block of the rows of a node group, with its columns. -/
structure ChunkedNodeGroup (α : Type) where
  residencyState : ResidencyState
  startRowIdx : Nat
  capacity : Nat
  numRows : Nat := 0
  isSealed : Bool := false
  versionInfo : Option VersionInfo := none
  columns : Nat → ColumnChunk α := fun _ => {}

namespace ChunkedNodeGroup

variable (b : ChunkedNodeGroup α)

def isEmpty : Bool := b.numRows = 0

def isFullOrOnDisk : Bool := b.numRows = b.capacity || b.isSealed || b.residencyState = .onDisk

def append (transactionID : Nat) (rows : List (Nat → α)) : ChunkedNodeGroup α :=
  let rows := rows.take (b.capacity - b.numRows)
  { b with
    columns := fun column => (b.columns column).append (rows.map (· column))
    versionInfo := some ((b.versionInfo.getD {}).append transactionID b.numRows rows.length)
    numRows := b.numRows + rows.length }

def truncate (numRows : Nat) : ChunkedNodeGroup α :=
  { b with columns := fun column => (b.columns column).truncate numRows, numRows }

def delete (transactionID rowInChunk : Nat) : Except String (ChunkedNodeGroup α × Bool) :=
  ((b.versionInfo.getD {}).delete transactionID rowInChunk).map fun r =>
    ({ b with versionInfo := some r.1 }, r.2)

def setColumn (column : Nat) (chunk : ColumnChunk α) : ChunkedNodeGroup α :=
  { b with columns := Function.update b.columns column chunk }

def update (t : Snapshot) (rowInChunk column : Nat) (value : α) : Except String (ChunkedNodeGroup α) :=
  ((b.columns column).update t rowInChunk value).map (b.setColumn column)

def commitInsert (commitTS startRow numRows : Nat) : ChunkedNodeGroup α :=
  { b with versionInfo := b.versionInfo.map fun info => info.commitInsert commitTS startRow numRows }

/-- A block whose rows are all undone keeps its version information. -/
def rollbackInsert (startRow numRows : Nat) : ChunkedNodeGroup α :=
  if b.numRows ≤ startRow then b
  else
    let undone : ChunkedNodeGroup α :=
      { b with versionInfo := b.versionInfo.map fun info => info.rollbackInsert startRow numRows }
    match b.residencyState with
    | .inMemory => undone.truncate startRow
    | .onDisk => { undone with numRows := startRow }

def commitDelete (commitTS startRow numRows : Nat) : ChunkedNodeGroup α :=
  { b with versionInfo := b.versionInfo.map fun info => info.commitDelete commitTS startRow numRows }

def rollbackDelete (startRow numRows : Nat) : ChunkedNodeGroup α :=
  { b with versionInfo := b.versionInfo.map fun info => info.rollbackDelete startRow numRows }

def isDeleted (s : Snapshot) (rowInChunk : Nat) : Bool :=
  match b.versionInfo with
  | none => false
  | some info => info.isDeleted s rowInChunk

def isInserted (s : Snapshot) (rowInChunk : Nat) : Bool :=
  match b.versionInfo with
  | none => rowInChunk < b.numRows
  | some info => info.isInserted s rowInChunk

def isSelected (s : Snapshot) (rowInChunk : Nat) : Bool :=
  rowInChunk < b.numRows && match b.versionInfo with
    | none => true
    | some info => info.isSelected s rowInChunk

def lookup (s : Snapshot) (rowInChunk column : Nat) : Option α :=
  if b.isSelected s rowInChunk then (b.columns column).lookup s rowInChunk else none

end ChunkedNodeGroup

end Rag3db.Storage
