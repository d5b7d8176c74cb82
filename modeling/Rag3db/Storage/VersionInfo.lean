import Mathlib

namespace Rag3db.Storage

/-! The version of a write is the identifier of its transaction, counted from
`startTransactionId`, and once it is committed the timestamp of the commit. -/

def startTransactionId : Nat := 2 ^ 63

def invalidTransaction : Nat := 2 ^ 64 - 1

def vectorCapacity : Nat := 2048

/-- What a transaction tells the versions it sees by. Only the transactions of
the storage itself have the identifier 0. -/
structure Snapshot where
  startTS : Nat
  id : Nat
  startTS_lt : startTS < startTransactionId
  id_lt : id < invalidTransaction
  id_start : id = 0 ∨ startTransactionId ≤ id

def Snapshot.sees (s : Snapshot) (version : Nat) : Bool :=
  version = s.id || version ≤ s.startTS

/-- `DUMMY_CHECKPOINT_TRANSACTION`: it sees whatever is committed. -/
def Snapshot.checkpoint : Snapshot where
  startTS := startTransactionId - 1
  id := 0
  startTS_lt := by decide
  id_lt := by decide
  id_start := .inl rfl

namespace Snapshot

variable (s : Snapshot) {version : Nat}

theorem sees_iff : s.sees version = true ↔ version = s.id ∨ version ≤ s.startTS := by
  simp [sees]

@[simp] theorem sees_zero : s.sees 0 = true := by simp [sees]

@[simp] theorem sees_invalid : s.sees invalidTransaction = false := by
  have hid : invalidTransaction ≠ s.id := s.id_lt.ne'
  have hts : ¬ invalidTransaction ≤ s.startTS :=
    Nat.not_le.mpr (s.startTS_lt.trans (by decide : startTransactionId < invalidTransaction))
  simp [sees, hid, hts]

theorem not_sees_other (hstart : startTransactionId ≤ version) (hne : version ≠ s.id) : s.sees version = false := by
  have hts : ¬ version ≤ s.startTS := Nat.not_le.mpr (s.startTS_lt.trans_le hstart)
  simp [sees, hne, hts]

theorem sees_commit (hpos : 0 < version) (hlt : version < startTransactionId) :
    s.sees version = decide (version ≤ s.startTS) := by
  have hne : version ≠ s.id := by
    rcases s.id_start with hid | hid <;> omega
  simp [sees, hne]

end Snapshot

inductive InsertionStatus
  | noInserted
  | checkVersion
  | alwaysInserted
  deriving DecidableEq, Repr

inductive DeletionStatus
  | noDeleted
  | checkVersion
  deriving DecidableEq, Repr

def fill (versions : Nat → Nat) (startRow numRows : Nat) (version : Nat) : Nat → Nat :=
  fun row => if startRow ≤ row ∧ row < startRow + numRows then version else versions row

/-- The versions of the `vectorCapacity` rows of a vector. An array stands
for one of that length, and is there once the rows differ. -/
structure VectorVersionInfo where
  insertedVersions : Option (Nat → Nat) := none
  deletedVersions : Option (Nat → Nat) := none
  sameInsertionVersion : Nat := invalidTransaction
  sameDeletionVersion : Nat := invalidTransaction
  insertionStatus : InsertionStatus := .noInserted
  deletionStatus : DeletionStatus := .noDeleted

def noVersions : Nat → Nat := fun _ => invalidTransaction

def hasAny (versions : Nat → Nat) : Bool :=
  (List.range vectorCapacity).any fun row => versions row ≠ invalidTransaction

namespace VectorVersionInfo

variable (v : VectorVersionInfo)

def isSameInsertionVersion : Bool := v.sameInsertionVersion ≠ invalidTransaction

def isSameDeletionVersion : Bool := v.sameDeletionVersion ≠ invalidTransaction

def append (transactionID : Nat) (startRow numRows : Nat) : VectorVersionInfo :=
  if transactionID = v.sameInsertionVersion then { v with insertionStatus := .checkVersion }
  else match v.insertedVersions with
    | none =>
      if !v.isSameInsertionVersion then
        { v with insertionStatus := .checkVersion, sameInsertionVersion := transactionID }
      else
        { v with
          insertionStatus := .checkVersion
          insertedVersions := some (fill (fill noVersions 0 startRow v.sameInsertionVersion)
            startRow numRows transactionID)
          sameInsertionVersion := invalidTransaction }
    | some versions =>
      { v with
        insertionStatus := .checkVersion
        insertedVersions := some (fill versions startRow numRows transactionID) }

def deleteConflict : String :=
  "Write-write conflict: deleting a row that is already deleted by another transaction."

/-- `delete_`, with whether the row was still there for the transaction. -/
def delete (transactionID : Nat) (rowIdx : Nat) : Except String (VectorVersionInfo × Bool) :=
  if transactionID = v.sameDeletionVersion then .ok ({ v with deletionStatus := .checkVersion }, false)
  else if v.isSameDeletionVersion then .error deleteConflict
  else
    let versions := v.deletedVersions.getD noVersions
    if versions rowIdx = transactionID then
      .ok ({ v with deletionStatus := .checkVersion, deletedVersions := some versions }, false)
    else if versions rowIdx ≠ invalidTransaction then .error deleteConflict
    else .ok ({ v with
      deletionStatus := .checkVersion
      deletedVersions := some (fill versions rowIdx 1 transactionID) }, true)

def setInsertCommitTS (commitTS : Nat) (startRow numRows : Nat) : VectorVersionInfo :=
  if v.isSameInsertionVersion then { v with sameInsertionVersion := commitTS }
  else { v with insertedVersions := v.insertedVersions.map (fill · startRow numRows commitTS) }

def setDeleteCommitTS (commitTS : Nat) (startRow numRows : Nat) : VectorVersionInfo :=
  if v.isSameDeletionVersion then { v with sameDeletionVersion := commitTS }
  else { v with deletedVersions := v.deletedVersions.map (fill · startRow numRows commitTS) }

/-- An array in which no version is left is given back. -/
def erase (versions : Nat → Nat) (startRow numRows : Nat) : Option (Nat → Nat) :=
  let erased := fill versions startRow numRows invalidTransaction
  if hasAny erased then some erased else none

def rollbackInsertions (startRow numRows : Nat) : VectorVersionInfo :=
  let w := if v.isSameInsertionVersion then { v with sameInsertionVersion := invalidTransaction }
    else { v with insertedVersions := v.insertedVersions.bind (erase · startRow numRows) }
  if w.insertedVersions.isNone then
    { w with insertionStatus := .noInserted, deletionStatus := .noDeleted }
  else w

def rollbackDeletions (startRow numRows : Nat) : VectorVersionInfo :=
  let w := if v.isSameDeletionVersion then { v with sameDeletionVersion := invalidTransaction }
    else { v with deletedVersions := v.deletedVersions.bind (erase · startRow numRows) }
  if w.deletedVersions.isNone then { w with deletionStatus := .noDeleted } else w

def isDeleted (s : Snapshot) (rowIdx : Nat) : Bool :=
  match v.deletionStatus with
  | .noDeleted => false
  | .checkVersion =>
    if v.isSameDeletionVersion then s.sees v.sameDeletionVersion
    else s.sees (v.deletedVersions.getD noVersions rowIdx)

def isInserted (s : Snapshot) (rowIdx : Nat) : Bool :=
  match v.insertionStatus with
  | .alwaysInserted => true
  | .noInserted => false
  | .checkVersion =>
    if v.isSameInsertionVersion then s.sees v.sameInsertionVersion
    else s.sees (v.insertedVersions.getD noVersions rowIdx)

def isSelected (s : Snapshot) (rowIdx : Nat) : Bool :=
  if v.deletionStatus = .noDeleted && v.insertionStatus = .alwaysInserted then true
  else if v.insertionStatus = .noInserted then false
  else if v.isInserted s rowIdx then !v.isDeleted s rowIdx else false

end VectorVersionInfo

/-- The versions of the rows of a block, vector by vector. A vector without
information holds rows that are committed for everybody. -/
@[ext] structure VersionInfo where
  vectorsInfo : Nat → Option VectorVersionInfo := fun _ => none

namespace VersionInfo

variable (info : VersionInfo)

/-- The loop of `append`, `commitInsert`, `rollbackInsert`, `commitDelete` and
`rollbackDelete` over the vectors of a range of rows. -/
def onVectors (f : VectorVersionInfo → Nat → Nat → VectorVersionInfo) (startRow numRows : Nat) : VersionInfo :=
  if numRows = 0 then info
  else
    let endRow := startRow + numRows - 1
    { vectorsInfo := fun vectorIdx =>
        if startRow / vectorCapacity ≤ vectorIdx ∧ vectorIdx ≤ endRow / vectorCapacity then
          let startRowIdx := if vectorIdx = startRow / vectorCapacity then startRow % vectorCapacity else 0
          let endRowIdx := if vectorIdx = endRow / vectorCapacity then endRow % vectorCapacity
            else vectorCapacity - 1
          some (f ((info.vectorsInfo vectorIdx).getD {}) startRowIdx (endRowIdx - startRowIdx + 1))
        else info.vectorsInfo vectorIdx }

def append (transactionID : Nat) : Nat → Nat → VersionInfo :=
  info.onVectors fun v => v.append transactionID

def commitInsert (commitTS : Nat) : Nat → Nat → VersionInfo :=
  info.onVectors fun v => v.setInsertCommitTS commitTS

def rollbackInsert : Nat → Nat → VersionInfo := info.onVectors fun v => v.rollbackInsertions

def commitDelete (commitTS : Nat) : Nat → Nat → VersionInfo :=
  info.onVectors fun v => v.setDeleteCommitTS commitTS

def rollbackDelete : Nat → Nat → VersionInfo := info.onVectors fun v => v.rollbackDeletions

def setVector (vectorIdx : Nat) (v : VectorVersionInfo) : VersionInfo :=
  { vectorsInfo := fun i => if i = vectorIdx then some v else info.vectorsInfo i }

/-- A vector without information of its own holds checkpointed rows only, so
that a first deletion in it marks them inserted for good. -/
def delete (transactionID : Nat) (rowIdx : Nat) : Except String (VersionInfo × Bool) :=
  let v := (info.vectorsInfo (rowIdx / vectorCapacity)).getD {}
  let v := if v.insertionStatus = .noInserted then { v with insertionStatus := .alwaysInserted } else v
  (v.delete transactionID (rowIdx % vectorCapacity)).map fun r =>
    (info.setVector (rowIdx / vectorCapacity) r.1, r.2)

def isSelected (s : Snapshot) (rowIdx : Nat) : Bool :=
  match info.vectorsInfo (rowIdx / vectorCapacity) with
  | some v => v.isSelected s (rowIdx % vectorCapacity)
  | none => true

def isDeleted (s : Snapshot) (rowIdx : Nat) : Bool :=
  match info.vectorsInfo (rowIdx / vectorCapacity) with
  | some v => v.isDeleted s (rowIdx % vectorCapacity)
  | none => false

def isInserted (s : Snapshot) (rowIdx : Nat) : Bool :=
  match info.vectorsInfo (rowIdx / vectorCapacity) with
  | some v => v.isInserted s (rowIdx % vectorCapacity)
  | none => true

def getNumDeletions (s : Snapshot) (startRow numRows : Nat) : Nat :=
  ((List.range numRows).filter fun i => info.isDeleted s (startRow + i)).length

end VersionInfo

end Rag3db.Storage
