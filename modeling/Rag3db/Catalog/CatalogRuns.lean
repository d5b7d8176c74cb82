import Rag3db.Catalog.CatalogSteps

namespace Rag3db.Catalog

open Library.Interruptible Storage

inductive CatalogOperation
  | createEntry (set : SetName) (name : String) (data : EntryData)
  | dropEntry (set : SetName) (name : String)
  | alterTableEntry (info : BoundAlterInfo)

namespace CatalogOperation

def steps (tx : Snapshot) : CatalogOperation → Steps DDLState
  | createEntry set name data => DDLState.createEntry tx set name data
  | dropEntry set name => DDLState.dropEntryOf tx set name
  | alterTableEntry info => DDLState.alterTableEntry tx info

def touches (set : SetName) (k : List Char) : CatalogOperation → Prop
  | createEntry set' name _ | dropEntry set' name => set = set' ∧ k = key name
  | alterTableEntry info => set = .tables ∧ (k = key info.tableName ∨
      ∃ newName, info.alterType = .rename newName ∧ k = key newName)

end CatalogOperation

structure CatalogWriter where
  snapshot : Snapshot
  undoBuffer : List CatalogEntryRecord := []
  failed : Bool := false

def CatalogWriter.state (x : CatalogWriter) (catalog : CatalogSets) : DDLState := ⟨catalog, x.undoBuffer⟩

/-- A catalog, and the transactions that work on it under the transaction manager. -/
structure CatalogRun where
  catalog : CatalogSets
  lastTimestamp : Nat
  lastTransactionID : Nat
  active : Nat → Option CatalogWriter := fun _ => none

inductive CatalogAction
  | begin
  | execute (id : Nat) (operation : CatalogOperation)
  | commit (id : Nat)
  | rollback (id : Nat)

namespace CatalogRun

variable (s : CatalogRun)

def setWriter (id : Nat) (x : Option CatalogWriter) : Nat → Option CatalogWriter :=
  fun other => if other = id then x else s.active other

def beginTransaction : Option CatalogRun :=
  let id := s.lastTransactionID + 1
  if h : s.lastTimestamp < startTransactionId ∧ startTransactionId ≤ id ∧ id < invalidTransaction then
    some { s with
      lastTransactionID := id
      active := s.setWriter id (some { snapshot := ⟨s.lastTimestamp, id, h.1, h.2.2, .inr h.2.1⟩ }) }
  else none

/-- A statement that raises leaves what it has done, and its transaction can only be rolled back. -/
def execute (id : Nat) (x : CatalogWriter) (op : CatalogOperation) : Option CatalogRun :=
  if x.failed then none
  else
    let outcome := op.steps x.snapshot (x.state s.catalog)
    let t := outcome.last (x.state s.catalog)
    some { s with
      catalog := t.catalog
      active := s.setWriter id (some { x with undoBuffer := t.undoBuffer, failed := !outcome.finished }) }

def commit (id : Nat) (x : CatalogWriter) : Option CatalogRun :=
  if x.failed ∨ startTransactionId ≤ s.lastTimestamp + 1 then none
  else some { s with
    catalog := (x.state s.catalog).commit (s.lastTimestamp + 1)
    lastTimestamp := s.lastTimestamp + 1
    active := s.setWriter id none }

def rollback (id : Nat) (x : CatalogWriter) : CatalogRun :=
  { s with catalog := (x.state s.catalog).rollback, active := s.setWriter id none }

def step : CatalogAction → Option CatalogRun
  | .begin => s.beginTransaction
  | .execute id op => (s.active id).bind fun x => s.execute id x op
  | .commit id => (s.active id).bind (s.commit id)
  | .rollback id => (s.active id).map (s.rollback id)

/-- Whether an entry is dropped only by a transaction that might as well alter it. -/
def careful : CatalogAction → Bool
  | .execute id (.dropEntry set name) => (s.active id).all fun x =>
    (s.catalog.chain set name).head?.all fun head => !checkWWConflict x.snapshot head
  | _ => true

end CatalogRun

end Rag3db.Catalog
