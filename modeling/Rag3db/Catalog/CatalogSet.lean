import Rag3db.Library.Interruptible
import Rag3db.Library.Transition
import Rag3db.Storage.VersionInfo

namespace Rag3db.Catalog

open Library.Interruptible Storage

/-- The sets of a catalog. -/
inductive SetName
  | tables
  | internalTables
  | sequences
  | internalSequences
  | functions
  | internalFunctions
  | types
  | indexes
  | macros
  deriving DecidableEq, Repr

/-- Names are the same up to case. -/
def key (name : String) : List Char := name.toList.map Char.toLower

structure PropertyDefinition where
  name : String
  isSerial : Bool := false
  deriving DecidableEq

structure RelTableCatalogInfo where
  srcTableID : Nat
  dstTableID : Nat
  oid : Nat
  deriving DecidableEq

/-- What a node table or a group of relationship tables has of its own. -/
structure TableData where
  comment : String := ""
  properties : List PropertyDefinition := []
  relTableInfos : List RelTableCatalogInfo := []
  deriving DecidableEq

inductive EntryData
  | table (data : TableData)
  | index (tableID : Nat)
  | other
  deriving DecidableEq

/-- A version of an entry, at the address `ref`. A dummy entry has no data: it
stands for an entry that does not exist. -/
structure CatalogEntry where
  ref : Nat
  name : String
  oid : Nat
  timestamp : Nat
  data : Option EntryData
  deriving DecidableEq

def CatalogEntry.isDeleted (e : CatalogEntry) : Bool := e.data.isNone

/-- The versions under each name, the newest first. -/
structure CatalogSets where
  entries : SetName → List Char → List CatalogEntry := fun _ _ => []
  nextOID : SetName → Nat := fun _ => 0
  nextRef : Nat := 0

/-- The address of the entry in front of which a transaction has put a version. -/
structure CatalogEntryRecord where
  set : SetName
  name : String
  ref : Nat

/-- The catalog and the undo buffer of the transaction that works on it, the
latest record first. -/
structure DDLState where
  catalog : CatalogSets
  undoBuffer : List CatalogEntryRecord := []

def checkWWConflict (tx : Snapshot) (e : CatalogEntry) : Bool :=
  (startTransactionId ≤ e.timestamp && e.timestamp ≠ tx.id) ||
    (e.timestamp < startTransactionId && e.timestamp > tx.startTS)

namespace CatalogSets

variable (c : CatalogSets) (tx : Snapshot) (set : SetName) (name : String)

def chain : List CatalogEntry := c.entries set (key name)

def setChain (versions : List CatalogEntry) : CatalogSets :=
  { c with entries := fun set' k => if set' = set ∧ k = key name then versions else c.entries set' k }

/-- `traverseVersionChainsForTransactionNoLock` -/
def traverse (versions : List CatalogEntry) : Option CatalogEntry :=
  versions.find? fun e => tx.sees e.timestamp

def containsEntry : Bool := (traverse tx (c.chain set name)).any fun e => !e.isDeleted

def getEntry : Except String CatalogEntry :=
  match (traverse tx (c.chain set name)).filter fun e => !e.isDeleted with
  | some e => .ok e
  | none => .error (name ++ " does not exist in catalog.")

/-- The map of a set is gone through in an order of its own. -/
def getEntryOfOID (names : List (List Char)) (oid : Nat) : Option CatalogEntry :=
  names.findSome? fun k =>
    match c.entries set k with
    | [] => none
    | head :: older =>
      if head.oid ≠ oid then none else (traverse tx (head :: older)).filter fun e => !e.isDeleted

/-- A name that is new gets a dummy entry, which nobody has written. -/
def withDummyEntry (oid : Nat) : CatalogSets :=
  match c.chain set name with
  | [] => { c.setChain set name [⟨c.nextRef, name, oid, 0, none⟩] with nextRef := c.nextRef + 1 }
  | _ :: _ => c

def checkCreate : Except String Unit :=
  if c.containsEntry tx set name then .error (name ++ " already exists in catalog.")
  else
    match c.chain set name with
    | [] => .ok ()
    | head :: _ =>
      if checkWWConflict tx head then
        .error ("Write-write conflict on creating catalog entry with name " ++ name ++ ".")
      else if !head.isDeleted then .error ("Catalog entry with name " ++ name ++ " already exists.")
      else .ok ()

def checkAlter : Except String CatalogEntry :=
  match c.getEntry tx .tables name, c.chain .tables name with
  | .error message, _ => .error message
  | .ok entry, head :: _ =>
    if checkWWConflict tx head then
      .error ("Write-write conflict on altering catalog entry with name " ++ name ++ ".")
    else .ok entry
  | .ok entry, [] => .ok entry

end CatalogSets

inductive AlterType
  | rename (newName : String)
  | renameProperty (oldName newName : String)
  | addProperty (definition : PropertyDefinition)
  | dropProperty (propertyName : String)
  | comment (comment : String)
  | addFromToConnection (fromTableID toTableID : Nat)
  | dropFromToConnection (fromTableID toTableID : Nat)

structure BoundAlterInfo where
  tableName : String
  alterType : AlterType

/-- `TableCatalogEntry::alter`; a new connection takes the next object id. -/
def TableData.alter (data : TableData) (nextOID : Nat) : AlterType → TableData
  | .rename _ => data
  | .renameProperty oldName newName => { data with
      properties := data.properties.map fun p => if key p.name = key oldName then { p with name := newName } else p }
  | .addProperty definition => { data with properties := data.properties ++ [definition] }
  | .dropProperty propertyName => { data with
      properties := data.properties.filter fun p => key p.name ≠ key propertyName }
  | .comment comment => { data with comment }
  | .addFromToConnection fromTableID toTableID => { data with
      relTableInfos := data.relTableInfos ++ [⟨fromTableID, toTableID, nextOID⟩] }
  | .dropFromToConnection fromTableID toTableID => { data with
      relTableInfos := data.relTableInfos.filter fun i => ¬(i.srcTableID = fromTableID ∧ i.dstTableID = toTableID) }

def EntryData.alter (nextOID : Nat) (type : AlterType) : EntryData → EntryData
  | .table data => .table (data.alter nextOID type)
  | data => data

def AlterType.takesOID : AlterType → Bool
  | addFromToConnection _ _ => true
  | _ => false

namespace DDLState

variable (tx : Snapshot) (set : SetName) (name : String)

def check {ε β : Type} (f : CatalogSets → Except ε β) : Steps DDLState :=
  .attempt fun s => (f s.catalog).map fun _ => s

def modify (f : CatalogSets → CatalogSets) : Steps DDLState := .step fun s => { s with catalog := f s.catalog }

def takeOID : Steps DDLState :=
  modify fun c => { c with nextOID := fun set' => if set' = set then c.nextOID set + 1 else c.nextOID set' }

/-- The chain of the name is taken out of the map and put back behind the entry. -/
def emplaceNoLock (oid timestamp : Nat) (data : Option EntryData) : Steps DDLState := fun s =>
  let versions := ⟨s.catalog.nextRef, name, oid, timestamp, data⟩ :: s.catalog.chain set name
  (modify fun c => c.setChain set name []).andThen
    (modify fun c => { c.setChain set name versions with nextRef := c.nextRef + 1 }) s

def createEntryNoLock (oid : Nat) (data : EntryData) : Steps DDLState :=
  (check fun c => c.checkCreate tx set name).andThen
    ((modify fun c => c.withDummyEntry set name oid).andThen (emplaceNoLock set name oid tx.id (some data)))

def dropEntryNoLock (oid : Nat) : Steps DDLState :=
  (check fun c => c.getEntry tx set name).andThen (emplaceNoLock set name oid tx.id none)

/-- `UndoBuffer::createCatalogEntry` -/
def createCatalogEntry (e : CatalogEntry) : Steps DDLState :=
  .step fun s => { s with undoBuffer := ⟨set, e.name, e.ref⟩ :: s.undoBuffer }

/-- The record of the version that has just been put in front of its chain. -/
def pushCreateDropCatalogEntry : Steps DDLState := fun s =>
  match s.catalog.chain set name with
  | _ :: prev :: _ => createCatalogEntry set prev s
  | _ => Steps.skip s

def createEntry (data : EntryData) : Steps DDLState := fun s =>
  (takeOID set).andThen ((createEntryNoLock tx set name (s.catalog.nextOID set) data).andThen
    (pushCreateDropCatalogEntry set name)) s

def dropEntry (oid : Nat) : Steps DDLState :=
  (dropEntryNoLock tx set name oid).andThen (pushCreateDropCatalogEntry set name)

def dropEntryOf : Steps DDLState := fun s =>
  match s.catalog.getEntry tx set name with
  | .error _ => ⟨[], false⟩
  | .ok entry => dropEntry tx set name entry.oid s

def alterTableEntry (info : BoundAlterInfo) : Steps DDLState := fun s =>
  match s.catalog.checkAlter tx info.tableName with
  | .error _ => ⟨[], false⟩
  | .ok entry =>
    match info.alterType with
    | .rename newName =>
      (dropEntryNoLock tx .tables info.tableName entry.oid).andThen
        ((createEntryNoLock tx .tables newName entry.oid (entry.data.getD .other)).andThen
          ((createCatalogEntry .tables entry).andThen (pushCreateDropCatalogEntry .tables newName))) s
    | type =>
      (if type.takesOID then takeOID .tables else Steps.skip).andThen
        ((emplaceNoLock .tables info.tableName entry.oid tx.id
          (entry.data.map (·.alter (s.catalog.nextOID .tables) type))).andThen (createCatalogEntry .tables entry)) s

end DDLState

section Undo

/-- The version in front of the one at `ref` gets the timestamp of its commit. -/
def stampNext (ref commitTS : Nat) : List CatalogEntry → List CatalogEntry
  | newer :: e :: older =>
    if e.ref = ref then { newer with timestamp := commitTS } :: e :: older
    else newer :: stampNext ref commitTS (e :: older)
  | versions => versions

/-- The version in front of the one at `ref` leaves the chain. -/
def removeNext (ref : Nat) : List CatalogEntry → List CatalogEntry
  | newer :: e :: older => if e.ref = ref then e :: older else newer :: removeNext ref (e :: older)
  | versions => versions

def CatalogEntryRecord.commit (commitTS : Nat) (r : CatalogEntryRecord) (c : CatalogSets) : CatalogSets :=
  c.setChain r.set r.name (stampNext r.ref commitTS (c.chain r.set r.name))

/-- `rollbackCatalogEntryRecord` -/
def CatalogEntryRecord.rollback (r : CatalogEntryRecord) (c : CatalogSets) : CatalogSets :=
  c.setChain r.set r.name (removeNext r.ref (c.chain r.set r.name))

def DDLState.commit (commitTS : Nat) (s : DDLState) : CatalogSets :=
  s.undoBuffer.foldr (fun r c => r.commit commitTS c) s.catalog

def DDLState.rollback (s : DDLState) : CatalogSets :=
  s.undoBuffer.foldl (fun c r => r.rollback c) s.catalog

end Undo

end Rag3db.Catalog
