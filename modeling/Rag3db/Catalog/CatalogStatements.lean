import Rag3db.Catalog.CatalogIsolation

namespace Rag3db.Catalog

open Library.Interruptible Storage DDLState Steps

abbrev MapOrder : Type := SetName → List (List Char)

def getSerialName (tableName propertyName : String) : String :=
  tableName ++ "_" ++ propertyName ++ "_" ++ "serial"

def TableData.serialNames (data : TableData) (tableName : String) : List String :=
  (data.properties.filter (·.isSerial)).map fun p => getSerialName tableName p.name

def CatalogEntry.serialNames (e : CatalogEntry) : List String :=
  match e.data with
  | some (.table data) => data.serialNames e.name
  | _ => []

namespace CatalogSets

variable (c : CatalogSets) (tx : Snapshot) (order : MapOrder) (set internal : SetName) (name : String)

def getEntries : List CatalogEntry :=
  (order set).filterMap fun k => (traverse tx (c.entries set k)).filter fun e => !e.isDeleted

/-- Names are looked for in the set that users see, and then in the internal one. -/
def setOf : SetName := if c.containsEntry tx set name then set else internal

def getTableCatalogEntry : Except String CatalogEntry := c.getEntry tx (c.setOf tx .tables .internalTables name) name

def getTableCatalogEntryOfOID (oid : Nat) : Option CatalogEntry :=
  (c.getEntryOfOID tx .tables (order .tables) oid).or (c.getEntryOfOID tx .internalTables (order .internalTables) oid)

def getSequenceEntry : Except String CatalogEntry :=
  c.getEntry tx (c.setOf tx .sequences .internalSequences name) name

def getSequenceEntryOfOID (oid : Nat) : Option CatalogEntry :=
  (c.getEntryOfOID tx .internalSequences (order .internalSequences) oid).or
    (c.getEntryOfOID tx .sequences (order .sequences) oid)

end CatalogSets

namespace DDLState

variable (tx : Snapshot) (order : MapOrder) (name : String)

def fail : Steps DDLState := fun _ => ⟨[], false⟩

def createSequence (isInternal : Bool) : Steps DDLState :=
  createEntry tx (if isInternal then .internalSequences else .sequences) name .other

def createTableEntry (isInternal : Bool) (data : TableData) : Steps DDLState :=
  (each (fun sequence => createSequence tx sequence isInternal) (data.serialNames name)).andThen
    (createEntry tx (if isInternal then .internalTables else .tables) name (.table data))

/-- Each pair of node tables takes an object id of its own. -/
def createRelGroupEntry (isInternal : Bool) (data : TableData) (nodePairs : List (Nat × Nat)) : Steps DDLState :=
  fun s =>
    let relTableInfos := nodePairs.mapIdx fun i p => ⟨p.1, p.2, s.catalog.nextOID .tables + i⟩
    (each (fun _ => takeOID .tables) nodePairs).andThen
      (createTableEntry tx name isInternal { data with relTableInfos }) s

def dropSequence : Steps DDLState := fun s =>
  match s.catalog.getSequenceEntry tx name with
  | .error _ => fail s
  | .ok entry =>
    match s.catalog.getSequenceEntryOfOID tx order entry.oid with
    | none => fail s
    | some e => dropEntry tx (s.catalog.setOf tx .sequences .internalSequences e.name) e.name e.oid s

def dropTableEntry (tableID : Nat) : Steps DDLState := fun s =>
  match s.catalog.getTableCatalogEntryOfOID tx order tableID with
  | none => fail s
  | some e =>
    (each (fun sequence => dropSequence tx order sequence) e.serialNames).andThen (fun s =>
      dropEntry tx (s.catalog.setOf tx .tables .internalTables e.name) e.name e.oid s) s

def dropAllIndexes (tableID : Nat) : Steps DDLState := fun s =>
  each (fun e : CatalogEntry => dropEntry tx .indexes e.name e.oid)
    ((s.catalog.getEntries tx order .indexes).filter fun e => e.data = some (.index tableID)) s

def dropTableEntryAndIndex : Steps DDLState := fun s =>
  match s.catalog.getTableCatalogEntry tx name with
  | .error _ => fail s
  | .ok entry => (dropAllIndexes tx order entry.oid).andThen (dropTableEntry tx order entry.oid) s

end DDLState

/-- The operations of the catalog that define or drop something. -/
inductive CatalogStatement
  | createTableEntry (name : String) (isInternal : Bool) (data : TableData)
  | createRelGroupEntry (name : String) (isInternal : Bool) (data : TableData) (nodePairs : List (Nat × Nat))
  | dropTableEntryAndIndex (name : String)
  | alterTableEntry (info : BoundAlterInfo)
  | createSequence (name : String) (isInternal : Bool)
  | dropSequence (name : String)
  | createEntry (set : SetName) (name : String) (data : EntryData)
  | dropEntry (set : SetName) (name : String)

def CatalogStatement.steps (tx : Snapshot) (order : MapOrder) : CatalogStatement → Steps DDLState
  | createTableEntry name isInternal data => DDLState.createTableEntry tx name isInternal data
  | createRelGroupEntry name isInternal data nodePairs =>
    DDLState.createRelGroupEntry tx name isInternal data nodePairs
  | dropTableEntryAndIndex name => DDLState.dropTableEntryAndIndex tx order name
  | alterTableEntry info => DDLState.alterTableEntry tx info
  | createSequence name isInternal => DDLState.createSequence tx name isInternal
  | dropSequence name => DDLState.dropSequence tx order name
  | createEntry set name data => DDLState.createEntry tx set name data
  | dropEntry set name => dropEntryOf tx set name

section Contracts

variable {c₀ : CatalogSets} {tx : Snapshot} {time issued : Nat} {E : DDLState → Prop}

/-- A computation that a transaction can run whenever its versions all have a record. -/
abbrev Sequential (time issued : Nat) (tx : Snapshot) (c₀ : CatalogSets) (E : DDLState → Prop)
    (f : Steps DDLState) : Prop :=
  Contract (Done False time issued tx c₀) f (Passed False time issued tx c₀) (Done False time issued tx c₀) E

theorem fail_sequential (hE : ∀ s, Done False time issued tx c₀ s → E s) : Sequential time issued tx c₀ E fail :=
  ⟨⟨by simp [fail], by simp [fail]⟩, fun h _ => hE _ h⟩

variable {set : SetName}

theorem takeOID_sequential : Sequential time issued tx c₀ E (takeOID set) :=
  .step (fun _ ⟨_, h⟩ => h.takeOID.passed) fun _ ⟨R, h⟩ => ⟨R, h.takeOID⟩

variable (hstart : startTransactionId ≤ tx.id) (hissued : tx.id ≤ issued)
  (hE : ∀ s, Done False time issued tx c₀ s → E s)

include hstart hissued hE

variable {name : String} {isInternal : Bool} {data : TableData}

theorem createEntry_sequential {data : EntryData} : Sequential time issued tx c₀ E (createEntry tx set name data) :=
  .pointwise fun _ h => ⟨_, rfl, createEntry_contract hstart hissued h data hE⟩

theorem dropEntry_sequential {oid : Nat} : Sequential time issued tx c₀ E (dropEntry tx set name oid) := by
  refine .pointwise fun s h => ?_
  cases hc : s.catalog.chain set name with
  | cons head older => exact ⟨_, rfl, dropEntry_contract hstart hissued h oid (hE s h) hc False.elim⟩
  | nil =>
    refine ⟨fail, ?_, (fail_sequential hE).pre (by rintro _ rfl; exact h)⟩
    simp [dropEntry, dropEntryNoLock, check, andThen, attempt,
      CatalogSets.getEntry, hc, CatalogSets.traverse, Except.map, fail]

theorem alterTableEntry_sequential {info : BoundAlterInfo}
    (hrename : ∀ newName, info.alterType = .rename newName → ∀ s, Half False time issued tx c₀ s → E s) :
    Sequential time issued tx c₀ E (alterTableEntry tx info) :=
  .pointwise fun s h => ⟨_, rfl, alterTableEntry_contract hstart hissued h (hE s h) hrename⟩

theorem dropEntryOf_sequential : Sequential time issued tx c₀ E (dropEntryOf tx set name) :=
  .pointwise fun s h => ⟨_, rfl, dropEntryOf_contract hstart hissued h (hE s h) False.elim⟩

theorem createTableEntry_sequential : Sequential time issued tx c₀ E (createTableEntry tx name isInternal data) :=
  (Contract.each fun _ => createEntry_sequential hstart hissued hE).andThen (createEntry_sequential hstart hissued hE)

theorem createRelGroupEntry_sequential {nodePairs : List (Nat × Nat)} :
    Sequential time issued tx c₀ E (createRelGroupEntry tx name isInternal data nodePairs) :=
  .choose fun s _ => ⟨(each (fun _ => takeOID .tables) nodePairs).andThen
    (createTableEntry tx name isInternal { data with
      relTableInfos := nodePairs.mapIdx fun i p => ⟨p.1, p.2, s.catalog.nextOID .tables + i⟩ }), rfl,
    (Contract.each fun _ => takeOID_sequential).andThen (createTableEntry_sequential hstart hissued hE)⟩

variable {order : MapOrder}

theorem dropSequence_sequential : Sequential time issued tx c₀ E (dropSequence tx order name) := by
  refine .choose fun s _ => ?_
  cases hentry : s.catalog.getSequenceEntry tx name with
  | error message => exact ⟨_, by simp only [dropSequence, hentry], fail_sequential hE⟩
  | ok entry =>
    cases he : s.catalog.getSequenceEntryOfOID tx order entry.oid with
    | none => exact ⟨_, by simp only [dropSequence, hentry, he], fail_sequential hE⟩
    | some e =>
      exact ⟨_, by simp only [dropSequence, hentry, he]; rfl, dropEntry_sequential hstart hissued hE⟩

theorem dropTableEntry_sequential {tableID : Nat} :
    Sequential time issued tx c₀ E (dropTableEntry tx order tableID) := by
  refine .choose fun s _ => ?_
  cases he : s.catalog.getTableCatalogEntryOfOID tx order tableID with
  | none => exact ⟨_, by simp only [dropTableEntry, he], fail_sequential hE⟩
  | some e =>
    refine ⟨_, by simp only [dropTableEntry, he]; rfl, ?_⟩
    exact (Contract.each fun _ => dropSequence_sequential hstart hissued hE).andThen
      (.choose fun _ _ => ⟨_, rfl, dropEntry_sequential hstart hissued hE⟩)

theorem dropTableEntryAndIndex_sequential : Sequential time issued tx c₀ E (dropTableEntryAndIndex tx order name) := by
  refine .choose fun s _ => ?_
  cases hentry : s.catalog.getTableCatalogEntry tx name with
  | error message => exact ⟨_, by simp only [dropTableEntryAndIndex, hentry], fail_sequential hE⟩
  | ok entry =>
    refine ⟨_, by simp only [dropTableEntryAndIndex, hentry]; rfl, ?_⟩
    have hindexes : Sequential time issued tx c₀ E (dropAllIndexes tx order entry.oid) :=
      .choose fun s _ => ⟨each (fun e : CatalogEntry => dropEntry tx .indexes e.name e.oid)
        ((s.catalog.getEntries tx order .indexes).filter fun e => e.data = some (.index entry.oid)), rfl,
        Contract.each fun _ => dropEntry_sequential hstart hissued hE⟩
    exact hindexes.andThen (dropTableEntry_sequential hstart hissued hE)

theorem CatalogStatement.sequential (statement : CatalogStatement) (order : MapOrder)
    (hrename : ∀ name newName, statement = .alterTableEntry ⟨name, .rename newName⟩ →
      ∀ s, Half False time issued tx c₀ s → E s) :
    Sequential time issued tx c₀ E (statement.steps tx order) := by
  cases statement with
  | createTableEntry name isInternal data => exact createTableEntry_sequential hstart hissued hE
  | createRelGroupEntry name isInternal data nodePairs => exact createRelGroupEntry_sequential hstart hissued hE
  | dropTableEntryAndIndex name => exact dropTableEntryAndIndex_sequential hstart hissued hE
  | alterTableEntry info =>
    exact alterTableEntry_sequential hstart hissued hE fun newName htype =>
      hrename info.tableName newName (by rw [← htype])
  | createSequence name isInternal | createEntry set name data =>
    exact createEntry_sequential hstart hissued hE
  | dropSequence name => exact dropSequence_sequential hstart hissued hE
  | dropEntry set name => exact dropEntryOf_sequential hstart hissued hE

end Contracts

end Rag3db.Catalog
