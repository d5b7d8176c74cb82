import Rag3db.Catalog.CatalogViews

namespace Rag3db.Catalog

open Library.Interruptible Storage CatalogSets CatalogSets DDLState Steps

variable {t : DDLState} {tx : Snapshot} {set : SetName} {name : String} {oid : Nat} {op : CatalogOperation}

/-- What an operation does to the names and their objects, be it to its end or
to an exception: it takes a number, it puts a version of the same object in
front of one that the transaction sees, it creates an object, or it moves one. -/
inductive Move (tx : Snapshot) (op : CatalogOperation) (c : CatalogSets) : CatalogSets → Prop
  | number (nextOID : SetName → Nat) (hle : ∀ set, c.nextOID set ≤ nextOID set) : Move tx op c { c with nextOID }
  | onTop (nextOID : SetName → Nat) (hle : ∀ set, c.nextOID set ≤ nextOID set) {set : SetName} {name : String}
      {head : CatalogEntry} {older : List CatalogEntry} (data : Option EntryData)
      (hc : c.chain set name = head :: older) (hsees : tx.sees head.timestamp = true)
      (hlive : head.isDeleted = false) :
      Move tx op c (push { c with nextOID } set name head.oid tx.id data)
  | create {set : SetName} {name : String} {data : EntryData} (hop : op = .createEntry set name data)
      (nextOID : SetName → Nat) (hle : ∀ set, c.nextOID set ≤ nextOID set) (hlt : c.nextOID set < nextOID set) :
      Move tx op c (create { c with nextOID } set name (c.nextOID set) tx.id data)
  | rename {name newName : String} {head : CatalogEntry} {older : List CatalogEntry} {data : EntryData}
      (hop : op = .alterTableEntry ⟨name, .rename newName⟩) (hc : c.chain .tables name = head :: older)
      (hsees : tx.sees head.timestamp = true) (hlive : head.isDeleted = false) :
      Move tx op c ((c.push .tables name head.oid tx.id none).create .tables newName head.oid tx.id data)

theorem pushCreateDropCatalogEntry_last : ((pushCreateDropCatalogEntry set name t).last t).catalog = t.catalog := by
  unfold pushCreateDropCatalogEntry
  split <;> rfl

theorem check_unfinished {ε β : Type} {f : CatalogSets → Except ε β} (h : (check f t).finished = false) :
    (check f t).last t = t := by
  unfold check attempt at h ⊢
  cases hf : f t.catalog with
  | error e => simp [hf, Except.map, Outcome.last]
  | ok u => simp [hf, Except.map] at h

variable {data : EntryData}

theorem createEntryNoLock_last (h : (createEntryNoLock tx set name oid data t).finished = true) :
    (createEntryNoLock tx set name oid data t).last t =
      { t with catalog := t.catalog.create set name oid tx.id data } := by
  obtain ⟨hcheck, h⟩ := andThen_finished h
  rw [createEntryNoLock, andThen_last hcheck, (check_finished hcheck).2, andThen_last rfl]
  exact emplaceNoLock_last

theorem createEntryNoLock_unfinished (h : (createEntryNoLock tx set name oid data t).finished = false) :
    (createEntryNoLock tx set name oid data t).last t = t := by
  unfold createEntryNoLock at h ⊢
  cases hcheck : ((check fun c => c.checkCreate tx set name) t).finished with
  | false => rw [andThen_unfinished hcheck, check_unfinished hcheck]
  | true => simp [Steps.andThen, hcheck, DDLState.modify, Steps.step, DDLState.emplaceNoLock] at h

theorem dropEntryNoLock_unfinished (h : (dropEntryNoLock tx set name oid t).finished = false) :
    (dropEntryNoLock tx set name oid t).last t = t := by
  unfold dropEntryNoLock at h ⊢
  cases hcheck : ((check fun c => c.getEntry tx set name) t).finished with
  | false => rw [andThen_unfinished hcheck, check_unfinished hcheck]
  | true => simp [Steps.andThen, hcheck, DDLState.modify, Steps.step, DDLState.emplaceNoLock] at h

section Moves

variable {c : CatalogSets} {head e : CatalogEntry} {older : List CatalogEntry}

theorem Move.same : Move tx op c c := .number c.nextOID fun _ => le_rfl

theorem move_createEntry :
    Move tx (.createEntry set name data) t.catalog ((createEntry tx set name data t).last t).catalog := by
  let t' : DDLState := { t with catalog := { t.catalog with
    nextOID := fun set' => if set' = set then t.catalog.nextOID set + 1 else t.catalog.nextOID set' } }
  have hle : ∀ set', t.catalog.nextOID set' ≤ t'.catalog.nextOID set' := by
    intro set'
    simp only [t']
    split_ifs with h
    · rw [h]
      exact Nat.le_succ _
    · exact le_rfl
  have hlast : ((createEntry tx set name data t).last t) = ((createEntryNoLock tx set name
      (t.catalog.nextOID set) data).andThen (pushCreateDropCatalogEntry set name) t').last t' :=
    andThen_last rfl
  rw [hlast]
  cases hfin : (createEntryNoLock tx set name (t.catalog.nextOID set) data t').finished with
  | false =>
    rw [andThen_unfinished hfin, createEntryNoLock_unfinished hfin]
    exact .number t'.catalog.nextOID hle
  | true =>
    rw [andThen_last hfin, pushCreateDropCatalogEntry_last, createEntryNoLock_last hfin]
    exact .create rfl t'.catalog.nextOID hle (by simp [t'])

theorem move_dropEntry (hc : t.catalog.chain set name = head :: older) (hsees : tx.sees head.timestamp = true)
    (hlive : head.isDeleted = false) :
    Move tx op t.catalog ((dropEntry tx set name head.oid t).last t).catalog := by
  unfold dropEntry
  cases hfin : (dropEntryNoLock tx set name head.oid t).finished with
  | false =>
    rw [andThen_unfinished hfin, dropEntryNoLock_unfinished hfin]
    exact .same
  | true =>
    rw [andThen_last hfin, pushCreateDropCatalogEntry_last, dropEntryNoLock_last hfin]
    exact .onTop t.catalog.nextOID (fun _ => le_rfl) none hc hsees hlive

theorem getEntry_eq_head (hget : t.catalog.getEntry tx set name = .ok e)
    (hc : t.catalog.chain set name = head :: older) (hsees : tx.sees head.timestamp = true) :
    e = head ∧ head.isDeleted = false := by
  obtain ⟨htraverse, hlive⟩ := getEntry_eq_ok hget
  have hhead : traverse tx (head :: older) = some head := List.find?_cons_of_pos hsees
  rw [hc, hhead] at htraverse
  cases htraverse
  exact ⟨rfl, hlive⟩

section

variable (hc : t.catalog.chain .tables name = head :: older) (hsees : tx.sees head.timestamp = true)
  (hlive : head.isDeleted = false)

include hc hsees hlive

theorem move_rename {newName : String}
    :
    Move tx (.alterTableEntry ⟨name, .rename newName⟩) t.catalog (((dropEntryNoLock tx .tables name head.oid).andThen
        ((createEntryNoLock tx .tables newName head.oid data).andThen ((createCatalogEntry .tables head).andThen
            (pushCreateDropCatalogEntry .tables newName))) t).last t).catalog := by
  cases hdrop : (dropEntryNoLock tx .tables name head.oid t).finished with
  | false =>
    rw [andThen_unfinished hdrop, dropEntryNoLock_unfinished hdrop]
    exact .same
  | true =>
    rw [andThen_last hdrop, dropEntryNoLock_last hdrop]
    cases hcreate : (createEntryNoLock tx .tables newName head.oid data
        { t with catalog := t.catalog.push .tables name head.oid tx.id none }).finished with
    | false =>
      -- the tombstone stays
      rw [andThen_unfinished hcreate, createEntryNoLock_unfinished hcreate]
      exact .onTop t.catalog.nextOID (fun _ => le_rfl) none hc hsees hlive
    | true =>
      rw [andThen_last hcreate, createEntryNoLock_last hcreate, andThen_last rfl, pushCreateDropCatalogEntry_last]
      exact .rename rfl hc hsees hlive

theorem move_alter {type : AlterType} {data : Option EntryData}
    :
    Move tx op t.catalog (((if type.takesOID then takeOID .tables else skip).andThen
      ((emplaceNoLock .tables name head.oid tx.id data).andThen
        (createCatalogEntry .tables head)) t).last t).catalog := by
  have hlast : ∀ t', (((emplaceNoLock .tables name head.oid tx.id data).andThen
      (createCatalogEntry .tables head) t').last t').catalog = t'.catalog.push .tables name head.oid tx.id data := by
    intro t'
    rw [andThen_last rfl, emplaceNoLock_last]
    rfl
  split_ifs
  · rw [andThen_last rfl, hlast]
    refine .onTop _ (fun set => ?_) data hc hsees hlive
    split_ifs with h
    · rw [h]
      exact Nat.le_succ _
    · exact le_rfl
  · rw [andThen_last rfl, hlast]
    exact .onTop t.catalog.nextOID (fun _ => le_rfl) data hc hsees hlive

end

theorem move_alterTableEntry {info : BoundAlterInfo} :
    Move tx (.alterTableEntry info) t.catalog ((alterTableEntry tx info t).last t).catalog := by
  unfold alterTableEntry
  cases hcheck : t.catalog.checkAlter tx info.tableName with
  | error message => exact .same
  | ok entry =>
    obtain ⟨⟨older, hc⟩, hsees, hlive⟩ := checkAlter_eq_ok hcheck
    obtain ⟨name, type⟩ := info
    cases type with
    | rename newName => exact move_rename hc hsees hlive
    | _ => exact move_alter hc hsees hlive

/-- Every operation is one of the moves, if an entry is dropped only by one who sees the head of its chain. -/
theorem CatalogOperation.move (op : CatalogOperation) (t : DDLState) (hdrop : ∀ set name, op = .dropEntry set name →
    ∀ head older, t.catalog.chain set name = head :: older → tx.sees head.timestamp = true) :
    Move tx op t.catalog ((op.steps tx t).last t).catalog := by
  cases op with
  | createEntry set name data => exact move_createEntry
  | alterTableEntry info => exact move_alterTableEntry
  | dropEntry set name =>
    have hsteps : (CatalogOperation.dropEntry set name).steps tx t = dropEntryOf tx set name t := rfl
    rw [hsteps, dropEntryOf]
    cases hget : t.catalog.getEntry tx set name with
    | error message => exact .same
    | ok entry =>
      cases hc : t.catalog.chain set name with
      | nil =>
        have htraverse := (getEntry_eq_ok hget).1
        simp [hc, CatalogSets.traverse] at htraverse
      | cons head older =>
        have hsees := hdrop set name rfl head older hc
        obtain ⟨rfl, hlive⟩ := getEntry_eq_head hget hc hsees
        exact move_dropEntry hc hsees hlive

end Moves

section Views

variable {c c' : CatalogSets} {V : Nat → Bool} {k : List Char} {v : CatalogEntry}

theorem mem_of_seen {versions : List CatalogEntry} (h : seen V versions = some v) : v ∈ versions :=
  List.mem_of_find?_eq_some (Option.filter_eq_some_iff.mp h).1

def Numbered (c : CatalogSets) : Prop := ∀ set k, ∀ v ∈ c.entries set k, v.oid < c.nextOID set

theorem Numbered.push (h : Numbered c) (name : String) (timestamp : Nat) (data : Option EntryData)
    (hoid : oid < c.nextOID set) :
    Numbered (c.push set name oid timestamp data) := by
  intro set' k v hv
  by_cases hk : set' = set ∧ k = key name
  · obtain ⟨rfl, rfl⟩ := hk
    rw [← chain, chain_push] at hv
    rcases List.mem_cons.mp hv with rfl | hv
    · exact hoid
    · exact h set' (key name) v hv
  · rw [chain_push_of_ne hk] at hv
    exact h set' k v hv

theorem Numbered.withDummyEntry (h : Numbered c) (hoid : oid < c.nextOID set) :
    Numbered (c.withDummyEntry set name oid) := by
  unfold CatalogSets.withDummyEntry
  cases hc : c.chain set name with
  | cons head older => exact h
  | nil =>
    have hpush := h.push name 0 none hoid
    rwa [CatalogSets.push, hc] at hpush

theorem Numbered.create {timestamp : Nat} (h : Numbered c) (hoid : oid < c.nextOID set) :
    Numbered (c.create set name oid timestamp data) := by
  refine (h.withDummyEntry hoid).push name timestamp (some data) ?_
  unfold CatalogSets.withDummyEntry
  split <;> exact hoid

theorem Numbered.mono (h : Numbered c) {nextOID : SetName → Nat} (hle : ∀ set, c.nextOID set ≤ nextOID set) :
    Numbered { c with nextOID } := fun set k v hv => (h set k v hv).trans_le (hle set)

namespace Move

theorem numbered (hm : Move tx op c c') (h : Numbered c) : Numbered c' := by
  have hhead : ∀ {set name head older}, c.chain set name = head :: older → head.oid < c.nextOID set := by
    intro set name head older hc
    exact h set (key name) head (by rw [← chain, hc]; exact List.mem_cons_self)
  cases hm with
  | number nextOID hle => exact h.mono hle
  | onTop nextOID hle data hc => exact (h.mono hle).push _ _ data ((hhead hc).trans_le (hle _))
  | create hop nextOID hle hlt => exact (h.mono hle).create hlt
  | rename hop hc => exact (h.push _ _ none (hhead hc)).create (hhead hc)

/-- A view either does not see what the transaction writes, or sees all that it sees. -/
theorem oneName (hm : Move tx op c c') (hn : Numbered c) (h : OneName V c)
    (hV : V tx.id = true → ∀ ts, tx.sees ts = true → V ts = true) : OneName V c' := by
  cases hm with
  | number nextOID hle => exact h
  | onTop nextOID hle data hc hsees hlive =>
    exact OneName.over hc h hlive fun hts => hV hts _ hsees
  | create hop nextOID hle hlt =>
    refine OneName.create h fun _ k v hv => ?_
    exact (hn _ k v (mem_of_seen hv)).ne
  | rename hop hc hsees hlive => exact h.rename hc hlive fun hts => hV hts _ hsees

theorem sameObject (hm : Move tx op c c') (h : SameObject V c)
    (hcreate : V tx.id = false → ∀ set name data, op = .createEntry set name data →
      ∀ v, seen V (c.chain set name) = some v → v.oid = c.nextOID set)
    (hrename : V tx.id = false → ∀ name newName head older, op = .alterTableEntry ⟨name, .rename newName⟩ →
      c.chain .tables name = head :: older → ∀ v, seen V (c.chain .tables newName) = some v → v.oid = head.oid) :
    SameObject V c' := by
  cases hm with
  | number nextOID hle => exact h
  | onTop nextOID hle data hc => exact SameObject.over hc h
  | create hop nextOID hle hlt =>
    exact SameObject.create h fun hts => hcreate hts _ _ _ hop
  | rename hop hc =>
    refine (h.over hc).create fun hts v hv => hrename hts _ _ _ _ hop hc v ?_
    rwa [chain, seen_push hts] at hv

end Move

end Views

end Rag3db.Catalog
