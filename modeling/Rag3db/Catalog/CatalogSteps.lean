import Rag3db.Catalog.CatalogWork

namespace Rag3db.Catalog

open Library.Interruptible Storage CatalogSets CatalogSets DDLState

variable {c c₀ : CatalogSets} {s s' : DDLState} {tx : Snapshot} {set : SetName} {name : String} {k : List Char}
  {n : Nat} {ε β : Type} {f : CatalogSets → Except ε β}
  {time issued oid timestamp : Nat} {R pending : List Nat} {data : Option EntryData} {e head : CatalogEntry}
  {older : List CatalogEntry} {strict : Prop}

def CatalogSets.others (id : Nat) (c : CatalogSets) (set : SetName) (k : List Char) : List CatalogEntry :=
  (c.entries set k).filter fun e => e.timestamp ≠ id

def SameName (before after : List CatalogEntry) : Prop :=
  after = before ∨ before = [] ∧ ∃ e : CatalogEntry, after = [e] ∧ e.timestamp = 0 ∧ e.isDeleted = true

/-- A transaction on its way from the catalog `c₀`: nothing of the others changes. -/
structure Holding (strict : Prop) (time issued : Nat) (tx : Snapshot) (c₀ : CatalogSets) (R pending : List Nat)
    (s : DDLState) :
    Prop where
  working : Working strict time issued tx.id R pending s
  others : ∀ set k, SameName (c₀.others tx.id set k) (s.catalog.others tx.id set k)
  frame : ∀ id R' pending' U, startTransactionId ≤ id → id ≠ tx.id → Working strict time issued id R' pending' ⟨c₀, U⟩ →
    Working strict time issued id R' pending' ⟨s.catalog, U⟩

namespace Holding

variable (h : Holding strict time issued tx c₀ R pending s)

include h

theorem takeOID {nextOID : SetName → Nat} :
    Holding strict time issued tx c₀ R pending { s with catalog := { s.catalog with nextOID } } :=
  ⟨h.working.takeOID, h.others, fun id R' pending' U hid hne hw =>
    (h.frame id R' pending' U hid hne hw).takeOID⟩

theorem emplaceDummyEntry (oid : Nat) (hstart : startTransactionId ≤ tx.id) (hnil : s.catalog.chain set name = []) :
    Holding strict time issued tx c₀ R pending { s with catalog :=
      { s.catalog.setChain set name [⟨s.catalog.nextRef, name, oid, 0, none⟩] with
        nextRef := s.catalog.nextRef + 1 } } := by
  have hpos : ∀ id, startTransactionId ≤ id → id ≠ 0 := fun id hid =>
    (lt_of_lt_of_le (by decide : 0 < startTransactionId) hid).ne'
  refine ⟨h.working.emplaceDummyEntry oid (hpos _ hstart) hnil, fun set' k => ?_, fun id R' pending' U hid hne hw =>
      (h.frame id R' pending' U hid hne hw).emplaceDummyEntry oid (hpos _ hid) hnil⟩
  by_cases hk : set' = set ∧ k = key name
  · obtain ⟨rfl, rfl⟩ := hk
    have hold : s.catalog.others tx.id set' (key name) = [] := by
      rw [CatalogSets.others, ← CatalogSets.chain, hnil]
      rfl
    have hbefore : c₀.others tx.id set' (key name) = [] := by
      rcases h.others set' (key name) with he | ⟨he, -⟩
      · rw [← he, hold]
      · exact he
    refine .inr ⟨hbefore, ⟨s.catalog.nextRef, name, oid, 0, none⟩, ?_, rfl, rfl⟩
    simp only [CatalogSets.others, entries_setChain]
    exact List.filter_cons_of_pos (decide_eq_true (hpos _ hstart).symm)
  · have hothers := h.others set' k
    simp only [CatalogSets.others, entries_setChain_of_ne hk] at hothers ⊢
    exact hothers

theorem push (oid : Nat) (data : Option EntryData) (hstart : startTransactionId ≤ tx.id) (hissued : tx.id ≤ issued)
    (hc : s.catalog.chain set name = head :: older) (hfree : strict → Working.Free tx.id head) :
    Holding strict time issued tx c₀ R (pending ++ [s.catalog.nextRef])
      { s with catalog := s.catalog.push set name oid tx.id data } := by
  have hchain := fun hs => h.working.chain_push oid data hs hstart hissued hc (hfree hs)
  refine ⟨h.working.push oid data hchain, fun set' k => ?_, fun id R' pending' U hid hne hw =>
    (h.frame id R' pending' U hid hne hw).pushOther oid data hne.symm hchain⟩
  have hsame : (s.catalog.push set name oid tx.id data).others tx.id set' k = s.catalog.others tx.id set' k := by
    by_cases hk : set' = set ∧ k = key name
    · obtain ⟨rfl, rfl⟩ := hk
      have hnew : (s.catalog.push set' name oid tx.id data).entries set' (key name) = _ := entries_setChain _
      rw [CatalogSets.others, hnew, List.filter_cons_of_neg (by simp)]
      rfl
    · rw [CatalogSets.others, CatalogSets.others, CatalogSets.push, entries_setChain_of_ne hk]
  exact hsame ▸ h.others set' k

omit h in
theorem record (h : Holding strict time issued tx c₀ R (n :: pending) s)
    (ha : Adjacent n e.ref (s.catalog.chain set e.name)) :
    Holding strict time issued tx c₀ (n :: R) pending { s with undoBuffer := ⟨set, e.name, e.ref⟩ :: s.undoBuffer } :=
  ⟨h.working.record ha, h.others, h.frame⟩

theorem withDummyEntry (set : SetName) (name : String) (oid : Nat) (hstart : startTransactionId ≤ tx.id) :
    Holding strict time issued tx c₀ R pending { s with catalog := s.catalog.withDummyEntry set name oid } := by
  unfold CatalogSets.withDummyEntry
  cases hc : s.catalog.chain set name with
  | nil => exact h.emplaceDummyEntry oid hstart hc
  | cons head older => exact h

end Holding

namespace CatalogSets

theorem setChain_setChain {versions versions' : List CatalogEntry} :
    (c.setChain set name versions).setChain set name versions' = c.setChain set name versions' := by
  unfold setChain
  congr 1
  funext set' k
  simp only
  split_ifs <;> rfl

theorem chain_withDummyEntry (c : CatalogSets) (oid : Nat) :
    (∃ head older, c.chain set name = head :: older ∧ c.withDummyEntry set name oid = c) ∨ c.chain set name = [] ∧
        (c.withDummyEntry set name oid).chain set name = [⟨c.nextRef, name, oid, 0, none⟩] := by
  unfold withDummyEntry
  cases hc : c.chain set name with
  | nil => exact .inr ⟨rfl, entries_setChain _⟩
  | cons head older => exact .inl ⟨head, older, rfl, rfl⟩

theorem chain_push : (c.push set name oid timestamp data).chain set name =
      ⟨c.nextRef, name, oid, timestamp, data⟩ :: c.chain set name := entries_setChain _

variable {set' : SetName} {name' : String} {newer ref : Nat}

theorem adjacent_push (h : Adjacent newer ref (c.chain set' name')) :
    Adjacent newer ref ((c.push set name oid timestamp data).chain set' name') := by
  by_cases hk : set' = set ∧ key name' = key name
  · obtain ⟨rfl, hk⟩ := hk
    rw [chain, hk] at h ⊢
    rw [← chain, chain_push]
    exact h.cons
  · rwa [chain, push, entries_setChain_of_ne hk]

theorem adjacent_withDummyEntry (h : Adjacent newer ref (c.chain set' name')) :
    Adjacent newer ref ((c.withDummyEntry set name oid).chain set' name') := by
  unfold withDummyEntry
  cases hc : c.chain set name with
  | cons head older => exact h
  | nil =>
    by_cases hk : set' = set ∧ key name' = key name
    · obtain ⟨rfl, hk⟩ := hk
      rw [chain, hk, ← chain, hc] at h
      obtain ⟨v, hv, -⟩ := h.mem
      simp at hv
    · rwa [chain, entries_setChain_of_ne hk]

end CatalogSets

section Checks

theorem sees_of_no_conflict (h : checkWWConflict tx e = false) : tx.sees e.timestamp = true := by
  simp only [checkWWConflict, Bool.or_eq_false_iff, Bool.and_eq_false_iff, decide_eq_false_iff_not] at h
  refine tx.sees_iff.mpr ?_
  omega

theorem free_of_sees (h : tx.sees e.timestamp = true) : Working.Free tx.id e :=
  (tx.sees_iff.mp h).imp_right fun hle => hle.trans_lt tx.startTS_lt

theorem getEntry_eq_ok (h : c.getEntry tx set name = .ok e) :
    traverse tx (c.chain set name) = some e ∧ e.isDeleted = false := by
  unfold getEntry at h
  split at h
  case h_1 e' he =>
    obtain rfl := Except.ok.inj h
    obtain ⟨hsome, hlive⟩ := Option.filter_eq_some_iff.mp he
    exact ⟨hsome, by simpa using hlive⟩
  case h_2 => cases h

theorem checkAlter_eq_ok (h : c.checkAlter tx name = .ok e) :
    (∃ older, c.chain .tables name = e :: older) ∧ tx.sees e.timestamp = true ∧ e.isDeleted = false := by
  unfold checkAlter at h
  cases hget : c.getEntry tx .tables name with
  | error message => simp [hget] at h
  | ok entry =>
    obtain ⟨htraverse, hlive⟩ := getEntry_eq_ok hget
    cases hc : c.chain .tables name with
    | nil => simp [hc, CatalogSets.traverse] at htraverse
    | cons head older =>
      simp only [hget, hc] at h
      split_ifs at h with hconflict
      obtain rfl := Except.ok.inj h
      have hsees := sees_of_no_conflict (Bool.eq_false_iff.mpr hconflict)
      have hhead : traverse tx (head :: older) = some head := List.find?_cons_of_pos hsees
      rw [hc, hhead] at htraverse
      cases htraverse
      exact ⟨⟨older, rfl⟩, hsees, hlive⟩

theorem checkCreate_eq_ok {u : Unit} (h : c.checkCreate tx set name = .ok u)
    (hc : c.chain set name = head :: older) : tx.sees head.timestamp = true ∧ head.isDeleted = true := by
  unfold checkCreate at h
  simp only [hc] at h
  split_ifs at h with _ hconflict hdeleted
  exact ⟨sees_of_no_conflict (Bool.eq_false_iff.mpr hconflict), by simpa using hdeleted⟩

end Checks

def CatalogSets.create (c : CatalogSets) (set : SetName) (name : String) (oid timestamp : Nat) (data : EntryData) :
    CatalogSets :=
  (c.withDummyEntry set name oid).push set name oid timestamp (some data)

theorem check_finished (h : (check f s).finished = true) : (∃ u, f s.catalog = .ok u) ∧ (check f s).last s = s := by
  unfold check Steps.attempt at h ⊢
  cases hf : f s.catalog with
  | error e => simp [hf, Except.map] at h
  | ok u => exact ⟨⟨u, rfl⟩, by simp [hf, Except.map, Outcome.last]⟩

theorem emplaceNoLock_last : (emplaceNoLock set name oid timestamp data s).last s =
    { s with catalog := s.catalog.push set name oid timestamp data } := by
  have hlast : (emplaceNoLock set name oid timestamp data s).last s = { s with catalog :=
      { (s.catalog.setChain set name []).setChain set name
          (⟨s.catalog.nextRef, name, oid, timestamp, data⟩ :: s.catalog.chain set name) with
        nextRef := s.catalog.nextRef + 1 } } := rfl
  rw [hlast, setChain_setChain]
  rfl

theorem dropEntryNoLock_last (h : (dropEntryNoLock tx set name oid s).finished = true) :
    (dropEntryNoLock tx set name oid s).last s = { s with catalog := s.catalog.push set name oid tx.id none } := by
  have hcheck := (Steps.andThen_finished h).1
  rw [dropEntryNoLock, Steps.andThen_last hcheck, (check_finished hcheck).2, emplaceNoLock_last]

section Contracts

def Half (strict : Prop) (time issued : Nat) (tx : Snapshot) (c₀ : CatalogSets) (s : DDLState) : Prop :=
  ∃ R pending, Holding strict time issued tx c₀ R pending s

def Done (strict : Prop) (time issued : Nat) (tx : Snapshot) (c₀ : CatalogSets) (s : DDLState) : Prop :=
  ∃ R, Holding strict time issued tx c₀ R [] s

def Lost (strict : Prop) (time issued : Nat) (tx : Snapshot) (c₀ : CatalogSets) (s : DDLState) : Prop :=
  ∃ s' set name, Half strict time issued tx c₀ s' ∧ s = { s' with catalog := s'.catalog.setChain set name [] }

def Passed (strict : Prop) (time issued : Nat) (tx : Snapshot) (c₀ : CatalogSets) (s : DDLState) : Prop :=
  Half strict time issued tx c₀ s ∨ Lost strict time issued tx c₀ s

theorem Holding.half (h : Holding strict time issued tx c₀ R pending s) : Half strict time issued tx c₀ s :=
  ⟨R, pending, h⟩

theorem Holding.passed (h : Holding strict time issued tx c₀ R pending s) : Passed strict time issued tx c₀ s :=
  .inl h.half

theorem Done.half (h : Done strict time issued tx c₀ s) : Half strict time issued tx c₀ s := h.imp fun _ hR => ⟨[], hR⟩

variable {E : DDLState → Prop}

theorem check_contract (h : Half strict time issued tx c₀ s) (hE : E s) :
    Contract (s = ·) (check f) (Passed strict time issued tx c₀) (fun s' => s = s' ∧ ∃ x, f s.catalog = .ok x)
      E := by
  have hcheck : ∀ s', (f s.catalog).map (fun _ => s) = .ok s' → s = s' ∧ ∃ x, f s.catalog = .ok x := by
    intro s' he
    cases hf : f s.catalog with
    | error e => simp [hf, Except.map] at he
    | ok x =>
      rw [hf] at he
      exact ⟨Except.ok.inj he, x, rfl⟩
  refine .attempt ?_ ?_ (by rintro _ rfl; exact hE)
  · rintro _ s' rfl he
    obtain ⟨rfl, -⟩ := hcheck s' he
    exact .inl h
  · rintro _ s' rfl he
    exact hcheck s' he

theorem modify_contract {f : CatalogSets → CatalogSets}
    (h : Passed strict time issued tx c₀ { s with catalog := f s.catalog }) :
    Contract (s = ·) (modify f) (Passed strict time issued tx c₀) ({ s with catalog := f s.catalog } = ·) E :=
  .step (by rintro _ rfl; exact h) (by rintro _ rfl; rfl)

theorem record_contract (h : Holding strict time issued tx c₀ R (n :: pending) s)
    (ha : Adjacent n e.ref (s.catalog.chain set e.name)) :
    Contract (s = ·) (createCatalogEntry set e) (Passed strict time issued tx c₀)
      ({ s with undoBuffer := ⟨set, e.name, e.ref⟩ :: s.undoBuffer } = ·) E :=
  .step (by rintro _ rfl; exact (h.record ha).passed) (by rintro _ rfl; rfl)

variable (hstart : startTransactionId ≤ tx.id) (hissued : tx.id ≤ issued)

include hstart hissued

theorem emplaceNoLock_contract (oid : Nat) (data : Option EntryData) (h : Holding strict time issued tx c₀ R pending s)
    (hc : s.catalog.chain set name = head :: older) (hfree : strict → Working.Free tx.id head) :
    Contract (s = ·) (emplaceNoLock set name oid tx.id data) (Passed strict time issued tx c₀)
      ({ s with catalog := s.catalog.push set name oid tx.id data } = ·) E := by
  have hpushed := h.push oid data hstart hissued hc hfree
  have hlost : Passed strict time issued tx c₀ { s with catalog := s.catalog.setChain set name [] } :=
    .inr ⟨s, set, name, h.half, rfl⟩
  refine .of_eq ((modify fun c => c.setChain set name []).andThen (modify fun c =>
    { c.setChain set name (⟨s.catalog.nextRef, name, oid, tx.id, data⟩ :: s.catalog.chain set name) with
      nextRef := c.nextRef + 1 })) rfl ((modify_contract hlost).andThen (.step ?_ ?_))
  · rintro _ rfl
    simp only [setChain_setChain]
    exact hpushed.passed
  · rintro _ rfl
    simp only [setChain_setChain]
    rfl

variable {u : Unit}

omit hissued hstart in
theorem exists_free_head (oid : Nat) (hok : c.checkCreate tx set name = .ok u) :
    ∃ head older, (c.withDummyEntry set name oid).chain set name = head :: older ∧ Working.Free tx.id head ∧
      head.isDeleted = true := by
  rcases chain_withDummyEntry c oid with ⟨head, older, hc, he⟩ | ⟨-, he⟩
  · obtain ⟨hsees, hdeleted⟩ := checkCreate_eq_ok hok hc
    exact ⟨head, older, he.symm ▸ hc, free_of_sees hsees, hdeleted⟩
  · exact ⟨_, [], he, .inr (by decide : 0 < startTransactionId), rfl⟩

theorem Holding.create (oid : Nat) (data : EntryData) (h : Holding strict time issued tx c₀ R pending s)
    (hok : s.catalog.checkCreate tx set name = .ok u) :
    ∃ v prev older, Holding strict time issued tx c₀ R (pending ++ [v.ref])
        { s with catalog := s.catalog.create set name oid tx.id data } ∧
      (s.catalog.create set name oid tx.id data).chain set name = v :: prev :: older := by
  obtain ⟨head, older, hc, hfree, -⟩ := exists_free_head oid hok
  exact ⟨_, head, older, (h.withDummyEntry set name oid hstart).push oid (some data) hstart hissued hc fun _ => hfree,
    chain_push.trans (congrArg _ hc)⟩

theorem createEntryNoLock_contract (oid : Nat) (data : EntryData)
    (h : Holding strict time issued tx c₀ R pending s) (hE : E s) :
    Contract (s = ·) (createEntryNoLock tx set name oid data) (Passed strict time issued tx c₀)
      (fun s' => { s with catalog := s.catalog.create set name oid tx.id data } = s' ∧
        ∃ u, s.catalog.checkCreate tx set name = .ok u) E := by
  refine (check_contract h.half hE).andThen (.assuming fun ⟨u, hok⟩ => ?_)
  obtain ⟨head, older, hc, hfree, -⟩ := exists_free_head oid hok
  have hdummy := h.withDummyEntry set name oid hstart
  refine (modify_contract hdummy.passed).andThen ?_
  exact (emplaceNoLock_contract hstart hissued oid (some data) hdummy hc fun _ => hfree).post fun s' hs => ⟨hs, u, hok⟩

omit hissued hstart in
theorem pushCreateDropCatalogEntry_contract {v prev : CatalogEntry}
    (h : Holding strict time issued tx c₀ R [v.ref] s) (hc : s.catalog.chain set name = v :: prev :: older) :
    Contract (s = ·) (pushCreateDropCatalogEntry set name) (Passed strict time issued tx c₀)
      (Done strict time issued tx c₀) E := by
  have hkey : key prev.name = key name :=
    h.working.sound.named set (key name) prev (by rw [← chain, hc]; simp)
  have ha : Adjacent v.ref prev.ref (s.catalog.chain set prev.name) := by
    rw [chain, hkey, ← chain, hc]
    exact .of_head
  refine .of_eq (createCatalogEntry set prev) ?_ ((record_contract h ha).post ?_)
  · simp only [pushCreateDropCatalogEntry, hc]
  · rintro _ rfl
    exact ⟨_, h.record ha⟩

variable (h : Done strict time issued tx c₀ s)

include h

theorem createEntry_contract (data : EntryData) (hE : ∀ s, Done strict time issued tx c₀ s → E s) :
    Contract (s = ·) (createEntry tx set name data) (Passed strict time issued tx c₀) (Done strict time issued tx c₀)
      E := by
  obtain ⟨R, h⟩ := h
  refine .of_eq ((takeOID set).andThen ((createEntryNoLock tx set name
    (s.catalog.nextOID set) data).andThen (pushCreateDropCatalogEntry set name))) rfl ?_
  refine (modify_contract h.takeOID.passed).andThen ?_
  refine (createEntryNoLock_contract hstart hissued _ data h.takeOID (hE _ ⟨R, h.takeOID⟩)).andThen
    (.assuming fun ⟨u, hok⟩ => ?_)
  obtain ⟨v, prev, older, hdone, hc⟩ := h.takeOID.create hstart hissued (s.catalog.nextOID set) data hok
  exact pushCreateDropCatalogEntry_contract hdone hc

theorem dropEntry_contract (oid : Nat) (hE : E s) (hc : s.catalog.chain set name = head :: older)
    (hfree : strict → Working.Free tx.id head) :
    Contract (s = ·) (dropEntry tx set name oid) (Passed strict time issued tx c₀) (Done strict time issued tx c₀)
      E := by
  obtain ⟨R, h⟩ := h
  have hdone := h.push oid none hstart hissued hc hfree
  refine .andThen (Q := ({ s with catalog := s.catalog.push set name oid tx.id none } = ·)) ?_ ?_
  · exact (check_contract h.half hE).andThen (.assuming fun _ =>
      emplaceNoLock_contract hstart hissued oid none h hc hfree)
  · exact pushCreateDropCatalogEntry_contract hdone (chain_push.trans (congrArg _ hc))

theorem dropEntryOf_contract (hE : E s)
    (hfree : strict → ∀ head older, s.catalog.chain set name = head :: older → Working.Free tx.id head) :
    Contract (s = ·) (dropEntryOf tx set name) (Passed strict time issued tx c₀) (Done strict time issued tx c₀)
      E := by
  cases hget : s.catalog.getEntry tx set name with
  | error message =>
    refine .of_eq (fun _ => ⟨[], false⟩) (by simp [dropEntryOf, hget]) ⟨⟨by simp, by simp⟩, ?_⟩
    rintro _ rfl -
    exact hE
  | ok entry =>
    cases hc : s.catalog.chain set name with
    | nil =>
      have htraverse := (getEntry_eq_ok hget).1
      simp [hc, CatalogSets.traverse] at htraverse
    | cons head older =>
      exact .of_eq (dropEntry tx set name entry.oid) (by simp [dropEntryOf, hget])
        (dropEntry_contract hstart hissued h entry.oid hE hc fun hs => hfree hs head older hc)

/-- The old name gets a tombstone, then the new name an entry, and only then are both recorded. -/
theorem rename_contract {newName : String} {data : EntryData} (hE : ∀ s, Half strict time issued tx c₀ s → E s)
    (hc : s.catalog.chain .tables name = e :: older) (hsees : tx.sees e.timestamp = true) :
    Contract (s = ·) ((dropEntryNoLock tx .tables name e.oid).andThen
      ((createEntryNoLock tx .tables newName e.oid data).andThen
        ((createCatalogEntry .tables e).andThen (pushCreateDropCatalogEntry .tables newName))))
      (Passed strict time issued tx c₀) (Done strict time issued tx c₀) E := by
  obtain ⟨R, h⟩ := h
  have hdropped := h.push e.oid none hstart hissued hc fun _ => free_of_sees hsees
  refine .andThen (Q := ({ s with catalog := s.catalog.push .tables name e.oid tx.id none } = ·)) ?_ ?_
  · exact (check_contract h.half (hE _ h.half)).andThen (.assuming fun _ =>
      emplaceNoLock_contract hstart hissued e.oid none h hc fun _ => free_of_sees hsees)
  refine (createEntryNoLock_contract hstart hissued e.oid data hdropped (hE _ hdropped.half)).andThen
    (.assuming fun ⟨u, hok⟩ => ?_)
  obtain ⟨v, prev, older', hcreated, hc'⟩ := hdropped.create hstart hissued e.oid data hok
  have hkey : key e.name = key name :=
    h.working.sound.named .tables (key name) e (by rw [← chain, hc]; simp)
  -- the entry still stands behind the tombstone, wherever the new name is
  have ha : Adjacent s.catalog.nextRef e.ref
      (((s.catalog.push .tables name e.oid tx.id none).create .tables newName e.oid tx.id data).chain .tables
        e.name) := by
    refine adjacent_push (adjacent_withDummyEntry ?_)
    rw [chain, hkey, ← chain, chain_push, hc]
    exact .of_head
  refine (record_contract hcreated ha).andThen ?_
  exact pushCreateDropCatalogEntry_contract (hcreated.record ha) hc'

theorem alter_contract {type : AlterType} (hc : s.catalog.chain .tables name = e :: older)
    (hsees : tx.sees e.timestamp = true) :
    Contract (s = ·) ((if type.takesOID then takeOID .tables else Steps.skip).andThen
      ((emplaceNoLock .tables name e.oid tx.id data).andThen (createCatalogEntry .tables e)))
      (Passed strict time issued tx c₀) (Done strict time issued tx c₀) E := by
  obtain ⟨R, h⟩ := h
  have hkey : key e.name = key name :=
    h.working.sound.named .tables (key name) e (by rw [← chain, hc]; simp)
  have hrest : ∀ s₁, Holding strict time issued tx c₀ R [] s₁ → s₁.catalog.chain .tables name = e :: older →
      Contract (s₁ = ·) ((emplaceNoLock .tables name e.oid tx.id data).andThen
        (createCatalogEntry .tables e)) (Passed strict time issued tx c₀) (Done strict time issued tx c₀)
        E := by
    intro s₁ h₁ hc₁
    have hpushed := h₁.push e.oid data hstart hissued hc₁ fun _ => free_of_sees hsees
    have ha : Adjacent s₁.catalog.nextRef e.ref
        ((s₁.catalog.push .tables name e.oid tx.id data).chain .tables e.name) := by
      rw [chain, hkey, ← chain, chain_push, hc₁]
      exact .of_head
    refine (emplaceNoLock_contract hstart hissued e.oid data h₁ hc₁ fun _ => free_of_sees hsees).andThen
      ((record_contract hpushed ha).post ?_)
    rintro _ rfl
    exact ⟨_, hpushed.record ha⟩
  split_ifs
  · exact (modify_contract h.takeOID.passed).andThen (hrest _ h.takeOID hc)
  · exact Contract.skip.andThen (hrest s h hc)

theorem alterTableEntry_contract {info : BoundAlterInfo} (hE : E s)
    (hrename : ∀ newName, info.alterType = .rename newName → ∀ s, Half strict time issued tx c₀ s → E s) :
    Contract (s = ·) (alterTableEntry tx info) (Passed strict time issued tx c₀) (Done strict time issued tx c₀)
      E := by
  cases hcheck : s.catalog.checkAlter tx info.tableName with
  | error message =>
    refine .of_eq (fun _ => ⟨[], false⟩) (by simp [alterTableEntry, hcheck]) ⟨⟨by simp, by simp⟩, ?_⟩
    rintro _ rfl -
    exact hE
  | ok entry =>
    obtain ⟨⟨older, hc⟩, hsees, -⟩ := checkAlter_eq_ok hcheck
    cases htype : info.alterType with
    | rename newName =>
      exact .of_eq _ (by simp only [alterTableEntry, hcheck, htype]; rfl)
        (rename_contract hstart hissued h (hrename newName htype) hc hsees)
    | _ =>
      exact .of_eq _ (by simp only [alterTableEntry, hcheck, htype]; rfl) (alter_contract hstart hissued h hc hsees)

end Contracts

end Rag3db.Catalog
