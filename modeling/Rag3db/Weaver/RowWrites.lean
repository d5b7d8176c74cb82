import Mathlib

open List

namespace Rag3db.Weaver

/-- The name of an entity and the identifier of one of its rows. -/
abbrev RowKey := String × String

theorem lawfulBEq_rowKey : LawfulBEq RowKey := inferInstance

/-- The values of a row by column, nothing for NULL. -/
abbrev RowValues (V : Type) := String → Option V

abbrev EntityTables (V : Type) := RowKey → Option (RowValues V)

variable {V : Type}

/-- What a record or an update says of a row: the columns it gives, with their values. -/
structure RowRecord (V : Type) where
  key : RowKey
  columns : List String
  value : RowValues V

namespace RowRecord

/-- Records are written together that have one entity and one list of columns. -/
def group (r : RowRecord V) : String × List String := (r.key.1, r.columns)

def onto (r : RowRecord V) (row : RowValues V) : RowValues V :=
  fun c => if c ∈ r.columns then r.value c else row c

/-- `MERGE`: the row is created if it is not there. -/
def upsert (r : RowRecord V) (row : Option (RowValues V)) : Option (RowValues V) :=
  some (r.onto (row.getD fun _ => none))

/-- `SET`: nothing happens if the row is not there. -/
def set (r : RowRecord V) (row : Option (RowValues V)) : Option (RowValues V) := row.map r.onto

def extend (r u : RowRecord V) : RowRecord V :=
  { r with
    columns := r.columns ++ u.columns.filter (· ∉ r.columns)
    value := fun c => if c ∈ u.columns then u.value c else r.value c }

end RowRecord

open RowRecord

/-- The order in which a hash map gives its groups: any, but each once. -/
structure HashOrder (V : Type) where
  groups : List (RowRecord V) → List (String × List String)
  nodup : ∀ records, (groups records).Nodup
  covers : ∀ records, ∀ r ∈ records, r.group ∈ groups records

def inGroups (o : HashOrder V) (records : List (RowRecord V)) : List (RowRecord V) :=
  (o.groups records).flatMap fun g => records.filter (·.group = g)

def writeAll (write : RowRecord V → Option (RowValues V) → Option (RowValues V)) (records : List (RowRecord V))
    (t : EntityTables V) : EntityTables V :=
  records.foldl (fun t r => Function.update t r.key (write r (t r.key))) t

/-- `InsertRecordNode` in its mode of one `MERGE` for each group. -/
def insertRecords (o : HashOrder V) (records : List (RowRecord V)) : EntityTables V → EntityTables V :=
  writeAll upsert (inGroups o records)

/-- An update joins the earlier one of the same row. -/
def absorb (merged : List (RowRecord V)) (u : RowRecord V) : List (RowRecord V) :=
  if u.key ∈ merged.map (·.key) then merged.map fun m => if m.key = u.key then m.extend u else m
  else merged ++ [u]

/-- `UpdateRecordNode`, for entities without a lifecycle. -/
def updateRecords (o : HashOrder V) (updates : List (RowRecord V)) : EntityTables V → EntityTables V :=
  writeAll set (inGroups o (updates.foldl absorb []))

def deleteRows (keys : List RowKey) (t : EntityTables V) : EntityTables V :=
  fun k => if k ∈ keys then none else t k

section Lemmas

variable {write : RowRecord V → Option (RowValues V) → Option (RowValues V)} {t : EntityTables V} {k : RowKey}
  {records merged us : List (RowRecord V)} {o : HashOrder V}

theorem writeAll_apply : writeAll write records t k =
    (records.filter (·.key = k)).foldl (fun row r => write r row) (t k) := by
  unfold writeAll
  induction records generalizing t with
  | nil => rfl
  | cons r records ih =>
    rw [foldl_cons, ih]
    by_cases hk : r.key = k
    · rw [filter_cons_of_pos (by simpa using hk), foldl_cons, ← hk, Function.update_self]
    · rw [filter_cons_of_neg (by simpa using hk), Function.update_of_ne (Ne.symm hk)]

theorem flatMap_filter_const {α β : Type} [DecidableEq β] {f : α → β} {b : β} {l : List α} (h : ∀ x ∈ l, f x = b)
    {gs : List β} (hnodup : gs.Nodup) (hb : b ∈ gs) : (gs.flatMap fun g => l.filter (f · = g)) = l := by
  induction gs with
  | nil => cases hb
  | cons g gs ih =>
    obtain ⟨hg, hnodup⟩ := nodup_cons.mp hnodup
    rw [flatMap_cons]
    by_cases hbg : b = g
    · have hrest : (gs.flatMap fun g => l.filter (f · = g)) = [] := by
        refine flatMap_eq_nil_iff.mpr fun g' hg' => filter_eq_nil_iff.mpr fun x hx => ?_
        rw [h x hx, hbg, decide_eq_true_eq]
        exact fun he => hg (he ▸ hg')
      rw [hrest, append_nil]
      exact filter_eq_self.mpr fun x hx => by simpa [hbg] using h x hx
    · have hnone : l.filter (f · = g) = [] :=
        filter_eq_nil_iff.mpr fun x hx => by simpa [h x hx] using hbg
      rw [hnone, nil_append, ih hnodup ((mem_cons.mp hb).resolve_left hbg)]

/-- Records of one row stand in one group. -/
def Coherent (records : List (RowRecord V)) : Prop :=
  ∀ r ∈ records, ∀ r' ∈ records, r.key = r'.key → r.group = r'.group

@[simp] theorem coherent_nil : Coherent ([] : List (RowRecord V)) := by simp [Coherent]

@[simp] theorem coherent_singleton (r : RowRecord V) : Coherent [r] := by simp [Coherent]

theorem coherent_of_nodup (h : (records.map (·.key)).Nodup) : Coherent records := fun _ hr _ hr' he =>
  congrArg RowRecord.group (inj_on_of_nodup_map h hr hr' he)

theorem filter_key_eq (h : (records.map (·.key)).Nodup) {r : RowRecord V} (hr : r ∈ records) :
    records.filter (·.key = r.key) = [r] := by
  induction records with
  | nil => cases hr
  | cons x records ih =>
    obtain ⟨hx, hnodup⟩ := nodup_cons.mp h
    rcases mem_cons.mp hr with rfl | hr
    · have hnil : records.filter (·.key = r.key) = [] := filter_eq_nil_iff.mpr fun y hy => by
          simpa using fun he => hx (mem_map.mpr ⟨y, hy, he⟩)
      rw [filter_cons_of_pos (by simp), hnil]
    · have hne : x.key ≠ r.key := fun he => hx (mem_map.mpr ⟨r, hr, he.symm⟩)
      rw [filter_cons_of_neg (by simpa using hne), ih hnodup hr]

theorem filter_inGroups (h : Coherent records) (k : RowKey) :
    (inGroups o records).filter (·.key = k) = records.filter (·.key = k) := by
  have hcomm : (inGroups o records).filter (·.key = k) = (o.groups records).flatMap fun g =>
      (records.filter (·.key = k)).filter (·.group = g) := by
    simp only [inGroups, filter_flatMap, filter_filter, Bool.and_comm]
  rw [hcomm]
  by_cases hmem : ∃ r ∈ records, r.key = k
  · obtain ⟨r, hr, rfl⟩ := hmem
    refine flatMap_filter_const (b := r.group) (fun r' hr' => ?_) (o.nodup records) (o.covers records r hr)
    obtain ⟨hr', hkey⟩ := mem_filter.mp hr'
    exact h r' hr' r hr (of_decide_eq_true hkey)
  · have hnil : records.filter (·.key = k) = [] :=
      filter_eq_nil_iff.mpr fun r hr => by simpa using fun he => hmem ⟨r, hr, he⟩
    simp [hnil]

theorem set_extend (m u : RowRecord V) (row : Option (RowValues V)) : (m.extend u).set row = u.set (m.set row) := by
  cases row with
  | none => rfl
  | some row =>
    refine congrArg some (funext fun c => ?_)
    by_cases hu : c ∈ u.columns <;> simp [onto, extend, hu]

theorem absorb_keys (h : (merged.map (·.key)).Nodup) (u : RowRecord V) : ((absorb merged u).map (·.key)).Nodup := by
  unfold absorb
  split_ifs with hu
  · have hkeys : (merged.map fun m => if m.key = u.key then m.extend u else m).map (·.key) = merged.map (·.key) := by
      rw [map_map]
      refine map_congr_left fun m _ => ?_
      simp only [Function.comp_apply]
      split_ifs <;> rfl
    rwa [hkeys]
  · rw [map_append]
    exact nodup_append.mpr ⟨h, nodup_singleton _, by simpa using hu⟩

/-- A joined update does what the two did one after the other. -/
theorem foldl_absorb (h : (merged.map (·.key)).Nodup) (u : RowRecord V) (row : Option (RowValues V)) :
    ((absorb merged u).filter (·.key = k)).foldl (fun row r => r.set row) row =
      ((merged ++ [u]).filter (·.key = k)).foldl (fun row r => r.set row) row := by
  unfold absorb
  split_ifs with hu
  · obtain ⟨m, hm, hkey⟩ := mem_map.mp hu
    have hfilter : (merged.map fun m => if m.key = u.key then m.extend u else m).filter (·.key = k) =
        (merged.filter (·.key = k)).map fun m => if m.key = u.key then m.extend u else m := by
      rw [filter_map]
      refine congrArg (List.map _) (filter_congr fun m _ => ?_)
      simp only [Function.comp_apply]
      split_ifs <;> rfl
    rw [hfilter, filter_append]
    by_cases hk : u.key = k
    · subst hk
      rw [← hkey, filter_key_eq h hm]
      simp [hkey, set_extend]
    · have hid : (merged.filter (·.key = k)).map (fun m => if m.key = u.key then m.extend u else m) =
          merged.filter (·.key = k) := by
        refine (map_congr_left fun m hm => if_neg fun he => hk ?_).trans (map_id _)
        simpa [he] using (mem_filter.mp hm).2
      rw [hid, filter_cons_of_neg (by simpa using hk), filter_nil, append_nil]
  · rfl

theorem foldl_merged (h : (merged.map (·.key)).Nodup) (us : List (RowRecord V)) (row : Option (RowValues V)) :
    ((us.foldl absorb merged).map (·.key)).Nodup ∧
      ((us.foldl absorb merged).filter (·.key = k)).foldl (fun row r => r.set row) row =
        ((merged ++ us).filter (·.key = k)).foldl (fun row r => r.set row) row := by
  induction us generalizing merged with
  | nil => exact ⟨h, by rw [append_nil]; rfl⟩
  | cons u us ih =>
    obtain ⟨hnodup, heq⟩ := ih (absorb_keys h u)
    refine ⟨hnodup, heq.trans ?_⟩
    rw [filter_append, foldl_append, foldl_absorb h, ← foldl_append, ← filter_append, append_assoc]
    rfl

theorem updateRecords_apply : updateRecords o us t k =
    (us.filter (·.key = k)).foldl (fun row r => r.set row) (t k) := by
  have hnil : (([] : List (RowRecord V)).map (·.key)).Nodup := nodup_nil
  obtain ⟨hnodup, heq⟩ := foldl_merged hnil us (t k)
  rw [updateRecords, writeAll_apply, filter_inGroups (coherent_of_nodup hnodup), heq]
  rfl

theorem insertRecords_apply (h : Coherent records) : insertRecords o records t k =
    (records.filter (·.key = k)).foldl (fun row r => r.upsert row) (t k) := by
  rw [insertRecords, writeAll_apply, filter_inGroups h]

end Lemmas

def firstSeen : HashOrder V where
  groups records := (records.map (·.group)).dedup
  nodup _ := nodup_dedup _
  covers _ _ hr := mem_dedup.mpr (mem_map_of_mem hr)

def titled (uuid : String) (n : Nat) : RowRecord Nat := ⟨("Note", uuid), ["title"], fun _ => some n⟩

def titleOf (t : EntityTables Nat) (uuid : String) : Option (Option Nat) := (t ("Note", uuid)).map (· "title")

end Rag3db.Weaver
