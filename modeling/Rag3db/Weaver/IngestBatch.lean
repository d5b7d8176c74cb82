import Rag3db.Weaver.RowWrites

open List Option

namespace Rag3db.Weaver

open RowRecord

attribute [local instance] lawfulBEq_rowKey

variable {V : Type}

def RowRecord.given (r : RowRecord V) (c : String) : Option (Option V) :=
  if c ∈ r.columns then some (r.value c) else none

/-- What a batch finds: whether the engine takes a bulk load, and the rows that
have all their chunks and vectors. -/
structure IngestSetting where
  copy : Bool
  complete : RowKey → Bool

section Model

variable [DecidableEq V] (w : IngestSetting) (o : HashOrder V) (fields : List String)

/-- `split_unchanged`: the row is stored as the record says, NULL where it says
nothing, and complete. -/
def unchanged (t : EntityTables V) (r : RowRecord V) : Bool :=
  w.complete r.key && (t r.key).any fun row => fields.all fun c => (r.given c).join = row c

/-- Of the records of a row a bulk load keeps the last. -/
def lastOfEach (records : List (RowRecord V)) : List (RowRecord V) :=
  records.foldr (fun r later => if r.key ∈ later.map (·.key) then later else r :: later) []

/-- A batch of which no row is stored goes by bulk load where that is possible,
and group by group back to `MERGE` where the engine refuses it. -/
def bulkLoaded (records : List (RowRecord V)) (t : EntityTables V) : Bool :=
  w.copy && records.all fun r => (t r.key).isNone

def ingest (records : List (RowRecord V)) (t : EntityTables V) : EntityTables V :=
  let todo := records.filter fun r => !unchanged w fields t r
  insertRecords o (if bulkLoaded w records t then lastOfEach todo else todo) t

def ingestEach (steps : List (IngestSetting × RowRecord V)) (t : EntityTables V) : EntityTables V :=
  steps.foldl (fun t p => ingest p.1 o fields [p.2] t) t

end Model

/-- What the records of a row say last of a column. -/
def lastGiven (records : List (RowRecord V)) (c : String) : Option (Option V) :=
  records.reverse.findSome? (·.given c)

def fieldAt (row : Option (RowValues V)) (c : String) : Option V := row.bind (· c)

/-- The same rows with the same values of the fields. -/
def SameFields (fields : List String) (t t' : EntityTables V) : Prop :=
  ∀ k, (t k).isSome = (t' k).isSome ∧ ∀ c ∈ fields, fieldAt (t k) c = fieldAt (t' k) c

section Last

variable {records records' : List (RowRecord V)} {c : String} {v : Option V} {r : RowRecord V}

theorem lastGiven_append : lastGiven (records ++ records') c = (lastGiven records' c).or (lastGiven records c) := by
  rw [lastGiven, reverse_append, findSome?_append]
  rfl

theorem exists_of_lastGiven (h : lastGiven records c = some v) : ∃ r ∈ records, r.given c = some v := by
  obtain ⟨r, hr, hv⟩ := exists_of_findSome?_eq_some h
  exact ⟨r, mem_reverse.mp hr, hv⟩

theorem lastGiven_eq_none_iff : lastGiven records c = none ↔ ∀ r ∈ records, r.given c = none := by
  simp [lastGiven]

theorem foldl_upsert (records : List (RowRecord V)) (row : Option (RowValues V)) :
    (records.foldl (fun row r => r.upsert row) row).isSome = (row.isSome || !records.isEmpty) ∧
      ∀ c, fieldAt (records.foldl (fun row r => r.upsert row) row) c = (lastGiven records c).getD (fieldAt row c) := by
  induction records using List.reverseRecOn with
  | nil => exact ⟨by simp, fun _ => rfl⟩
  | append_singleton records r ih =>
    rw [foldl_append]
    refine ⟨by simp [upsert], fun c => ?_⟩
    rw [foldl_cons, foldl_nil]
    by_cases hc : c ∈ r.columns
    · simp [lastGiven, RowRecord.given, upsert, onto, fieldAt, hc]
    · have hrow : fieldAt (r.upsert (records.foldl (fun row r => r.upsert row) row)) c =
          fieldAt (records.foldl (fun row r => r.upsert row) row) c := by
        cases records.foldl (fun row r => r.upsert row) row <;> simp [fieldAt, upsert, onto, hc]
      rw [hrow, ih.2 c]
      simp [lastGiven, RowRecord.given, hc]

theorem exists_lastGiven {β : Type} {gs : List β} {part : β → List (RowRecord V)}
    (h : lastGiven (gs.flatMap part) c = some v) : ∃ g ∈ gs, lastGiven (part g) c = some v := by
  induction gs with
  | nil => cases h
  | cons g gs ih =>
    rw [flatMap_cons, lastGiven_append, or_eq_some_iff] at h
    rcases h with h | ⟨-, h⟩
    · obtain ⟨g', hg', hv⟩ := ih h
      exact ⟨g', mem_cons_of_mem g hg', hv⟩
    · exact ⟨g, mem_cons_self, h⟩

theorem nodup_lastOfEach (records : List (RowRecord V)) : ((lastOfEach records).map (·.key)).Nodup := by
  induction records with
  | nil => exact nodup_nil
  | cons r records ih =>
    rw [lastOfEach, foldr_cons]
    split_ifs with hr
    · exact ih
    · exact nodup_cons.mpr ⟨hr, ih⟩

theorem filter_lastOfEach (records : List (RowRecord V)) (k : RowKey) :
    (lastOfEach records).filter (·.key = k) = (records.filter (·.key = k)).getLast?.toList := by
  induction records with
  | nil => rfl
  | cons r records ih =>
    have hmem : r.key ∈ (lastOfEach records).map (·.key) ↔ (lastOfEach records).filter (·.key = r.key) ≠ [] := by
      simp [filter_eq_nil_iff]
    rw [lastOfEach, foldr_cons]
    by_cases hk : r.key = k
    · subst hk
      rw [filter_cons_of_pos (by simp), getLast?_cons]
      split_ifs with hr
      · have hne := hmem.mp hr
        rw [ih] at hne
        refine ih.trans ?_
        cases hlast : (records.filter (·.key = r.key)).getLast? with
        | none => simp [hlast] at hne
        | some r' => rfl
      · have hnil := not_not.mp (mt hmem.mpr hr)
        have hnone : (records.filter (·.key = r.key)).getLast? = none := by
          rw [ih] at hnil
          cases hlast : (records.filter (·.key = r.key)).getLast? with
          | none => rfl
          | some r' => simp [hlast] at hnil
        rw [filter_cons_of_pos (by simp), hnone]
        exact congrArg (List.cons r) hnil
    · rw [filter_cons_of_neg (by simpa using hk), ← ih]
      split_ifs
      · rfl
      · rw [filter_cons_of_neg (by simpa using hk)]
        rfl

end Last

section Compare

variable [DecidableEq V] {w : IngestSetting} {o : HashOrder V} {fields : List String} {t : EntityTables V} {k : RowKey}
  {records : List (RowRecord V)} {r : RowRecord V} {c : String}

/-- The records of the row say what the batch says last of each field: its last
record if it is loaded in bulk, and otherwise, of the records that are not
skipped, the last one with each list of columns. -/
def Agreeing (w : IngestSetting) (fields : List String) (records : List (RowRecord V)) (t : EntityTables V) : Prop :=
  ∀ k, ∀ c ∈ fields,
    if bulkLoaded w records t then ∀ r, (records.filter (·.key = k)).getLast? = some r →
      (r.given c).join = (lastGiven (records.filter (·.key = k)) c).join
    else ∀ g v,
      lastGiven ((records.filter fun r => !unchanged w fields t r).filter fun r => r.key = k ∧ r.group = g) c =
      some v → lastGiven (records.filter (·.key = k)) c = some v

theorem stored_of_unchanged (h : unchanged w fields t r) :
    (t r.key).isSome ∧ ∀ c ∈ fields, ∀ v, r.given c = some v → fieldAt (t r.key) c = v := by
  obtain ⟨row, hrow, hall⟩ := (Option.any_eq_true ..).mp (Bool.and_eq_true_iff.mp h).2
  refine ⟨by simp [hrow], fun c hc v hv => ?_⟩
  have hsame := of_decide_eq_true (List.all_eq_true.mp hall c hc)
  simp [fieldAt, hrow, ← hsame, hv]

theorem getD_kept (h : ∀ r ∈ records, r.key = k → r.given c ≠ none → unchanged w fields t r) (hc : c ∈ fields) :
    (lastGiven (records.filter (·.key = k)) c).getD (fieldAt (t k) c) = fieldAt (t k) c := by
  cases hlast : lastGiven (records.filter (·.key = k)) c with
  | none => rfl
  | some v =>
    obtain ⟨r, hr, hv⟩ := exists_of_lastGiven hlast
    obtain ⟨hmem, hkey⟩ := mem_filter.mp hr
    cases of_decide_eq_true hkey
    exact ((stored_of_unchanged (h r hmem rfl (by simp [hv]))).2 c hc v hv).symm

theorem ingest_single (w : IngestSetting) (fields : List String) (r : RowRecord V) (k : RowKey) :
    (ingest w o fields [r] t k).isSome = ((t k).isSome || !([r].filter (·.key = k)).isEmpty) ∧
      ∀ c ∈ fields, fieldAt (ingest w o fields [r] t k) c =
        (lastGiven ([r].filter (·.key = k)) c).getD (fieldAt (t k) c) := by
  by_cases hu : unchanged w fields t r
  · have hsame : ingest w o fields [r] t k = t k := by
      simp [ingest, hu, lastOfEach, insertRecords_apply]
    rw [hsame]
    refine ⟨?_, fun c hc => (getD_kept (by simpa using fun _ _ => hu) hc).symm⟩
    by_cases hk : r.key = k
    · simp [← hk, (stored_of_unchanged hu).1]
    · simp [hk]
  · have hwrite : ingest w o fields [r] t k = ([r].filter (·.key = k)).foldl (fun row r => r.upsert row) (t k) := by
      simp [ingest, hu, lastOfEach, insertRecords_apply]
    rw [hwrite]
    obtain ⟨hsome, hfield⟩ := foldl_upsert ([r].filter (·.key = k)) (t k)
    exact ⟨hsome, fun c _ => hfield c⟩

theorem ingestEach_spec (steps : List (IngestSetting × RowRecord V)) (t : EntityTables V) (k : RowKey) :
    (ingestEach o fields steps t k).isSome = ((t k).isSome || !((steps.map (·.2)).filter (·.key = k)).isEmpty) ∧
      ∀ c ∈ fields, fieldAt (ingestEach o fields steps t k) c =
        (lastGiven ((steps.map (·.2)).filter (·.key = k)) c).getD (fieldAt (t k) c) := by
  induction steps generalizing t with
  | nil => exact ⟨by simp [ingestEach], fun _ _ => rfl⟩
  | cons p steps ih =>
    obtain ⟨hsome, hfield⟩ := ingest_single p.1 fields p.2 k
    obtain ⟨hsome', hfield'⟩ := ih (ingest p.1 o fields [p.2] t)
    have hsplit : ((p :: steps).map (·.2)).filter (·.key = k) =
        [p.2].filter (·.key = k) ++ (steps.map (·.2)).filter (·.key = k) := by
      rw [map_cons, ← singleton_append, filter_append]
    rw [hsplit]
    refine ⟨hsome'.trans ?_, fun c hc => (hfield' c hc).trans ?_⟩
    · rw [hsome]
      cases [p.2].filter (·.key = k) <;> simp
    · rw [hfield c hc, lastGiven_append, getD_or]

def closing (g : String × List String) : HashOrder V where
  groups records := (records.map (·.group)).dedup.filter (· ≠ g) ++ [g]
  nodup records := nodup_append.mpr ⟨(nodup_dedup _).filter _, nodup_singleton _, by simp⟩
  covers records r hr := by
    by_cases hg : r.group = g
    · simp [hg]
    · exact mem_append_left _ (mem_filter.mpr ⟨mem_dedup.mpr (mem_map_of_mem hr), by simpa⟩)

theorem bulk_iff (h : bulkLoaded w records t) :
    fieldAt (ingest w o fields records t k) c = (lastGiven (records.filter (·.key = k)) c).getD (fieldAt (t k) c) ↔
      ∀ r, (records.filter (·.key = k)).getLast? = some r →
        (r.given c).join = (lastGiven (records.filter (·.key = k)) c).join := by
  have hnone : ∀ r ∈ records, t r.key = none := by
    simpa using (Bool.and_eq_true_iff.mp h).2
  have htodo : (records.filter fun r => !unchanged w fields t r) = records :=
    filter_eq_self.mpr fun r hr => by simp [unchanged, hnone r hr]
  rw [ingest, htodo, if_pos h, insertRecords_apply (coherent_of_nodup (nodup_lastOfEach records)), filter_lastOfEach]
  cases hlast : (records.filter (·.key = k)).getLast? with
  | none =>
    rw [getLast?_eq_none_iff] at hlast
    simp [hlast, lastGiven]
  | some r =>
    obtain ⟨hr, hkey⟩ := mem_filter.mp (mem_of_getLast? hlast)
    have hrow : t k = none := of_decide_eq_true hkey ▸ hnone r hr
    have hjoin : ∀ x : Option (Option V), x.getD (fieldAt none c) = x.join := fun x => by cases x <;> rfl
    have hone : lastGiven [r] c = r.given c := by simp [lastGiven]
    rw [(foldl_upsert _ _).2 c, hrow, hjoin, hjoin, toList_some, hone]
    exact ⟨fun h r' hr' => some.inj hr' ▸ h, fun h => h r rfl⟩

theorem merge_iff (h : ¬ bulkLoaded w records t) (hc : c ∈ fields) : (∀ o, fieldAt (ingest w o fields records t k) c =
        (lastGiven (records.filter (·.key = k)) c).getD (fieldAt (t k) c)) ↔
      ∀ g v, lastGiven ((records.filter fun r => !unchanged w fields t r).filter fun r => r.key = k ∧ r.group = g) c =
        some v → lastGiven (records.filter (·.key = k)) c = some v := by
  generalize htodo : (records.filter fun r => !unchanged w fields t r) = todo
  have hrow : ∀ o, fieldAt (ingest w o fields records t k) c = (lastGiven ((o.groups todo).flatMap fun g =>
      todo.filter fun r => r.key = k ∧ r.group = g) c).getD (fieldAt (t k) c) := by
    intro o
    rw [ingest, htodo, if_neg h, insertRecords, writeAll_apply, (foldl_upsert _ _).2 c, inGroups, List.filter_flatMap]
    simp only [List.filter_filter, Bool.decide_and]
  simp only [hrow]
  constructor
  · intro hall g v hv
    -- the group may come last
    have hlast := hall (closing g)
    simp only [closing, List.flatMap_append, List.flatMap_singleton, lastGiven_append, hv, Option.some_or,
      Option.getD_some] at hlast
    obtain ⟨r, hr, hgiven⟩ := exists_of_lastGiven hv
    have hmem := (List.mem_filter.mp hr).1
    rw [← htodo] at hmem
    cases hsaid : lastGiven (records.filter (·.key = k)) c with
    | none =>
      have hkey : r.key = k := (of_decide_eq_true (List.mem_filter.mp hr).2).1
      have hnot := lastGiven_eq_none_iff.mp hsaid r (List.mem_filter.mpr ⟨(List.mem_filter.mp hmem).1, by simpa⟩)
      cases hnot.symm.trans hgiven
    | some v' => rw [hlast, hsaid, Option.getD_some]
  · intro hall o
    cases hlast : lastGiven ((o.groups todo).flatMap fun g => todo.filter fun r => r.key = k ∧ r.group = g) c with
    | some v =>
      obtain ⟨g, -, hv⟩ := exists_lastGiven hlast
      rw [hall g v hv]
    | none =>
      -- no record that is kept says anything
      refine (getD_kept (w := w) (fun r hr hk hgiven => ?_) hc).symm
      by_contra hu
      have hmem : r ∈ todo := htodo ▸ List.mem_filter.mpr ⟨hr, by simpa using hu⟩
      refine hgiven (lastGiven_eq_none_iff.mp hlast r (List.mem_flatMap.mpr ⟨r.group, o.covers todo r hmem, ?_⟩))
      exact List.mem_filter.mpr ⟨hmem, by simpa⟩

theorem isSome_ingest : (ingest w o fields records t k).isSome =
    ((t k).isSome || !(records.filter (·.key = k)).isEmpty) := by
  rw [ingest, insertRecords, writeAll_apply, (foldl_upsert _ _).1]
  by_cases hsome : (t k).isSome
  · rw [hsome, Bool.true_or, Bool.true_or]
  have hkept : (records.filter fun r => !unchanged w fields t r).filter (·.key = k) = records.filter (·.key = k) := by
    rw [List.filter_filter]
    refine List.filter_congr fun r _ => ?_
    by_cases hk : r.key = k
    · have hnot : ¬ unchanged w fields t r := fun hu => hsome (hk ▸ (stored_of_unchanged hu).1)
      simp [hnot]
    · simp [hk]
  have hgroups : ∀ todo : List (RowRecord V), (inGroups o todo).filter (·.key = k) = [] ↔
      todo.filter (·.key = k) = [] := by
    intro todo
    simp only [List.filter_eq_nil_iff, inGroups, List.mem_flatMap, List.mem_filter, decide_eq_true_eq]
    refine ⟨fun h r hr => h r ⟨r.group, o.covers todo r hr, hr, rfl⟩, ?_⟩
    rintro h r ⟨-, -, hr, -⟩
    exact h r hr
  refine congrArg (fun b => (t k).isSome || !b) (Bool.eq_iff_iff.mpr ?_)
  rw [List.isEmpty_iff, List.isEmpty_iff, hgroups]
  split_ifs
  · rw [filter_lastOfEach, hkept]
    simp
  · rw [hkept]

/-- A batch leaves what its records leave one at a time, in whatever order its
groups are written, if and only if its records agree with what is said last. -/
theorem ingest_eq_ingestEach_iff (steps : List (IngestSetting × RowRecord V)) (t : EntityTables V) :
    (∀ o, SameFields fields (ingest w o fields (steps.map (·.2)) t) (ingestEach o fields steps t)) ↔
      Agreeing w fields (steps.map (·.2)) t := by
  have hiff : (∀ o, SameFields fields (ingest w o fields (steps.map (·.2)) t) (ingestEach o fields steps t)) ↔
      ∀ k, ∀ c ∈ fields, ∀ o, fieldAt (ingest w o fields (steps.map (·.2)) t k) c =
        (lastGiven ((steps.map (·.2)).filter (·.key = k)) c).getD (fieldAt (t k) c) := by
    constructor
    · exact fun h k c hc o => ((h o k).2 c hc).trans ((ingestEach_spec steps t k).2 c hc)
    · refine fun h o k => ⟨isSome_ingest.trans (ingestEach_spec steps t k).1.symm, fun c hc => ?_⟩
      exact (h k c hc o).trans ((ingestEach_spec steps t k).2 c hc).symm
  rw [hiff]
  refine forall_congr' fun k => forall_congr' fun c => forall_congr' fun hc => ?_
  by_cases hbulk : bulkLoaded w (steps.map (·.2)) t
  · rw [if_pos hbulk]
    exact ⟨fun h => (bulk_iff hbulk).mp (h (closing ("", []))), fun h o => (bulk_iff hbulk).mpr h⟩
  · rw [if_neg hbulk]
    exact merge_iff hbulk hc

/-- A record that says what is stored is skipped, though the record before it
says something else. -/
theorem skipped_record_lost :
    let t : EntityTables Nat := fun _ => some fun _ => some 1
    let w : IngestSetting := ⟨true, fun _ => true⟩
    titleOf (ingest w firstSeen ["title"] [titled "a" 2, titled "a" 1] t) "a" = some (some 2) ∧
      titleOf (ingestEach firstSeen ["title"] [(w, titled "a" 2), (w, titled "a" 1)] t) "a" = some (some 1) :=
  ⟨rfl, rfl⟩

end Compare

end Rag3db.Weaver
