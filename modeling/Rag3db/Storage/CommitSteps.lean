import Rag3db.Storage.WrittenTable
import Rag3db.Library.Fallible

open List

namespace Rag3db.Storage.TransactionState

open Library.Interruptible Written Triple NodeTable NodeGroup Steps

variable {α : Type} {T₀ T : NodeTable α} {s s' : TransactionState α} {tx : Snapshot} {t commitTS idx : Nat}

/-- What an exception finds before the undo buffer is committed. -/
structure Begun (t : Nat) (T₀ : NodeTable α) (s : TransactionState α) : Prop where
  written : Written t (updates t (executing t s.undoBuffer) T₀) T₀ s.table s.undoBuffer
  own : ∀ record ∈ s.undoBuffer, record.Own t

/-- What holds between two appends. -/
structure Between (t : Nat) (T₀ : NodeTable α) (s : TransactionState α) : Prop extends Begun t T₀ s where
  length : ∀ idx, (T₀.group idx).chunkedGroups.length ≤ (s.table.group idx).chunkedGroups.length
  laid : ∀ idx, (s.table.group idx).Laid
  total : T₀.numTotalRows ≤ s.table.numTotalRows

theorem between_initial (hT₀ : T₀.Ready t commitTS) (ht : t ≠ invalidTransaction) : Between t T₀ { table := T₀ } where
  written := by
    refine ⟨fun idx => ?_, fun idx => le_rfl⟩
    have h₀ := hT₀.settled idx
    refine ⟨h₀.laid.blocks, rfl, h₀.laid.endOf.le, ?_, fun {i b₀ b} hb₀ hb => ?_, fun hb₀ _ => ⟨_, hb₀⟩⟩
    · cases hbs : (T₀.group idx).chunkedGroups with
      | nil => exact Nat.zero_le _
      | cons first rest =>
        have hle := h₀.laid.blocks.layout.endOf_le (i := 0) (by rw [hbs]; rfl)
        rw [hbs] at hle
        exact (Nat.le_add_right _ _).trans hle
    · cases hb₀.symm.trans hb
      refine (h₀.sound hb₀).kept (fun k _ b hb => ?_) (fun k _ hm => by simpa using hm b₀ hb₀)
        (fun column v b hb => ?_) ht (h₀.foreign hb₀)
      · cases hb₀.symm.trans hb
        exact ⟨fun hm => absurd hm (by simp), fun _ => rfl⟩
      · cases hb₀.symm.trans hb
        exact .inl rfl
  own := by simp
  length _ := le_rfl
  laid idx := (hT₀.settled idx).laid
  total := le_rfl

section Execute

variable {U : List UndoRecord}

theorem Between.setNodeGroup {g : NodeGroup α} (h : Between t T₀ s)
    (hi : idx < s.table.nodeGroups.length) (hs : NodeGroup.SameRows (s.table.group idx) g)
    (hw : Written t (updates t (executing t U) T₀) T₀ (s.table.modifyNodeGroup idx fun _ => g) U)
    (hown : ∀ record ∈ U, record.Own t) :
    Between t T₀ { s.setNodeGroup idx g with undoBuffer := U } := by
  have hgroup : ∀ j, ((s.table.modifyNodeGroup idx fun _ => g).group j).chunkedGroups.length =
      (s.table.group j).chunkedGroups.length ∧ ((s.table.modifyNodeGroup idx fun _ => g).group j).Laid := by
    intro j
    by_cases hj : j = idx
    · subst hj
      rw [group_set hi]
      exact ⟨hs.blocks.length.symm, (h.laid j).congr hs⟩
    · rw [group_modifyNodeGroup, if_neg fun hc => hj hc.1]
      exact ⟨rfl, h.laid j⟩
  exact ⟨⟨hw, hown⟩, fun j => (h.length j).trans (hgroup j).1.ge, fun j => (hgroup j).2, h.total⟩

variable {record : UndoRecord}

theorem own_append (h : ∀ r ∈ U, r.Own t) (hr : record.Own t) : ∀ r ∈ U ++ [record], r.Own t := by
  intro r hmem
  rcases mem_append.mp hmem with hm | hm
  · exact h r hm
  · exact mem_singleton.mp hm ▸ hr

theorem executing_append {U' : List UndoRecord} (h : Written t (updates t (executing t U) T₀) T₀ T U') :
    Written t (updates t (executing t (U ++ [record])) T₀) T₀ T U' :=
  h.mono fun _ _ _ _ _ _ _ hq b₀ hb₀ => (hq b₀ hb₀).mono fun _ hp => ⟨hp.1, mem_append_left _ hp.2⟩

variable {offset columnID : Nat} {value : α} {op : Operation α}

/-- A statement on a row acts on the node group of the row. -/
theorem onGroup_ok {β : Type} {idx : Nat} {f : NodeGroup α → Except String β} {next : β → TransactionState α}
    (hs : (match s.table.nodeGroups[idx]? with
      | none => Except.error NodeGroup.noSuchRow
      | some g => (f g).map next) = .ok s') :
    idx < s.table.nodeGroups.length ∧ ∃ r, f (s.table.group idx) = .ok r ∧ s' = next r := by
  cases hg : s.table.nodeGroups[idx]? with
  | none => simp [hg] at hs
  | some g =>
    rw [hg] at hs
    obtain ⟨r, hr, rfl⟩ := Library.Fallible.map_eq_ok hs
    exact ⟨(List.getElem?_eq_some_iff.mp hg).1, r, by rw [group_of_getElem? hg, hr], rfl⟩

theorem updateRow_ok (hs : s.updateRow tx offset columnID value = .ok s') :
    offset / nodeGroupSize < s.table.nodeGroups.length ∧
      ∃ r, (s.table.group (offset / nodeGroupSize)).update tx (offset % nodeGroupSize) columnID value = .ok r ∧
        s' = (s.setNodeGroup (offset / nodeGroupSize) r.1).push
          (.updateInfo (offset / nodeGroupSize) r.2.1 columnID r.2.2 tx.id) :=
  onGroup_ok hs

theorem Between.updateRow (hT₀ : T₀.Ready tx.id commitTS)
    (h : Between tx.id T₀ s) (hs : s.updateRow tx offset columnID value = .ok s') : Between tx.id T₀ s' := by
  obtain ⟨hi, r, hu, rfl⟩ := updateRow_ok hs
  exact h.setNodeGroup hi (update_sameRows hu) (h.written.update hT₀ hi hu) (own_append h.own rfl)

theorem deleteRow_ok (hs : s.deleteRow t offset = .ok s') : offset / nodeGroupSize < s.table.nodeGroups.length ∧
      ∃ r, (s.table.group (offset / nodeGroupSize)).delete t (offset % nodeGroupSize) = .ok r ∧
        s' = s.setNodeGroup (offset / nodeGroupSize) r.1 :=
  onGroup_ok hs

theorem Between.deleteRow (hT₀ : T₀.Ready t commitTS) (ht : t ≠ invalidTransaction)
    (h : Between t T₀ s) (hs : s.deleteRow t offset = .ok s') : Between t T₀ (s'.pushDeleteInfo offset) := by
  obtain ⟨hi, r, hd, rfl⟩ := deleteRow_ok hs
  exact h.setNodeGroup hi (delete_sameRows hd) (executing_append (h.written.delete hT₀ ht hi hd)) (own_append h.own rfl)

theorem modifyLocal_ok {f : LocalRow α → LocalRow α} (hs : s.modifyLocal offset f = .ok s') :
    ∃ l, { s with localTable := l } = s' := by
  unfold modifyLocal at hs
  cases hl : s.localTable with
  | none => simp [hl] at hs
  | some l =>
    simp only [hl] at hs
    split_ifs at hs
    exact ⟨_, Except.ok.inj hs⟩

/-- An operation edits the local table, or it updates or deletes a row of the table. -/
theorem execute_ok (hs : s.execute tx op = .ok s') : (∃ l, { s with localTable := l } = s') ∨
      (∃ offset column value, s.updateRow tx offset column value = .ok s') ∨
      ∃ offset s'', op = .delete offset ∧ ¬s.isUnCommitted offset ∧ s.deleteRow tx.id offset = .ok s'' ∧
        s''.pushDeleteInfo offset = s' := by
  cases op with
  | insert values => exact .inl ⟨_, Except.ok.inj hs⟩
  | update offset columnID value =>
    simp only [execute] at hs
    split_ifs at hs
    · exact .inl (modifyLocal_ok hs)
    · exact .inr (.inl ⟨offset, columnID, value, hs⟩)
  | delete offset =>
    simp only [execute] at hs
    split_ifs at hs with hl
    · exact .inl (modifyLocal_ok hs)
    · cases hd : s.deleteRow tx.id offset with
      | error e => simp [hd, Except.map] at hs
      | ok s'' =>
        simp only [hd, Except.map, Except.ok.injEq] at hs
        exact .inr (.inr ⟨offset, s'', rfl, hl, hd, hs⟩)

theorem Between.execute (hT₀ : T₀.Ready tx.id commitTS) (h : Between tx.id T₀ s)
    (hs : s.execute tx op = .ok s') : Between tx.id T₀ s' := by
  obtain ⟨l, rfl⟩ | ⟨_, _, _, hu⟩ | ⟨_, s'', -, -, hd, rfl⟩ := execute_ok hs
  · exact ⟨⟨h.written, h.own⟩, h.length, h.laid, h.total⟩
  · exact h.updateRow hT₀ hu
  · exact h.deleteRow hT₀ tx.id_lt.ne hd

theorem Between.executeAll {ops : List (Operation α)} (hT₀ : T₀.Ready tx.id commitTS) (h : Between tx.id T₀ s)
    (hs : executeAll tx ops s = .ok s') : Between tx.id T₀ s' := by
  induction ops generalizing s with
  | nil => exact Except.ok.inj hs ▸ h
  | cons op ops ih =>
    unfold executeAll at hs
    cases hop : s.execute tx op with
    | error e => simp [hop, Except.bind] at hs
    | ok s'' =>
      simp only [hop] at hs
      exact ih (h.execute hT₀ hop) hs

end Execute

section Commit

theorem openNodeGroup_length (table : NodeTable α) : 0 < table.openNodeGroup.nodeGroups.length := by
  unfold openNodeGroup
  cases hlast : table.nodeGroups.getLast? with
  | none => simp
  | some g =>
    have hpos : 0 < table.nodeGroups.length :=
      length_pos_iff.mpr (by rintro hnil; simp [hnil] at hlast)
    cases hfull : g.isFull <;> simp [hfull, hpos]

theorem openNodeGroup_total (table : NodeTable α) : table.openNodeGroup.numTotalRows = table.numTotalRows := by
  unfold openNodeGroup
  cases table.nodeGroups.getLast? with
  | none => rfl
  | some g => cases hfull : g.isFull <;> simp [hfull]

theorem Between.congr {table : NodeTable α} {l : Option (LocalNodeTable α)} (h : Between t T₀ s)
    (hgroup : ∀ idx, table.group idx = s.table.group idx) (htotal : s.table.numTotalRows ≤ table.numTotalRows) :
    Between t T₀ { s with table := table, localTable := l } where
  written := h.written.congr hgroup
  own := h.own
  length idx := by
    rw [hgroup idx]
    exact h.length idx
  laid idx := by
    rw [hgroup idx]
    exact h.laid idx
  total := h.total.trans htotal

theorem Between.reserve {numRows : Nat} (h : Between t T₀ s) (hi : idx < s.table.nodeGroups.length) :
    Between t T₀ (s.setNodeGroup idx ((s.table.group idx).moveNextRowToAppend numRows)) := by
  have hgroup : ∀ j, ((s.table.modifyNodeGroup idx fun _ =>
      (s.table.group idx).moveNextRowToAppend numRows).group j) = (s.table.group j) ∨
      ((s.table.modifyNodeGroup idx fun _ => (s.table.group idx).moveNextRowToAppend numRows).group j) =
        (s.table.group j).moveNextRowToAppend numRows := by
    intro j
    by_cases hj : j = idx
    · subst hj
      exact .inr (group_set hi)
    · rw [group_modifyNodeGroup, if_neg fun hc => hj hc.1]
      exact .inl rfl
  refine ⟨⟨⟨fun j => ?_, fun j => ?_⟩, h.own⟩, fun j => ?_, fun j => ?_, h.total⟩
  · have hkept := h.written.group j
    rcases hgroup j with he | he
    · exact he ▸ hkept
    · exact he ▸ ⟨hkept.laid, hkept.generations, hkept.counted, hkept.first, hkept.block, hkept.kept⟩
  · rcases hgroup j with he | he <;> exact he ▸ h.written.tail j
  · rcases hgroup j with he | he <;> exact he ▸ h.length j
  · have hlaid := h.laid j
    rcases hgroup j with he | he
    · exact he ▸ hlaid
    · exact he ▸ ⟨hlaid.blocks, hlaid.endOf⟩

variable (hT₀ : T₀.Ready t commitTS)

include hT₀

theorem Between.pushInsertInfo (idx numRows : Nat) (h : Between t T₀ s) :
    Between t T₀ (s.pushInsertInfo idx (s.table.group idx).numRows numRows) where
  written := executing_append ((h.written.push_insert
    (fun j => (hT₀.settled j).laid.blocks.layout) (h.laid idx).endOf).congr fun _ => rfl)
  own := own_append h.own trivial
  length := h.length
  laid := h.laid
  total := h.total.trans (Nat.le_add_right _ _)

omit hT₀ in
theorem setNodeGroup_self : s.setNodeGroup idx (s.table.group idx) = s := by
  have hsame : s.table.nodeGroups.modify idx (fun _ => s.table.group idx) = s.table.nodeGroups := by
    refine ext_getElem? fun j => ?_
    rw [getElem?_modify]
    cases hj : s.table.nodeGroups[j]? with
    | none => rfl
    | some g =>
      by_cases hij : idx = j
      · simp [hij, group_of_getElem? hj]
      · simp [hij]
  simp [setNodeGroup, modifyNodeGroup, hsame]

theorem onNodeGroup_append (idx : Nat) (rows : List (Nat → α)) (U : List UndoRecord) (ht : t ≠ invalidTransaction)
    (h : Between t T₀ s) (hi : idx < s.table.nodeGroups.length)
    (hU : s.undoBuffer = U ++ [.insertInfo idx (s.table.group idx).numRows rows.length]) :
    Triple (s = ·) (onNodeGroup idx (append t rows)) (Begun t T₀) (Between t T₀) := by
  have hlayout := hT₀.layout
  -- a group that still ends where the record says
  have hbegun : ∀ g', NodeGroup.Kept t (deletions T₀ s.undoBuffer idx) (marks T₀ s.undoBuffer idx)
      (updates t (executing t s.undoBuffer) T₀ idx) (T₀.group idx) g' →
      endOf g'.chunkedGroups ≤ (s.table.group idx).numRows + rows.length →
      Begun t T₀ (s.setNodeGroup idx g') := by
    intro g' hkept hend
    refine ⟨h.written.edit hlayout idx (fun j hj => ?_) (fun _ _ _ => Iff.rfl) (fun _ _ => rfl)
      (fun _ _ _ _ _ _ _ _ => id) ?_ ?_, h.own⟩
    · exact (group_modifyNodeGroup).trans (if_neg fun hc => hj hc.1)
    · exact (group_set hi).symm ▸ hkept
    · have htail := h.written.tail idx
      show Undoes _ (insertsOf idx s.undoBuffer).reverse
        (endOf ((s.table.modifyNodeGroup idx fun _ => g').group idx).chunkedGroups)
      rw [group_set hi]
      rw [hU, insertsOf_insertInfo, reverse_append] at htail ⊢
      exact ⟨htail.1, hend, htail.2.2⟩
  refine within setNodeGroup_self (((h.written.group idx).append (h.length idx) ht (h.laid idx) rows).consequence
    (fun _ => id) (fun g' hg' => hbegun g' hg'.1.1 hg'.2.2) fun g' hg' => ?_)
  obtain ⟨⟨hkept, hlen⟩, happ⟩ := hg'
  have hgroup : ∀ j, j ≠ idx → (s.setNodeGroup idx g').table.group j = s.table.group j := fun j hj =>
    (group_modifyNodeGroup).trans (if_neg fun hc => hj hc.1)
  have hset : (s.setNodeGroup idx g').table.group idx = g' := group_set hi
  refine ⟨hbegun g' hkept (by rw [happ.laid.endOf, happ.numRows]), fun j => ?_, fun j => ?_, h.total⟩
  · by_cases hj : j = idx
    · subst hj
      rwa [hset]
    · rw [hgroup j hj]
      exact h.length j
  · by_cases hj : j = idx
    · subst hj
      rw [hset]
      exact happ.laid
    · rw [hgroup j hj]
      exact h.laid j

variable {W A : TransactionState α → Prop}

omit hT₀ in
/-- The loop over the rows of a batch: `W` holds between two appends, `M` between
the record of some rows and the rows themselves. -/
theorem appendBatch_rule {M : Nat → Nat → TransactionState α → Prop}
    (hW : ∀ s, W s → A s) (hM : ∀ idx n s, M idx n s → A s)
    (hopen : ∀ s, W s → W { s with table := s.table.openNodeGroup })
    (hreserve : ∀ s idx n, W s → idx < s.table.nodeGroups.length →
      W (s.setNodeGroup idx ((s.table.group idx).moveNextRowToAppend n)))
    (hpush : ∀ s idx n, W s → idx < s.table.nodeGroups.length →
      M idx n (s.pushInsertInfo idx (s.table.group idx).numRows n))
    (hwrite : ∀ s idx rows, M idx rows.length s → Triple (s = ·) (onNodeGroup idx (append t rows)) A W)
    (fuel : Nat) (rows : List (Nat → α)) : Triple W (appendBatch t fuel rows) A W := by
  induction fuel generalizing rows with
  | zero => exact skip
  | succ fuel ih =>
    unfold appendBatch
    by_cases hrows : rows.isEmpty = true
    · rw [if_pos hrows]
      exact skip
    rw [if_neg hrows]
    refine (step (Q := fun s => W s ∧ 0 < s.table.nodeGroups.length) (fun s hs => hW _ (hopen s hs))
      fun s hs => ⟨hopen s hs, openNodeGroup_length s.table⟩).andThen (pointwise ?_)
    rintro s ⟨hs, hpos⟩
    have hi : s.table.nodeGroups.length - 1 < s.table.nodeGroups.length := by omega
    let last := s.table.group (s.table.nodeGroups.length - 1)
    let n := min rows.length last.getNumRowsLeftToAppend
    let reserved := s.setNodeGroup (s.table.nodeGroups.length - 1) (last.moveNextRowToAppend n)
    have hreserved : W reserved := hreserve s _ n hs hi
    have hlen : s.table.nodeGroups.length - 1 < reserved.table.nodeGroups.length := by
      simpa [reserved, setNodeGroup, modifyNodeGroup] using hi
    have hgroup : reserved.table.group (s.table.nodeGroups.length - 1) = last.moveNextRowToAppend n :=
      group_set hi
    have hpushed := hpush reserved _ n hreserved hlen
    rw [hgroup] at hpushed
    have htake : (rows.take n).length = n := by
      rw [length_take]
      exact Nat.min_eq_left (Nat.min_le_left ..)
    refine ⟨_, by rfl, andThen (Q := (reserved = ·)) (step ?_ ?_)
      (andThen (Q := (reserved.pushInsertInfo _ last.numRows n = ·)) (step ?_ ?_)
        ((hwrite _ _ (rows.take n) (by rw [htake]; exact hpushed)).andThen (ih (rows.drop n))))⟩
    · rintro _ rfl
      exact hW _ hreserved
    · rintro _ rfl
      rfl
    · rintro _ rfl
      exact hM _ _ _ hpushed
    · rintro _ rfl
      rfl

theorem appendBatch_triple (ht : t ≠ invalidTransaction) (fuel : Nat) (rows : List (Nat → α)) :
    Triple (Between t T₀) (appendBatch t fuel rows) (Begun t T₀) (Between t T₀) := by
  refine appendBatch_rule (M := fun idx n s => Between t T₀ s ∧ idx < s.table.nodeGroups.length ∧
      ∃ U, s.undoBuffer = U ++ [.insertInfo idx (s.table.group idx).numRows n]) (fun _ h => h.toBegun)
    (fun _ _ _ h => h.1.toBegun)
    (fun s h => h.congr (fun _ => group_openNodeGroup) (openNodeGroup_total s.table).ge)
    (fun s idx n h hi => h.reserve hi)
    (fun s idx n h hi => ⟨Between.pushInsertInfo hT₀ idx n h, hi, s.undoBuffer, rfl⟩)
    (fun s idx rows hs => ?_) fuel rows
  obtain ⟨h, hi, U, hU⟩ := hs
  exact onNodeGroup_append hT₀ idx rows U ht h hi hU

variable {offset : Nat}

omit hT₀ in
theorem le_of_mem_deletedOffsets {startNodeOffset : Nat} {rows : List (LocalRow α)}
    (h : offset ∈ deletedOffsets startNodeOffset rows) : startNodeOffset ≤ offset := by
  induction rows generalizing startNodeOffset with
  | nil => simp [deletedOffsets] at h
  | cons row rows ih =>
    unfold deletedOffsets at h
    split_ifs at h
    · rcases mem_cons.mp h with rfl | h
      · exact le_rfl
      · exact (Nat.le_succ _).trans (ih h)
    · exact (Nat.le_succ _).trans (ih h)

theorem endOf_le_row (ho : T₀.numTotalRows ≤ offset) :
    endOf (T₀.group (offset / nodeGroupSize)).chunkedGroups ≤ offset % nodeGroupSize := by
  rw [(hT₀.settled _).laid.endOf]
  rcases Nat.eq_zero_or_pos (T₀.group (offset / nodeGroupSize)).numRows with hz | hpos
  · omega
  · have hcount := hT₀.counted _ hpos
    have hdiv := Nat.div_add_mod offset nodeGroupSize
    rw [Nat.mul_comm] at hdiv
    omega

theorem deleteOwn_triple (ht : t ≠ invalidTransaction) (ho : T₀.numTotalRows ≤ offset) :
    Triple (Between t T₀) ((attempt (deleteRow · t offset)).andThen
      (step (pushDeleteInfo · offset))) (Begun t T₀) (Between t T₀) := by
  have hrow := endOf_le_row hT₀ ho
  have hdelete : ∀ s s', Between t T₀ s → s.deleteRow t offset = .ok s' → Between t T₀ s' := by
    intro s s' h hs
    obtain ⟨hi, r, hd, rfl⟩ := deleteRow_ok hs
    exact h.setNodeGroup hi (delete_sameRows hd) (h.written.delete_own hT₀ ht hrow hd) h.own
  have hpush : ∀ s, Between t T₀ s → Between t T₀ (s.pushDeleteInfo offset) := fun s h =>
    ⟨⟨executing_append (h.written.record_own hT₀ hrow), own_append h.own rfl⟩, h.length, h.laid, h.total⟩
  exact (attempt (fun s s' h hs => (hdelete s s' h hs).toBegun) hdelete).andThen
    (step (fun s h => (hpush s h).toBegun) hpush)

omit hT₀ in
theorem commitLocalTable_rule (hW : ∀ s, W s → A s) (hbatch : ∀ batch, Triple W (appendBatch t batch.length batch) A W)
    (hdelete : ∀ s offset, W s → s.table.numTotalRows ≤ offset →
      Triple W ((attempt (deleteRow · t offset)).andThen (step (pushDeleteInfo · offset))) A W)
    (hclear : ∀ s, W s → W { s with localTable := none }) : Triple W (commitLocalTable t) A W := by
  refine pointwise fun s h => ?_
  unfold commitLocalTable
  cases hl : s.localTable with
  | none =>
    refine ⟨skip, rfl, skip.consequence (fun _ => id) (fun _ => id) ?_⟩
    rintro _ rfl
    exact h
  | some l =>
    have hall := (each fun batch (_ : batch ∈ batches (l.rows.map (·.values)).length
        (l.rows.map (·.values))) => hbatch batch).andThen
      ((each fun offset (ho : offset ∈ deletedOffsets s.table.numTotalRows l.rows) =>
        hdelete s offset h (le_of_mem_deletedOffsets ho)).andThen
        (step (fun s h => hW _ (hclear s h)) hclear))
    refine ⟨_, by rfl, hall.consequence ?_ (fun _ => id) fun _ => id⟩
    rintro _ rfl
    exact h

theorem commitLocalTable_triple (ht : t ≠ invalidTransaction) :
    Triple (Between t T₀) (commitLocalTable t) (Begun t T₀) (Between t T₀) :=
  commitLocalTable_rule (fun _ h => h.toBegun) (fun batch => appendBatch_triple hT₀ ht batch.length batch)
    (fun _ _ h ho => deleteOwn_triple hT₀ ht (h.total.trans ho))
    fun _ h => ⟨⟨h.written, h.own⟩, h.length, h.laid, h.total⟩

/-- What an exception finds at any point of a commit. -/
structure Committing (t commitTS : Nat) (T₀ : NodeTable α) (s : TransactionState α) : Prop where
  written : Written t (updates t (committing t commitTS s.undoBuffer) T₀) T₀ s.table s.undoBuffer
  own : ∀ record ∈ s.undoBuffer, record.Own t

omit hT₀ in
theorem Begun.committing (h : Begun t T₀ s) : Committing t commitTS T₀ s :=
  ⟨h.written.mono fun _ _ _ _ _ _ _ hq b₀ hb₀ => (hq b₀ hb₀).mono fun _ => .inr, h.own⟩

omit hT₀ in
theorem commitUndoBuffer_rule (hcommit : ∀ s, ∀ record ∈ s.undoBuffer, W s →
    W { s with table := record.commitRecord commitTS s.table }) : Triple W (commitUndoBuffer commitTS) W W := by
  refine read (f := fun s : TransactionState α => each (fun record => step
    fun s : TransactionState α => { s with table := record.commitRecord commitTS s.table }) s.undoBuffer)
    fun s h => ?_
  refine consequence (P := fun s' => W s' ∧ s'.undoBuffer = s.undoBuffer)
    (Q := fun s' => W s' ∧ s'.undoBuffer = s.undoBuffer) (each fun record hmem => ?_)
    (by rintro _ rfl; exact ⟨h, rfl⟩) (fun _ => id) fun _ => And.left
  have hstep : ∀ s', W s' ∧ s'.undoBuffer = s.undoBuffer →
      W { s' with table := record.commitRecord commitTS s'.table } :=
    fun s' h' => hcommit s' record (h'.2 ▸ hmem) h'.1
  exact step hstep fun s' h' => ⟨hstep s' h', h'.2⟩

theorem commitUndoBuffer_triple :
    Triple (Committing t commitTS T₀) (commitUndoBuffer commitTS) (Committing t commitTS T₀)
      (Committing t commitTS T₀) :=
  commitUndoBuffer_rule fun _ record hmem h => ⟨h.written.commitRecord hT₀ hmem (h.own record hmem), h.own⟩

theorem commit_triple (ht : t ≠ invalidTransaction) :
    Triple (Between t T₀) (commit t commitTS) (Committing t commitTS T₀) (Committing t commitTS T₀) :=
  ((commitLocalTable_triple hT₀ ht).consequence (fun _ => id) (fun _ h => h.committing)
    fun _ h => h.toBegun.committing).andThen (commitUndoBuffer_triple hT₀)

end Commit

section Rollback

def undone (t : Nat) (T₂ : NodeTable α) (idx i column vectorIdx : Nat) (chain : List (VectorUpdateInfo α)) : Prop :=
  chain = (chainAt T₂ idx i column vectorIdx).eraseP (·.version = t)

theorem Committing.oneOwn (hT₀ : T₀.Ready t commitTS) (h : Committing t commitTS T₀ s) : OneOwn t T₀ s.table := by
  intro idx i b₀ hb₀ column vectorIdx u hu
  have hold := fun w hw => (hT₀.updates hb₀ column vectorIdx w hw).1
  unfold chainAt at hu
  cases hb : (s.table.group idx).chunkedGroups[i]? with
  | none => simp [hb] at hu
  | some b =>
    simp only [hb] at hu
    rcases ((h.written.group idx).block hb₀ hb).chain column vectorIdx b₀ hb₀ with he | ⟨w, he, -, hw⟩
    · rw [he] at hu
      exact hold u (mem_of_mem_eraseP hu)
    · rw [he] at hu
      by_cases hwt : w.version = t
      · rw [eraseP_cons_of_pos (by simpa using hwt)] at hu
        exact hold u hu
      · rw [eraseP_cons_of_neg (by simpa using hwt)] at hu
        rcases mem_cons.mp hu with rfl | hu
        · exact hwt
        · exact hold u (mem_of_mem_eraseP hu)

theorem Committing.undoing (hT₀ : T₀.Ready t commitTS) (hts : commitTS ≠ t) (h : Committing t commitTS T₀ s) :
    Written t (Written.undoing t s.table s.undoBuffer) T₀ s.table s.undoBuffer := by
  refine ⟨fun idx => ?_, h.written.tail⟩
  have hkept := h.written.group idx
  refine { hkept with block := fun {i b₀ b} hb₀ hb => ?_ }
  refine { hkept.block hb₀ hb with chain := fun column vectorIdx => .inl ⟨?_, fun u hu hv => ?_⟩ }
  · simp [chainAt, hb]
  · rcases (hkept.block hb₀ hb).chain column vectorIdx b₀ hb₀ with he | ⟨w, he, -, hw⟩
    · rw [he] at hu
      exact absurd hv (hT₀.updates hb₀ column vectorIdx u hu).1
    · rw [he] at hu
      rcases mem_cons.mp hu with rfl | hu
      · exact (hw.resolve_left fun hc => hts (hc.symm.trans hv)).2
      · exact absurd hv (hT₀.updates hb₀ column vectorIdx u hu).1

theorem rollback_written {T₂ : NodeTable α} {U : List UndoRecord} (hT₀ : T₀.Ready t commitTS)
    (ht : t ≠ invalidTransaction) (hone : OneOwn t T₀ T₂) (hown : ∀ record ∈ U, record.Own t)
    (h : Written t (Written.undoing t T₂ U) T₀ T U) :
    Written t (undone t T₂) T₀ (U.foldr (fun record table => record.rollbackRecord table) T) [] := by
  induction U using List.reverseRecOn generalizing T with
  | nil =>
    refine h.mono fun idx i b₀ hb₀ column vectorIdx chain hq => ?_
    rcases hq with ⟨rfl, hnone⟩ | he
    · refine (eraseP_of_forall_not fun u hu => ?_).symm
      simpa using fun hv => by simpa using hnone u hu hv
    · exact he
  | append_singleton U record ih =>
    rw [foldr_append]
    exact ih (fun r hr => hown r (mem_append_left _ hr)) (h.rollbackRecord hT₀ ht hone (hown record (by simp)))

end Rollback

end Rag3db.Storage.TransactionState
