import Rag3db.Storage.UndoSteps

open List

namespace Rag3db.Storage

open Library.Interruptible NodeTable

variable {α : Type} {T₀ T' : NodeTable α} {s s' : TransactionState α} {start : Nat → Nat}
  {t startTS commitTS total idx n : Nat} {g g' : NodeGroup α} {rows : List (Nat → α)}

/-- The groups hold the rows they count, and the table counts no fewer. -/
structure NodeTable.Ordered (T : NodeTable α) : Prop where
  laid : ∀ idx, endOf (T.group idx).chunkedGroups = (T.group idx).numRows
  counted : ∀ idx, 0 < (T.group idx).numRows → idx * nodeGroupSize + (T.group idx).numRows ≤ T.numTotalRows
  spaced : ∀ idx < T.nodeGroups.length, idx * nodeGroupSize ≤ T.numTotalRows

variable {T : NodeTable α}

theorem NodeTable.Ordered.le (h : T.Ordered) (hi : idx < T.nodeGroups.length) :
    idx * nodeGroupSize + (T.group idx).numRows ≤ T.numTotalRows := by
  rcases Nat.eq_zero_or_pos (T.group idx).numRows with hz | hpos
  · rw [hz, Nat.add_zero]
    exact h.spaced idx hi
  · exact h.counted idx hpos

theorem NodeGroup.Extended.view (h : NodeGroup.Extended t g g') (hlaid : WellLaid g.chunkedGroups) :
    view {t} g'.chunkedGroups = view {t} g.chunkedGroups := by
  refine view_eq_of_rows (fun row c hc => .inr ⟨c, ?_, rfl⟩) fun row c hc => ?_
  · rw [h.old row (row_lt_endOf hlaid.layout hc), hc]
  · rcases Nat.lt_or_ge row (endOf g.chunkedGroups) with hlt | hge
    · exact .inr ⟨c, (h.old row hlt).symm.trans hc, rfl⟩
    · exact .inl (h.new row c hge hc)

variable {U : List UndoRecord}

theorem numInserted_eq_zero (h : lastInsert U = none) : numInserted U = 0 := by
  induction U using List.reverseRecOn with
  | nil => rfl
  | append_singleton U record ih =>
    rw [lastInsert_append, Option.or_eq_none_iff] at h
    rw [Unwinds.numInserted_append, ih h.2, Unwinds.numInserted_of_none h.1]

variable {V : Set Nat}

theorem Unwinds.start_le_row {offset : Nat} (h : Unwinds V start total T U) (ho : total ≤ offset) :
    start (offset / nodeGroupSize) ≤ offset % nodeGroupSize := by
  rcases Nat.eq_zero_or_pos (start (offset / nodeGroupSize)) with hz | hpos
  · omega
  · have hcount := h.counted _ hpos
    have hdiv := Nat.div_add_mod offset nodeGroupSize
    rw [Nat.mul_comm] at hdiv
    omega

theorem NodeTable.Ordered.inPlace {X : Set Nat} {T' : NodeTable α} (h : T.Ordered) (hp : T.InPlace X T') :
    T'.Ordered where
  laid idx := by
    rw [← (hp.rows idx).blocks.endOf, (hp.rows idx).numRows]
    exact h.laid idx
  counted idx hpos := by
    rw [(hp.rows idx).numRows] at hpos ⊢
    rw [hp.total]
    exact h.counted idx hpos
  spaced idx hi := by
    rw [hp.total]
    exact h.spaced idx (hp.length ▸ hi)

theorem Unwinds.ordered (h : Unwinds V start total T []) : T.Ordered := by
  have hends : ∀ idx, endOf (T.group idx).chunkedGroups = start idx := h.ends
  have hlaid : ∀ idx, endOf (T.group idx).chunkedGroups = (T.group idx).numRows := fun idx =>
    h.laid idx (by simp [lastInsert])
  have htotal : T.numTotalRows = total := h.numTotal
  refine ⟨hlaid, fun idx hpos => ?_, ?_⟩
  · rw [← hlaid, hends] at hpos ⊢
    rw [htotal]
    exact h.counted idx hpos
  · rw [htotal]
    exact h.spaced.resolve_left (by simp [lastInsert])

theorem NodeTable.Ordered.unwinds (h : T.Ordered) (hsound : T.SoundBut ∅)
    (hcap : ∀ idx, (T.group idx).capacity = nodeGroupSize) :
    Unwinds ∅ (fun idx => endOf (T.group idx).chunkedGroups) T.numTotalRows T [] where
  ends _ := rfl
  rows hc := iff_of_false (Set.notMem_empty _) (Nat.not_le.mpr (row_lt_endOf (hsound _).laid.layout hc))
  laid idx _ := h.laid idx
  disk idx := by
    unfold diskEnd
    split
    · exact Nat.zero_le _
    · split_ifs
      · exact (hsound idx).laid.layout.endOf_le ‹_›
      · exact Nat.zero_le _
  emptied idx hz := (hsound idx).emptied ((h.laid idx).symm.trans hz)
  capacity := hcap
  numTotal := rfl
  counted idx hpos := by
    rw [h.laid] at hpos ⊢
    exact h.counted idx hpos
  spaced := .inr h.spaced

namespace TransactionState

/-- What an exception finds while `t` appends its rows to the table `T₀`. -/
structure Appending (t startTS : Nat) (start : Nat → Nat) (total : Nat) (T₀ : NodeTable α)
    (s : TransactionState α) : Prop where
  sound : s.table.SoundBut ∅
  same : T₀.SameFor {t} s.table
  unwinds : Unwinds {t} start total s.table s.undoBuffer
  records : ∀ record ∈ s.undoBuffer, record.Good {t} t startTS s.table
  updates : ∀ {P}, T₀.Updates P → s.table.Updates P

/-- What holds between two appends. -/
structure Whole (t startTS : Nat) (start : Nat → Nat) (total : Nat) (T₀ : NodeTable α)
    (s : TransactionState α) : Prop extends Appending t startTS start total T₀ s where
  ordered : s.table.Ordered

section Append

variable (h : Whole t startTS start total T₀ s)

include h

theorem Whole.congr {l : Option (LocalNodeTable α)}
    (hgroup : ∀ idx, ∃ n, T'.group idx = { s.table.group idx with nextRowToAppend := n })
    (htotal : T'.numTotalRows = s.table.numTotalRows)
    (hspaced : ∀ idx < T'.nodeGroups.length, idx * nodeGroupSize ≤ T'.numTotalRows) :
    Whole t startTS start total T₀ { s with table := T', localTable := l } := by
  have hblocks : ∀ idx, (T'.group idx).chunkedGroups = (s.table.group idx).chunkedGroups := fun idx => by
    obtain ⟨n, he⟩ := hgroup idx
    rw [he]
  have hrows : ∀ idx, (T'.group idx).numRows = (s.table.group idx).numRows := fun idx => by
    obtain ⟨n, he⟩ := hgroup idx
    rw [he]
  have hgens : ∀ idx, (T'.group idx).previousGenerations = (s.table.group idx).previousGenerations :=
    fun idx => by
      obtain ⟨n, he⟩ := hgroup idx
      rw [he]
  have hcell : ∀ idx row, T'.cell idx row = s.table.cell idx row := fun idx row => by
    rw [cell, hblocks]
    rfl
  have hw := h.unwinds
  refine ⟨⟨fun idx => ?_, ⟨fun idx => ?_, fun idx => ?_⟩, ⟨fun idx => ?_, fun hc => ?_, fun idx hl => ?_,
    fun idx => ?_, fun idx hz => ?_, fun idx => ?_, htotal.trans hw.numTotal, hw.counted, ?_⟩,
    fun record hmem => ?_, fun hP idx => ?_⟩, ⟨fun idx => ?_, fun idx hpos => ?_, hspaced⟩⟩
  · have hs := h.sound idx
    refine ⟨?_, ?_, ?_, ?_⟩
    · exact (hblocks idx).symm ▸ hs.laid
    · exact fun hb => hs.blocks ((hblocks idx) ▸ hb)
    · exact fun hb => hs.rooted ((hblocks idx) ▸ hb)
    · exact fun hz => (hgens idx).trans (hs.emptied ((hrows idx).symm.trans hz))
  · exact (congrArg _ (hblocks idx)).trans (h.same.view idx)
  · exact (hgens idx).trans (h.same.generations idx)
  · exact (hblocks idx).symm ▸ hw.ends idx
  · exact hw.rows ((hcell _ _).symm.trans hc)
  · exact (congrArg endOf (hblocks idx)).trans ((hw.laid idx hl).trans (hrows idx).symm)
  · exact (congrArg diskEnd (hblocks idx)).trans_le (hw.disk idx)
  · exact (hgens idx).trans (hw.emptied idx hz)
  · obtain ⟨n, he⟩ := hgroup idx
    exact he ▸ hw.capacity idx
  · cases hlast : lastInsert s.undoBuffer with
    | some idx => exact .inl (by simp)
    | none =>
      have htot := htotal.trans hw.numTotal
      rw [numInserted_eq_zero hlast, Nat.add_zero] at htot
      exact .inr (htot ▸ hspaced)
  · exact (h.records record hmem).mono fun idx row hh c hc => hh c ((hcell idx row).symm.trans hc)
  · intro i b hb
    exact h.updates hP idx (hblocks idx ▸ hb)
  · exact (congrArg endOf (hblocks idx)).trans ((h.ordered.laid idx).trans (hrows idx).symm)
  · rw [hrows, htotal]
    exact h.ordered.counted idx ((hrows idx) ▸ hpos)

theorem Whole.openNodeGroup : Whole t startTS start total T₀ { s with table := s.table.openNodeGroup } := by
  refine h.congr (fun idx => ⟨_, group_openNodeGroup⟩) (openNodeGroup_total _) fun idx hi => ?_
  rw [openNodeGroup_total]
  unfold NodeTable.openNodeGroup at hi
  cases hlast : s.table.nodeGroups.getLast? with
  | none =>
    simp only [hlast, length_singleton, Nat.lt_one_iff] at hi
    rw [hi]
    exact Nat.zero_le _
  | some g =>
    simp only [hlast] at hi
    by_cases hlt : idx < s.table.nodeGroups.length
    · exact h.ordered.spaced idx hlt
    -- the group is new, and the one before it is full
    · split_ifs at hi with hfull
      · rw [getLast?_eq_getElem?] at hlast
        have hlen := (List.getElem?_eq_some_iff.mp hlast).1
        have hgroup := group_of_getElem? hlast
        have hcount := h.ordered.le hlen
        have hcap := h.unwinds.capacity (s.table.nodeGroups.length - 1)
        have hrows : g.numRows = g.capacity := by simpa [NodeGroup.isFull] using hfull
        rw [hgroup] at hcap hcount
        rw [hrows, hcap, ← Nat.succ_mul] at hcount
        simp only [length_append, length_singleton] at hi
        obtain rfl : idx = s.table.nodeGroups.length - 1 + 1 := by omega
        exact hcount
      · exact absurd hi hlt

theorem Whole.reserve (hi : idx < s.table.nodeGroups.length) :
    Whole t startTS start total T₀ (s.setNodeGroup idx ((s.table.group idx).moveNextRowToAppend n)) := by
  refine h.congr (fun j => ?_) rfl fun j hj => h.ordered.spaced j ?_
  · rcases group_modify_cases s.table idx (fun _ => (s.table.group idx).moveNextRowToAppend n) j with
      he | ⟨rfl, he⟩
    · exact ⟨_, he⟩
    · exact ⟨_, he⟩
  · simpa [modifyNodeGroup] using hj

theorem Whole.pushInsertInfo (idx n : Nat) :
    Whole t startTS start total T₀ (s.pushInsertInfo idx (s.table.group idx).numRows n) := by
  have hw := h.unwinds
  refine ⟨⟨h.sound, ⟨h.same.view, h.same.generations⟩, ⟨fun j => ?_, hw.rows, fun j _ => h.ordered.laid j,
    hw.disk, hw.emptied, hw.capacity, ?_, hw.counted, .inl ?_⟩, fun record hmem => ?_, h.updates⟩,
    ⟨h.ordered.laid, fun j hpos => ?_, fun j hj => ?_⟩⟩
  · show Stacked (start j) (insertsOf j (s.undoBuffer ++ [_])).reverse _
    by_cases hj : j = idx
    · subst hj
      rw [insertsOf_insertInfo, reverse_append]
      refine ⟨(h.ordered.laid j).ge, (h.ordered.laid j).le.trans (Nat.le_add_right _ _), ?_⟩
      rw [← h.ordered.laid j]
      exact hw.ends j
    · rw [insertsOf_append, insertsOf_singleton_of_ne (Ne.symm hj), append_nil]
      exact hw.ends j
  · show s.table.numTotalRows + n = total + numInserted (s.undoBuffer ++ [_])
    rw [Unwinds.numInserted_append, hw.numTotal, Nat.add_assoc]
    rfl
  · show lastInsert (s.undoBuffer ++ [_]) ≠ none
    rw [lastInsert_append]
    simp [UndoRecord.insertGroup]
  · rcases mem_append.mp hmem with hm | hm
    · exact h.records record hm
    · rw [mem_singleton.mp hm]
      trivial
  · exact (h.ordered.counted j hpos).trans (Nat.le_add_right _ _)
  · exact (h.ordered.spaced j hj).trans (Nat.le_add_right _ _)

theorem Whole.setNodeGroup {U : List UndoRecord} (hi : idx < s.table.nodeGroups.length)
    (hU : s.undoBuffer = U ++ [.insertInfo idx (s.table.group idx).numRows n])
    (hx : NodeGroup.Extended t (s.table.group idx) g')
    (hend : endOf g'.chunkedGroups ≤ (s.table.group idx).numRows + n) :
    Appending t startTS start total T₀ (s.setNodeGroup idx g') := by
  have hw := h.unwinds
  have hlast : lastInsert s.undoBuffer = some idx := by rw [hU, lastInsert_append]; rfl
  have hends := hw.ends idx
  let T' := (s.setNodeGroup idx g').table
  have hcases : ∀ j, j = idx ∧ T'.group j = g' ∨ j ≠ idx ∧ T'.group j = s.table.group j := fun j => by
    by_cases hj : j = idx
    · exact .inl ⟨hj, hj ▸ Written.group_set hi⟩
    · exact .inr ⟨hj, group_modify_of_ne hj⟩
  -- a row is an old one, or one of the transaction
  have hcell : ∀ {j row c}, T'.cell j row = some c → s.table.cell j row = some c ∨ c.insertion = t ∧ start j ≤ row := by
    intro j row c hc
    unfold cell at hc ⊢
    rcases hcases j with ⟨rfl, he⟩ | ⟨-, he⟩ <;> rw [he] at hc
    · rcases Nat.lt_or_ge row (endOf (s.table.group j).chunkedGroups) with hlt | hge
      · exact .inl ((hx.old row hlt).symm.trans hc)
      · exact .inr ⟨hx.new row c hge hc, hends.start_le.1.trans hge⟩
    · exact .inl hc
  refine ⟨fun j => ?_, h.same.trans ⟨fun j => ?_, fun j => ?_⟩, ⟨fun j => ?_, fun {j row c} hc => ?_,
    fun j hl => ?_, fun j => ?_, fun j hz => ?_, fun j => ?_, hw.numTotal, hw.counted, .inl ?_⟩,
    fun record hmem => (h.records record hmem).mono fun j row hh c hc => ?_, fun hP j => ?_⟩
  · rcases hcases j with ⟨-, he⟩ | ⟨-, he⟩ <;> rw [he]
    · exact hx.sound
    · exact h.sound j
  · rcases hcases j with ⟨rfl, he⟩ | ⟨-, he⟩ <;> rw [he]
    exact hx.view (h.sound j).laid
  · rcases hcases j with ⟨rfl, he⟩ | ⟨-, he⟩ <;> rw [he]
    exact hx.generations
  · show Stacked (start j) (insertsOf j s.undoBuffer).reverse (endOf (T'.group j).chunkedGroups)
    rcases hcases j with ⟨rfl, he⟩ | ⟨-, he⟩ <;> rw [he]
    · rw [hU, insertsOf_insertInfo, reverse_append] at hends ⊢
      exact ⟨hends.1.trans hx.ends, hend, hends.2.2⟩
    · exact hw.ends j
  · rcases hcell hc with hold | ⟨hins, hrow⟩
    · exact hw.rows hold
    · exact iff_of_true hins hrow
  · have hj : j ≠ idx := fun hj => hl (hj ▸ hlast)
    rw [((hcases j).resolve_left fun hc => hj hc.1).2]
    exact hw.laid j hl
  · rcases hcases j with ⟨rfl, he⟩ | ⟨-, he⟩ <;> rw [he]
    · exact hx.disk.le.trans (hw.disk j)
    · exact hw.disk j
  · rcases hcases j with ⟨rfl, he⟩ | ⟨-, he⟩ <;> rw [he]
    · exact hx.generations.trans (hw.emptied j hz)
    · exact hw.emptied j hz
  · rcases hcases j with ⟨rfl, he⟩ | ⟨-, he⟩ <;> rw [he]
    · exact hx.capacity.trans (hw.capacity j)
    · exact hw.capacity j
  · show lastInsert s.undoBuffer ≠ none
    simp [hlast]
  · rcases hcell hc with hold | ⟨hins, -⟩
    · exact hh c hold
    · exact .inl hins
  · rcases hcases j with ⟨rfl, he⟩ | ⟨-, he⟩ <;> rw [he]
    · exact hx.chains _ (h.updates hP j)
    · exact h.updates hP j

omit h

/-- The rows of a record are to be written to a group. -/
structure Recorded (t startTS : Nat) (start : Nat → Nat) (total : Nat) (T₀ : NodeTable α) (idx n : Nat)
    (s : TransactionState α) : Prop where
  whole : Whole t startTS start total T₀ s
  lt : idx < s.table.nodeGroups.length
  recorded : ∃ U, s.undoBuffer = U ++ [.insertInfo idx (s.table.group idx).numRows n]
  room : idx * nodeGroupSize + ((s.table.group idx).numRows + n) ≤ s.table.numTotalRows

theorem onNodeGroup_whole (ht : t ≠ invalidTransaction) (h : Recorded t startTS start total T₀ idx rows.length s) :
    Triple (s = ·) (onNodeGroup idx (NodeGroup.append t rows)) (Appending t startTS start total T₀)
      (Whole t startTS start total T₀) := by
  obtain ⟨hwhole, hi, ⟨U, hU⟩, hroom⟩ := h
  refine Triple.within setNodeGroup_self ((NodeGroup.append_extended (hwhole.sound idx)
    (hwhole.ordered.laid idx) ht rows).consequence (fun _ => id)
    (fun g' hg' => hwhole.setNodeGroup hi hU hg'.1 hg'.2) fun g' hg' => ?_)
  obtain ⟨hx, hlaid, hnum⟩ := hg'
  have hset : (s.setNodeGroup idx g').table.group idx = g' := Written.group_set hi
  have hother : ∀ j, j ≠ idx → (s.setNodeGroup idx g').table.group j = s.table.group j := fun j hj =>
    group_modify_of_ne hj
  refine ⟨hwhole.setNodeGroup hi hU hx (by rw [hlaid, hnum]), fun j => ?_, fun j hpos => ?_, fun j hj => ?_⟩
  · by_cases hj : j = idx
    · subst hj
      rwa [hset]
    · rw [hother j hj]
      exact hwhole.ordered.laid j
  · by_cases hj : j = idx
    · subst hj
      rw [hset, hnum]
      exact hroom
    · rw [hother j hj] at hpos ⊢
      exact hwhole.ordered.counted j hpos
  · refine hwhole.ordered.spaced j ?_
    simpa [TransactionState.setNodeGroup, modifyNodeGroup] using hj

theorem appendBatch_whole (ht : t ≠ invalidTransaction) (fuel : Nat) (rows : List (Nat → α)) :
    Triple (Whole t startTS start total T₀) (appendBatch t fuel rows) (Appending t startTS start total T₀)
      (Whole t startTS start total T₀) := by
  refine appendBatch_rule (fun _ h => h.toAppending)
    (fun _ _ _ h => h.whole.toAppending) (fun _ h => h.openNodeGroup) (fun _ _ _ h hi => h.reserve hi)
    (fun s idx n h hi => ⟨h.pushInsertInfo idx n, hi, ⟨s.undoBuffer, rfl⟩, ?_⟩)
    (fun _ _ _ h => onNodeGroup_whole ht h) fuel rows
  rw [← Nat.add_assoc]
  exact Nat.add_le_add_right (h.ordered.le hi) n

end Append

section DeleteOwn

variable {offset : Nat}

theorem Whole.deleteRow (ht : t ≠ invalidTransaction) (h : Whole t startTS start total T₀ s)
    (hs : s.deleteRow t offset = .ok s') : Whole t startTS start total T₀ s' := by
  obtain ⟨⟨hU, -⟩, ⟨hsound, hsame, hp⟩, -, -, hcell⟩ := deleteRow_spec (P := fun _ _ => True) h.sound ht hs
  refine ⟨⟨hsound, h.same.trans hsame, hU ▸ h.unwinds.inPlace hp (by simp), fun record hmem => ?_,
    fun hP => (deleteRow_spec h.sound ht hs).2.2.1 (h.updates hP)⟩, h.ordered.inPlace hp⟩
  refine (h.records record (hU ▸ hmem)).mono fun idx row hh c' hc' => ?_
  rw [hcell] at hc'
  obtain ⟨c, hc, rfl⟩ := Option.map_eq_some_iff.mp hc'
  split_ifs with hrow
  · exact (hh c hc).imp_right fun hx => ⟨hx.1, rfl⟩
  · exact hh c hc

theorem Whole.pushDeleteInfo (h : Whole t startTS start total T₀ s) (ho : total ≤ offset) :
    Whole t startTS start total T₀ (s.pushDeleteInfo offset) := by
  refine ⟨⟨h.sound, h.same, (Unwinds.append_iff rfl).mpr h.unwinds, fun record hmem => ?_, h.updates⟩, h.ordered⟩
  rcases mem_append.mp hmem with hm | hm
  · exact h.records record hm
  · rw [mem_singleton.mp hm]
    exact ⟨rfl, fun c hc => .inl ((h.unwinds.rows hc).mpr (h.unwinds.start_le_row ho))⟩

theorem commitLocalTable_whole (ht : t ≠ invalidTransaction) :
    Triple (Whole t startTS start total T₀) (commitLocalTable t) (Appending t startTS start total T₀)
      (Whole t startTS start total T₀) := by
  refine commitLocalTable_rule (fun _ h => h.toAppending)
    (fun batch => appendBatch_whole ht batch.length batch) (fun s offset h ho => ?_)
    fun s h => ⟨⟨h.sound, h.same, h.unwinds, h.records, h.updates⟩, h.ordered⟩
  have htotal : total ≤ offset := by
    have := h.unwinds.numTotal
    omega
  exact (Triple.attempt (fun s s' h hs => (h.deleteRow ht hs).toAppending) fun s s' h hs => h.deleteRow ht hs).andThen
      (Triple.step (fun s h => (h.pushDeleteInfo htotal).toAppending) fun s h => h.pushDeleteInfo htotal)

end DeleteOwn

section Stamp

/-- What an exception finds while the writes of `t` get their timestamp. -/
structure Stamping (t commitTS startTS : Nat) (start : Nat → Nat) (total : Nat) (T₀ : NodeTable α)
    (s : TransactionState α) : Prop where
  sound : s.table.SoundBut ∅
  same : T₀.SameFor {t, commitTS} s.table
  unwinds : Unwinds {t, commitTS} start total s.table s.undoBuffer
  records : ∀ record ∈ s.undoBuffer, record.Good {t, commitTS} t startTS s.table
  updates : ∀ {P : Nat → Nat → Prop}, (∀ v, P t v → P t commitTS) → T₀.Updates P → s.table.Updates P
  ordered : s.table.Ordered

theorem Whole.stamping (commitTS : Nat) (h : Whole t startTS start total T₀ s)
    (hnew : ∀ {idx row : Nat} {c : Cell α}, T₀.cell idx row = some c → c.insertion ≠ commitTS) :
    Stamping t commitTS startTS start total T₀ s := by
  refine ⟨h.sound, h.same.mono (by simp), { h.unwinds with rows := fun {idx row c} hc => ?_ },
    fun record hmem => (h.records record hmem).mono fun _ _ hh => hh.mono (by simp), fun _ => h.updates,
    h.ordered⟩
  rw [← h.unwinds.rows hc]
  refine ⟨fun hm => by_contra fun hct => ?_, fun hm => .inl hm⟩
  obtain ⟨c₀, hc₀, he⟩ := cellAt_of_view_eq (h.same.view idx).symm hc hct
  exact hnew hc₀ ((Cell.of_without_eq he hct).1.trans (hm.resolve_left hct))

theorem commitUndoBuffer_stamping (hts : commitTS ≠ invalidTransaction) (ht : t ≠ invalidTransaction)
    (hpos : 0 < commitTS) (htpos : 0 < t)
    (hupd : T₀.Updates fun creator version => creator = t → version ∈ ({t, commitTS} : Set Nat)) :
    Triple (Stamping t commitTS startTS start total T₀) (commitUndoBuffer commitTS)
      (Stamping t commitTS startTS start total T₀) (Stamping t commitTS startTS start total T₀) := by
  refine commitUndoBuffer_rule fun s record hmem h => ?_
  have hspec := fun P => commitRecord_spec (P := P) commitTS h.sound (h.records record hmem) h.unwinds hmem (by simp)
    (by simp; omega) (by simp [ht.symm, hts.symm]) (h.updates (fun _ _ _ => by simp) hupd)
  obtain ⟨⟨hsound, hsame, hp⟩, -, hholds⟩ := hspec fun _ _ => True
  exact ⟨hsound, h.same.trans hsame, h.unwinds.inPlace hp fun v hv w hw => iff_of_true hv hw,
    fun r hr => (h.records r hr).mono hholds, fun hP hT => (hspec _).2.1 hP (h.updates hP hT), h.ordered.inPlace hp⟩

end Stamp

end TransactionState

end Rag3db.Storage
