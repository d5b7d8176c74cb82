import Rag3db.Storage.TableViews

open List

namespace Rag3db.Storage

open UndoRecord NodeTable NodeGroup NodeGroup.Chains

variable {α : Type} {V X own : Set Nat} {T T' T₁ : NodeTable α} {U : List UndoRecord} {record : UndoRecord}
  {start : Nat → Nat} {total t startTS commitTS idx row : Nat} {P : Nat → Nat → Prop}

/-- Insertions to a group, the last one first, with which it has grown from
`start` to `last` rows. -/
def Stacked (start : Nat) : List (Nat × Nat) → Nat → Prop
  | [], last => last = start
  | (s, n) :: inserts, last => s ≤ last ∧ last ≤ s + n ∧ Stacked start inserts s

theorem Stacked.start_le {start last : Nat} {inserts : List (Nat × Nat)} (h : Stacked start inserts last) :
    start ≤ last ∧ ∀ insert ∈ inserts, start ≤ insert.1 := by
  induction inserts generalizing last with
  | nil => exact ⟨h.ge, by simp⟩
  | cons insert inserts ih =>
    obtain ⟨hle, hall⟩ := ih h.2.2
    refine ⟨hle.trans h.1, fun i hi => ?_⟩
    rcases mem_cons.mp hi with rfl | hi
    · exact hle
    · exact hall i hi

def UndoRecord.numInserted : UndoRecord → Nat
  | insertInfo _ _ numRows => numRows
  | _ => 0

def numInserted (U : List UndoRecord) : Nat := (U.map UndoRecord.numInserted).sum

def UndoRecord.insertGroup : UndoRecord → Option Nat
  | insertInfo idx _ _ => some idx
  | _ => none

def lastInsert (U : List UndoRecord) : Option Nat := U.reverse.findSome? insertGroup

theorem lastInsert_append {U : List UndoRecord} {record : UndoRecord} :
    lastInsert (U ++ [record]) = record.insertGroup.or (lastInsert U) := by
  unfold lastInsert
  rw [reverse_append, reverse_singleton, singleton_append, findSome?_cons]
  cases record.insertGroup <;> rfl

/-- The rows of `V` are those behind `start`, and the insertions that are
recorded lead back there. -/
structure Unwinds (V : Set Nat) (start : Nat → Nat) (total : Nat) (T : NodeTable α) (U : List UndoRecord) : Prop where
  ends : ∀ idx, Stacked (start idx) (insertsOf idx U).reverse (endOf (T.group idx).chunkedGroups)
  rows : ∀ {idx row : Nat} {c : Cell α}, T.cell idx row = some c → (c.insertion ∈ V ↔ start idx ≤ row)
  laid : ∀ idx, lastInsert U ≠ some idx → endOf (T.group idx).chunkedGroups = (T.group idx).numRows
  disk : ∀ idx, diskEnd (T.group idx).chunkedGroups ≤ start idx
  emptied : ∀ idx, start idx = 0 → (T.group idx).previousGenerations = []
  capacity : ∀ idx, (T.group idx).capacity = nodeGroupSize
  numTotal : T.numTotalRows = total + numInserted U
  counted : ∀ idx, 0 < start idx → idx * nodeGroupSize + start idx ≤ total
  spaced : lastInsert U ≠ none ∨ ∀ idx < T.nodeGroups.length, idx * nodeGroupSize ≤ total

namespace Unwinds

theorem start_le (h : Unwinds V start total T U) {s n : Nat} (hmem : .insertInfo idx s n ∈ U) : start idx ≤ s :=
  (h.ends idx).start_le.2 (s, n) (mem_reverse.mpr (mem_insertsOf hmem))

theorem inPlace (h : Unwinds V start total T U) (hp : T.InPlace X T')
    (hX : ∀ v ∈ X, ∀ w ∈ X, (v ∈ V ↔ w ∈ V)) : Unwinds V start total T' U where
  ends idx := by
    rw [← (hp.rows idx).blocks.endOf]
    exact h.ends idx
  rows hc' := by
    obtain ⟨c, hc, hins⟩ := hp.insertion hc'
    rw [← h.rows hc]
    rcases hins with he | ⟨hv, hw⟩
    · rw [he]
    · exact hX _ hv _ hw
  laid idx hlast := by
    rw [← (hp.rows idx).blocks.endOf, (hp.rows idx).numRows]
    exact h.laid idx hlast
  disk idx := by
    rw [(hp.rows idx).diskEnd]
    exact h.disk idx
  emptied idx hz := by
    rw [(hp.rows idx).generations]
    exact h.emptied idx hz
  capacity idx := by
    obtain ⟨bs, hbs⟩ := (hp.rows idx).frame
    rw [hbs]
    exact h.capacity idx
  numTotal := hp.total.trans h.numTotal
  counted := h.counted
  spaced := h.spaced.imp_right fun hs idx hi => hs idx (hp.length ▸ hi)

theorem insertsOf_of_none (h : record.insertGroup = none) : insertsOf idx [record] = [] := by
  cases record with
  | insertInfo => simp [insertGroup] at h
  | deleteInfo | updateInfo => rfl

theorem numInserted_append : numInserted (U ++ [record]) = numInserted U + record.numInserted := by
  simp [numInserted]

theorem numInserted_of_none (h : record.insertGroup = none) : record.numInserted = 0 := by
  cases record with
  | insertInfo => simp [insertGroup] at h
  | deleteInfo | updateInfo => rfl

theorem append_iff (hr : record.insertGroup = none) :
    Unwinds V start total T (U ++ [record]) ↔ Unwinds V start total T U := by
  have hins : ∀ idx, insertsOf idx (U ++ [record]) = insertsOf idx U := fun idx => by
    rw [insertsOf_append, insertsOf_of_none hr, append_nil]
  have hlast : lastInsert (U ++ [record]) = lastInsert U := by rw [lastInsert_append, hr, Option.none_or]
  have hnum : numInserted (U ++ [record]) = numInserted U := by
    rw [numInserted_append, numInserted_of_none hr, Nat.add_zero]
  constructor
  · exact fun h => ⟨fun idx => hins idx ▸ h.ends idx, h.rows, fun idx hl => h.laid idx (hlast ▸ hl), h.disk,
      h.emptied, h.capacity, hnum ▸ h.numTotal, h.counted, hlast ▸ h.spaced⟩
  · exact fun h => ⟨fun idx => (hins idx).symm ▸ h.ends idx, h.rows,
      fun idx hl => h.laid idx (hlast ▸ hl), h.disk, h.emptied, h.capacity, hnum.symm ▸ h.numTotal,
      h.counted, hlast.symm ▸ h.spaced⟩

theorem of_no_inserts (h : Unwinds V start total T [])
    (hU : ∀ record ∈ U, record.insertGroup = none) : Unwinds V start total T U := by
  induction U using List.reverseRecOn with
  | nil => exact h
  | append_singleton U record ih =>
    exact (Unwinds.append_iff (hU record (by simp))).mpr (ih fun r hr => hU r (mem_append_left _ hr))

end Unwinds

section Commit

theorem commitRecord_spec (commitTS : Nat) (h : T.SoundBut ∅) (hrec : record.Good own t startTS T)
    (hw : Unwinds own start total T U) (hmem : record ∈ U) (hts : commitTS ∈ own)
    (hzero : 0 ∉ own) (hinvalid : invalidTransaction ∉ own)
    (hupd : T.Updates fun creator version => creator = t → version ∈ own) :
    ((record.commitRecord commitTS T).SoundBut ∅ ∧ T.SameFor own (record.commitRecord commitTS T) ∧
        T.InPlace own (record.commitRecord commitTS T)) ∧
      ((∀ v, P t v → P t commitTS) → T.Updates P → (record.commitRecord commitTS T).Updates P) ∧
      ∀ idx row, T.Holds own startTS idx row → (record.commitRecord commitTS T).Holds own startTS idx row := by
  have hne : commitTS ≠ invalidTransaction := fun he => hinvalid (he ▸ hts)
  have hmarked : ∀ {idx row}, T.Holds own startTS idx row → (T.group idx).Marked own row := fun hh =>
    hh.marked (h _).laid.layout hzero hinvalid
  -- a change in place of one group keeps what is recorded, if it keeps the marks
  have hholds : ∀ {idx : Nat} {f : NodeGroup α → NodeGroup α}, T.InPlace own (T.modifyNodeGroup idx f) →
      (T.modifyNodeGroup idx f).SoundBut ∅ →
      (∀ row, (T.group idx).Marked own row → (f (T.group idx)).Marked own row) →
      ∀ j row, T.Holds own startTS j row → (T.modifyNodeGroup idx f).Holds own startTS j row := by
    intro idx f hp hsound hmark j row hh
    refine hh.of_inPlace hp (hsound j).laid.layout ?_
    rcases group_modify_cases T idx f j with he | ⟨rfl, he⟩
    · exact he ▸ hmarked hh
    · exact he ▸ hmark row (hmarked hh)
  cases record with
  | insertInfo g s n =>
    have hstart := hw.start_le hmem
    obtain ⟨hsound, hview, hcell, hmark⟩ := (h g).commitInsert hts hne ((hw.disk g).trans hstart)
      fun row c hrow hc => (hw.rows hc).mpr (hstart.trans hrow)
    have hedit := modify_inPlace g (·.applyFuncToChunkedGroups (·.commitInsert commitTS) s n) h ⟨hsound,
      applyFuncToChunkedGroups_sameRows fun _ _ _ => rfl, hview, fun row c' hc' => by
        obtain ⟨c, hc, hins⟩ := hcell row c' hc'
        exact ⟨c, hc, hins.imp_right (And.imp_left fun hx => by rw [hx]; exact hts)⟩⟩
    exact ⟨hedit, fun _ hP => modify_updates hP (applyFuncToChunkedGroups
      (f := (·.commitInsert commitTS)) (hP g) (h g).laid (fun _ _ _ => rfl) fun _ _ _ _ _ => rfl),
      hholds hedit.2.2 hedit.1 hmark⟩
  | deleteInfo g row n =>
    obtain ⟨rfl, hold⟩ := hrec
    obtain ⟨hsound, hview, hcell, hmark, -⟩ := (h g).commitDelete hts (hmarked hold)
    have hedit := modify_inPlace (X := own) g (·.applyFuncToChunkedGroups (·.commitDelete commitTS) row 1) h ⟨hsound,
      applyFuncToChunkedGroups_sameRows fun _ _ _ => rfl, hview, fun row c' hc' => by
        obtain ⟨c, hc, he⟩ := cellAt_of_map_eq (hcell row) hc'
        exact ⟨c, hc, .inl he⟩⟩
    exact ⟨hedit, fun _ hP => modify_updates hP (applyFuncToChunkedGroups
      (f := (·.commitDelete commitTS)) (hP g) (h g).laid (fun _ _ _ => rfl) fun _ _ _ _ _ => rfl),
      hholds hedit.2.2 hedit.1 hmark⟩
  | updateInfo g idx column v version =>
    obtain rfl := hrec
    obtain ⟨hsound, hrows, hview, hcell, hmark, hchains⟩ := modifyUpdateInfo_spec idx column v
      (fun chain => chain.map fun u => if u.creator = version then { u with version := commitTS } else u)
      (h g) fun b hb => ChunkedNodeGroup.filter_commit hts fun u hu => hupd g hb column v u hu
    have hedit := modify_inPlace (X := own) g
      (·.modifyUpdateInfo idx column (·.commit v version commitTS)) h ⟨hsound, hrows, hview, fun row c' hc' => by
          obtain ⟨c, hc, he⟩ := cellAt_of_map_eq (hcell row) hc'
          exact ⟨c, hc, .inl (congrArg Row.insertion he)⟩⟩
    refine ⟨hedit, fun hstamp hP => modify_updates hP (hchains _ (hP g) fun b hb u hu => ?_),
      hholds hedit.2.2 hedit.1 hmark⟩
    obtain ⟨w, hw, rfl⟩ := mem_map.mp hu
    have hold : P w.creator w.version := hP g hb column v w hw
    split_ifs with hc
    · rw [hc] at hold
      rw [hc]
      exact hstamp _ hold
    · exact hold

end Commit

section Rollback

theorem NodeGroup.soundBut_empty : ({} : NodeGroup α).SoundBut V :=
  ⟨WellLaid.nil, fun hb => by simp at hb, fun hb => by simp at hb, fun _ => rfl⟩

theorem NodeTable.rollbackInsert_group (h : T.SoundBut V) (hlaid : ∀ idx,
    endOf (T.group idx).chunkedGroups = (T.group idx).numRows) (n idx : Nat) :
    (T.rollbackInsert n).group idx = T.group idx ∨ (T.rollbackInsert n).group idx = {} ∧
      endOf (T.group idx).chunkedGroups = 0 ∧ (T.group idx).numRows = 0 ∧
      (T.group idx).previousGenerations = [] ∧ ∀ row, cellAt (T.group idx).chunkedGroups row = none := by
  refine Or.imp_right ?_ (group_rollbackInsert)
  rintro ⟨he, hz⟩
  have hend := (hlaid idx).trans hz
  refine ⟨he, hend, hz, (h idx).emptied hz, fun row => ?_⟩
  cases hc : cellAt (T.group idx).chunkedGroups row with
  | none => rfl
  | some c =>
    have := row_lt_endOf (h idx).laid.layout hc
    omega

def UndoRecord.Undoable (V : Set Nat) (t : Nat) (T : NodeTable α) : UndoRecord → Prop
  | insertInfo _ _ _ => True
  | deleteInfo idx row numRows => numRows = 1 ∧ (T.group idx).Marked V row
  | updateInfo _ _ _ _ version => version = t

theorem UndoRecord.Undoable.mono (h : record.Undoable V t T)
    (hmark : ∀ idx row, (T.group idx).Marked V row → (T'.group idx).Marked V row) : record.Undoable V t T' := by
  cases record with
  | insertInfo => trivial
  | deleteInfo idx row numRows => exact ⟨h.1, hmark idx row h.2⟩
  | updateInfo => exact h

/-- A rollback that has still to undo the records `U`. -/
structure Restoring (V : Set Nat) (t : Nat) (T₁ T : NodeTable α) (U : List UndoRecord) : Prop where
  sound : T.SoundBut V
  same : T₁.SameFor V T
  records : ∀ record ∈ U, record.Undoable V t T
  updates : ∀ {P}, T₁.Updates P → T.Updates P
  deletions : ∀ idx, Redeletes V {invalidTransaction} (T₁.group idx).chunkedGroups (T.group idx).chunkedGroups

/-- It leads back to where the insertions started. -/
structure Undoing (V : Set Nat) (t : Nat) (start : Nat → Nat) (total : Nat) (T₁ T : NodeTable α)
    (U : List UndoRecord) : Prop extends Restoring V t T₁ T U where
  unwinds : Unwinds V start total T U

namespace Restoring

theorem modify {f : NodeGroup α → NodeGroup α} (h : Restoring V t T₁ T (U ++ [record]))
    (hf : (f (T.group idx)).SoundBut V ∧ (T.group idx).SameRows (f (T.group idx)) ∧
      view V (f (T.group idx)).chunkedGroups = view V (T.group idx).chunkedGroups ∧
      ∀ row c', cellAt (f (T.group idx)).chunkedGroups row = some c' →
        ∃ c, cellAt (T.group idx).chunkedGroups row = some c ∧
          (c'.insertion = c.insertion ∨ c'.insertion ∈ (∅ : Set Nat) ∧ c.insertion ∈ (∅ : Set Nat)))
    (hmark : ∀ row, (T.group idx).Marked V row → (f (T.group idx)).Marked V row)
    (hchains : ∀ {P : Nat → Nat → Prop}, (T.group idx).Chains (fun u => P u.creator u.version) →
      (f (T.group idx)).Chains fun u => P u.creator u.version)
    (hdel : Redeletes V {invalidTransaction} (T.group idx).chunkedGroups (f (T.group idx)).chunkedGroups) :
    Restoring V t T₁ (T.modifyNodeGroup idx f) U ∧ T.InPlace ∅ (T.modifyNodeGroup idx f) := by
  obtain ⟨hsound, hsame, hp⟩ := modify_inPlace idx f h.sound hf
  refine ⟨⟨hsound, h.same.trans hsame, fun r hmem => ?_, fun hP => modify_updates (h.updates hP)
    (hchains (h.updates hP idx)), fun j => (h.deletions j).trans (hsame.view j) ?_⟩, hp⟩
  · refine (h.records r (mem_append_left _ hmem)).mono fun j row hm => ?_
    rcases group_modify_cases T idx f j with he | ⟨rfl, he⟩
    · exact he ▸ hm
    · exact he ▸ hmark row hm
  · rcases group_modify_cases T idx f j with he | ⟨rfl, he⟩
    · exact he ▸ .refl
    · exact he ▸ hdel

theorem deleteInfo {n : Nat} (h : Restoring V t T₁ T (U ++ [.deleteInfo idx row n]))
    (hinvalid : invalidTransaction ∈ V) :
    Restoring V t T₁ (rollbackRecord (.deleteInfo idx row n) T) U ∧
      T.InPlace ∅ (rollbackRecord (.deleteInfo idx row n) T) := by
  obtain ⟨rfl, hmark⟩ := h.records (.deleteInfo idx row n) (by simp)
  obtain ⟨hsound, hview, hcell, hmarks, hdel⟩ := (h.sound idx).rollbackDelete hinvalid hmark
  refine h.modify ⟨hsound, applyFuncToChunkedGroups_sameRows fun _ _ _ => rfl, hview,
    fun row c' hc' => ?_⟩ hmarks (fun hP => ?_) hdel
  · obtain ⟨c, hc, he⟩ := cellAt_of_map_eq (hcell row) hc'
    exact ⟨c, hc, .inl he⟩
  · exact applyFuncToChunkedGroups (f := (·.rollbackDelete)) hP (h.sound idx).laid
      (fun _ _ _ => rfl) fun _ _ _ _ _ => rfl

theorem updateInfo {j column v version : Nat} (ht : t ∈ V)
    (h : Restoring V t T₁ T (U ++ [.updateInfo idx j column v version])) :
    Restoring V t T₁ (rollbackRecord (.updateInfo idx j column v version) T) U ∧
      T.InPlace ∅ (rollbackRecord (.updateInfo idx j column v version) T) := by
  obtain rfl : version = t := h.records (.updateInfo idx j column v version) (by simp)
  obtain ⟨hsound, hrows, hview, hcell, hmark, hchains⟩ := modifyUpdateInfo_spec j column v
    (fun chain => chain.eraseP (·.version = version)) (h.sound idx)
    fun b hb => ChunkedNodeGroup.filter_rollback ht
  refine h.modify ⟨hsound, hrows, hview, fun row c' hc' => ?_⟩ hmark (fun hP => ?_) fun row c c' hc hc' _ => ?_
  · obtain ⟨c, hc, he⟩ := cellAt_of_map_eq (hcell row) hc'
    exact ⟨c, hc, .inl (congrArg Row.insertion he)⟩
  · exact hchains _ hP fun b hb u hu => hP hb column v u (mem_of_mem_eraseP hu)
  · obtain ⟨c₀, hc₀, he⟩ := cellAt_of_map_eq (hcell row) hc'
    cases hc.symm.trans hc₀
    exact .inl (congrArg Row.deletion he)

theorem rollback (h : Restoring V t T₁ T U) (ht : t ∈ V) (hinvalid : invalidTransaction ∈ V)
    (hU : ∀ record ∈ U, record.insertGroup = none) :
    Restoring V t T₁ (U.foldr (fun record table => record.rollbackRecord table) T) [] ∧
      T.InPlace ∅ (U.foldr (fun record table => record.rollbackRecord table) T) := by
  induction U using List.reverseRecOn generalizing T with
  | nil => exact ⟨h, NodeTable.InPlace.refl⟩
  | append_singleton U record ih =>
    rw [foldr_append]
    have hstep : Restoring V t T₁ (record.rollbackRecord T) U ∧ T.InPlace ∅ (record.rollbackRecord T) := by
      cases record with
      | insertInfo g start n => exact absurd (hU (.insertInfo g start n) (by simp)) (by simp [insertGroup])
      | deleteInfo => exact h.deleteInfo hinvalid
      | updateInfo => exact h.updateInfo ht
    obtain ⟨hrest, hp⟩ := ih hstep.1 fun r hr => hU r (mem_append_left _ hr)
    exact ⟨hrest, hstep.2.trans hp⟩

end Restoring

namespace Undoing

theorem deleteInfo {n : Nat} (h : Undoing V t start total T₁ T (U ++ [.deleteInfo idx row n]))
    (hinvalid : invalidTransaction ∈ V) :
    Undoing V t start total T₁ (rollbackRecord (.deleteInfo idx row n) T) U := by
  obtain ⟨hrest, hp⟩ := h.toRestoring.deleteInfo hinvalid
  exact ⟨hrest, ((Unwinds.append_iff rfl).mp h.unwinds).inPlace hp (by simp)⟩

theorem updateInfo {j column v version : Nat} (ht : t ∈ V)
    (h : Undoing V t start total T₁ T (U ++ [.updateInfo idx j column v version])) :
    Undoing V t start total T₁ (rollbackRecord (.updateInfo idx j column v version) T) U := by
  obtain ⟨hrest, hp⟩ := h.toRestoring.updateInfo ht
  exact ⟨hrest, ((Unwinds.append_iff rfl).mp h.unwinds).inPlace hp (by simp)⟩

section Insert

variable {s n : Nat}

theorem rollbackRange_none : ({} : NodeGroup α).rollbackRange 0 n = {} := rfl

theorem group_rollbackRange (h : Unwinds V start total T (U ++ [.insertInfo idx s n])) (j : Nat) :
    (T.modifyNodeGroup idx (·.rollbackRange s n)).group j =
      if j = idx then (T.group idx).rollbackRange s n else T.group j := by
  rw [group_modifyNodeGroup]
  by_cases hj : j = idx
  · subst hj
    rcases Nat.lt_or_ge j T.nodeGroups.length with hlt | hge
    · simp [hlt]
    · have hnone : T.group j = {} := by simp [group, hge]
      have hends := h.ends j
      rw [insertsOf_insertInfo, reverse_append, hnone] at hends
      obtain rfl : s = 0 := Nat.le_zero.mp hends.1
      simp [hnone, rollbackRange_none]
  · simp [hj]

theorem rollbackRange_spec (h : Undoing V t start total T₁ T (U ++ [.insertInfo idx s n]))
    (hinvalid : invalidTransaction ∈ V) (hzero : 0 ∉ V) :
    ((T.group idx).rollbackRange s n).SoundBut V ∧
      view V ((T.group idx).rollbackRange s n).chunkedGroups = view V (T.group idx).chunkedGroups ∧
      endOf ((T.group idx).rollbackRange s n).chunkedGroups = s ∧
      diskEnd ((T.group idx).rollbackRange s n).chunkedGroups ≤ diskEnd (T.group idx).chunkedGroups ∧
      (∀ row, (T.group idx).Marked V row → ((T.group idx).rollbackRange s n).Marked V row) ∧
      (∀ P, (T.group idx).Chains P → ((T.group idx).rollbackRange s n).Chains P) ∧
      Redeletes V {invalidTransaction} (T.group idx).chunkedGroups ((T.group idx).rollbackRange s n).chunkedGroups ∧
      ∀ row c, cellAt ((T.group idx).rollbackRange s n).chunkedGroups row = some c →
        ∃ c₀, cellAt (T.group idx).chunkedGroups row = some c₀ ∧ c.without V = c₀.without V := by
  have hstart : start idx ≤ s := h.unwinds.start_le (n := n) (by simp)
  have hends := h.unwinds.ends idx
  rw [insertsOf_insertInfo, reverse_append] at hends
  exact (h.sound idx).rollbackRange hinvalid hzero ((h.unwinds.disk idx).trans hstart) hends.1 hends.2.1
    (fun row c hrow hc => (h.unwinds.rows hc).mpr (hstart.trans hrow))
    fun hs => h.unwinds.emptied idx (Nat.le_zero.mp (hs ▸ hstart))

theorem frame_rollbackRange (g : NodeGroup α) : (g.rollbackRange s n).numRows = s ∧
    (g.rollbackRange s n).previousGenerations = g.previousGenerations ∧
    (g.rollbackRange s n).capacity = g.capacity := by
  obtain ⟨bs, hbs⟩ := applyFuncToChunkedGroups_frame (g := g) ChunkedNodeGroup.rollbackInsert s n
  simp [NodeGroup.rollbackRange, NodeGroup.rollbackInsert, hbs]

theorem insertInfo_group (h : Undoing V t start total T₁ T (U ++ [.insertInfo idx s n]))
    (hinvalid : invalidTransaction ∈ V) (hzero : 0 ∉ V) :
    let T₂ := T.modifyNodeGroup idx (·.rollbackRange s n)
    T₂.SoundBut V ∧ T.SameFor V T₂ ∧ (∀ j, endOf (T₂.group j).chunkedGroups = (T₂.group j).numRows) ∧
      (∀ j, Stacked (start j) (insertsOf j U).reverse (endOf (T₂.group j).chunkedGroups)) ∧
      (∀ j, diskEnd (T₂.group j).chunkedGroups ≤ start j) ∧ (∀ j, (T₂.group j).capacity = nodeGroupSize) ∧
      (∀ j row, (T.group j).Marked V row → (T₂.group j).Marked V row) ∧
      (∀ {P}, T.Updates P → T₂.Updates P) ∧
      (∀ j, Redeletes V {invalidTransaction} (T.group j).chunkedGroups (T₂.group j).chunkedGroups) ∧
      ∀ j row c, T₂.cell j row = some c → ∃ c₀, T.cell j row = some c₀ ∧ c.without V = c₀.without V := by
  intro T₂
  obtain ⟨hsound, hview, hend, hdisk, hmark, hchains, hdel, hcell⟩ := h.rollbackRange_spec hinvalid hzero
  obtain ⟨hrows, hgens, hcap⟩ := frame_rollbackRange (s := s) (n := n) (T.group idx)
  have hgroup : ∀ j, T₂.group j = _ := group_rollbackRange h.unwinds
  have hlast : lastInsert (U ++ [.insertInfo idx s n]) = some idx := by rw [lastInsert_append]; rfl
  have hcases : ∀ j, j = idx ∧ T₂.group j = (T.group idx).rollbackRange s n ∨
      j ≠ idx ∧ T₂.group j = T.group j := fun j => by
    by_cases hj : j = idx
    · exact .inl ⟨hj, (hgroup j).trans (if_pos hj)⟩
    · exact .inr ⟨hj, (hgroup j).trans (if_neg hj)⟩
  refine ⟨fun j => ?_, ⟨fun j => ?_, fun j => ?_⟩, fun j => ?_, fun j => ?_, fun j => ?_, fun j => ?_,
    fun j row hm => ?_, fun hP j => ?_, fun j => ?_, fun j row c hc => ?_⟩
  case refine_11 =>
    unfold cell at hc ⊢
    rcases hcases j with ⟨rfl, he⟩ | ⟨hj, he⟩ <;> rw [he] at hc
    · exact hcell row c hc
    · exact ⟨c, hc, rfl⟩
  all_goals rcases hcases j with ⟨rfl, he⟩ | ⟨hj, he⟩ <;> rw [he]
  · exact hsound
  · exact h.sound j
  · exact hview
  · exact hgens
  · rw [hend, hrows]
  · exact h.unwinds.laid j (by rw [hlast]; simpa using Ne.symm hj)
  · have hends := h.unwinds.ends j
    rw [insertsOf_insertInfo, reverse_append] at hends
    rw [hend]
    exact hends.2.2
  · have hends := h.unwinds.ends j
    rwa [insertsOf_append, insertsOf_singleton_of_ne (Ne.symm hj), append_nil] at hends
  · exact hdisk.trans (h.unwinds.disk j)
  · exact h.unwinds.disk j
  · exact hcap.trans (h.unwinds.capacity j)
  · exact h.unwinds.capacity j
  · exact hmark row hm
  · exact hm
  · exact hchains _ (hP j)
  · exact hP j
  · exact hdel
  · exact .refl

theorem insertsOf_eq_nil (h : lastInsert U = none) (idx : Nat) : insertsOf idx U = [] := by
  unfold lastInsert at h
  rw [findSome?_eq_none_iff] at h
  unfold insertsOf
  rw [filterMap_eq_nil_iff]
  intro record hmem
  have hrec := h record (mem_reverse.mpr hmem)
  cases record with
  | insertInfo => simp [insertGroup] at hrec
  | deleteInfo | updateInfo => rfl

theorem spaced_rollbackInsert (hlaid : ∀ j, endOf (T.group j).chunkedGroups = (T.group j).numRows)
    (hends : ∀ j, endOf (T.group j).chunkedGroups = start j)
    (hcount : ∀ j, 0 < start j → j * nodeGroupSize + start j ≤ total) :
    ∀ j < (T.rollbackInsert n).nodeGroups.length, j * nodeGroupSize ≤ total := by
  intro j hj
  have hne : (T.rollbackInsert n).nodeGroups ≠ [] := length_pos_iff.mp (Nat.zero_lt_of_lt hj)
  have hlast := rdropWhile_last_not (fun g : NodeGroup α => g.isEmpty) T.nodeGroups hne
  obtain ⟨l, hl⟩ : ∃ l, l + 1 = (T.rollbackInsert n).nodeGroups.length :=
    ⟨_, Nat.sub_add_cancel (Nat.zero_lt_of_lt hj)⟩
  have hget : (T.rollbackInsert n).nodeGroups[l]? = some ((T.rollbackInsert n).nodeGroups.getLast hne) := by
    rw [← getLast?_eq_some_getLast hne, getLast?_eq_getElem?, ← hl, Nat.add_sub_cancel]
  have hgroup : T.group l = (T.rollbackInsert n).nodeGroups.getLast hne :=
    group_of_getElem? (getElem?_of_rdropWhile hget)
  have hpos : 0 < (T.group l).numRows := by
    rw [hgroup]
    exact Nat.pos_of_ne_zero fun hz => hlast (decide_eq_true hz)
  have hc := hcount l (by rw [← hends l, hlaid l]; exact hpos)
  have hle : j * nodeGroupSize ≤ l * nodeGroupSize := Nat.mul_le_mul_right _ (by omega)
  omega

theorem insertInfo (h : Undoing V t start total T₁ T (U ++ [.insertInfo idx s n]))
    (hinvalid : invalidTransaction ∈ V) (hzero : 0 ∉ V) :
    Undoing V t start total T₁ (rollbackRecord (.insertInfo idx s n) T) U := by
  obtain ⟨hsound, hsame, hlaid, hends, hdisk, hcap, hmark, hupd, hdel, hcell⟩ :=
    h.insertInfo_group hinvalid hzero
  show Undoing V t start total T₁ ((T.modifyNodeGroup idx (·.rollbackRange s n)).rollbackInsert n) U
  have htotal : (T.modifyNodeGroup idx (·.rollbackRange s n)).numTotalRows = T.numTotalRows := rfl
  generalize T.modifyNodeGroup idx (·.rollbackRange s n) = T₂ at *
  have hgroup := rollbackInsert_group hsound hlaid n
  refine ⟨⟨fun j => ?_, h.same.trans (hsame.trans ⟨fun j => ?_, fun j => ?_⟩),
    fun record hmem => (h.records record (mem_append_left _ hmem)).mono fun j row hm => ?_,
    fun hP j => ?_, fun j => ?_⟩,
    ⟨fun j => ?_, fun {j row c} hc => ?_, fun j _ => ?_, fun j => ?_, fun j hz => ?_, fun j => ?_, ?_,
      h.unwinds.counted, ?_⟩⟩
  · rcases hgroup j with he | ⟨he, -⟩
    · exact he ▸ hsound j
    · exact he ▸ soundBut_empty
  · rcases hgroup j with he | ⟨he, -, -, -, hnone⟩
    · rw [he]
    · funext row
      rw [he, view, view, hnone]
      rfl
  · rcases hgroup j with he | ⟨he, -, -, hgens, -⟩
    · rw [he]
    · rw [he, hgens]
  · rcases hgroup j with he | ⟨he, -⟩
    · exact he ▸ hmark j row hm
    · rw [he]
      intro i b k hb
      simp at hb
  · rcases hgroup j with he | ⟨he, -⟩
    · exact he ▸ hupd (h.updates hP) j
    · rw [he]
      intro i b hb
      simp at hb
  · rcases hgroup j with he | ⟨he, -⟩
    · exact he ▸ (h.deletions j).trans (hsame.view j) (hdel j)
    · rw [he]
      intro row c c' _ hc'
      simp [cellAt] at hc'
  · rcases hgroup j with he | ⟨he, hend, -⟩
    · exact he ▸ hends j
    · have hs := hends j
      rw [hend] at hs
      exact he ▸ hs
  · have hc₂ : T₂.cell j row = some c := by
      unfold cell at hc ⊢
      rcases hgroup j with he | ⟨he, -⟩
      · exact he ▸ hc
      · rw [he] at hc
        exact absurd hc (by simp [cellAt])
    obtain ⟨c₀, hc₀, hw⟩ := hcell j row c hc₂
    rw [← h.unwinds.rows hc₀, ← Cell.without_isNone, ← Cell.without_isNone, hw]
  · rcases hgroup j with he | ⟨he, -⟩
    · exact he ▸ hlaid j
    · rw [he]
      rfl
  · rcases hgroup j with he | ⟨he, -⟩
    · exact he ▸ hdisk j
    · rw [he]
      exact Nat.zero_le _
  · rcases hgroup j with he | ⟨he, -⟩
    · rw [he, hsame.generations]
      exact h.unwinds.emptied j hz
    · rw [he]
  · rcases hgroup j with he | ⟨he, -⟩
    · exact he ▸ hcap j
    · rw [he]
  · have htot := h.unwinds.numTotal
    rw [Unwinds.numInserted_append] at htot
    show T₂.numTotalRows - n = total + numInserted U
    rw [htotal, htot, ← Nat.add_assoc]
    exact Nat.add_sub_cancel ..
  · cases hlast : lastInsert U with
    | some idx => exact .inl (by simp)
    | none =>
      refine .inr (spaced_rollbackInsert hlaid (fun j => ?_) h.unwinds.counted)
      have hs := hends j
      rwa [insertsOf_eq_nil hlast] at hs

theorem rollbackRecord (h : Undoing V t start total T₁ T (U ++ [record])) (ht : t ∈ V)
    (hinvalid : invalidTransaction ∈ V) (hzero : 0 ∉ V) :
    Undoing V t start total T₁ (record.rollbackRecord T) U := by
  cases record with
  | insertInfo => exact h.insertInfo hinvalid hzero
  | deleteInfo => exact h.deleteInfo hinvalid
  | updateInfo => exact h.updateInfo ht

theorem rollback (h : Undoing V t start total T₁ T U) (ht : t ∈ V) (hinvalid : invalidTransaction ∈ V) (hzero : 0 ∉ V) :
    Undoing V t start total T₁ (U.foldr (fun record table => record.rollbackRecord table) T) [] := by
  induction U using List.reverseRecOn generalizing T with
  | nil => exact h
  | append_singleton U record ih =>
    rw [foldr_append]
    exact ih (h.rollbackRecord ht hinvalid hzero)

theorem done (h : Undoing V t start total T₁ T []) : T.SoundBut ∅ ∧ Unwinds ∅ start total T [] ∧
      ∀ {idx row : Nat} {c : Cell α}, T.cell idx row = some c → c.insertion ∉ V := by
  have hlt : ∀ {idx row : Nat} {c : Cell α}, T.cell idx row = some c → row < start idx := fun {idx} row c hc => by
    have hs : endOf (T.group idx).chunkedGroups = start idx := h.unwinds.ends idx
    rw [← hs]
    exact row_lt_endOf (h.sound idx).laid.layout hc
  have hout : ∀ {idx row : Nat} {c : Cell α}, T.cell idx row = some c → c.insertion ∉ V := fun hc hm =>
    absurd ((h.unwinds.rows hc).mp hm) (Nat.not_le.mpr (hlt hc))
  exact ⟨h.sound.of_no_rows hout, { h.unwinds with
    rows := fun hc => iff_of_false (Set.notMem_empty _) (Nat.not_le.mpr (hlt hc)) }, hout⟩

end Insert

end Undoing

end Rollback

end Rag3db.Storage
