import Rag3db.Storage.GroupViews
import Rag3db.Storage.CommitSteps

namespace Rag3db.Storage

open NodeTable NodeGroup

variable {α : Type} {V W X : Set Nat} {T T' T'' : NodeTable α} {r : Snapshot} {idx j row offset column : Nat}

def NodeTable.isSelected (table : NodeTable α) (s : Snapshot) (offset : Nat) : Bool :=
  selectedIn ((table.group (offset / nodeGroupSize)).groupsFor s.startTS) s (offset % nodeGroupSize)

/-- Those who see none of the versions find the same in both tables. -/
structure NodeTable.SameFor (V : Set Nat) (T T' : NodeTable α) : Prop where
  view : ∀ idx, view V (T'.group idx).chunkedGroups = view V (T.group idx).chunkedGroups
  generations : ∀ idx, (T'.group idx).previousGenerations = (T.group idx).previousGenerations

namespace NodeTable.SameFor

theorem refl : SameFor V T T := ⟨fun _ => rfl, fun _ => rfl⟩

theorem trans (h : SameFor V T T') (h' : SameFor V T' T'') : SameFor V T T'' :=
  ⟨fun idx => (h'.view idx).trans (h.view idx), fun idx => (h'.generations idx).trans (h.generations idx)⟩

theorem mono (h : SameFor V T T') (hV : V ⊆ W) : SameFor W T T' :=
  ⟨fun idx => view_mono hV (h.view idx), h.generations⟩

theorem groupsFor (h : SameFor V T T') (idx s : Nat) : ((T'.group idx).groupsFor s = (T'.group idx).chunkedGroups ∧
      (T.group idx).groupsFor s = (T.group idx).chunkedGroups) ∨
      (T'.group idx).groupsFor s = (T.group idx).groupsFor s := by
  unfold NodeGroup.groupsFor
  rw [h.generations idx]
  cases (T.group idx).previousGenerations.find? (s < ·.checkpointTS) with
  | none => exact .inl ⟨rfl, rfl⟩
  | some generation => exact .inr rfl

variable (h : SameFor V T T') (hT : ∀ idx, Layout (T.group idx).chunkedGroups)
  (hT' : ∀ idx, Layout (T'.group idx).chunkedGroups) (hr : ∀ v ∈ V, r.sees v = false)

include h hT hT' hr

theorem lookup : T'.lookup r offset column = T.lookup r offset column := by
  rw [lookup_eq, lookup_eq]
  show lookupIn _ r _ column = lookupIn _ r _ column
  rcases h.groupsFor (offset / nodeGroupSize) r.startTS with ⟨he', he⟩ | he
  · rw [he', he, lookupIn_eq_view (hT' _) hr, lookupIn_eq_view (hT _) hr, h.view]
  · rw [he]

theorem isSelected : T'.isSelected r offset = T.isSelected r offset := by
  unfold NodeTable.isSelected
  rcases h.groupsFor (offset / nodeGroupSize) r.startTS with ⟨he', he⟩ | he
  · rw [he', he, selectedIn_eq_view (hT' _) hr, selectedIn_eq_view (hT _) hr, h.view]
  · rw [he]

end NodeTable.SameFor

namespace NodeTable

def SoundBut (V : Set Nat) (T : NodeTable α) : Prop := ∀ idx, (T.group idx).SoundBut V

def Updates (P : Nat → Nat → Prop) (T : NodeTable α) : Prop :=
  ∀ idx, (T.group idx).Chains fun u => P u.creator u.version

def cell (T : NodeTable α) (idx row : Nat) : Option (Cell α) := cellAt (T.group idx).chunkedGroups row

/-- A change that leaves every row where it is. The insertions of `X` may become
others of `X`. -/
structure InPlace (X : Set Nat) (T T' : NodeTable α) : Prop where
  rows : ∀ idx, (T.group idx).SameRows (T'.group idx)
  length : T'.nodeGroups.length = T.nodeGroups.length
  total : T'.numTotalRows = T.numTotalRows
  insertion : ∀ {idx row : Nat} {c' : Cell α}, T'.cell idx row = some c' → ∃ c, T.cell idx row = some c ∧
    (c'.insertion = c.insertion ∨ c'.insertion ∈ X ∧ c.insertion ∈ X)

theorem InPlace.refl : InPlace X T T := ⟨fun _ => .refl, rfl, rfl, fun hc => ⟨_, hc, .inl rfl⟩⟩

theorem InPlace.trans (h : InPlace ∅ T T') (h' : InPlace ∅ T' T'') : InPlace ∅ T T'' where
  rows idx := (h.rows idx).trans (h'.rows idx)
  length := h'.length.trans h.length
  total := h'.total.trans h.total
  insertion hc'' := by
    obtain ⟨c', hc', hins'⟩ := h'.insertion hc''
    obtain ⟨c, hc, hins⟩ := h.insertion hc'
    simp only [Set.mem_empty_iff_false, and_self, or_false] at hins hins'
    exact ⟨c, hc, .inl (hins'.trans hins)⟩

theorem SoundBut.of_no_rows (h : T.SoundBut V)
    (hout : ∀ {idx row : Nat} {c : Cell α}, T.cell idx row = some c → c.insertion ∉ V) : T.SoundBut ∅ := by
  intro idx
  have hsound := h idx
  refine ⟨hsound.laid, fun {i b} hb => ?_, hsound.rooted, hsound.emptied⟩
  have hblock := hsound.blocks hb
  refine { hblock with versioned := fun k hk _ => hblock.versioned k hk ?_ }
  exact hout (cellAt_of_mem hsound.laid.layout hb hk)

variable {f : NodeGroup α → NodeGroup α}

theorem group_modify_of_ne (h : j ≠ idx) : (T.modifyNodeGroup idx f).group j = T.group j := by
  rw [group_modifyNodeGroup, if_neg fun hc => h hc.1]

theorem group_modify_cases (T : NodeTable α) (idx : Nat) (f : NodeGroup α → NodeGroup α) (j : Nat) :
    (T.modifyNodeGroup idx f).group j = T.group j ∨ j = idx ∧ (T.modifyNodeGroup idx f).group j = f (T.group idx) := by
  rw [group_modifyNodeGroup]
  split_ifs with h
  · exact .inr ⟨h.1, rfl⟩
  · exact .inl rfl

theorem modify_inPlace (idx : Nat) (f : NodeGroup α → NodeGroup α) (hsound : T.SoundBut W)
    (hf : (f (T.group idx)).SoundBut W ∧ (T.group idx).SameRows (f (T.group idx)) ∧
      Storage.view V (f (T.group idx)).chunkedGroups = Storage.view V (T.group idx).chunkedGroups ∧
      ∀ row c', cellAt (f (T.group idx)).chunkedGroups row = some c' →
        ∃ c, cellAt (T.group idx).chunkedGroups row = some c ∧
          (c'.insertion = c.insertion ∨ c'.insertion ∈ X ∧ c.insertion ∈ X)) :
    (T.modifyNodeGroup idx f).SoundBut W ∧ SameFor V T (T.modifyNodeGroup idx f) ∧
      InPlace X T (T.modifyNodeGroup idx f) := by
  obtain ⟨hsound', hrows, hview, hins⟩ := hf
  refine ⟨fun j => ?_, ⟨fun j => ?_, fun j => ?_⟩, ⟨fun j => ?_, ?_, rfl, fun {j row c'} hc => ?_⟩⟩
  · rcases group_modify_cases T idx f j with he | ⟨rfl, he⟩
    · exact he ▸ hsound j
    · exact he ▸ hsound'
  · rcases group_modify_cases T idx f j with he | ⟨rfl, he⟩
    · rw [he]
    · rw [he, hview]
  · rcases group_modify_cases T idx f j with he | ⟨rfl, he⟩
    · rw [he]
    · rw [he, hrows.generations]
  · rcases group_modify_cases T idx f j with he | ⟨rfl, he⟩
    · exact he ▸ NodeGroup.SameRows.refl
    · exact he ▸ hrows
  · simp [modifyNodeGroup]
  · unfold cell at hc ⊢
    rcases group_modify_cases T idx f j with he | ⟨rfl, he⟩
    · exact ⟨c', he ▸ hc, .inl rfl⟩
    · rw [he] at hc
      exact hins row c' hc

theorem modify_updates {P : Nat → Nat → Prop} (h : T.Updates P)
    (hf : (f (T.group idx)).Chains fun u => P u.creator u.version) : (T.modifyNodeGroup idx f).Updates P := by
  intro j
  rcases group_modify_cases T idx f j with he | ⟨rfl, he⟩
  · exact he ▸ h j
  · exact he ▸ hf

end NodeTable

section Writes

variable {s s' : TransactionState α} {tx : Snapshot} {t : Nat} {value : α} {P : Nat → Nat → Prop}

namespace TransactionState

theorem deleteRow_spec (h : s.table.SoundBut ∅) (ht : t ≠ invalidTransaction) (hs : s.deleteRow t offset = .ok s') :
    (s'.undoBuffer = s.undoBuffer ∧ s'.localTable = s.localTable) ∧
      (s'.table.SoundBut ∅ ∧ s.table.SameFor {t} s'.table ∧ s.table.InPlace ∅ s'.table) ∧
      (s.table.Updates P → s'.table.Updates P) ∧
      (∀ c, s.table.cell (offset / nodeGroupSize) (offset % nodeGroupSize) = some c →
        c.deletion = t ∨ c.deletion = invalidTransaction) ∧
      ∀ idx row, s'.table.cell idx row = (s.table.cell idx row).map fun c =>
        if idx = offset / nodeGroupSize ∧ row = offset % nodeGroupSize then { c with deletion := t } else c := by
  obtain ⟨hi, r, hd, rfl⟩ := deleteRow_ok hs
  obtain ⟨hsound, hold, hcell⟩ := (h (offset / nodeGroupSize)).delete ht hd
  refine ⟨⟨rfl, rfl⟩, modify_inPlace _ _ h ⟨hsound, delete_sameRows hd, ?_, ?_⟩, fun hP => ?_, hold, fun idx row => ?_⟩
  · funext row
    unfold view
    rw [hcell]
    cases hc : cellAt (s.table.group (offset / nodeGroupSize)).chunkedGroups row with
    | none => rfl
    | some c =>
      split_ifs with hrow
      · exact Cell.without_delete rfl (hold c (hrow ▸ hc))
      · rfl
  · intro row c' hc'
    rw [hcell] at hc'
    obtain ⟨c, hc, rfl⟩ := Option.map_eq_some_iff.mp hc'
    refine ⟨c, hc, .inl ?_⟩
    split_ifs <;> rfl
  · exact modify_updates hP (NodeGroup.Chains.delete (hP _) (h _).laid hd)
  · show cellAt ((s.table.modifyNodeGroup _ fun _ => r.1).group idx).chunkedGroups row =
      (cellAt (s.table.group idx).chunkedGroups row).map _
    rw [group_modifyNodeGroup]
    by_cases he : idx = offset / nodeGroupSize
    · rw [if_pos ⟨he, hi⟩, hcell, he]
      simp
    · simp [he]

theorem updateRow_spec {columnID : Nat} (h : s.table.SoundBut ∅) (hs : s.updateRow tx offset columnID value = .ok s') :
    (∃ idx j v, s'.undoBuffer = s.undoBuffer ++ [.updateInfo idx j columnID v tx.id] ∧ s'.localTable = s.localTable) ∧
      (s'.table.SoundBut ∅ ∧ s.table.SameFor {tx.id} s'.table ∧ s.table.InPlace ∅ s'.table) ∧
      (P tx.id tx.id → s.table.Updates P → s'.table.Updates P) ∧
      ∀ idx row, (s'.table.cell idx row).map (·.toRow) = (s.table.cell idx row).map (·.toRow) := by
  obtain ⟨hi, r, hu, rfl⟩ := updateRow_ok hs
  obtain ⟨b, rowInVector, hb, hr⟩ := update_eq hu
  obtain ⟨hsound, hrows, hview, hcell⟩ := setChain_spec (h (offset / nodeGroupSize)) hb
    (ChunkedNodeGroup.filter_writeOwn (V := {tx.id}) rowInVector value rfl)
  rw [← hr] at hsound hrows hview hcell
  refine ⟨⟨_, _, _, rfl, rfl⟩, modify_inPlace _ _ h ⟨hsound, hrows, hview, ?_⟩, fun hnew hP => ?_, fun idx row => ?_⟩
  · intro row c' hc'
    obtain ⟨c, hc, he⟩ := cellAt_of_map_eq (hcell row) hc'
    exact ⟨c, hc, .inl (congrArg Row.insertion he)⟩
  · refine modify_updates hP ?_
    rw [hr]
    exact NodeGroup.Chains.setChain (hP _) (writeOwn_all (fun u hu => hP _ hb _ _ u hu) (fun _ => id) hnew) hb
  · show (cellAt ((s.table.modifyNodeGroup _ fun _ => r.1).group idx).chunkedGroups row).map _ =
      (cellAt (s.table.group idx).chunkedGroups row).map _
    rcases group_modify_cases s.table (offset / nodeGroupSize) (fun _ => r.1) idx with
      he | ⟨rfl, he⟩ <;> rw [he]
    exact hcell row

end TransactionState

end Writes

section Records

variable {own other : Set Nat} {startTS t : Nat} {record : UndoRecord} {c : Cell α}

def NodeTable.Holds (own : Set Nat) (startTS : Nat) (T : NodeTable α) (idx row : Nat) : Prop :=
  ∀ c, T.cell idx row = some c → c.insertion ∈ own ∨ c.insertion ≤ startTS ∧ c.deletion ∈ own

def NodeTable.Deleted (t startTS : Nat) (T : NodeTable α) (idx row : Nat) : Prop :=
  ∃ c, T.cell idx row = some c ∧ c.insertion ≤ startTS ∧ c.deletion = t

def UndoRecord.Good (own : Set Nat) (t startTS : Nat) (T : NodeTable α) : UndoRecord → Prop
  | insertInfo _ _ _ => True
  | deleteInfo idx row numRows => numRows = 1 ∧ T.Holds own startTS idx row
  | updateInfo _ _ _ _ version => version = t

theorem UndoRecord.Good.mono (h : record.Good own t startTS T)
    (hold : ∀ idx row, T.Holds own startTS idx row → T'.Holds other startTS idx row) :
    record.Good other t startTS T' := by
  cases record with
  | insertInfo => trivial
  | deleteInfo idx row numRows => exact ⟨h.1, hold idx row h.2⟩
  | updateInfo => exact h

theorem NodeTable.Deleted.holds (h : T.Deleted t startTS idx row) (ht : t ∈ own) : T.Holds own startTS idx row := by
  obtain ⟨c, hc, hins, hdel⟩ := h
  intro c' hc'
  cases hc.symm.trans hc'
  exact .inr ⟨hins, hdel ▸ ht⟩

theorem NodeTable.Deleted.of_sameFor (h : T.Deleted t startTS idx row) (hs : T.SameFor other T')
    (ht : t ∉ other ∧ t ≠ invalidTransaction) (hold : ∀ v ≤ startTS, v ∉ other) :
    T'.Deleted t startTS idx row := by
  obtain ⟨c, hc, hins, hdel⟩ := h
  obtain ⟨c', hc', he⟩ := cellAt_of_view_eq (hs.view idx) hc (hold _ hins)
  refine ⟨c', hc', ?_, ?_⟩
  · rwa [(Cell.of_without_eq he (hold _ hins)).1]
  · rw [← hdel] at ht
    rw [Cell.deletion_of_without_eq he (hold _ hins) ht.1 ht.2, hdel]

namespace NodeTable.Holds

variable (h : T.Holds own startTS idx row)

include h

theorem mono (hsub : own ⊆ other) : T.Holds other startTS idx row :=
  fun c hc => (h c hc).imp (fun hm => hsub hm) (And.imp_right fun hm => hsub hm)

theorem of_sameFor (hs : T.SameFor other T') (hout : ∀ c, T'.cell idx row = some c → c.insertion ∉ other)
    (hown : ∀ v ∈ own, v ∉ other ∧ v ≠ invalidTransaction) : T'.Holds own startTS idx row := by
  intro c' hc'
  obtain ⟨c, hc, he⟩ := cellAt_of_view_eq (hs.view idx).symm hc' (hout c' hc')
  obtain ⟨hins, -, -⟩ := Cell.of_without_eq he (hout c' hc')
  rw [← hins]
  refine (h c hc).imp_right fun ⟨hle, hdel⟩ => ⟨hle, ?_⟩
  rwa [Cell.deletion_of_without_eq he.symm (hins ▸ hout c' hc') (hown _ hdel).1 (hown _ hdel).2]

theorem marked (hlayout : Layout (T.group idx).chunkedGroups) (hzero : 0 ∉ own) (hinvalid : invalidTransaction ∉ own) :
    (T.group idx).Marked own row := by
  refine marked_of_cell hlayout fun c hc => ?_
  rcases h c hc with hm | ⟨-, hm⟩
  · exact .inr ⟨hm, fun he => hzero (he ▸ hm)⟩
  · exact .inl ⟨hm, fun he => hinvalid (he ▸ hm)⟩

theorem of_inPlace (hp : T.InPlace own T') (hlayout : Layout (T'.group idx).chunkedGroups)
    (hmark : (T'.group idx).Marked own row) : T'.Holds own startTS idx row := by
  intro c' hc'
  obtain ⟨c, hc, hins⟩ := hp.insertion hc'
  by_cases hm : c'.insertion ∈ own
  · exact .inl hm
  · have he : c'.insertion = c.insertion := hins.resolve_right fun hx => hm hx.1
    refine .inr ⟨?_, (hmark.cell hlayout hc').resolve_right hm⟩
    rw [he]
    exact ((h c hc).resolve_left fun hx => hm (he ▸ hx)).1

end NodeTable.Holds

end Records

end Rag3db.Storage
