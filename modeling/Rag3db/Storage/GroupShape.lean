import Rag3db.Storage.GroupAppend
import Rag3db.Storage.NodeTable

open List Option

namespace Rag3db.Storage

variable {α : Type} {bs bs' : List (ChunkedNodeGroup α)} {b b' : ChunkedNodeGroup α} {g g' : NodeGroup α}
  {i k n startRow numRows : Nat} {f : ChunkedNodeGroup α → Nat → Nat → ChunkedNodeGroup α}

/-- What decides where the rows of a group lie. -/
structure Shape where
  residencyState : ResidencyState
  startRowIdx : Nat
  capacity : Nat
  numRows : Nat
  isSealed : Bool

def ChunkedNodeGroup.shape (b : ChunkedNodeGroup α) : Shape where
  residencyState := b.residencyState
  startRowIdx := b.startRowIdx
  capacity := b.capacity
  numRows := b.numRows
  isSealed := b.isSealed

def SameShape (bs bs' : List (ChunkedNodeGroup α)) : Prop := bs.map (·.shape) = bs'.map (·.shape)

theorem shape_rows (h : b.shape = b'.shape) : b.startRowIdx = b'.startRowIdx ∧ b.numRows = b'.numRows :=
  ⟨congrArg Shape.startRowIdx h, congrArg Shape.numRows h⟩

namespace SameShape

theorem getElem? (h : SameShape bs bs') (hb : bs'[i]? = some b') : ∃ b, bs[i]? = some b ∧ b.shape = b'.shape := by
  have hi : (bs.map (·.shape))[i]? = some b'.shape := by rw [h, getElem?_map, hb]; rfl
  rw [getElem?_map] at hi
  exact map_eq_some_iff.mp hi

theorem symm (h : SameShape bs bs') : SameShape bs' bs := Eq.symm h

theorem length (h : SameShape bs bs') : bs.length = bs'.length := by
  simpa using congrArg List.length h

theorem endOf (h : SameShape bs bs') : endOf bs = endOf bs' := by
  unfold Storage.endOf
  rw [getLast?_eq_getElem?, getLast?_eq_getElem?, h.length]
  cases hb : bs'[bs'.length - 1]? with
  | none =>
    have hnone : bs[bs'.length - 1]? = none := by
      rw [getElem?_eq_none_iff] at hb ⊢
      rwa [h.length]
    rw [hnone]
  | some b' =>
    obtain ⟨b, hb, hs⟩ := h.getElem? hb
    rw [hb]
    simp only [shape_rows hs]

end SameShape

theorem ChunkedNodeGroup.Open.congr (h : b.Open) (hs : b.shape = b'.shape) : b'.Open where
  inMemory := (congrArg Shape.residencyState hs).symm.trans h.inMemory
  capacity := (congrArg Shape.capacity hs).symm.trans h.capacity
  unsealed := (congrArg Shape.isSealed hs).symm.trans h.unsealed
  bound := (congrArg Shape.numRows hs).symm.trans_le h.bound

theorem Layout.congr (h : Layout bs) (hs : SameShape bs bs') : Layout bs' := by
  have hfirst : ∀ {first' rest'}, bs' = first' :: rest' → ∃ first rest, bs = first :: rest ∧
      first.shape = first'.shape ∧ SameShape rest rest' := by
    rintro first' rest' rfl
    obtain ⟨first, rest, rfl, hf, hr⟩ := map_eq_cons_iff.mp hs
    exact ⟨first, rest, rfl, hf, hr⟩
  refine ⟨fun {f c r i} he hc => ?_, fun {f c r i} he hc hi => ?_, fun {f c r i} he hc => ?_⟩ <;>
    obtain ⟨first, rest, rfl, hf, hr⟩ := hfirst he <;>
    obtain ⟨b, hb, hs⟩ := hr.getElem? hc
  · have hstart := h.start rfl hb
    rwa [(shape_rows hs).1, (shape_rows hf).1, (shape_rows hf).2] at hstart
  · exact (congrArg Shape.numRows hs).symm.trans (h.full rfl hb (hr.length ▸ hi))
  · exact (congrArg Shape.numRows hs).symm.trans_le (h.bound rfl hb)

theorem WellLaid.congr (h : WellLaid bs) (hs : SameShape bs bs') : WellLaid bs' where
  layout := h.layout.congr hs
  first hb := by
    obtain ⟨b, hb, hs⟩ := hs.getElem? hb
    exact (h.first hb).imp (fun hd => (congrArg Shape.residencyState hs).symm.trans hd)
      fun ho => ⟨ho.1.congr hs, (congrArg Shape.startRowIdx hs).symm.trans ho.2⟩
  open_succ hb := by
    obtain ⟨b, hb, hs⟩ := hs.getElem? hb
    exact (h.open_succ hb).congr hs

theorem SameShape.set (hb : bs[i]? = some b) (hs : b'.shape = b.shape) : SameShape bs (bs.set i b') := by
  refine ext_getElem? fun j => ?_
  rw [getElem?_map, getElem?_map, getElem?_set]
  split_ifs with hij hi
  · rw [← hij, hb, map_some, map_some, hs]
  · simp [← hij, hi]
  · rfl

theorem modify_eq_set {β : Type} {l : List β} {i : Nat} {x : β} {f : β → β} (h : l[i]? = some x) :
    l.modify i f = l.set i (f x) := by
  refine ext_getElem? fun j => ?_
  rw [getElem?_modify, getElem?_set]
  have hi : i < l.length := (List.getElem?_eq_some_iff.mp h).1
  by_cases hij : i = j
  · subst hij
    simp only [h, if_pos hi]
    rfl
  · simp [hij]

theorem SameShape.modify {f : ChunkedNodeGroup α → ChunkedNodeGroup α} (hf : ∀ b, (f b).shape = b.shape) :
    SameShape bs (bs.modify i f) := by
  refine ext_getElem? fun j => ?_
  rw [getElem?_map, getElem?_map, getElem?_modify]
  cases bs[j]? with
  | none => rfl
  | some b => by_cases hij : i = j <;> simp [hij, hf]

theorem applyFrom_shape (hf : ∀ b k n, (f b k n).shape = b.shape) : SameShape bs (applyFrom f bs k n) := by
  induction bs generalizing k n with
  | nil => rfl
  | cons b bs ih =>
    unfold applyFrom
    by_cases hn : n = 0
    · simp [hn, SameShape]
    · rw [if_neg hn]
      exact cons_eq_cons.mpr ⟨(hf b k _).symm, ih⟩

theorem NodeGroup.applyFuncToChunkedGroups_shape (hf : ∀ b k n, (f b k n).shape = b.shape) :
    SameShape g.chunkedGroups (g.applyFuncToChunkedGroups f startRow numRows).chunkedGroups := by
  unfold applyFuncToChunkedGroups
  cases findChunkedGroupIdx g.chunkedGroups startRow with
  | none => rfl
  | some found =>
    have htake : SameShape (g.chunkedGroups.drop found.1)
        (applyFrom f (g.chunkedGroups.drop found.1) found.2 numRows) := applyFrom_shape hf
    unfold SameShape at htake ⊢
    rw [map_append, ← htake, ← map_append, take_append_drop]

/-- Only the blocks differ, and these lie as before. -/
structure NodeGroup.SameRows (g g' : NodeGroup α) : Prop where
  blocks : SameShape g.chunkedGroups g'.chunkedGroups
  frame : OnlyBlocks g g'

namespace NodeGroup

variable {t row : Nat} {r : NodeGroup α × Bool}

theorem delete_ok (h : g.delete t row = .ok r) :
    ∃ idx k b w, findChunkedGroupIdx g.chunkedGroups row = some (idx, k) ∧ g.chunkedGroups[idx]? = some b ∧
      b.delete t (row - b.startRowIdx) = .ok w ∧ r = (g.setChunkedGroup idx w.1, w.2) := by
  unfold NodeGroup.delete at h
  cases hf : g.findChunkedGroup row with
  | none => simp [hf] at h
  | some found =>
    obtain ⟨⟨idx, k⟩, hfind, hget⟩ := bind_eq_some_iff.mp hf
    obtain ⟨b, hb, rfl⟩ := map_eq_some_iff.mp hget
    simp only [hf] at h
    cases hd : b.delete t (row - b.startRowIdx) with
    | error e => simp [hd, Except.map] at h
    | ok w =>
      simp only [hd, Except.map, Except.ok.injEq] at h
      exact ⟨idx, k, b, w, hfind, hb, hd, h.symm⟩

variable {columnID : Nat} {value : α}

theorem update_ok {t : Snapshot} {r : NodeGroup α × Nat × Nat} (h : g.update t row columnID value = .ok r) :
    ∃ idx k b info, findChunkedGroupIdx g.chunkedGroups row = some (idx, k) ∧
      g.chunkedGroups[idx]? = some b ∧ (b.columns columnID).updateInfo.update t
        ((row - b.startRowIdx) / vectorCapacity) ((row - b.startRowIdx) % vectorCapacity) value = .ok info ∧
      r = (g.setChunkedGroup idx (b.setColumn columnID { b.columns columnID with updateInfo := info }), idx,
        (row - b.startRowIdx) / vectorCapacity) := by
  unfold NodeGroup.update at h
  cases hf : g.findChunkedGroup row with
  | none => simp [hf] at h
  | some found =>
    obtain ⟨⟨idx, k⟩, hfind, hget⟩ := bind_eq_some_iff.mp hf
    obtain ⟨b, hb, rfl⟩ := map_eq_some_iff.mp hget
    simp only [hf, ChunkedNodeGroup.update, ColumnChunk.update] at h
    cases hd : (b.columns columnID).updateInfo.update t ((row - b.startRowIdx) / vectorCapacity)
        ((row - b.startRowIdx) % vectorCapacity) value with
    | error e => simp [hd, Except.map] at h
    | ok info =>
      simp only [hd, Except.map, Except.ok.injEq] at h
      exact ⟨idx, k, b, info, hfind, hb, hd, h.symm⟩

theorem SameRows.refl : SameRows g g := ⟨rfl, _, rfl⟩

theorem SameRows.trans {g'' : NodeGroup α} (h : SameRows g g') (h' : SameRows g' g'') : SameRows g g'' := by
  obtain ⟨hshape, bs, rfl⟩ := h
  obtain ⟨hshape', bs', rfl⟩ := h'
  exact ⟨hshape.trans hshape', bs', rfl⟩

theorem delete_sameRows (h : g.delete t row = .ok r) : SameRows g r.1 := by
  obtain ⟨idx, k, b, w, -, hb, hw, rfl⟩ := delete_ok h
  refine ⟨SameShape.set hb ?_, _, rfl⟩
  unfold ChunkedNodeGroup.delete at hw
  cases hd : (b.versionInfo.getD {}).delete t (row - b.startRowIdx) with
  | error e => simp [hd, Except.map] at hw
  | ok info =>
    simp only [hd, Except.map, Except.ok.injEq] at hw
    rw [← hw]
    rfl

theorem update_sameRows {t : Snapshot} {r : NodeGroup α × Nat × Nat}
    (h : g.update t row columnID value = .ok r) : SameRows g r.1 := by
  obtain ⟨idx, k, b, info, -, hb, -, rfl⟩ := update_ok h
  exact ⟨SameShape.set hb rfl, _, rfl⟩

theorem modifyUpdateInfo_sameRows {idx : Nat} {f : UpdateInfo α → UpdateInfo α} :
    SameRows g (g.modifyUpdateInfo idx columnID f) :=
  ⟨SameShape.modify fun _ => rfl, _, rfl⟩

theorem applyFuncToChunkedGroups_sameRows (hf : ∀ b k n, (f b k n).shape = b.shape) :
    SameRows g (g.applyFuncToChunkedGroups f startRow numRows) := by
  refine ⟨applyFuncToChunkedGroups_shape hf, ?_⟩
  unfold applyFuncToChunkedGroups
  cases findChunkedGroupIdx g.chunkedGroups startRow with
  | none => exact ⟨_, rfl⟩
  | some found => exact ⟨_, rfl⟩

theorem SameRows.firstRow (h : SameRows g g') :
    Storage.firstRow g'.chunkedGroups = Storage.firstRow g.chunkedGroups := by
  unfold Storage.firstRow
  rw [head?_eq_getElem?, head?_eq_getElem?]
  cases hb : g'.chunkedGroups[0]? with
  | none =>
    rw [getElem?_eq_none_iff, ← h.blocks.length, ← getElem?_eq_none_iff] at hb
    rw [hb]
  | some b' =>
    obtain ⟨b, hb, hs⟩ := h.blocks.getElem? hb
    rw [hb]
    exact (congrArg Shape.startRowIdx hs).symm

theorem Laid.congr (h : g.Laid) (hs : SameRows g g') : g'.Laid := by
  obtain ⟨hshape, bs, rfl⟩ := hs
  exact ⟨h.blocks.congr hshape, hshape.endOf.symm.trans h.endOf⟩

end NodeGroup

end Rag3db.Storage
