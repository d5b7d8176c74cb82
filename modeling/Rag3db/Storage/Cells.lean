import Rag3db.Storage.TableGroups

open List Option

namespace Rag3db.Storage

open ChunkedNodeGroup

variable {α : Type} {bs bs' : List (ChunkedNodeGroup α)} {b b' : ChunkedNodeGroup α} {r : Snapshot}
  {i k row column : Nat} {V W : Set Nat}

/-- A row, with the versions and the values of its updates, newest first. -/
@[ext] structure Cell (α : Type) extends Row α where
  updates : Nat → List (Nat × Option α)

namespace Cell

variable {c c' : Cell α}

def lookup (c : Cell α) (s : Snapshot) (column : Nat) : Option α :=
  if c.visible s then
    ((c.updates column).findSome? fun u => if s.sees u.1 then u.2 else none).or (c.base column)
  else none

open scoped Classical

noncomputable def without (V : Set Nat) (c : Cell α) : Option (Cell α) :=
  if c.insertion ∈ V then none
  else some { c with
    deletion := if c.deletion ∈ V then invalidTransaction else c.deletion
    updates := fun column => (c.updates column).filter (·.1 ∉ V) }

theorem without_of_mem (h : c.insertion ∈ V) : c.without V = none := if_pos h

theorem without_of_not_mem (h : c.insertion ∉ V) : c.without V = some { c with
    deletion := if c.deletion ∈ V then invalidTransaction else c.deletion
    updates := fun column => (c.updates column).filter (·.1 ∉ V) } := if_neg h

theorem without_isNone : c.without V = none ↔ c.insertion ∈ V := by
  by_cases h : c.insertion ∈ V
  · simp [without_of_mem h, h]
  · simp [without_of_not_mem h, h]

theorem without_congr (hins : c'.insertion = c.insertion ∨ c'.insertion ∈ V ∧ c.insertion ∈ V)
    (hdel : c'.deletion = c.deletion ∨ c'.deletion ∈ V ∧ c.deletion ∈ V) (hbase : c'.base = c.base)
    (hupd : ∀ column, (c'.updates column).filter (·.1 ∉ V) = (c.updates column).filter (·.1 ∉ V)) :
    c'.without V = c.without V := by
  by_cases h : c.insertion ∈ V
  · have h' : c'.insertion ∈ V := hins.elim (fun he => he ▸ h) And.left
    rw [without_of_mem h, without_of_mem h']
  · have hi : c'.insertion = c.insertion := hins.resolve_right fun hc => h hc.2
    rw [without_of_not_mem h, without_of_not_mem (hi ▸ h)]
    have hd : (if c'.deletion ∈ V then invalidTransaction else c'.deletion) =
        if c.deletion ∈ V then invalidTransaction else c.deletion := by
      rcases hdel with he | ⟨hd', hd⟩
      · rw [he]
      · rw [if_pos hd, if_pos hd']
    exact congrArg some (Cell.ext hi hd hbase (funext hupd))

theorem without_delete {t : Nat} (ht : t ∈ V) (hc : c.deletion = t ∨ c.deletion = invalidTransaction) :
    Cell.without V { c with deletion := t } = c.without V := by
  by_cases h : c.insertion ∈ V
  · rw [without_of_mem h, without_of_mem (c := { c with deletion := t }) h]
  · rw [without_of_not_mem h, without_of_not_mem (c := { c with deletion := t }) h]
    refine congrArg some (Cell.ext rfl ?_ rfl rfl)
    simp only [if_pos ht]
    split_ifs with hd
    · rfl
    · exact (hc.resolve_left fun he => hd (he ▸ ht)).symm

variable (h : c'.without V = c.without V)

include h

theorem not_mem_of_without_eq (hc : c.insertion ∉ V) : c'.insertion ∉ V := by
  intro hm
  rw [without_of_mem hm] at h
  exact hc (without_isNone.mp h.symm)

theorem of_without_eq (hc : c.insertion ∉ V) :
    c'.insertion = c.insertion ∧ (if c'.deletion ∈ V then invalidTransaction else c'.deletion) =
      (if c.deletion ∈ V then invalidTransaction else c.deletion) ∧ c'.base = c.base := by
  have hc' := not_mem_of_without_eq h hc
  rw [without_of_not_mem hc, without_of_not_mem hc', Option.some.injEq] at h
  exact ⟨congrArg (·.insertion) h, congrArg (·.deletion) h, congrArg (·.base) h⟩

theorem deletion_mem_of_without_eq (hc : c.insertion ∉ V) (hd : c.deletion ∈ V) (hinvalid : invalidTransaction ∈ V) :
    c'.deletion ∈ V := by
  have he := (of_without_eq h hc).2.1
  split_ifs at he with hm
  · exact hm
  · exact he ▸ hinvalid

theorem deletion_of_without_eq (hc : c.insertion ∉ V) (hd : c.deletion ∉ V)
    (hinvalid : c.deletion ≠ invalidTransaction) :
    c'.deletion = c.deletion := by
  have he := (of_without_eq h hc).2.1
  split_ifs at he with hm
  · exact absurd he.symm hinvalid
  · exact he

omit h

theorem findSome?_filter {l : List (Nat × Option α)} (h : ∀ v ∈ V, r.sees v = false) :
    (l.filter (·.1 ∉ V)).findSome? (fun u => if r.sees u.1 then u.2 else none) =
      l.findSome? fun u => if r.sees u.1 then u.2 else none := by
  induction l with
  | nil => rfl
  | cons u l ih =>
    rw [findSome?_cons, ← ih]
    by_cases hu : u.1 ∈ V
    · rw [filter_cons_of_neg (by simpa using hu)]
      simp [h _ hu]
    · rw [filter_cons_of_pos (by simpa using hu), findSome?_cons]

theorem lookup_without (h : ∀ v ∈ V, r.sees v = false) :
    (c.without V).bind (·.lookup r column) = c.lookup r column := by
  by_cases hins : c.insertion ∈ V
  · simp [without_of_mem hins, lookup, Row.visible, h _ hins]
  · rw [without_of_not_mem hins, bind_some]
    have hdel : r.sees (if c.deletion ∈ V then invalidTransaction else c.deletion) = r.sees c.deletion := by
      split_ifs with hd
      · rw [h _ hd, Snapshot.sees_invalid]
      · rfl
    unfold lookup
    rw [findSome?_filter h, show Row.visible r _ = c.visible r by simp only [Row.visible, hdel]]

theorem visible_without (h : ∀ v ∈ V, r.sees v = false) : (c.without V).any (·.visible r) = c.visible r := by
  by_cases hins : c.insertion ∈ V
  · simp [without_of_mem hins, Row.visible, h _ hins]
  · rw [without_of_not_mem hins, any_some]
    simp only [Row.visible]
    split_ifs with hd
    · rw [h _ hd, Snapshot.sees_invalid]
    · rfl

theorem without_without (hV : V ⊆ W) : (c.without V).bind (·.without W) = c.without W := by
  by_cases hc : c.insertion ∈ V
  · rw [without_of_mem hc, without_of_mem (hV hc), bind_none]
  · rw [without_of_not_mem hc, bind_some]
    by_cases hw : c.insertion ∈ W
    · rw [without_of_mem hw, without_of_mem]
      exact hw
    · rw [without_of_not_mem hw, without_of_not_mem]
      · refine congrArg some (Cell.ext rfl ?_ rfl (funext fun column => ?_))
        · by_cases hd : c.deletion ∈ V
          · simp only [if_pos hd, if_pos (hV hd), ite_self]
          · simp only [if_neg hd]
        · simp only [List.filter_filter]
          refine List.filter_congr fun u _ => ?_
          by_cases hu : u.1 ∈ W
          · simp [hu]
          · have hv : u.1 ∉ V := fun hv => hu (hV hv)
            simp [hv]
      · exact hw

end Cell

def ChunkedNodeGroup.cell (b : ChunkedNodeGroup α) (rowInChunk : Nat) : Cell α :=
  { b.row rowInChunk with
    updates := fun column => (b.chain column (rowInChunk / vectorCapacity)).map fun u =>
      (u.version, u.values (rowInChunk % vectorCapacity)) }

theorem ChunkedNodeGroup.lookup_eq_cell :
    b.lookup r k column = if k < b.numRows then (b.cell k).lookup r column else none := by
  unfold lookup Cell.lookup
  rw [isSelected_eq]
  by_cases hk : k < b.numRows
  · have hupd : ((b.cell k).updates column).findSome? (fun u => if r.sees u.1 then u.2 else none) =
        (b.columns column).updateInfo.lookup r k := by
      simp only [cell, findSome?_map]
      rfl
    simp only [hk, hupd]
    rfl
  · simp [hk]

def cellAt (bs : List (ChunkedNodeGroup α)) (row : Nat) : Option (Cell α) :=
  (findChunkedGroupIdx bs row).bind fun found => bs[found.1]?.bind fun b =>
    if found.2 < b.numRows then some (b.cell found.2) else none

theorem cellAt_of_mem (h : Layout bs) (hb : bs[i]? = some b) (hk : k < b.numRows) :
    cellAt bs (b.startRowIdx + k) = some (b.cell k) := by
  simp [cellAt, h.find_of_mem hb hk, hb, hk]

variable {c : Cell α} {N : Set Nat} {β : Type}

theorem mem_of_cellAt (h : Layout bs) (hc : cellAt bs row = some c) :
    ∃ (i : Nat) (b : ChunkedNodeGroup α) (k : Nat), bs[i]? = some b ∧ k < b.numRows ∧
      row = b.startRowIdx + k ∧ c = b.cell k := by
  obtain ⟨found, hf, hc⟩ := bind_eq_some_iff.mp hc
  obtain ⟨b, hb, hc⟩ := bind_eq_some_iff.mp hc
  obtain ⟨hk, hc⟩ := ite_none_right_eq_some.mp hc
  obtain ⟨b', hb', hrow, -⟩ := h.mem_of_find hf
  cases hb.symm.trans hb'
  exact ⟨found.1, b, found.2, hb, hk, hrow, (some.inj hc).symm⟩

theorem row_lt_endOf (h : Layout bs) (hc : cellAt bs row = some c) : row < endOf bs := by
  obtain ⟨i, b, k, hb, hk, rfl, -⟩ := mem_of_cellAt h hc
  have := h.endOf_le hb
  omega

noncomputable def view (V : Set Nat) (bs : List (ChunkedNodeGroup α)) (row : Nat) : Option (Cell α) :=
  (cellAt bs row).bind (·.without V)

theorem view_of_cellAt (h : cellAt bs row = some c) : view V bs row = c.without V := by
  simp [view, h]

theorem view_mono (hV : V ⊆ W) (h : view V bs' = view V bs) : view W bs' = view W bs := by
  have hview : ∀ (cs : List (ChunkedNodeGroup α)) (row : Nat), view W cs row =
      (view V cs row).bind (·.without W) := fun cs row => by
    unfold view
    cases cellAt cs row with
    | none => rfl
    | some c => exact (Cell.without_without hV).symm
  funext row
  rw [hview, hview, h]

theorem cellAt_of_view_eq (h : view V bs' = view V bs) (hc : cellAt bs row = some c) (hins : c.insertion ∉ V) :
    ∃ c', cellAt bs' row = some c' ∧ c'.without V = c.without V := by
  have hrow := congrFun h row
  rw [view_of_cellAt hc] at hrow
  cases hc' : cellAt bs' row with
  | none =>
    have hv : view V bs' row = none := by simp [view, hc']
    exact absurd (Cell.without_isNone.mp (hrow.symm.trans hv)) hins
  | some c' =>
    rw [view_of_cellAt hc'] at hrow
    exact ⟨c', rfl, hrow⟩

/-- A row that `V` does not hide keeps its deletion, or gets one of `N`. -/
def Redeletes (V N : Set Nat) (bs bs' : List (ChunkedNodeGroup α)) : Prop :=
  ∀ row c c', cellAt bs row = some c → cellAt bs' row = some c' → c'.insertion ∉ V →
    c'.deletion = c.deletion ∨ c'.deletion ∈ N

theorem Redeletes.refl : Redeletes V N bs bs := fun _ _ _ hc hc' _ =>
  .inl (congrArg (·.deletion) (some.inj (hc'.symm.trans hc)))

theorem Redeletes.trans {bs'' : List (ChunkedNodeGroup α)} (h : Redeletes V N bs bs')
    (hview : view V bs'' = view V bs') (h' : Redeletes V N bs' bs'') : Redeletes V N bs bs'' := by
  intro row c c'' hc hc'' hins
  obtain ⟨c', hc', he⟩ := cellAt_of_view_eq hview.symm hc'' hins
  have hins' : c'.insertion ∉ V := Cell.not_mem_of_without_eq he hins
  rcases h' row c' c'' hc' hc'' hins with hd | hd
  · exact hd ▸ h row c c' hc hc' hins'
  · exact .inr hd

theorem Redeletes.of_blocks (h : Layout bs) (h' : Layout bs')
    (hblock : ∀ (i : Nat) (b' : ChunkedNodeGroup α), bs'[i]? = some b' → ∃ b, bs[i]? = some b ∧
      b'.startRowIdx = b.startRowIdx ∧ b'.numRows ≤ b.numRows ∧
      ∀ k < b'.numRows, b'.insertion k ∉ V → b'.deletion k = b.deletion k ∨ b'.deletion k ∈ N) :
    Redeletes V N bs bs' := by
  intro row c c' hc hc' hins
  obtain ⟨i, b', k, hb', hk, rfl, rfl⟩ := mem_of_cellAt h' hc'
  obtain ⟨b, hb, hstart, hrows, hdel⟩ := hblock i b' hb'
  rw [hstart, cellAt_of_mem h hb (hk.trans_le hrows)] at hc
  cases hc
  exact hdel k hk hins

theorem view_eq_of_rows (h : ∀ row c, cellAt bs row = some c →
      c.insertion ∈ V ∨ ∃ c', cellAt bs' row = some c' ∧ c'.without V = c.without V)
    (h' : ∀ row c', cellAt bs' row = some c' →
      c'.insertion ∈ V ∨ ∃ c, cellAt bs row = some c ∧ c'.without V = c.without V) :
    view V bs' = view V bs := by
  have hnone : ∀ {cs : List (ChunkedNodeGroup α)} {row}, (∀ c, cellAt cs row = some c → c.insertion ∈ V) →
      view V cs row = none := by
    intro cs row hcs
    cases hc : cellAt cs row with
    | none => simp [view, hc]
    | some c => rw [view_of_cellAt hc, Cell.without_of_mem (hcs c hc)]
  funext row
  by_cases hc : ∃ c, cellAt bs row = some c ∧ c.insertion ∉ V
  · obtain ⟨c, hc, hins⟩ := hc
    obtain ⟨c', hc', he⟩ := (h row c hc).resolve_left hins
    rw [view_of_cellAt hc, view_of_cellAt hc', he]
  · have hall : ∀ c, cellAt bs row = some c → c.insertion ∈ V := fun c hm =>
      not_not.mp fun hins => hc ⟨c, hm, hins⟩
    rw [hnone hall, hnone fun c' hc' => ?_]
    rcases h' row c' hc' with hins | ⟨c, hm, he⟩
    · exact hins
    · exact Cell.without_isNone.mp (he.trans (Cell.without_of_mem (hall c hm)))

theorem cellAt_of_map_eq {f : Cell α → β} {c' : Cell α}
    (h : (cellAt bs' row).map f = (cellAt bs row).map f) (hc' : cellAt bs' row = some c') :
    ∃ c, cellAt bs row = some c ∧ f c' = f c := by
  rw [hc'] at h
  obtain ⟨c, hc, he⟩ := map_eq_some_iff.mp h.symm
  exact ⟨c, hc, he.symm⟩

section Lookup

def lookupIn (bs : List (ChunkedNodeGroup α)) (s : Snapshot) (row column : Nat) : Option α :=
  (findChunkedGroupIdx bs row).bind fun found => bs[found.1]?.bind fun b =>
    b.lookup s (row - b.startRowIdx) column

theorem lookupIn_of_mem (h : Layout bs) (hb : bs[i]? = some b) (hk : k < b.numRows) :
    lookupIn bs r (b.startRowIdx + k) column = b.lookup r k column := by
  simp [lookupIn, h.find_of_mem hb hk, hb]

def HasRow (bs : List (ChunkedNodeGroup α)) (row : Nat) : Prop :=
  ∃ (i : Nat) (b : ChunkedNodeGroup α) (k : Nat), bs[i]? = some b ∧ k < b.numRows ∧ row = b.startRowIdx + k

theorem lookupIn_of_not_mem (h : Layout bs) (hrow : ¬ HasRow bs row) : lookupIn bs r row column = none := by
  unfold lookupIn
  cases hf : findChunkedGroupIdx bs row with
  | none => rfl
  | some found =>
    obtain ⟨b, hb, rfl, -⟩ := h.mem_of_find hf
    have hk : ¬ found.2 < b.numRows := fun hk => hrow ⟨_, b, _, hb, hk, rfl⟩
    simp [hb, ChunkedNodeGroup.lookup, ChunkedNodeGroup.isSelected, hk]

def selectedIn (bs : List (ChunkedNodeGroup α)) (s : Snapshot) (row : Nat) : Bool :=
  (findChunkedGroupIdx bs row).any fun found => bs[found.1]?.any fun b =>
    b.isSelected s (row - b.startRowIdx)

theorem lookupIn_eq_cellAt (h : Layout bs) : lookupIn bs r row column = (cellAt bs row).bind (·.lookup r column) := by
  unfold lookupIn cellAt
  cases hf : findChunkedGroupIdx bs row with
  | none => rfl
  | some found =>
    obtain ⟨b, hb, rfl, -⟩ := h.mem_of_find hf
    simp only [bind_some, hb, Nat.add_sub_cancel_left, lookup_eq_cell]
    split_ifs <;> rfl

theorem selectedIn_eq_cellAt (h : Layout bs) : selectedIn bs r row = (cellAt bs row).any (·.visible r) := by
  unfold selectedIn cellAt
  cases hf : findChunkedGroupIdx bs row with
  | none => rfl
  | some found =>
    obtain ⟨b, hb, rfl, -⟩ := h.mem_of_find hf
    simp only [bind_some, any_some, hb, Nat.add_sub_cancel_left, isSelected_eq]
    split_ifs with hk
    · simp only [hk]
      rfl
    · simp [hk]

theorem lookupIn_eq_view (h : Layout bs) (hr : ∀ v ∈ V, r.sees v = false) :
    lookupIn bs r row column = (view V bs row).bind (·.lookup r column) := by
  rw [lookupIn_eq_cellAt h]
  unfold view
  cases cellAt bs row with
  | none => rfl
  | some c => exact (Cell.lookup_without hr).symm

theorem selectedIn_eq_view (h : Layout bs) (hr : ∀ v ∈ V, r.sees v = false) :
    selectedIn bs r row = (view V bs row).any (·.visible r) := by
  rw [selectedIn_eq_cellAt h]
  unfold view
  cases cellAt bs row with
  | none => rfl
  | some c => exact (Cell.visible_without hr).symm

end Lookup

section Shape

theorem findChunkedGroupIdx_congr (h : SameShape bs bs') :
    findChunkedGroupIdx bs' row = findChunkedGroupIdx bs row := by
  cases bs with
  | nil =>
    obtain rfl : bs' = [] := by simpa using h.length.symm
    rfl
  | cons first rest =>
    obtain ⟨first', rest', rfl, hf, hr⟩ := map_eq_cons_iff.mp h.symm
    obtain ⟨hstart, hrows⟩ := shape_rows hf
    have hlen : rest'.length = rest.length := by simpa using congrArg List.length hr
    simp only [findChunkedGroupIdx, hstart, hrows, hlen]

theorem cellAt_congr (row : Nat) (h : SameShape bs bs') (f : Cell α → β)
    (hcell : ∀ (i : Nat) (b b' : ChunkedNodeGroup α), bs[i]? = some b → bs'[i]? = some b' →
      ∀ k < b.numRows, f (b'.cell k) = f (b.cell k)) :
    (cellAt bs' row).map f = (cellAt bs row).map f := by
  unfold cellAt
  rw [findChunkedGroupIdx_congr h]
  cases findChunkedGroupIdx bs row with
  | none => rfl
  | some found =>
    cases hb' : bs'[found.1]? with
    | none =>
      have hb : bs[found.1]? = none := by
        rw [getElem?_eq_none_iff] at hb' ⊢
        exact h.length.le.trans hb'
      simp [hb, hb']
    | some b' =>
      obtain ⟨b, hb, hs⟩ := h.getElem? hb'
      have hrows : b.numRows = b'.numRows := congrArg Shape.numRows hs
      simp only [bind_some, hb, hb', hrows]
      split_ifs with hk
      · exact congrArg some (hcell _ _ _ hb hb' _ (hrows ▸ hk))
      · rfl

theorem cellAt_map (h : SameShape bs bs') (hlayout : Layout bs) (f : Nat → Cell α → Cell α)
    (hcell : ∀ (i : Nat) (b b' : ChunkedNodeGroup α), bs[i]? = some b → bs'[i]? = some b' →
      ∀ k < b.numRows, b'.cell k = f (b.startRowIdx + k) (b.cell k)) (row : Nat) :
    cellAt bs' row = (cellAt bs row).map (f row) := by
  cases hc : cellAt bs row with
  | none =>
    have hmap := cellAt_congr row h (fun _ => ()) fun _ _ _ _ _ _ _ => rfl
    rw [hc] at hmap
    simpa using hmap
  | some c =>
    obtain ⟨i, b, k, hb, hk, rfl, rfl⟩ := mem_of_cellAt hlayout hc
    obtain ⟨b', hb', hshape⟩ := h.symm.getElem? hb
    obtain ⟨hstart, hnum⟩ := shape_rows hshape
    rw [← hstart, cellAt_of_mem (hlayout.congr h) hb' (hnum ▸ hk), hcell i b b' hb hb' k hk, hstart]
    rfl

theorem view_congr (h : SameShape bs bs')
    (hcell : ∀ (i : Nat) (b b' : ChunkedNodeGroup α), bs[i]? = some b → bs'[i]? = some b' →
      ∀ k < b.numRows, (b'.cell k).without V = (b.cell k).without V) : view V bs' = view V bs := by
  funext row
  have hmap := cellAt_congr row h (·.without V) hcell
  unfold view
  cases hc : cellAt bs row with
  | none =>
    cases hc' : cellAt bs' row with
    | none => rfl
    | some c' => simp [hc, hc'] at hmap
  | some c =>
    cases hc' : cellAt bs' row with
    | none => simp [hc, hc'] at hmap
    | some c' => simpa [hc, hc'] using hmap

end Shape

end Rag3db.Storage
