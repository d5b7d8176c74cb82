import Rag3db.Storage.BlockViews

open List Option

namespace Rag3db.Storage

open Library.Interruptible ChunkedNodeGroup VectorVersionInfo Cell VectorUpdateInfo UpdateInfo

variable {α : Type} {V W : Set Nat} {bs : List (ChunkedNodeGroup α)} {b : ChunkedNodeGroup α}

def diskEnd (bs : List (ChunkedNodeGroup α)) : Nat :=
  match bs[0]? with
  | none => 0
  | some b => if b.residencyState = .onDisk then b.startRowIdx + b.numRows else 0

namespace NodeGroup

variable {g g' : NodeGroup α} {i k n t row commitTS : Nat} {r : NodeGroup α × Bool}

/-- A group with its versions in order but for rows of `V`. -/
structure SoundBut (V : Set Nat) (g : NodeGroup α) : Prop where
  laid : WellLaid g.chunkedGroups
  blocks : ∀ {i : Nat} {b : ChunkedNodeGroup α}, g.chunkedGroups[i]? = some b → b.SoundBut V
  rooted : ∀ {b : ChunkedNodeGroup α}, g.chunkedGroups[0]? = some b → b.startRowIdx = 0
  emptied : g.numRows = 0 → g.previousGenerations = []

theorem SoundBut.mono (h : SoundBut W g) (hWV : W ⊆ V) : SoundBut V g :=
  ⟨h.laid, fun hb => (h.blocks hb).mono hWV, h.rooted, h.emptied⟩

section InPlace

theorem SameRows.numRows (h : SameRows g g') : g'.numRows = g.numRows := by
  obtain ⟨-, bs, rfl⟩ := h
  rfl

theorem SameRows.generations (h : SameRows g g') : g'.previousGenerations = g.previousGenerations := by
  obtain ⟨-, bs, rfl⟩ := h
  rfl

theorem SameRows.diskEnd (h : SameRows g g') : diskEnd g'.chunkedGroups = diskEnd g.chunkedGroups := by
  unfold Storage.diskEnd
  cases hb' : g'.chunkedGroups[0]? with
  | none =>
    have hb : g.chunkedGroups[0]? = none := by
      rw [getElem?_eq_none_iff] at hb' ⊢
      exact h.blocks.length.le.trans hb'
    simp [hb]
  | some b' =>
    obtain ⟨b, hb, hs⟩ := h.blocks.getElem? hb'
    have hstate : b.residencyState = b'.residencyState := congrArg Shape.residencyState hs
    simp only [hb, hstate, shape_rows hs]

theorem SoundBut.of_sameRows (h : SoundBut V g) (hs : SameRows g g')
    (hblock : ∀ (i : Nat) (b b' : ChunkedNodeGroup α), g.chunkedGroups[i]? = some b →
      g'.chunkedGroups[i]? = some b' → b'.SoundBut V) : SoundBut V g' where
  laid := h.laid.congr hs.blocks
  blocks hb' := by
    obtain ⟨b, hb, -⟩ := hs.blocks.getElem? hb'
    exact hblock _ b _ hb hb'
  rooted {b'} hb' := by
    obtain ⟨b, hb, hshape⟩ := hs.blocks.getElem? hb'
    exact (congrArg Shape.startRowIdx hshape).symm.trans (h.rooted hb)
  emptied hzero := by
    rw [hs.numRows] at hzero
    rw [hs.generations]
    exact h.emptied hzero

theorem delete_chain {r : ChunkedNodeGroup α × Bool} (hd : b.delete t k = .ok r) (column v : Nat) :
    r.1.chain column v = b.chain column v ∧ r.1.columns = b.columns := by
  obtain ⟨w, flag, -, hr⟩ := delete_eq hd
  rw [hr]
  exact ⟨rfl, rfl⟩

theorem SoundBut.delete (h : SoundBut ∅ g) (ht : t ≠ invalidTransaction) (hd : g.delete t row = .ok r) :
    SoundBut ∅ r.1 ∧ (∀ c, cellAt g.chunkedGroups row = some c → c.deletion = t ∨ c.deletion = invalidTransaction) ∧
      ∀ row', cellAt r.1.chunkedGroups row' = (cellAt g.chunkedGroups row').map fun c =>
        if row' = row then { c with deletion := t } else c := by
  have hrows := delete_sameRows hd
  have hspec : ∀ (i : Nat) (b b' : ChunkedNodeGroup α), g.chunkedGroups[i]? = some b →
      r.1.chunkedGroups[i]? = some b' → b'.SoundBut ∅ ∧ ∀ k < b.numRows,
        b'.cell k = (if b.startRowIdx + k = row then { b.cell k with deletion := t } else b.cell k) ∧
        (b.startRowIdx + k = row → b.deletion k = t ∨ b.deletion k = invalidTransaction) := by
    intro i b b' hb hb'
    rcases delete_block hd h.laid hb hb' with ⟨k, w, hrow, hw, rfl, hrows⟩ | ⟨rfl, hne⟩
    · obtain ⟨hsound, hold, hins, hdel⟩ := delete_spec (h.blocks hb) ((h.blocks hb).wellVersioned hrows) ht hw
      have hcols := (delete_chain hw 0 0).2
      refine ⟨hsound, fun j hj => ⟨?_, fun he => ?_⟩⟩
      · have hupd : (w.1.cell j).updates = (b.cell j).updates := by
          simp only [cell, chain, hcols]
        have hbase : (w.1.cell j).base = (b.cell j).base := by
          simp only [ChunkedNodeGroup.cell, ChunkedNodeGroup.row, hcols]
        have hj' : b.startRowIdx + j = row ↔ j = k := by omega
        simp only [hj']
        split_ifs with hjk
        · exact Cell.ext (hins j) ((hdel j).trans (if_pos hjk)) hbase hupd
        · exact Cell.ext (hins j) ((hdel j).trans (if_neg hjk)) hbase hupd
      · obtain rfl : j = k := by omega
        exact hold
    · refine ⟨h.blocks hb, fun k hk => ⟨?_, fun he => absurd he.symm (hne k hk)⟩⟩
      rw [if_neg fun he => hne k hk he.symm]
  refine ⟨h.of_sameRows hrows fun i b b' hb hb' => (hspec i b b' hb hb').1, fun c hc => ?_, fun row' => ?_⟩
  · obtain ⟨i, b, k, hb, hk, hrow, rfl⟩ := mem_of_cellAt h.laid.layout hc
    obtain ⟨b', hb', -⟩ := hrows.blocks.symm.getElem? hb
    exact ((hspec i b b' hb hb').2 k hk).2 hrow.symm
  · exact cellAt_map hrows.blocks h.laid.layout (fun row' c => if row' = row then { c with deletion := t } else c)
      (fun i b b' hb hb' k hk => ((hspec i b b' hb hb').2 k hk).1) row'

end InPlace

section Chains

variable {P P' : VectorUpdateInfo α → Prop}

def Chains (P : VectorUpdateInfo α → Prop) (g : NodeGroup α) : Prop :=
  ∀ {i : Nat} {b : ChunkedNodeGroup α}, g.chunkedGroups[i]? = some b →
    ∀ column vectorIdx, ∀ u ∈ b.chain column vectorIdx, P u

theorem Chains.mono (h : Chains P g) (hP : ∀ u, P u → P' u) : Chains P' g :=
  fun hb column v u hu => hP u (h hb column v u hu)

theorem Chains.of_blocks (h : Chains P g) (hblock : ∀ (i : Nat) (b' : ChunkedNodeGroup α),
    g'.chunkedGroups[i]? = some b' → (∀ column v, b'.chain column v = []) ∨
      ∃ (j : Nat) (b : ChunkedNodeGroup α), g.chunkedGroups[j]? = some b ∧
        ∀ column v, b'.chain column v = b.chain column v) : Chains P g' := by
  intro i b' hb' column v u hu
  rcases hblock i b' hb' with hnil | ⟨j, b, hb, hsame⟩
  · simp [hnil] at hu
  · rw [hsame] at hu
    exact h hb column v u hu

theorem Chains.delete (h : Chains P g) (hlaid : WellLaid g.chunkedGroups)
    (hd : g.delete t row = .ok r) : Chains P r.1 := by
  refine h.of_blocks fun i b' hb' => .inr ?_
  obtain ⟨b, hb, -⟩ := (delete_sameRows hd).blocks.getElem? hb'
  rcases delete_block hd hlaid hb hb' with ⟨k, w, -, hw, rfl, -⟩ | ⟨rfl, -⟩
  · exact ⟨i, b, hb, fun column v => (delete_chain hw column v).1⟩
  · exact ⟨i, b', hb, fun _ _ => rfl⟩

theorem Chains.applyFuncToChunkedGroups {f : ChunkedNodeGroup α → Nat → Nat → ChunkedNodeGroup α}
    (h : Chains P g) (hlaid : WellLaid g.chunkedGroups) (hshape : ∀ b k n, (f b k n).shape = b.shape)
    (hf : ∀ b k n column v, (f b k n).chain column v = b.chain column v) :
    Chains P (g.applyFuncToChunkedGroups f row n) := by
  refine h.of_blocks fun i b' hb' => .inr ?_
  obtain ⟨b, hb, -⟩ := (applyFuncToChunkedGroups_sameRows hshape).blocks.getElem? hb'
  rcases applyFuncToChunkedGroups_getElem? f row n hlaid hb with hsame | ⟨k, m, hres, -⟩
  · cases hb'.symm.trans hsame
    exact ⟨i, b', hb, fun _ _ => rfl⟩
  · cases hb'.symm.trans hres
    exact ⟨i, b, hb, fun _ _ => hf ..⟩

end Chains

section Updates

open scoped Classical

variable {P : VectorUpdateInfo α → Prop} {idx column vectorIdx : Nat} {chain : List (VectorUpdateInfo α)} {value : α}

theorem setChain_spec (h : SoundBut W g) (hb : g.chunkedGroups[idx]? = some b)
    (hchain : chain.filter (·.version ∉ V) = (b.chain column vectorIdx).filter (·.version ∉ V)) :
    SoundBut W (g.setChunkedGroup idx (b.setChain column vectorIdx chain)) ∧
      SameRows g (g.setChunkedGroup idx (b.setChain column vectorIdx chain)) ∧
      view V (g.setChunkedGroup idx (b.setChain column vectorIdx chain)).chunkedGroups = view V g.chunkedGroups ∧
      ∀ row, (cellAt (g.setChunkedGroup idx (b.setChain column vectorIdx chain)).chunkedGroups row).map
        (·.toRow) = (cellAt g.chunkedGroups row).map (·.toRow) := by
  have hrows : SameRows g (g.setChunkedGroup idx (b.setChain column vectorIdx chain)) :=
    ⟨SameShape.set hb rfl, _, rfl⟩
  have hblock : ∀ (i : Nat) (c c' : ChunkedNodeGroup α), g.chunkedGroups[i]? = some c →
      (g.setChunkedGroup idx (b.setChain column vectorIdx chain)).chunkedGroups[i]? = some c' →
      c' = c ∨ c = b ∧ c' = b.setChain column vectorIdx chain := by
    intro i c c' hc hc'
    rcases getElem?_set_eq_some hc' with ⟨rfl, rfl⟩ | ⟨-, hold⟩
    · exact .inr ⟨some.inj (hc.symm.trans hb), rfl⟩
    · exact .inl (some.inj (hold.symm.trans hc))
  refine ⟨h.of_sameRows hrows fun i c c' hc hc' => ?_, hrows, view_congr hrows.blocks fun i c c' hc hc' k _ => ?_,
    fun row => cellAt_congr row hrows.blocks _ fun i c c' hc hc' k _ => ?_⟩
  · rcases hblock i c c' hc hc' with rfl | ⟨rfl, rfl⟩
    · exact h.blocks hc
    · exact (h.blocks hc).setChain
  · rcases hblock i c c' hc hc' with rfl | ⟨rfl, rfl⟩
    · rfl
    · exact cell_setChain hchain
  · rcases hblock i c c' hc hc' with rfl | ⟨rfl, rfl⟩
    · rfl
    · exact row_setChain

theorem Chains.setChain (h : Chains P g) (hchain : ∀ u ∈ chain, P u) (hb : g.chunkedGroups[idx]? = some b) :
    Chains P (g.setChunkedGroup idx (b.setChain column vectorIdx chain)) := by
  intro i c hc col v u hu
  rcases getElem?_set_eq_some hc with ⟨rfl, rfl⟩ | ⟨-, hc⟩
  · rw [chain_setChain] at hu
    split_ifs at hu
    · exact hchain u hu
    · exact h hb col v u hu
  · exact h hc col v u hu

theorem update_eq {tx : Snapshot} {r : NodeGroup α × Nat × Nat} (hu : g.update tx row column value = .ok r) :
    ∃ b rowInVector, g.chunkedGroups[r.2.1]? = some b ∧ r.1 = g.setChunkedGroup r.2.1 (b.setChain column r.2.2
        ((writeOwn tx.id rowInVector value (b.chain column r.2.2)).getD
          ((create tx.id).write rowInVector value :: b.chain column r.2.2))) := by
  obtain ⟨idx, k, b, info, -, hb, hinfo, rfl⟩ := update_ok hu
  unfold UpdateInfo.update at hinfo
  simp only at hinfo
  split_ifs at hinfo
  obtain rfl := Except.ok.inj hinfo
  exact ⟨b, _, hb, rfl⟩

theorem modifyUpdateInfo_eq (g : NodeGroup α) (idx column vectorIdx : Nat)
    (F : List (VectorUpdateInfo α) → List (VectorUpdateInfo α)) :
    (g.modifyUpdateInfo idx column fun info => info.setChain vectorIdx (F (info.updates vectorIdx))) = g ∨
      ∃ b, g.chunkedGroups[idx]? = some b ∧
        (g.modifyUpdateInfo idx column fun info => info.setChain vectorIdx (F (info.updates vectorIdx))) =
          g.setChunkedGroup idx (b.setChain column vectorIdx (F (b.chain column vectorIdx))) := by
  cases hb : g.chunkedGroups[idx]? with
  | none =>
    have hle : g.chunkedGroups.length ≤ idx := getElem?_eq_none_iff.mp hb
    exact .inl (by simp [modifyUpdateInfo, modify_eq_self hle])
  | some b =>
    refine .inr ⟨b, rfl, ?_⟩
    unfold modifyUpdateInfo setChunkedGroup
    rw [modify_eq_set hb]
    rfl

theorem writeOwn_all {rowInVector : Nat} (h : ∀ u ∈ chain, P u)
    (hwrite : ∀ u, P u → P (u.write rowInVector value)) (hnew : P (create t)) :
    ∀ u ∈ (writeOwn t rowInVector value chain).getD ((create t).write rowInVector value :: chain), P u := by
  cases hw : writeOwn t rowInVector value chain with
  | none =>
    intro u hu
    rcases mem_cons.mp hu with rfl | hu
    · exact hwrite _ hnew
    · exact h u hu
  | some chain' =>
    obtain ⟨newer, u, older, rfl, rfl, -⟩ := writeOwn_eq_some hw
    rw [forall_mem_append, forall_mem_cons] at h
    exact forall_mem_append.mpr ⟨h.1, forall_mem_cons.mpr ⟨hwrite u h.2.1, h.2.2⟩⟩

end Updates

section Deletions

open scoped Classical

def Marked (V : Set Nat) (g : NodeGroup α) (row : Nat) : Prop :=
  ∀ {i : Nat} {b : ChunkedNodeGroup α} {k : Nat}, g.chunkedGroups[i]? = some b → k < b.numRows →
    row = b.startRowIdx + k → (b.vectorAt (k / vectorCapacity)).isSome ∧ (b.deletion k ∈ V ∨ b.insertion k ∈ V)

theorem Marked.mono (h : Marked W g row) (hWV : W ⊆ V) : Marked V g row := fun hb hk hrow =>
  ⟨(h hb hk hrow).1, (h hb hk hrow).2.imp (fun hm => hWV hm) fun hm => hWV hm⟩

theorem marked_of_cell (hlayout : Layout g.chunkedGroups)
    (h : ∀ c, cellAt g.chunkedGroups row = some c → c.deletion ∈ V ∧ c.deletion ≠ invalidTransaction ∨
      c.insertion ∈ V ∧ c.insertion ≠ 0) : Marked V g row := by
  rintro i b k hb hk rfl
  have hrow := h _ (cellAt_of_mem hlayout hb hk)
  refine ⟨?_, hrow.imp And.left And.left⟩
  cases hv : b.vectorAt (k / vectorCapacity) with
  | none =>
    rcases hrow with ⟨-, hne⟩ | ⟨-, hne⟩
    · exact absurd (deletion_of_no_vector hv) hne
    · exact absurd (insertion_of_no_vector hv) hne
  | some v => rfl

theorem Marked.cell (hmark : Marked V g row) (hlayout : Layout g.chunkedGroups) {c : Cell α}
    (hc : cellAt g.chunkedGroups row = some c) : c.deletion ∈ V ∨ c.insertion ∈ V := by
  obtain ⟨i, b, k, hb, hk, rfl, rfl⟩ := mem_of_cellAt hlayout hc
  exact (hmark hb hk rfl).2

theorem Marked.setChain {chunkedGroupIdx column vectorIdx : Nat} {chain : List (VectorUpdateInfo α)}
    (hmark : Marked V g row) (hb : g.chunkedGroups[chunkedGroupIdx]? = some b) :
    Marked V (g.setChunkedGroup chunkedGroupIdx (b.setChain column vectorIdx chain)) row := by
  rintro i c k hc hk rfl
  rcases getElem?_set_eq_some hc with ⟨rfl, rfl⟩ | ⟨-, hc⟩
  · exact @hmark i b k hb hk rfl
  · exact hmark hc hk rfl

theorem modifyUpdateInfo_spec (chunkedGroupIdx column vectorIdx : Nat)
    (F : List (VectorUpdateInfo α) → List (VectorUpdateInfo α)) (h : SoundBut W g)
    (hF : ∀ b, g.chunkedGroups[chunkedGroupIdx]? = some b → (F (b.chain column vectorIdx)).filter (·.version ∉ V) =
        (b.chain column vectorIdx).filter (·.version ∉ V)) :
    let g' := g.modifyUpdateInfo chunkedGroupIdx column fun info =>
      info.setChain vectorIdx (F (info.updates vectorIdx))
    SoundBut W g' ∧ SameRows g g' ∧ view V g'.chunkedGroups = view V g.chunkedGroups ∧
      (∀ row, (cellAt g'.chunkedGroups row).map (·.toRow) = (cellAt g.chunkedGroups row).map (·.toRow)) ∧
      (∀ row, Marked V g row → Marked V g' row) ∧
      ∀ P : VectorUpdateInfo α → Prop, Chains P g → (∀ b, g.chunkedGroups[chunkedGroupIdx]? = some b →
        ∀ u ∈ F (b.chain column vectorIdx), P u) → Chains P g' := by
  intro g'
  rcases modifyUpdateInfo_eq g chunkedGroupIdx column vectorIdx F with he | ⟨b, hb, he⟩
  · rw [show g' = g from he]
    exact ⟨h, SameRows.refl, rfl, fun _ => rfl, fun _ => id, fun _ hP _ => hP⟩
  · rw [show g' = _ from he]
    obtain ⟨hsound, hrows, hview, hcell⟩ := setChain_spec h hb (hF b hb)
    exact ⟨hsound, hrows, hview, hcell, fun _ hmark => hmark.setChain hb, fun P hP hnew => hP.setChain (hnew b hb) hb⟩

/-- The deletion of a row that `V` hides anyway has come to its end, in `N`. -/
structure DeletionEdited (V W N : Set Nat) (g g' : NodeGroup α) : Prop where
  sound : SoundBut W g'
  view : view V g'.chunkedGroups = view V g.chunkedGroups
  insertions : ∀ row, (cellAt g'.chunkedGroups row).map (·.insertion) = (cellAt g.chunkedGroups row).map (·.insertion)
  marks : ∀ row, Marked V g row → Marked V g' row
  deletions : Redeletes V N g.chunkedGroups g'.chunkedGroups

theorem editDeletion_spec {N : Set Nat} {F : VectorVersionInfo → Nat → Nat → VectorVersionInfo} (h : SoundBut W g)
    (hWV : W ⊆ V) (hF : VectorVersionInfo.EditsDeletion F) (hNV : N ⊆ V)
    (hFn : ∀ v i, i < vectorCapacity → v.Deletable → v.deletion i ∈ V → (F v i 1).deletion i ∈ N)
    (hmark : Marked V g row) :
    DeletionEdited V W N g (g.applyFuncToChunkedGroups (onVersions F) row 1) := by
  set g' := g.applyFuncToChunkedGroups (onVersions F) row 1
  have hrows : SameRows g g' := applyFuncToChunkedGroups_sameRows fun _ _ _ => rfl
  have hspec : ∀ (i : Nat) (b b' : ChunkedNodeGroup α), g.chunkedGroups[i]? = some b →
      g'.chunkedGroups[i]? = some b' → b'.SoundBut W ∧ ∀ k < b.numRows, b'.insertion k = b.insertion k ∧
        (b'.cell k).without V = (b.cell k).without V ∧
        ((b.vectorAt (k / vectorCapacity)).isSome → (b'.vectorAt (k / vectorCapacity)).isSome) ∧
        (b.deletion k ∈ V ∨ b.insertion k ∈ V → b'.deletion k ∈ V ∨ b'.insertion k ∈ V) ∧
        (b.insertion k ∉ V → b'.deletion k = b.deletion k ∨ b'.deletion k ∈ N) := by
    intro i b b' hb hb'
    rw [applyFuncToChunkedGroups_one h.laid (fun _ _ => onVersions_zero) hb] at hb'
    cases hb'
    split_ifs with hin
    · have hk : row - b.startRowIdx < b.numRows := by omega
      obtain ⟨hsome, hmem⟩ := hmark hb hk (by omega)
      obtain ⟨v, hv⟩ := isSome_iff_exists.mp hsome
      obtain ⟨hsound, hins, hother, hnew, hkeep⟩ :=
        ChunkedNodeGroup.editDeletion_spec (h.blocks hb) hF hk hv
      -- a row is seen only in a block with its versions in order
      have hdel : ∀ j < b.numRows, b.insertion j ∉ V →
          (b.onVersions F (row - b.startRowIdx) 1).deletion j = b.deletion j ∨
            b.deletion j ∈ V ∧ (b.onVersions F (row - b.startRowIdx) 1).deletion j ∈ N := fun j hj hout => by
        have hw := (h.blocks hb).versioned j hj fun hm => hout (hWV hm)
        refine or_iff_not_imp_left.mpr fun hne => ?_
        obtain rfl := not_imp_comm.mp (hother hw j) hne
        have hold := hmem.resolve_right hout
        refine ⟨hold, ?_⟩
        rw [hnew]
        refine hFn v _ (Nat.mod_lt _ (by decide)) (hw.versions hv).1 ?_
        rwa [← deletion_of_vectorAt hv]
      refine ⟨hsound, fun j hj => ⟨hins j, ?_, hkeep _, fun hm => ?_, fun hout => ?_⟩⟩
      · by_cases hout : b.insertion j ∈ V
        · rw [without_of_mem (c := b.cell j) hout, without_of_mem]
          show (b.onVersions F (row - b.startRowIdx) 1).insertion j ∈ V
          rwa [hins j]
        · exact without_congr (.inl (hins j)) ((hdel j hj hout).imp_right fun hm => ⟨hNV hm.2, hm.1⟩) rfl fun _ => rfl
      · by_cases hout : b.insertion j ∈ V
        · exact .inr ((hins j).symm ▸ hout)
        · exact .inl ((hdel j hj hout).elim (fun he => he ▸ hm.resolve_right hout) fun hm => hNV hm.2)
      · exact (hdel j hj hout).imp_right (·.2)
    · exact ⟨h.blocks hb, fun _ _ => ⟨rfl, rfl, id, id, fun _ => .inl rfl⟩⟩
  refine ⟨h.of_sameRows hrows fun i b b' hb hb' => (hspec i b b' hb hb').1,
    view_congr hrows.blocks fun i b b' hb hb' k hk => ((hspec i b b' hb hb').2 k hk).2.1,
    fun row' => cellAt_congr row' hrows.blocks (·.insertion) fun i b b' hb hb' k hk =>
      ((hspec i b b' hb hb').2 k hk).1, ?_, .of_blocks h.laid.layout (h.laid.layout.congr hrows.blocks)
        fun i b' hb' => ?_⟩
  · rintro row' hmark' i b' k hb' hk rfl
    obtain ⟨b, hb, hshape⟩ := hrows.blocks.getElem? hb'
    obtain ⟨hstart, hnum⟩ := shape_rows hshape
    obtain ⟨hsome, hmem⟩ := hmark' hb (hnum ▸ hk) (by rw [hstart])
    obtain ⟨-, -, hkeep, hin, -⟩ := (hspec i b b' hb hb').2 k (hnum ▸ hk)
    exact ⟨hkeep hsome, hin hmem⟩
  · obtain ⟨b, hb, hshape⟩ := hrows.blocks.getElem? hb'
    obtain ⟨hstart, hnum⟩ := shape_rows hshape
    refine ⟨b, hb, hstart.symm, hnum.ge, fun k hk hout => ?_⟩
    obtain ⟨hins, -, -, -, hdel⟩ := (hspec i b b' hb hb').2 k (hnum ▸ hk)
    exact hdel (hins ▸ hout)

theorem SoundBut.commitDelete (h : SoundBut ∅ g) (hts : commitTS ∈ V) (hmark : Marked V g row) :
    DeletionEdited V ∅ V g (g.applyFuncToChunkedGroups (·.commitDelete commitTS) row 1) := by
  refine editDeletion_spec h (Set.empty_subset _) editsDeletion_commit subset_rfl (fun v i _ hv hm => ?_) hmark
  cases hs : v.deletionStatus with
  | noDeleted =>
    have hstatus : (v.setDeleteCommitTS commitTS i 1).deletionStatus = .noDeleted := by
      unfold setDeleteCommitTS
      split_ifs <;> exact hs
    simpa [VectorVersionInfo.deletion, hstatus, hs] using hm
  | checkVersion =>
    rw [setDeleteCommitTS_deletion hv hs, if_pos (by omega)]
    exact hts

theorem SoundBut.rollbackDelete (h : SoundBut V g) (hinvalid : invalidTransaction ∈ V) (hmark : Marked V g row) :
    DeletionEdited V V {invalidTransaction} g (g.applyFuncToChunkedGroups (·.rollbackDelete) row 1) := by
  refine editDeletion_spec h subset_rfl editsDeletion_rollback (Set.singleton_subset_iff.mpr hinvalid)
    (fun v i hi hv _ => ?_) hmark
  rw [rollbackDeletions_deletion hv hi, if_pos (by omega)]
  rfl

end Deletions

section Insertions

theorem diskEnd_le (hlaid : WellLaid g.chunkedGroups) {start : Nat} (hdisk : diskEnd g.chunkedGroups ≤ start)
    (hb : g.chunkedGroups[i]? = some b) (hs : b.residencyState = .onDisk) :
    i = 0 ∧ b.startRowIdx + b.numRows ≤ start := by
  cases i with
  | zero =>
    simp only [diskEnd, hb, hs] at hdisk
    exact ⟨rfl, hdisk⟩
  | succ i =>
    rw [(hlaid.open_succ hb).inMemory] at hs
    cases hs

theorem SoundBut.commitInsert {start : Nat} (h : SoundBut ∅ g) (hts : commitTS ∈ V)
    (hne : commitTS ≠ invalidTransaction) (hdisk : diskEnd g.chunkedGroups ≤ start)
    (htail : ∀ row c, start ≤ row → cellAt g.chunkedGroups row = some c → c.insertion ∈ V) :
    let g' := g.applyFuncToChunkedGroups (·.commitInsert commitTS) start n
    SoundBut ∅ g' ∧ view V g'.chunkedGroups = view V g.chunkedGroups ∧
      (∀ row c', cellAt g'.chunkedGroups row = some c' → ∃ c, cellAt g.chunkedGroups row = some c ∧
        (c'.insertion = c.insertion ∨ c'.insertion = commitTS ∧ c.insertion ∈ V)) ∧
      ∀ row, Marked V g row → Marked V g' row := by
  intro g'
  have hrows : SameRows g g' := applyFuncToChunkedGroups_sameRows fun _ _ _ => rfl
  have hspec : ∀ (i : Nat) (b b' : ChunkedNodeGroup α), g.chunkedGroups[i]? = some b →
      g'.chunkedGroups[i]? = some b' → b'.SoundBut ∅ ∧ b'.columns = b.columns ∧ (∀ k, b'.deletion k = b.deletion k) ∧
        (∀ j, (b.vectorAt j).isSome → (b'.vectorAt j).isSome) ∧
        ∀ k < b.numRows, b'.insertion k = b.insertion k ∨ b'.insertion k = commitTS ∧ b.insertion k ∈ V := by
    intro i b b' hb hb'
    rcases applyFuncToChunkedGroups_getElem? (·.commitInsert commitTS) start n h.laid hb with
      hsame | ⟨k, m, hres, hlow, hm⟩
    · cases hb'.symm.trans hsame
      exact ⟨h.blocks hb, rfl, fun _ => rfl, fun _ => id, fun _ _ => .inl rfl⟩
    · cases hb'.symm.trans hres
      obtain ⟨hsound, hdel, hkeep, hins⟩ := commitInsert_spec (h.blocks hb) hm
        (fun hs => by have := (diskEnd_le h.laid hdisk hb hs).2; omega)
        (fun hs => h.laid.numRows_le hb hs)
        (fun j hkj hj => htail _ _ (by omega) (cellAt_of_mem h.laid.layout hb hj)) hne
      exact ⟨hsound, rfl, hdel, hkeep, hins⟩
  refine ⟨h.of_sameRows hrows fun i b b' hb hb' => (hspec i b b' hb hb').1,
    view_congr hrows.blocks fun i b b' hb hb' k hk => ?_, fun row c' hc' => ?_, ?_⟩
  · obtain ⟨-, hcols, hdel, -, hins⟩ := hspec i b b' hb hb'
    refine without_congr ((hins k hk).imp_right fun hm => ⟨?_, hm.2⟩) (.inl (hdel k)) ?_ fun column => ?_
    · show b'.insertion k ∈ V
      rwa [hm.1]
    · simp only [cell, row, hcols]
    · simp only [cell, chain, hcols]
  · obtain ⟨i, b', k, hb', hk, rfl, rfl⟩ := mem_of_cellAt (h.laid.layout.congr hrows.blocks) hc'
    obtain ⟨b, hb, hshape⟩ := hrows.blocks.getElem? hb'
    obtain ⟨hstart, hnum⟩ := shape_rows hshape
    refine ⟨b.cell k, hstart ▸ cellAt_of_mem h.laid.layout hb (hnum ▸ hk), ?_⟩
    exact (hspec i b b' hb hb').2.2.2.2 k (hnum ▸ hk)
  · rintro row hmark i b' k hb' hk rfl
    obtain ⟨b, hb, hshape⟩ := hrows.blocks.getElem? hb'
    obtain ⟨hstart, hnum⟩ := shape_rows hshape
    obtain ⟨hsome, hmem⟩ := hmark hb (hnum ▸ hk) (by rw [hstart])
    obtain ⟨-, -, hdel, hkeep, hins⟩ := hspec i b b' hb hb'
    refine ⟨hkeep _ hsome, hmem.imp (fun hm => (hdel k).symm ▸ hm) fun hm => ?_⟩
    rcases hins k (hnum ▸ hk) with he | he
    · exact he.symm ▸ hm
    · exact he.1.symm ▸ hts

end Insertions

section Rollback

variable {start : Nat} (h : SoundBut V g) (hinvalid : invalidTransaction ∈ V) (hzero : 0 ∉ V)
  (hdisk : diskEnd g.chunkedGroups ≤ start) (hle : start ≤ endOf g.chunkedGroups)
  (hend : endOf g.chunkedGroups ≤ start + n)
  (htail : ∀ row c, start ≤ row → cellAt g.chunkedGroups row = some c → c.insertion ∈ V)

include h hinvalid hzero hdisk hle hend htail

theorem rollbackRange_blocks : WellLaid (g.rollbackRange start n).chunkedGroups ∧
      endOf (g.rollbackRange start n).chunkedGroups = start ∧
      (∀ (j : Nat) (c : ChunkedNodeGroup α), (g.rollbackRange start n).chunkedGroups[j]? = some c →
        ∃ b, g.chunkedGroups[j]? = some b ∧ ChunkedNodeGroup.Cut V b c) ∧
      ∀ (j : Nat) (b : ChunkedNodeGroup α) (k : Nat), g.chunkedGroups[j]? = some b → k < b.numRows →
        b.startRowIdx + k < start → ∃ c, (g.rollbackRange start n).chunkedGroups[j]? = some c ∧ k < c.numRows := by
  by_cases hne : g.chunkedGroups = []
  · have hblocks : (g.rollbackRange start n).chunkedGroups = [] := by
      simp [rollbackRange, rollbackInsert, applyFuncToChunkedGroups, hne, findChunkedGroupIdx]
    have hend0 : endOf ([] : List (ChunkedNodeGroup α)) = 0 := rfl
    rw [hne, hend0] at hle
    rw [hblocks]
    exact ⟨WellLaid.nil, by omega, by simp, by simp [hne]⟩
  have hlow : ∀ first, g.chunkedGroups[0]? = some first → first.startRowIdx ≤ start := fun first hf => by
    rcases h.laid.first hf with hs | ho
    · have := (diskEnd_le h.laid hdisk hf hs).2
      omega
    · omega
  obtain ⟨i, b, k, hb, hk, hrow, hblocks⟩ := rollbackInsert_blocks start n h.laid hne hlow hle hend
  have hblocks : (g.rollbackRange start n).chunkedGroups = (truncateAt g.chunkedGroups i b k).rdropWhile
      (·.isEmpty) := hblocks
  obtain ⟨hwell, hends⟩ := h.laid.truncateAt hb hk
  have hget := fun j => getElem?_truncateAt (j := j) (k := k) hb
  have hrows : (b.rollbackInsert k (b.numRows - k)).numRows = k := by
    rw [rollbackInsert_numRows]
    omega
  -- the last block goes if no row of it is left
  have hpos : ∀ c, ((truncateAt g.chunkedGroups i b k).rdropWhile (·.isEmpty))[i]? = some c → 0 < k := by
    intro c hc
    refine Nat.pos_of_ne_zero fun hk0 => ?_
    have hempty : (b.rollbackInsert k (b.numRows - k)).isEmpty = true := by
      rw [ChunkedNodeGroup.isEmpty, hrows]
      simpa using hk0
    rw [truncateAt, rdropWhile_concat_pos _ _ _ hempty] at hc
    have := (List.getElem?_eq_some_iff.mp (getElem?_of_rdropWhile hc)).1
    simp at this
  have hcut : 0 < k → ChunkedNodeGroup.Cut V b (b.rollbackInsert k (b.numRows - k)) := fun hk0 =>
    cut_rollbackInsert (h.blocks hb) hk0
      (fun hs => by have := (diskEnd_le h.laid hdisk hb hs).2; omega) (fun hs => h.laid.numRows_le hb hs)
      (fun j hkj hj => htail _ _ (by omega) (cellAt_of_mem h.laid.layout hb hj)) hinvalid hzero
  rw [hblocks]
  refine ⟨?_, ?_, fun j c hc => ?_, fun j b₁ k₁ hb₁ hk₁ hlt => ?_⟩
  · cases hcs : truncateAt g.chunkedGroups i b k with
    | nil => simpa using WellLaid.nil
    | cons first rest => exact (hcs ▸ hwell).rdropWhile_isEmpty.1
  · cases hcs : truncateAt g.chunkedGroups i b k with
    | nil => simp [truncateAt] at hcs
    | cons first rest =>
      have hends' : endOf (first :: rest) = start := by rw [← hcs, hends, hrow]
      rcases (hcs ▸ hwell).rdropWhile_isEmpty.2 with ⟨hnil, hfirst⟩ | hsame
      · have hf : (truncateAt g.chunkedGroups i b k)[0]? = some first := by rw [hcs]; rfl
        rw [hnil, ← hends', hfirst]
        rw [hget] at hf
        split_ifs at hf with hi hi
        · exact (h.rooted hf).symm
        · subst hi
          cases hf
          exact (h.rooted hb).symm.trans (congrArg Shape.startRowIdx rollbackInsert_shape).symm
      · rw [hsame, hends']
  · have hc' := getElem?_of_rdropWhile hc
    rw [hget] at hc'
    split_ifs at hc' with hj hj
    · exact ⟨c, hc', (h.blocks hc').cut⟩
    · subst hj
      cases hc'
      exact ⟨b, hb, hcut (hpos _ hc)⟩
  · rcases Nat.lt_trichotomy j i with hj | rfl | hj
    · refine ⟨b₁, rdropWhile_getElem? ((hget j).trans ((if_pos hj).trans hb₁)) ?_, hk₁⟩
      simp only [ChunkedNodeGroup.isEmpty, decide_eq_false_iff_not]
      omega
    · cases hb.symm.trans hb₁
      refine ⟨_, rdropWhile_getElem? ((hget j).trans (by rw [if_neg (lt_irrefl _), if_pos rfl])) ?_, ?_⟩
      · simp only [ChunkedNodeGroup.isEmpty, decide_eq_false_iff_not]
        omega
      · omega
    · have := h.laid.end_le_start hb hb₁ hj
      omega

theorem SoundBut.rollbackRange (hgen : start = 0 → g.previousGenerations = []) :
    SoundBut V (g.rollbackRange start n) ∧ view V (g.rollbackRange start n).chunkedGroups = view V g.chunkedGroups ∧
      endOf (g.rollbackRange start n).chunkedGroups = start ∧
      diskEnd (g.rollbackRange start n).chunkedGroups ≤ diskEnd g.chunkedGroups ∧
      (∀ row, Marked V g row → Marked V (g.rollbackRange start n) row) ∧
      (∀ P, Chains P g → Chains P (g.rollbackRange start n)) ∧
      Redeletes V {invalidTransaction} g.chunkedGroups (g.rollbackRange start n).chunkedGroups ∧
      ∀ row c, cellAt (g.rollbackRange start n).chunkedGroups row = some c →
        ∃ c₀, cellAt g.chunkedGroups row = some c₀ ∧ c.without V = c₀.without V := by
  obtain ⟨hlaid, hends, hcut, hkept⟩ := rollbackRange_blocks h hinvalid hzero hdisk hle hend htail
  have hframe := applyFuncToChunkedGroups_frame (g := g) ChunkedNodeGroup.rollbackInsert start n
  have hcell : ∀ row c, cellAt (g.rollbackRange start n).chunkedGroups row = some c →
      ∃ c₀, cellAt g.chunkedGroups row = some c₀ ∧ c.without V = c₀.without V := fun row c hc => by
    obtain ⟨j, c, k, hc', hk, rfl, rfl⟩ := mem_of_cellAt hlaid.layout hc
    obtain ⟨b, hb, hbc⟩ := hcut j c hc'
    exact ⟨b.cell k, hbc.start ▸ cellAt_of_mem h.laid.layout hb (hk.trans_le hbc.rows), hbc.cell hk⟩
  refine ⟨⟨hlaid, fun hc => ?_, fun {c} hc => ?_, fun hz => ?_⟩, view_eq_of_rows (fun row c hc => ?_)
    (fun row c hc => .inr (hcell row c hc)), hends, ?_, ?_, fun P hP => hP.of_blocks fun j c hc => .inr ?_,
    .of_blocks h.laid.layout hlaid.layout fun j c hc => ?_, hcell⟩
  · obtain ⟨b, -, hbc⟩ := hcut _ _ hc
    exact hbc.sound
  · obtain ⟨b, hb, hbc⟩ := hcut _ _ hc
    exact hbc.start.trans (h.rooted hb)
  · obtain ⟨bs, hbs⟩ := hframe
    have hgens : (g.rollbackRange start n).previousGenerations = g.previousGenerations := by
      simp [NodeGroup.rollbackRange, NodeGroup.rollbackInsert, hbs]
    rw [hgens]
    exact hgen hz
  · rcases Nat.lt_or_ge row start with hlt | hge
    · obtain ⟨j, b, k, hb, hk, rfl, rfl⟩ := mem_of_cellAt h.laid.layout hc
      obtain ⟨c, hc', hkc⟩ := hkept j b k hb hk hlt
      obtain ⟨b', hb', hbc⟩ := hcut j c hc'
      cases hb.symm.trans hb'
      exact .inr ⟨c.cell k, hbc.start ▸ cellAt_of_mem hlaid.layout hc' hkc, hbc.cell hkc⟩
    · exact .inl (htail row c hge hc)
  · cases hc : (g.rollbackRange start n).chunkedGroups[0]? with
    | none => simp [diskEnd, hc]
    | some c =>
      obtain ⟨b, hb, hbc⟩ := hcut 0 c hc
      simp only [diskEnd, hc, hb, hbc.state]
      split_ifs with hs
      · rw [hbc.onDisk hs]
      · exact le_rfl
  · rintro row hmark j c k hc hk rfl
    obtain ⟨b, hb, hbc⟩ := hcut j c hc
    obtain ⟨hsome, hmem⟩ := hmark hb (hk.trans_le hbc.rows) (by rw [hbc.start])
    refine ⟨hbc.marks hsome, ?_⟩
    by_cases hins : b.insertion k ∈ V
    · refine .inr (without_isNone.mp ((hbc.cell hk).trans (without_of_mem hins)))
    · exact .inl (deletion_mem_of_without_eq (hbc.cell hk) hins (hmem.resolve_right hins) hinvalid)
  · obtain ⟨b, hb, hbc⟩ := hcut j c hc
    exact ⟨j, b, hb, hbc.chain⟩
  · obtain ⟨b, hb, hbc⟩ := hcut j c hc
    exact ⟨b, hb, hbc.start, hbc.rows, fun k hk hout => .inl (hbc.deletion hk hout)⟩

end Rollback

section Append

variable {news : List (Nat → α)}

/-- Rows of `t` are put behind those of `g`. -/
structure Extended (t : Nat) (g g' : NodeGroup α) : Prop where
  sound : SoundBut ∅ g'
  counted : g.numRows ≤ g'.numRows
  capacity : g'.capacity = g.capacity
  generations : g'.previousGenerations = g.previousGenerations
  disk : diskEnd g'.chunkedGroups = diskEnd g.chunkedGroups
  ends : endOf g.chunkedGroups ≤ endOf g'.chunkedGroups
  old : ∀ row < endOf g.chunkedGroups, cellAt g'.chunkedGroups row = cellAt g.chunkedGroups row
  new : ∀ row c, endOf g.chunkedGroups ≤ row → cellAt g'.chunkedGroups row = some c → c.insertion = t
  chains : ∀ P, Chains P g → Chains P g'

theorem diskEnd_concat (c : ChunkedNodeGroup α) (hc : c.residencyState = .inMemory) :
    diskEnd (bs ++ [c]) = diskEnd bs := by
  cases bs with
  | nil => simp [diskEnd, hc]
  | cons first rest => rfl

theorem soundBut_new (start : Nat) : (newChunkedGroup start : ChunkedNodeGroup α).SoundBut V where
  data _ := rfl
  fresh _ _ := ⟨⟨fun {j v} hv => by simp [vectorAt, newChunkedGroup] at hv,
    fun _ hpos => absurd hpos (lt_irrefl _)⟩, rfl⟩
  exclusive hpos := absurd hpos (lt_irrefl _)
  versioned k hk := absurd hk (Nat.not_lt_zero k)

theorem cellAt_concat {c : ChunkedNodeGroup α} (h : Layout bs) (h' : Layout (bs ++ [c])) (hc : c.numRows = 0)
    (row : Nat) : cellAt (bs ++ [c]) row = cellAt bs row := by
  have hget : ∀ {i : Nat} {b : ChunkedNodeGroup α}, bs[i]? = some b → (bs ++ [c])[i]? = some b := fun hb => by
    rwa [List.getElem?_append_left (List.getElem?_eq_some_iff.mp hb).1]
  cases hrow : cellAt bs row with
  | some x =>
    obtain ⟨i, b, k, hb, hk, rfl, rfl⟩ := mem_of_cellAt h hrow
    exact cellAt_of_mem h' (hget hb) hk
  | none =>
    cases hx : cellAt (bs ++ [c]) row with
    | none => rfl
    | some x =>
      obtain ⟨i, b, k, hb, hk, rfl, rfl⟩ := mem_of_cellAt h' hx
      rcases getElem?_concat_eq_some hb with hb | ⟨-, rfl⟩
      · rw [cellAt_of_mem h hb hk] at hrow
        simp at hrow
      · omega

theorem Extended.concat {g₁ : NodeGroup α} {start : Nat} (h : Extended t g g₁)
    (hlaid : WellLaid (g₁.chunkedGroups ++ [newChunkedGroup start]))
    (hends : endOf g₁.chunkedGroups ≤ start) : Extended t g (g₁.appendGroup (newChunkedGroup start)) := by
  have hcell := cellAt_concat h.sound.laid.layout hlaid.layout rfl
  refine ⟨⟨hlaid, fun {i b} hb => ?_, fun {b} hb => ?_, h.sound.emptied⟩, h.counted, h.capacity, h.generations, ?_, ?_,
    fun row hrow => (hcell row).trans (h.old row hrow), fun row c hrow hc => ?_, fun P hP => ?_⟩
  · rcases getElem?_concat_eq_some hb with hb | ⟨-, rfl⟩
    · exact h.sound.blocks hb
    · exact soundBut_new start
  · rcases getElem?_concat_eq_some hb with hb' | ⟨-, rfl⟩
    · exact h.sound.rooted hb'
    · rcases hlaid.first hb with hs | ho
      · cases hs
      · exact ho.2
  · exact (diskEnd_concat _ rfl).trans h.disk
  · rw [appendGroup, endOf_append]
    exact h.ends.trans hends
  · exact h.new row c hrow ((hcell row).symm.trans hc)
  · refine Chains.of_blocks (h.chains P hP) fun i b hb => ?_
    rcases getElem?_concat_eq_some hb with hb | ⟨-, rfl⟩
    · exact .inr ⟨i, b, hb, fun _ _ => rfl⟩
    · exact .inl fun _ _ => rfl

section Last

variable {g₁ : NodeGroup α} {init : List (ChunkedNodeGroup α)}

theorem getElem?_last (hbs : g₁.chunkedGroups = init ++ [b]) {b' c : ChunkedNodeGroup α}
    (hc : (init ++ [b'])[i]? = some c) : g₁.chunkedGroups[i]? = some c ∨ i = init.length ∧ c = b' := by
  rw [hbs]
  exact (getElem?_concat_swap b hc).imp_right And.right

variable (hbs : g₁.chunkedGroups = init ++ [b]) (hopen : b.Open) (hsound : b.SoundBut ∅)
  (hroom : b.numRows + news.length ≤ b.capacity) (hne : news ≠ [])

include hbs hopen hsound hroom hne

theorem cellAt_appendToLast (hlaid : WellLaid g₁.chunkedGroups) (hlaid' : WellLaid (init ++ [b.append t news]))
    (hrow : row < endOf g₁.chunkedGroups) :
    cellAt (init ++ [b.append t news]) row = cellAt g₁.chunkedGroups row := by
  have hcap : b.capacity ≤ vectorCapacity := hopen.capacity.le
  have happ : b.append t news = _ := append_of_room hroom
  have hcell : ∀ k < b.numRows, (b.append t news).cell k = b.cell k := fun k hk => by
    simp only [cell, append_row_of_lt hroom hcap hne hsound.sound hopen.inMemory hk]
    rfl
  have hb : g₁.chunkedGroups[init.length]? = some b := by simp [hbs]
  have hend : endOf g₁.chunkedGroups = b.startRowIdx + b.numRows := by rw [hbs, endOf_append]
  cases hc : cellAt g₁.chunkedGroups row with
  | some c =>
    obtain ⟨i, d, k, hd, hk, rfl, rfl⟩ := mem_of_cellAt hlaid.layout hc
    rw [hbs] at hd
    rcases getElem?_concat_swap (b.append t news) hd with hd' | ⟨-, rfl, rfl⟩
    · exact cellAt_of_mem hlaid'.layout hd' hk
    · rw [← hcell k hk]
      have hstart : d.startRowIdx = (d.append t news).startRowIdx := by rw [happ]
      rw [hstart]
      refine cellAt_of_mem hlaid'.layout (i := init.length) (by simp) ?_
      exact hk.trans_le (Nat.le_add_right _ _)
  | none =>
    cases hc' : cellAt (init ++ [b.append t news]) row with
    | none => rfl
    | some c =>
      obtain ⟨i, d, k, hd, hk, rfl, rfl⟩ := mem_of_cellAt hlaid'.layout hc'
      rcases getElem?_last hbs hd with hd | ⟨rfl, rfl⟩
      · rw [cellAt_of_mem hlaid.layout hd hk] at hc
        simp at hc
      · have hstart : (b.append t news).startRowIdx = b.startRowIdx := by rw [happ]
        rw [hstart] at hc hrow
        rw [cellAt_of_mem hlaid.layout hb (by omega)] at hc
        simp at hc

theorem insertion_appendToLast (ht : t ≠ invalidTransaction) (hlaid : WellLaid g₁.chunkedGroups)
    (hlaid' : WellLaid (init ++ [b.append t news])) (hrow : endOf g₁.chunkedGroups ≤ row) {c : Cell α}
    (hc : cellAt (init ++ [b.append t news]) row = some c) : c.insertion = t := by
  have hcap : b.capacity ≤ vectorCapacity := hopen.capacity.le
  have happ : b.append t news = _ := append_of_room hroom
  obtain ⟨i, d, k, hd, hk, rfl, rfl⟩ := mem_of_cellAt hlaid'.layout hc
  rcases getElem?_last hbs hd with hd | ⟨rfl, rfl⟩
  · have := hlaid.layout.endOf_le hd
    omega
  · have hstart : (b.append t news).startRowIdx = b.startRowIdx := by rw [happ]
    have hnum : (b.append t news).numRows = b.numRows + news.length := by rw [happ]
    rw [hbs, endOf_append] at hrow
    exact append_insertion_of_mem hroom hcap hne hsound.sound hopen.inMemory ht (by omega) (by omega)

end Last

theorem Extended.appendToLast {g₁ : NodeGroup α} (h : Extended t g g₁) (ht : t ≠ invalidTransaction)
    (hroom : g₁.HasRoom) (hne : news ≠ []) (hlen : news.length ≤ g₁.numToCopyIntoChunk)
    (hlaid : LaidTo n (g₁.appendToLast t news)) : Extended t g (g₁.appendToLast t news) := by
  obtain ⟨b, hb, hopen, -⟩ := hroom
  have hbs := eq_dropLast_append hb
  generalize g₁.chunkedGroups.dropLast = init at hbs
  have heq : g₁.appendToLast t news = { g₁ with chunkedGroups := init ++ [b.append t news] } := by
    simp [NodeGroup.appendToLast, hbs]
  have hnum := hopen.bound
  simp only [numToCopyIntoChunk, hb] at hlen
  have hroom : b.numRows + news.length ≤ b.capacity := by rw [hopen.capacity]; omega
  have happ : b.append t news = _ := append_of_room hroom
  have hlast : g₁.chunkedGroups[init.length]? = some b := by simp [hbs]
  have hsound := h.sound.blocks hlast
  have hend : endOf g₁.chunkedGroups ≤ endOf (init ++ [b.append t news]) := by
    rw [hbs, endOf_append, endOf_append, happ]
    simp only
    omega
  have hwell := hlaid.blocks
  rw [heq] at hwell ⊢
  have hcell : ∀ {row}, row < endOf g₁.chunkedGroups → _ :=
    cellAt_appendToLast hbs hopen hsound hroom hne h.sound.laid hwell
  refine ⟨⟨hwell, fun {i c} hc => ?_, fun {c} hc => ?_, h.sound.emptied⟩, h.counted, h.capacity, h.generations, ?_,
    h.ends.trans hend, fun row hrow => (hcell (hrow.trans_le h.ends)).trans (h.old row hrow),
    fun row c hrow hc => ?_, fun P hP => ?_⟩
  · rcases getElem?_last hbs hc with hc | ⟨-, rfl⟩
    · exact h.sound.blocks hc
    · exact (ChunkedNodeGroup.Sound.append hroom hopen.capacity.le hne hsound.sound hopen.inMemory ht).soundBut
  · rcases getElem?_last hbs hc with hc | ⟨hz, rfl⟩
    · exact h.sound.rooted hc
    · exact h.sound.rooted (b := b) (hz ▸ hlast)
  · rw [← h.disk, hbs]
    cases init with
    | nil => simp [diskEnd, happ, hopen.inMemory]
    | cons first rest => rfl
  · rcases Nat.lt_or_ge row (endOf g₁.chunkedGroups) with hlt | hge
    · exact h.new row c hrow ((hcell hlt).symm.trans hc)
    · exact insertion_appendToLast hbs hopen hsound hroom hne ht h.sound.laid hwell hge hc
  · refine Chains.of_blocks (h.chains P hP) fun i c hc => .inr ?_
    rcases getElem?_last hbs hc with hc | ⟨-, rfl⟩
    · exact ⟨i, c, hc, fun _ _ => rfl⟩
    · exact ⟨_, b, hlast, fun _ _ => by rfl⟩

theorem append_extended (h : SoundBut ∅ g) (hends : endOf g.chunkedGroups = g.numRows)
    (ht : t ≠ invalidTransaction) (rows : List (Nat → α)) :
    Triple (g = ·) (append t rows) (fun g' => Extended t g g' ∧ endOf g'.chunkedGroups ≤ g.numRows + rows.length)
      (fun g' => Extended t g g' ∧ endOf g'.chunkedGroups = g'.numRows ∧ g'.numRows = g.numRows + rows.length) := by
  have hself : Extended t g g := ⟨h, le_rfl, rfl, rfl, rfl, le_rfl, fun _ _ => rfl, fun row c hrow hc => by
    have := row_lt_endOf h.laid.layout hc
    omega, fun _ hP => hP⟩
  refine (append_triple ⟨h.laid, hends⟩ rows ?_ ?_ ?_ ?_).consequence
    (fun _ => id) (fun _ hg => ⟨hg.1, hg.2.2⟩) fun _ hg => ⟨hg.1, hg.2.laid.endOf, hg.2.numRows⟩
  · have hlaid := (Laid.openFirst ⟨h.laid, hends⟩).blocks
    unfold openFirst at hlaid ⊢
    split_ifs at hlaid ⊢ with hempty
    · refine hself.concat hlaid ?_
      rw [isEmpty_iff.mp hempty]
      rfl
    · exact hself
  · intro g' n hlaid hX hlaid'
    have hblocks := hlaid'.blocks
    unfold openChunkedGroup at hblocks ⊢
    obtain ⟨b, hb⟩ := hlaid.exists_last
    simp only [hb] at hblocks ⊢
    split_ifs at hblocks ⊢
    · exact hX.concat hblocks hlaid.endOf.le
    · exact hX
  · exact fun g' n news hX hroom hne hlen hlaid => hX.appendToLast ht hroom hne hlen hlaid
  · intro g' hX
    refine ⟨⟨hX.sound.laid, hX.sound.blocks, hX.sound.rooted, fun hzero => ?_⟩,
      hX.counted.trans (Nat.le_add_right _ _), hX.capacity, hX.generations, hX.disk, hX.ends, hX.old, hX.new, hX.chains⟩
    exact hX.sound.emptied (Nat.eq_zero_of_add_eq_zero_right hzero)

end Append

end NodeGroup

end Rag3db.Storage
