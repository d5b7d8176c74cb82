import Rag3db.Storage.KeptGroup

namespace Rag3db.Storage

variable {α : Type}

namespace NodeTable

variable {table : NodeTable α} {s : Snapshot} {idx j offset columnID : Nat} {g : NodeGroup α}

def group (table : NodeTable α) (nodeGroupIdx : Nat) : NodeGroup α := table.nodeGroups[nodeGroupIdx]?.getD {}

theorem group_of_getElem? (h : table.nodeGroups[idx]? = some g) : table.group idx = g := by
  simp [group, h]

theorem lookup_none : ({} : NodeGroup α).lookup s offset columnID = none := rfl

theorem lookup_eq : table.lookup s offset columnID =
    (table.group (offset / nodeGroupSize)).lookup s (offset % nodeGroupSize) columnID := by
  unfold lookup group
  cases table.nodeGroups[offset / nodeGroupSize]? with
  | none => exact lookup_none.symm
  | some g => rfl

theorem group_modifyNodeGroup {f : NodeGroup α → NodeGroup α} : (table.modifyNodeGroup idx f).group j =
      if j = idx ∧ idx < table.nodeGroups.length then f (table.group idx) else table.group j := by
  unfold group modifyNodeGroup
  by_cases hj : j = idx
  · subst hj
    rcases Nat.lt_or_ge j table.nodeGroups.length with hlt | hge
    · simp [hlt]
    · simp [Nat.not_lt.mpr hge]
  · simp [hj, Ne.symm hj]

theorem group_openNodeGroup : (table.openNodeGroup).group j = table.group j := by
  have hconcat : (table.nodeGroups ++ [({} : NodeGroup α)])[j]?.getD {} = table.nodeGroups[j]?.getD {} := by
    rcases Nat.lt_or_ge j table.nodeGroups.length with hlt | hge
    · rw [List.getElem?_append_left hlt]
    · rw [List.getElem?_append_right hge, List.getElem?_eq_none hge]
      cases hj : j - table.nodeGroups.length <;> simp
  unfold openNodeGroup group
  cases hlast : table.nodeGroups.getLast? with
  | none =>
    rw [List.getLast?_eq_none_iff.mp hlast] at hconcat ⊢
    exact hconcat
  | some g =>
    cases hfull : g.isFull with
    | false => simp [hfull]
    | true => simpa [hfull] using hconcat

theorem group_rollbackInsert {numRows : Nat} : (table.rollbackInsert numRows).group j = table.group j ∨
    (table.rollbackInsert numRows).group j = {} ∧ (table.group j).numRows = 0 := by
  unfold rollbackInsert group
  cases hg : table.nodeGroups[j]? with
  | none =>
    refine .inl ?_
    cases hd : (table.nodeGroups.rdropWhile (·.isEmpty))[j]? with
    | none => rfl
    | some g =>
      rw [getElem?_of_rdropWhile hd] at hg
      simp at hg
  | some g =>
    by_cases hempty : g.isEmpty = true
    · cases hd : (table.nodeGroups.rdropWhile (·.isEmpty))[j]? with
      | none =>
        refine .inr ⟨by simp, ?_⟩
        simpa [NodeGroup.isEmpty] using hempty
      | some g' =>
        cases (getElem?_of_rdropWhile hd).symm.trans hg
        exact .inl (by simp)
    · exact .inl (by simp [rdropWhile_getElem? hg (by simpa using hempty)])

end NodeTable

end Rag3db.Storage
