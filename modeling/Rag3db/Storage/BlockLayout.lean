import Rag3db.Storage.NodeGroup

open List

namespace Rag3db.Storage

variable {α : Type} {bs rest : List (ChunkedNodeGroup α)} {first b : ChunkedNodeGroup α} {i k r : Nat}

def endOf (bs : List (ChunkedNodeGroup α)) : Nat :=
  match bs.getLast? with
  | none => 0
  | some b => b.startRowIdx + b.numRows

def firstRow (bs : List (ChunkedNodeGroup α)) : Nat :=
  match bs.head? with
  | none => 0
  | some b => b.startRowIdx

/-- Blocks that `findChunkedGroupIdx` finds its way in: behind the first one,
of any size, they hold `chunkedNodeGroupCapacity` rows each, the last at most. -/
structure Layout (bs : List (ChunkedNodeGroup α)) : Prop where
  start : ∀ {first b : ChunkedNodeGroup α} {rest} {i : Nat}, bs = first :: rest → rest[i]? = some b →
    b.startRowIdx = first.startRowIdx + first.numRows + i * chunkedNodeGroupCapacity
  full : ∀ {first b : ChunkedNodeGroup α} {rest} {i : Nat}, bs = first :: rest → rest[i]? = some b →
    i + 1 < rest.length → b.numRows = chunkedNodeGroupCapacity
  bound : ∀ {first b : ChunkedNodeGroup α} {rest} {i : Nat}, bs = first :: rest → rest[i]? = some b →
    b.numRows ≤ chunkedNodeGroupCapacity

theorem capacity_pos : 0 < chunkedNodeGroupCapacity := by decide

theorem layout_nil : Layout ([] : List (ChunkedNodeGroup α)) := ⟨nofun, nofun, nofun⟩

theorem layout_single : Layout [b] := by
  refine ⟨?_, ?_, ?_⟩ <;>
  · rintro first rest i b' he hb
    obtain ⟨rfl, rfl⟩ := List.cons.inj he
    simp at hb

theorem endOf_single : endOf [b] = b.startRowIdx + b.numRows := rfl

theorem endOf_append (bs : List (ChunkedNodeGroup α)) (b : ChunkedNodeGroup α) :
    endOf (bs ++ [b]) = b.startRowIdx + b.numRows := by
  simp [endOf]

section Lists

variable {β : Type} {l : List β} {x y z : β}

theorem getElem?_concat_eq_some (h : (l ++ [x])[i]? = some y) : l[i]? = some y ∨ i = l.length ∧ y = x := by
  rcases Nat.lt_or_ge i l.length with hi | hi
  · rw [getElem?_append_left hi] at h
    exact .inl h
  · rw [getElem?_append_right hi] at h
    obtain ⟨hz, rfl⟩ : i - l.length = 0 ∧ x = y := by simpa [getElem?_singleton] using h
    exact .inr ⟨by omega, rfl⟩

theorem getElem?_concat_swap (x : β) (h : (l ++ [y])[i]? = some z) :
    (l ++ [x])[i]? = some z ∨ (l ++ [x])[i]? = some x ∧ i = l.length ∧ z = y := by
  rcases getElem?_concat_eq_some h with hold | ⟨rfl, rfl⟩
  · rw [getElem?_append_left (List.getElem?_eq_some_iff.mp hold).1]
    exact .inl hold
  · exact .inr ⟨by simp, rfl, rfl⟩

theorem getElem?_set_eq_some (h : (l.set k x)[i]? = some y) : i = k ∧ y = x ∨ i ≠ k ∧ l[i]? = some y := by
  by_cases hi : i = k
  · subst hi
    have hlt : i < l.length := by simpa using (List.getElem?_eq_some_iff.mp h).1
    rw [getElem?_set_self hlt] at h
    exact .inl ⟨rfl, (Option.some.inj h).symm⟩
  · rw [getElem?_set_ne (Ne.symm hi)] at h
    exact .inr ⟨hi, h⟩

end Lists

namespace Layout

theorem contiguous {b' : ChunkedNodeGroup α} (h : Layout bs) (hb : bs[i]? = some b)
    (hb' : bs[i + 1]? = some b') : b'.startRowIdx = b.startRowIdx + b.numRows := by
  cases bs with
  | nil => simp at hb
  | cons first rest =>
    rw [getElem?_cons_succ] at hb'
    have hstart' := h.start rfl hb'
    cases i with
    | zero =>
      obtain rfl : first = b := by simpa using hb
      simpa using hstart'
    | succ i =>
      have hlt : i + 1 < rest.length := (List.getElem?_eq_some_iff.mp hb').1
      have hstart := h.start rfl hb
      have hfull := h.full rfl hb hlt
      rw [Nat.add_mul] at hstart'
      omega

theorem endOf_eq (h : Layout (first :: rest)) (hr : rest[i]? = some b) (hi : i + 1 = rest.length) :
    endOf (first :: rest) =
      first.startRowIdx + first.numRows + i * chunkedNodeGroupCapacity + b.numRows := by
  have hlast : (first :: rest).getLast? = some b := by
    rw [getLast?_eq_getElem?]
    simp only [length_cons, Nat.add_sub_cancel, ← hi, getElem?_cons_succ, hr]
  simp only [endOf, hlast, h.start rfl hr]

theorem find_of_mem (h : Layout bs) (hb : bs[i]? = some b) (hk : k < b.numRows) :
    findChunkedGroupIdx bs (b.startRowIdx + k) = some (i, k) := by
  cases bs with
  | nil => simp at hb
  | cons first rest =>
    cases i with
    | zero =>
      obtain rfl : first = b := by simpa using hb
      simp [findChunkedGroupIdx, hk]
    | succ i =>
      rw [getElem?_cons_succ] at hb
      have hlt : i < rest.length := (List.getElem?_eq_some_iff.mp hb).1
      have hkc : k < chunkedNodeGroupCapacity := hk.trans_le (h.bound rfl hb)
      have hrow : b.startRowIdx + k - first.startRowIdx - first.numRows = chunkedNodeGroupCapacity * i + k := by
        rw [h.start rfl hb, Nat.mul_comm i]
        omega
      have hstart := h.start rfl hb
      have hdiv : (chunkedNodeGroupCapacity * i + k) / chunkedNodeGroupCapacity = i := by
        rw [Nat.mul_add_div capacity_pos, Nat.div_eq_of_lt hkc, Nat.add_zero]
      simp only [findChunkedGroupIdx]
      rw [if_neg (by omega), if_neg (by omega), hrow, hdiv, if_neg (by omega), Nat.mul_add_mod, Nat.mod_eq_of_lt hkc]

theorem mem_of_find (h : Layout bs) (hf : findChunkedGroupIdx bs r = some (i, k)) :
    ∃ b, bs[i]? = some b ∧ r = b.startRowIdx + k ∧ (k < b.numRows ∨ i + 1 = bs.length) := by
  cases bs with
  | nil => simp [findChunkedGroupIdx] at hf
  | cons first rest =>
    simp only [findChunkedGroupIdx] at hf
    by_cases hlow : r < first.startRowIdx
    · simp [hlow] at hf
    by_cases hin : r - first.startRowIdx < first.numRows
    · rw [if_neg hlow, if_pos hin] at hf
      obtain ⟨rfl, rfl⟩ := Prod.mk.inj (Option.some.inj hf)
      exact ⟨first, rfl, by omega, .inl hin⟩
    · rw [if_neg hlow, if_neg hin] at hf
      obtain ⟨hidx, hf⟩ := Option.ite_none_left_eq_some.mp hf
      obtain ⟨rfl, rfl⟩ := Prod.mk.inj (Option.some.inj hf)
      obtain ⟨b, hb⟩ : ∃ b, rest[(r - first.startRowIdx - first.numRows) / chunkedNodeGroupCapacity]? = some b :=
        ⟨_, getElem?_eq_getElem (by omega)⟩
      refine ⟨b, by simpa using hb, ?_, ?_⟩
      · have hdm := Nat.div_add_mod (r - first.startRowIdx - first.numRows) chunkedNodeGroupCapacity
        rw [h.start rfl hb, Nat.mul_comm _ chunkedNodeGroupCapacity]
        omega
      · by_cases hlast : (r - first.startRowIdx - first.numRows) / chunkedNodeGroupCapacity + 1 < rest.length
        · rw [h.full rfl hb hlast]
          exact .inl (Nat.mod_lt _ capacity_pos)
        · simp only [length_cons]
          omega

theorem endOf_le (h : Layout bs) (hb : bs[i]? = some b) : b.startRowIdx + b.numRows ≤ endOf bs := by
  cases bs with
  | nil => simp at hb
  | cons first rest =>
    rcases eq_nil_or_concat rest with rfl | ⟨init, last, rfl⟩
    · cases i with
      | zero =>
        obtain rfl : first = b := by simpa using hb
        exact le_rfl
      | succ i => simp at hb
    · have hlast : (init ++ [last])[init.length]? = some last := by simp
      rw [concat_eq_append] at *
      have hend := h.endOf_eq hlast (by simp)
      cases i with
      | zero =>
        obtain rfl : first = b := by simpa using hb
        omega
      | succ i =>
        rw [getElem?_cons_succ] at hb
        have hlt : i < (init ++ [last]).length := (List.getElem?_eq_some_iff.mp hb).1
        rw [length_append, length_singleton] at hlt
        rw [hend, h.start rfl hb]
        by_cases hi : i = init.length
        · subst hi
          obtain rfl : last = b := by simpa using hb
          exact le_rfl
        · have hfull := h.full rfl hb (by simp; omega)
          have hmul : (i + 1) * chunkedNodeGroupCapacity ≤ init.length * chunkedNodeGroupCapacity :=
            Nat.mul_le_mul_right _ (by omega)
          rw [Nat.add_mul] at hmul
          omega

theorem find_lt_endOf (h : Layout (first :: rest)) (hlow : first.startRowIdx ≤ r) (hr : r < endOf (first :: rest)) :
    ∃ i k b, findChunkedGroupIdx (first :: rest) r = some (i, k) ∧ (first :: rest)[i]? = some b ∧
      r = b.startRowIdx + k ∧ k < b.numRows := by
  obtain ⟨⟨i, k⟩, hf⟩ : ∃ found, findChunkedGroupIdx (first :: rest) r = some found := by
    simp only [findChunkedGroupIdx, if_neg (Nat.not_lt.mpr hlow)]
    by_cases hin : r - first.startRowIdx < first.numRows
    · exact ⟨_, if_pos hin⟩
    · rw [if_neg hin]
      refine ⟨_, if_neg ?_⟩
      rcases eq_nil_or_concat rest with rfl | ⟨init, last, rfl⟩
      · simp only [endOf, getLast?_singleton] at hr
        omega
      · rw [concat_eq_append] at *
        have hlast : (init ++ [last])[init.length]? = some last := by simp
        have hend := h.endOf_eq hlast (by simp)
        have hbound := h.bound rfl hlast
        have hlt : r - first.startRowIdx - first.numRows < (init.length + 1) * chunkedNodeGroupCapacity := by
          rw [Nat.add_mul]
          omega
        have hdiv := Nat.div_lt_of_lt_mul (Nat.mul_comm _ chunkedNodeGroupCapacity ▸ hlt)
        simp only [length_append, length_singleton]
        omega
  obtain ⟨b, hb, hrow, hk | hlast⟩ := h.mem_of_find hf
  · exact ⟨i, k, b, hf, hb, hrow, hk⟩
  · refine ⟨i, k, b, hf, hb, hrow, ?_⟩
    have hget : (first :: rest).getLast? = some b := by
      rw [getLast?_eq_getElem?, ← hlast, Nat.add_sub_cancel, hb]
    simp only [endOf, hget] at hr
    omega

end Layout

end Rag3db.Storage
