import Rag3db.Weaver.RowWrites

open List

namespace Rag3db.Weaver

attribute [local instance] lawfulBEq_rowKey

variable {V : Type}

/-- A call on one row. -/
inductive RowCall (V : Type)
  | create (r : RowRecord V)
  | update (r : RowRecord V)
  | delete (key : RowKey)

def RowCall.key : RowCall V → RowKey
  | .create r => r.key
  | .update r => r.key
  | .delete key => key

/-- The rows in `PendingWork`, one list for each kind of write. -/
structure PendingRows (V : Type) where
  entities : List (RowRecord V) := []
  updates : List (RowRecord V) := []
  deletes : List RowKey := []

namespace PendingRows

variable (q : PendingRows V)

def push : RowCall V → PendingRows V
  | .create r => { q with entities := q.entities ++ [r] }
  | .update r => { q with updates := q.updates ++ [r] }
  | .delete key => { q with deletes := q.deletes ++ [key] }

/-- The graph of a drain: a delete wins over the updates of its row, then
deletes, updates and inserts run in this order. -/
def drain (o : HashOrder V) (t : EntityTables V) : EntityTables V :=
  insertRecords o q.entities (updateRecords o (q.updates.filter (·.key ∉ q.deletes)) (deleteRows q.deletes t))

end PendingRows

def drainOnce (o : HashOrder V) (calls : List (RowCall V)) (t : EntityTables V) : EntityTables V :=
  (calls.foldl PendingRows.push {}).drain o t

def drainEach (o : HashOrder V) (calls : List (RowCall V)) (t : EntityTables V) : EntityTables V :=
  calls.foldl (fun t c => (({} : PendingRows V).push c).drain o t) t

/-- No call is about a row whose creation is in the queue, but another creation
with the same columns. -/
def CreatesLast (calls : List (RowCall V)) : Prop :=
  calls.Pairwise fun c later => ∀ r, c = .create r → later.key = r.key →
    ∃ r', later = .create r' ∧ r'.columns = r.columns

namespace PendingRows

variable {q : PendingRows V} {o : HashOrder V} {t : EntityTables V} {k : RowKey}

theorem drain_apply (h : Coherent q.entities) :
    q.drain o t k = (q.entities.filter (·.key = k)).foldl (fun row r => r.upsert row)
      (if k ∈ q.deletes then none else (q.updates.filter (·.key = k)).foldl (fun row r => r.set row) (t k)) := by
  have hfilter : (q.updates.filter (·.key ∉ q.deletes)).filter (·.key = k) =
      if k ∈ q.deletes then [] else q.updates.filter (·.key = k) := by
    rw [filter_filter]
    split_ifs with hk
    · refine filter_eq_nil_iff.mpr fun u _ => ?_
      simp only [Bool.and_eq_true, decide_eq_true_eq, not_and, not_not]
      exact fun he => he ▸ hk
    · refine filter_congr fun u _ => ?_
      by_cases hu : u.key = k
      · simp [hu, hk]
      · simp [hu]
  rw [drain, insertRecords_apply h, updateRecords_apply, hfilter, deleteRows]
  split_ifs <;> rfl

/-- In whatever order the hash maps give their groups, a drain leaves the same rows. -/
theorem drain_hashOrder (o o' : HashOrder V) (h : (q.entities.map (·.key)).Nodup) : q.drain o t = q.drain o' t := by
  funext k
  rw [drain_apply (coherent_of_nodup h), drain_apply (coherent_of_nodup h)]

def lastSeen : HashOrder V where
  groups l := (firstSeen.groups l).reverse
  nodup l := nodup_reverse.mpr (firstSeen.nodup l)
  covers l r hr := mem_reverse.mpr (firstSeen.covers l r hr)

/-- Rows of two entities are created, and two rows of the table are updated in
other columns each. -/
theorem drain_hashOrder_reversed :
    let q : PendingRows Nat := ⟨[titled "a" 1, ⟨("Tag", "c"), [], fun _ => none⟩],
      [titled "b" 2, ⟨("Note", "d"), ["text"], fun _ => some 3⟩], []⟩
    let t : EntityTables Nat := fun _ => some fun _ => some 0
    inGroups firstSeen q.entities ≠ inGroups lastSeen q.entities ∧ q.drain firstSeen t = q.drain lastSeen t ∧
      titleOf (q.drain lastSeen t) "a" = some (some 1) ∧ titleOf (q.drain lastSeen t) "b" = some (some 2) := by
  intro q t
  refine ⟨fun he => ?_, drain_hashOrder firstSeen lastSeen (by decide), rfl, rfl⟩
  exact absurd (congrArg (List.map (·.key)) he) (by decide)

section

variable {c : RowCall V} (h : Coherent q.entities)
  (hc : ∀ r ∈ q.entities, c.key = r.key → ∃ r', c = .create r' ∧ r'.columns = r.columns)

include h hc

theorem coherent_push : Coherent (q.push c).entities := by
  cases c with
  | create r =>
    have hnew : ∀ r' ∈ q.entities, r.key = r'.key → r.group = r'.group := by
      intro r' hr' he
      obtain ⟨_, hcreate, hcolumns⟩ := hc r' hr' he
      cases hcreate
      exact congrArg₂ Prod.mk (congrArg Prod.fst he) hcolumns
    intro r₁ h₁ r₂ h₂ he
    rcases mem_append.mp h₁ with h₁ | h₁ <;> rcases mem_append.mp h₂ with h₂ | h₂
    · exact h r₁ h₁ r₂ h₂ he
    · cases mem_singleton.mp h₂
      exact (hnew r₁ h₁ he.symm).symm
    · cases mem_singleton.mp h₁
      exact hnew r₂ h₂ he
    · rw [mem_singleton.mp h₁, mem_singleton.mp h₂]
  | update | delete => exact h

theorem drain_push :
    (q.push c).drain o t = (({} : PendingRows V).push c).drain o (q.drain o t) := by
  have hnone : (∀ r, c ≠ .create r) → q.entities.filter (·.key = c.key) = [] := fun hcreate =>
    filter_eq_nil_iff.mpr fun r hr => by
      simpa using fun he : r.key = c.key => (hc r hr he.symm).elim fun r' hr' => hcreate r' hr'.1
  funext k
  cases c with
  | create r =>
    rw [drain_apply (coherent_push h hc), drain_apply (by simp [push]), drain_apply h]
    simp only [push, filter_append, foldl_append]
    rfl
  | update u =>
    replace hnone := hnone nofun
    rw [drain_apply (q := q.push (.update u)) h, drain_apply (by simp [push]), drain_apply h]
    by_cases hk : u.key = k
    · subst hk
      rw [RowCall.key] at hnone
      by_cases hdel : u.key ∈ q.deletes
      · simp [push, hnone, hdel, RowRecord.set]
      · simp [push, hnone, hdel]
    · simp [push, hk]
  | delete key =>
    replace hnone := hnone nofun
    rw [drain_apply (q := q.push (.delete key)) h, drain_apply (by simp [push]), drain_apply h]
    by_cases hk : k = key
    · subst hk
      rw [RowCall.key] at hnone
      simp [push, hnone]
    · simp [push, hk]

end

end PendingRows

variable {o : HashOrder V} {calls : List (RowCall V)}

theorem mem_pushed {q : PendingRows V} {r : RowRecord V} (h : r ∈ (calls.foldl PendingRows.push q).entities) :
    r ∈ q.entities ∨ .create r ∈ calls := by
  induction calls generalizing q with
  | nil => exact .inl h
  | cons c calls ih =>
    rcases ih h with hr | hr
    · cases c with
      | create r' =>
        rcases mem_append.mp hr with hr | hr
        · exact .inl hr
        · exact .inr (mem_singleton.mp hr ▸ mem_cons_self)
      | update | delete => exact .inl hr
    · exact .inr (mem_cons_of_mem c hr)

end Rag3db.Weaver
