import Rag3db.Transaction.LockAcquire

open AList

namespace Rag3db.Transaction.LockManager

variable {m : LockManager} {t u : TransactionId} {r r' : LockResource} {state : ResourceState}
  {held : List LockResource}

def withoutHolder (state : ResourceState) (t : TransactionId) : ResourceState :=
  { state with holders := state.holders.erase t }

@[simp] theorem waiters_withoutHolder : (withoutHolder state t).waiters = state.waiters := rfl

theorem withoutHolder_of_not_mem (h : t ∉ state.holders) : withoutHolder state t = state := by
  obtain ⟨holders, waiters⟩ := state
  simp only [withoutHolder, ResourceState.mk.injEq, and_true]
  exact ext (List.kerase_of_notMem_keys h)

theorem withoutHolder_twice : withoutHolder (withoutHolder state t) t = withoutHolder state t :=
  withoutHolder_of_not_mem fun h => (mem_erase.mp h).1 rfl

theorem stateOf_releaseOne :
    (releaseOne t m r).stateOf r' = if r' = r then withoutHolder (m.stateOf r') t else m.stateOf r' := by
  unfold releaseOne
  split
  · next hn =>
      split_ifs with hr
      · rw [withoutHolder_of_not_mem]
        simp [hr, stateOf_of_not_mem (lookup_eq_none.mp hn)]
      · rfl
  · next state hs =>
      rw [(agrees_eraseIfUnused _ r).stateOf, stateOf_setState]
      split_ifs with hr
      · rw [hr, stateOf_of_lookup hs, withoutHolder]
      · rfl

theorem heldBy_releaseOne : (releaseOne t m r).heldBy = m.heldBy := by
  unfold releaseOne
  split
  · rfl
  · rw [(agrees_eraseIfUnused _ r).heldBy, heldBy_setState]

theorem waitingFor_releaseOne : (releaseOne t m r).waitingFor = m.waitingFor := by
  unfold releaseOne
  split
  · rfl
  · rw [(agrees_eraseIfUnused _ r).waitingFor, waitingFor_setState]

theorem UsedExcept.releaseOne (h : UsedExcept [] m) : UsedExcept [] (releaseOne t m r) := by
  unfold LockManager.releaseOne
  split
  · exact h
  · exact h.setState_exempt.eraseIfUnused

theorem stateOf_foldl_releaseOne : (held.foldl (releaseOne t) m).stateOf r =
      if r ∈ held then withoutHolder (m.stateOf r) t else m.stateOf r := by
  induction held generalizing m with
  | nil => rfl
  | cons r₀ held ih =>
    rw [List.foldl_cons, ih, stateOf_releaseOne]
    by_cases hr : r = r₀ <;> simp [hr, withoutHolder_twice]

theorem foldl_releaseOne_frame :
    (held.foldl (releaseOne t) m).heldBy = m.heldBy ∧ (held.foldl (releaseOne t) m).waitingFor = m.waitingFor ∧
      (UsedExcept [] m → UsedExcept [] (held.foldl (releaseOne t) m)) := by
  induction held generalizing m with
  | nil => exact ⟨rfl, rfl, id⟩
  | cons r held ih =>
    obtain ⟨hh, hw, hu⟩ := ih (m := releaseOne t m r)
    exact ⟨hh.trans heldBy_releaseOne, hw.trans waitingFor_releaseOne, fun h => hu h.releaseOne⟩

theorem waitingFor_releaseAll : (m.releaseAll t).waitingFor = m.waitingFor := by
  unfold releaseAll
  split
  · rfl
  · exact foldl_releaseOne_frame.2.1

theorem held_releaseAll : (m.releaseAll t).held u = if u = t then [] else m.held u := by
  unfold releaseAll held
  split
  · next hn =>
      split_ifs with hu
      · rw [hu, hn]
        rfl
      · rfl
  · split_ifs with hu
    · subst hu
      simp
    · simp [lookup_erase_ne hu]

/-- Releasing takes the transaction out of the holders of every resource, and
touches nothing else. -/
theorem stateOf_releaseAll (hc : Coherent m) (t : TransactionId) (r : LockResource) :
    (m.releaseAll t).stateOf r = withoutHolder (m.stateOf r) t := by
  have hiff := hc.held_iff t r
  unfold releaseAll
  split
  · next hn =>
      rw [withoutHolder_of_not_mem]
      rw [← hiff, held, hn]
      exact List.not_mem_nil
  · next held hl =>
      have hheld : m.held t = held := by simp [LockManager.held, hl]
      change (held.foldl (releaseOne t) m).stateOf r = _
      rw [stateOf_foldl_releaseOne]
      split_ifs with hr
      · rfl
      · rw [withoutHolder_of_not_mem]
        rwa [← hiff, hheld]

theorem UsedExcept.releaseAll (h : UsedExcept [] m) : UsedExcept [] (m.releaseAll t) := by
  unfold LockManager.releaseAll
  split
  · exact h
  · exact foldl_releaseOne_frame.2.2 h

theorem Coherent.releaseAll (hc : Coherent m) : Coherent (m.releaseAll t) where
  exclusive r a b := by
    rw [stateOf_releaseAll hc]
    intro ha hb
    have hat : a ≠ t := by
      rintro rfl
      simp [withoutHolder] at ha
    rw [withoutHolder, lookup_erase_ne hat] at ha
    exact hc.exclusive r a b ha (mem_erase.mp hb).2
  held_iff a r := by
    rw [stateOf_releaseAll hc, held_releaseAll, withoutHolder, mem_erase, ← hc.held_iff]
    split_ifs with ha <;> simp [ha]
  held_nodup a := by
    rw [held_releaseAll]
    split_ifs
    · exact List.nodup_nil
    · exact hc.held_nodup a
  waiting_iff a r := by
    rw [waitingFor_releaseAll, stateOf_releaseAll hc]
    exact hc.waiting_iff a r
  queue_nodup r := by
    rw [stateOf_releaseAll hc]
    exact hc.queue_nodup r
  upgrade r a mode := by
    rw [stateOf_releaseAll hc]
    exact fun hw ha => hc.upgrade r a mode hw (mem_erase.mp ha).2

end Rag3db.Transaction.LockManager
