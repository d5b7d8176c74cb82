import Rag3db.Transaction.LockTable

open List

namespace Rag3db.Transaction.LockManager

variable {m : LockManager} {t u : TransactionId} {request : LockRequest} {r : LockResource}

variable (m t request)

theorem stateOf_joinTheQueue : (m.joinTheQueue t request).stateOf r = if r = request.resource then
      { m.stateOf r with waiters := (m.stateOf r).waiters ++ [⟨t, request.mode⟩] }
    else m.stateOf r := by
  by_cases hr : r = request.resource <;> simp [joinTheQueue, hr]

theorem stateOf_leaveTheQueue : (m.leaveTheQueue t request).stateOf r = if r = request.resource then
      removeWaiterNoLock (m.stateOf r) t else m.stateOf r := by
  by_cases hr : r = request.resource <;> simp [leaveTheQueue, hr]

theorem lookup_waitingFor_joinTheQueue : (m.joinTheQueue t request).waitingFor.lookup u =
      if u = t then some request.resource else m.waitingFor.lookup u := by
  by_cases hu : u = t
  · subst hu
    simp [joinTheQueue, setWaiting]
  · simp [joinTheQueue, setWaiting, hu]

theorem lookup_waitingFor_leaveTheQueue : (m.leaveTheQueue t request).waitingFor.lookup u =
      if u = t then none else m.waitingFor.lookup u := by
  by_cases hu : u = t
  · subst hu
    simp [leaveTheQueue, clearWaiting]
  · simp [leaveTheQueue, clearWaiting, hu]

theorem holders_joinTheQueue (r : LockResource) :
    ((m.joinTheQueue t request).stateOf r).holders = (m.stateOf r).holders := by
  rw [stateOf_joinTheQueue]
  split_ifs <;> rfl

theorem holders_leaveTheQueue (r : LockResource) :
    ((m.leaveTheQueue t request).stateOf r).holders = (m.stateOf r).holders := by
  rw [stateOf_leaveTheQueue]
  split_ifs <;> rfl

variable {m t request}

theorem Coherent.joinTheQueue (hc : Coherent m) (hn : t ∉ m.waitingFor)
    (hup : t ∈ (m.stateOf request.resource).holders → request.mode = .exclusive) :
    Coherent (m.joinTheQueue t request) where
  exclusive r a b := by simpa only [holders_joinTheQueue] using hc.exclusive r a b
  held_iff a r := by
    rw [holders_joinTheQueue]
    exact hc.held_iff a r
  held_nodup := hc.held_nodup
  waiting_iff a r := by
    have hnq := fun mode => hc.not_queued hn r mode
    rw [lookup_waitingFor_joinTheQueue, stateOf_joinTheQueue]
    split_ifs with ha hr hr
    · subst ha hr
      simp
    · subst ha
      simpa [Ne.symm hr] using hnq
    · simp [hc.waiting_iff, ha]
    · exact hc.waiting_iff a r
  queue_nodup r := by
    have hnq := fun mode => hc.not_queued hn r mode
    have hd := hc.queue_nodup r
    rw [stateOf_joinTheQueue]
    split_ifs with hr
    · rw [map_append]
      refine hd.append (nodup_singleton _) ?_
      rw [map_singleton, disjoint_singleton]
      rintro hm
      obtain ⟨⟨a, mode⟩, hw, rfl⟩ := mem_map.mp hm
      exact hnq mode hw
    · exact hd
  upgrade r a mode := by
    rw [stateOf_joinTheQueue]
    split_ifs with hr
    · subst hr
      intro hw ha
      rcases mem_append.mp hw with hw | hw
      · exact hc.upgrade _ a mode hw ha
      · obtain ⟨rfl, rfl⟩ := Waiter.mk.inj (mem_singleton.mp hw)
        exact hup ha
    · exact hc.upgrade r a mode

theorem Coherent.leaveTheQueue (hc : Coherent m)
    (hw : m.waitingFor.lookup t = some request.resource) : Coherent (m.leaveTheQueue t request) where
  exclusive r a b := by simpa only [holders_leaveTheQueue] using hc.exclusive r a b
  held_iff a r := by
    rw [holders_leaveTheQueue]
    exact hc.held_iff a r
  held_nodup := hc.held_nodup
  waiting_iff a r := by
    rw [lookup_waitingFor_leaveTheQueue, stateOf_leaveTheQueue]
    split_ifs with ha hr hr
    · subst ha
      simp [removeWaiterNoLock]
    · -- the transaction waited for the one resource it has just left
      subst ha
      have := hc.waiting_iff a r
      simpa [hw, Ne.symm hr] using this
    · simp [hc.waiting_iff, removeWaiterNoLock, ha]
    · exact hc.waiting_iff a r
  queue_nodup r := by
    have hd := hc.queue_nodup r
    rw [stateOf_leaveTheQueue]
    split_ifs with hr
    · exact hd.sublist (filter_sublist.map _)
    · exact hd
  upgrade r a mode := by
    rw [stateOf_leaveTheQueue]
    split_ifs
    · exact fun hw ha => hc.upgrade r a mode (mem_of_mem_filter hw) ha
    · exact hc.upgrade r a mode

theorem not_mem_waitingFor_leaveTheQueue (m : LockManager) (t : TransactionId) (request : LockRequest) :
    t ∉ (m.leaveTheQueue t request).waitingFor := by
  rw [← AList.lookup_eq_none, lookup_waitingFor_leaveTheQueue, if_pos rfl]

end Rag3db.Transaction.LockManager
