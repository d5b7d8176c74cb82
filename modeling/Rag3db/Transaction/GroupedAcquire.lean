import Rag3db.Transaction.GroupedLocks

open List

namespace Rag3db.Transaction

namespace LockManager

variable {m m' : LockManager} {t u : TransactionId} {request : LockRequest} {taken rest requests : List LockRequest}

theorem OthersKeep.waitsUpwards (h : OthersKeep t m m') (hu : u ≠ t) (hw : WaitsUpwards m u) :
    WaitsUpwards m' u := fun r r' hr hh => by
  rw [h.waitingFor u hu] at hr
  refine hw r r' hr ?_
  rwa [← AList.lookup_isSome, h.holders r' u hu, AList.lookup_isSome] at hh

theorem HoldsExactly.below (h : HoldsExactly m t taken) (hasc : Ascending (taken ++ request :: rest)) :
    ∀ r, t ∈ (m.stateOf r).holders → r < request.resource := by
  intro r hr
  obtain ⟨mode, hmem⟩ := (h.mem_iff r).mp hr
  exact (pairwise_append.mp hasc).2.2 ⟨r, mode⟩ hmem request mem_cons_self

/-- Where an ascending group leaves its transaction: holding just the part of
the group before the request it waits for, or was refused. -/
def LeavesPart (t : TransactionId) (requests : List LockRequest) : LockManager × Progress → Prop
  | (m, .returned outcome _) =>
    outcome ≠ .deadlock ∧ ∃ taken rest, requests = taken ++ rest ∧ HoldsExactly m t taken
  | (m, .waiting request rest) => ∃ taken, requests = taken ++ request :: rest ∧ HoldsExactly m t taken

theorem LeavesPart.next {result : LockManager × Option LockOutcome} {go : LockManager → LockManager × Progress}
    (hholds : HoldsExactly result.1 t (if result.2 = some .acquired then taken ++ [request] else taken))
    (hno : result.2 ≠ some .deadlock)
    (hgo : HoldsExactly result.1 t (taken ++ [request]) → result.2 = some .acquired →
      LeavesPart t (taken ++ [request] ++ rest) (go result.1)) :
    LeavesPart t (taken ++ request :: rest) (Progress.next request rest go result) := by
  obtain ⟨m', outcome⟩ := result
  rcases outcome with _ | ⟨_ | _ | _ | _⟩
  · exact ⟨taken, rfl, hholds⟩
  · rw [← append_cons] at hgo
    exact hgo hholds rfl
  · exact absurd rfl hno
  all_goals exact ⟨by simp, taken, request :: rest, rfl, hholds⟩

variable {poll : LockRequest → Poll}

theorem acquireRest_leavesPart (hm : Consistent m) (hn : t ∉ m.waitingFor)
    (hothers : ∀ u, u ≠ t → WaitsUpwards m u) (h : HoldsExactly m t taken)
    (hasc : Ascending (taken ++ rest)) : LeavesPart t (taken ++ rest) (acquireRest t poll rest m) := by
  induction rest generalizing m taken with
  | nil => exact ⟨by simp, taken, [], rfl, h⟩
  | cons request rest ih =>
    have hturn : Turn t request m (m.acquireOneNoLock t request (poll request)) :=
      acquireOneNoLock_turn hm hn
    obtain ⟨hholds, hno⟩ := acquireOneNoLock_holds (poll request) hm.coherent hn hothers h (h.below hasc)
    refine LeavesPart.next hholds hno fun hh ho => ?_
    have hstands := hturn.stands
    rw [ho] at hstands
    rw [append_cons] at hasc
    exact ih ⟨hturn.moves.coherent hm.coherent, hturn.used⟩ hstands
      (fun u hu => hturn.moves.othersKeep.waitsUpwards hu (hothers u hu)) hh hasc

theorem acquireRest_skip (poll : LockRequest → Poll) (rest : List LockRequest) (hm : Consistent m)
    (hn : t ∉ m.waitingFor)
    (hheld : ∀ request ∈ taken, (m.stateOf request.resource).holders.lookup t = some request.mode) :
    ∃ m', Agrees m m' ∧ Consistent m' ∧ acquireRest t poll (taken ++ rest) m = acquireRest t poll rest m' := by
  induction taken generalizing m with
  | nil => exact ⟨m, ⟨fun _ => rfl, rfl, rfl⟩, hm, rfl⟩
  | cons request taken ih =>
    have hl := hheld request mem_cons_self
    have hone : m.acquireOneNoLock t request (poll request) =
        (m.setState request.resource (m.stateOf request.resource), some .acquired) := by
      refine if_pos ?_
      cases hmode : request.mode with
      | shared => exact .inr ⟨AList.lookup_isSome.mp (by rw [hl]; rfl), rfl⟩
      | exclusive => exact .inl (hmode ▸ hl)
    have htouch := agrees_touch m request.resource
    have hturn : Turn t request m (m.acquireOneNoLock t request (poll request)) :=
      acquireOneNoLock_turn hm hn
    rw [hone] at hturn
    obtain ⟨m', hag, hm', he⟩ := ih ⟨htouch.coherent hm.coherent, hturn.used⟩ hn fun q hq => by
      rw [htouch.stateOf]
      exact hheld q (mem_cons_of_mem _ hq)
    refine ⟨m', htouch.trans hag, hm', ?_⟩
    rw [cons_append, acquireRest, hone, Progress.next, he]

theorem acquire_leavesPart (hm : Consistent m) (hn : t ∉ m.waitingFor)
    (hothers : ∀ u, u ≠ t → WaitsUpwards m u) (h : HoldsExactly m t taken)
    (hreq : ordered requests = taken ++ rest) :
    LeavesPart t (ordered requests) (m.acquire t requests poll) := by
  have hasc := ordered_ascending requests
  rw [hreq] at hasc
  obtain ⟨m', hag, hm', he⟩ := acquireRest_skip poll rest hm hn fun q hq => (h q.resource q.mode).mpr hq
  rw [acquire, hreq, he]
  refine acquireRest_leavesPart hm' (by rwa [hag.waitingFor]) (fun u hu r r' => ?_)
    (h.sameLocks (LockSystem.sameLocks_of_agrees hag)) hasc
  simpa only [hag.stateOf, hag.waitingFor] using hothers u hu r r'

theorem wakeUp_leavesPart (hm : Consistent m) (hq : ⟨t, request.mode⟩ ∈ (m.stateOf request.resource).waiters)
    (hothers : ∀ u, u ≠ t → WaitsUpwards m u) (h : HoldsExactly m t taken)
    (hasc : Ascending (taken ++ request :: rest)) :
    LeavesPart t (taken ++ request :: rest) (m.wakeUp t request rest poll) := by
  have hturn : Turn t request m (m.waitTurn t request (poll request)) := waitTurn_turn hm hq
  obtain ⟨hholds, hno⟩ := waitTurn_holds (poll request) h (fun hh => lt_irrefl _ (h.below hasc request.resource hh))
  refine LeavesPart.next hholds hno fun hh ho => ?_
  have hstands := hturn.stands
  rw [ho] at hstands
  rw [append_cons] at hasc
  exact acquireRest_leavesPart ⟨hturn.moves.coherent hm.coherent, hturn.used⟩ hstands
    (fun u hu => hturn.moves.othersKeep.waitsUpwards hu (hothers u hu)) hh hasc

end LockManager

end Rag3db.Transaction
