import Rag3db.Transaction.LockMoves

namespace Rag3db.Transaction.LockManager

open Progress

variable {m : LockManager} {t : TransactionId} {request : LockRequest} {poll : Poll}

/-- What holds between any two steps: the locks are coherent and every entry
of the table is in use. -/
structure Consistent (m : LockManager) : Prop where
  coherent : Coherent m
  used : UsedExcept [] m

/-- Where a request leaves its transaction: out of every queue once there is
an outcome, in the queue of its resource otherwise. -/
def Stands (m : LockManager) (t : TransactionId) (request : LockRequest) : Option LockOutcome → Prop
  | some _ => t ∉ m.waitingFor
  | none => ⟨t, request.mode⟩ ∈ (m.stateOf request.resource).waiters

/-- The specification of one request, and of one turn of its waiting loop. -/
structure Turn (t : TransactionId) (request : LockRequest) (m : LockManager)
    (result : LockManager × Option LockOutcome) : Prop where
  moves : Moves t m result.1
  used : UsedExcept [] result.1
  stands : Stands result.1 t request result.2

theorem UsedExcept.grant (h : UsedExcept [request.resource] m) : UsedExcept [] (m.grant t request) := by
  have ht : grantedHolders (m.stateOf request.resource).holders t request.mode ≠ ∅ := fun he =>
    AList.notMem_empty t (he ▸ mem_grantedHolders.mpr (.inl rfl))
  have hu : UsedExcept [] (m.setState request.resource { m.stateOf request.resource with
      holders := grantedHolders (m.stateOf request.resource).holders t request.mode }) :=
    h.setState (.inl ht)
  unfold LockManager.grant
  dsimp only
  split_ifs <;> exact hu

theorem UsedExcept.joinTheQueue (h : UsedExcept [request.resource] m) : UsedExcept [] (m.joinTheQueue t request) :=
  h.setState (.inr (by simp))

theorem UsedExcept.leaveTheQueue (h : UsedExcept [] m) : UsedExcept [request.resource] (m.leaveTheQueue t request) :=
  h.setState_exempt

theorem waitTurn_turn (hm : Consistent m) (hq : ⟨t, request.mode⟩ ∈ (m.stateOf request.resource).waiters) :
    Turn t request m (m.waitTurn t request poll) := by
  have hw : m.waitingFor.lookup t = some request.resource := (hm.coherent.waiting_iff t _).mpr ⟨_, hq⟩
  have hleave : Moves t m (m.leaveTheQueue t request) := .single (.leave request hw)
  have hout := not_mem_waitingFor_leaveTheQueue m t request
  rcases waitTurn_cases m t request poll with ⟨_, hg, he⟩ | ⟨outcome, _, he⟩ | he <;> rw [he]
  · refine ⟨hleave.tail (.grant request hout fun u held hne hu => ?_), hm.used.leaveTheQueue.grant, ?_⟩
    · rw [holders_leaveTheQueue] at hu
      exact canGrantNoLock_compatible hg hne hu
    · simpa [Stands] using hout
  · have ha := agrees_eraseIfUnused (m.leaveTheQueue t request) request.resource
    refine ⟨hleave.tail (.agree ha), hm.used.leaveTheQueue.eraseIfUnused, ?_⟩
    simpa [Stands, ha.waitingFor] using hout
  · exact ⟨.refl, hm.used, hq⟩

theorem acquireOneNoLock_cases (m : LockManager) (t : TransactionId) (request : LockRequest) (poll : Poll) :
    let touched := m.setState request.resource (m.stateOf request.resource)
    let blockers := collectBlockersNoLock (m.stateOf request.resource) t request.mode
      (m.stateOf request.resource).waiters.length
    (t ∈ (m.stateOf request.resource).holders ∧ m.acquireOneNoLock t request poll = (touched, some .acquired)) ∨
    (canGrantNoLock (m.stateOf request.resource) t request.mode (m.stateOf request.resource).waiters.length = true ∧
      m.acquireOneNoLock t request poll = (touched.grant t request, some .acquired)) ∨
    (touched.closesCycle t blockers = true ∧
      m.acquireOneNoLock t request poll = (touched.eraseIfUnusedNoLock request.resource, some .deadlock)) ∨
    ((t ∈ (m.stateOf request.resource).holders → request.mode = .exclusive) ∧ touched.closesCycle t blockers = false ∧
      m.acquireOneNoLock t request poll = (touched.joinTheQueue t request).waitTurn t request poll) := by
  unfold acquireOneNoLock
  dsimp only
  split_ifs with hheld hg hcycle
  · refine .inl ⟨?_, rfl⟩
    rcases hheld with hx | hs
    · exact AList.lookup_isSome.mp (by rw [hx]; rfl)
    · exact hs.1
  · exact .inr (.inl ⟨hg, rfl⟩)
  · exact .inr (.inr (.inl ⟨hcycle, rfl⟩))
  · refine .inr (.inr (.inr ⟨fun ht => ?_, by simpa using hcycle, rfl⟩))
    cases hmode : request.mode with
    | shared => exact absurd (.inr ⟨ht, hmode⟩) hheld
    | exclusive => rfl

variable {result : LockManager × Option LockOutcome}

theorem Turn.of_moves {m' : LockManager} (h : Moves t m m') (ht : Turn t request m' result) : Turn t request m result :=
  ⟨h.trans ht.moves, ht.used, ht.stands⟩

theorem acquireOneNoLock_turn (hm : Consistent m) (hn : t ∉ m.waitingFor) :
    Turn t request m (m.acquireOneNoLock t request poll) := by
  have htouch := agrees_touch m request.resource
  have hused : UsedExcept [request.resource] (m.setState request.resource (m.stateOf request.resource)) :=
    hm.used.setState_exempt
  rcases acquireOneNoLock_cases m t request poll with ⟨hh, he⟩ | ⟨hg, he⟩ | ⟨_, he⟩ | ⟨hup, hcycle, he⟩ <;>
    rw [he] <;> refine Turn.of_moves (.single (.agree htouch)) ?_
  · exact ⟨.refl, hm.used.weaken.setState (.inl fun he => AList.notMem_empty t (he ▸ hh)), hn⟩
  · refine ⟨.single (.grant request hn fun u held hne hu => ?_), hused.grant, ?_⟩
    · rw [htouch.stateOf] at hu
      exact canGrantNoLock_compatible hg hne hu
    · simpa [Stands] using hn
  · have ha := agrees_eraseIfUnused (m.setState request.resource (m.stateOf request.resource)) request.resource
    refine ⟨.single (.agree ha), hused.eraseIfUnused, ?_⟩
    simpa [Stands, ha.waitingFor] using hn
  · have hjoin : Move t (m.setState request.resource (m.stateOf request.resource))
        ((m.setState request.resource (m.stateOf request.resource)).joinTheQueue t request) :=
      .join request hn (by rwa [htouch.stateOf]) (by rwa [htouch.stateOf])
    refine Turn.of_moves (.single hjoin) (waitTurn_turn ⟨hjoin.coherent (htouch.coherent hm.coherent),
      hused.joinTheQueue⟩ ?_)
    simp [stateOf_joinTheQueue]

/-- The specification of a grouped acquire from the moment it runs to the
moment it returns or waits. -/
structure Advance (t : TransactionId) (m : LockManager) (result : LockManager × Progress) : Prop where
  moves : Moves t m result.1
  used : UsedExcept [] result.1
  returned : ∀ outcome failedOn, result.2 = .returned outcome failedOn → t ∉ result.1.waitingFor
  waiting : ∀ request rest, result.2 = .waiting request rest →
    ⟨t, request.mode⟩ ∈ (result.1.stateOf request.resource).waiters

variable {rest : List LockRequest}

theorem Turn.advance {go : LockManager → LockManager × Progress} (hm : Consistent m) (h : Turn t request m result)
    (hgo : ∀ m, Consistent m → t ∉ m.waitingFor → Advance t m (go m)) :
    Advance t m (next request rest go result) := by
  obtain ⟨m', outcome⟩ := result
  obtain ⟨hmoves, hused, hstands⟩ := h
  rcases outcome with _ | ⟨_ | _ | _ | _⟩
  · exact ⟨hmoves, hused, fun _ _ he => by simp [next] at he,
      fun q l he => by simp only [next, waiting.injEq] at he; exact he.1 ▸ hstands⟩
  · have := hgo m' ⟨hmoves.coherent hm.coherent, hused⟩ hstands
    exact ⟨hmoves.trans this.moves, this.used, this.returned, this.waiting⟩
  all_goals exact ⟨hmoves, hused, fun _ _ _ => hstands, fun _ _ he => by simp [next] at he⟩

variable {poll : LockRequest → Poll}

theorem acquireRest_advance {requests : List LockRequest} (hm : Consistent m) (hn : t ∉ m.waitingFor) :
    Advance t m (acquireRest t poll requests m) := by
  induction requests generalizing m with
  | nil => exact ⟨.refl, hm.used, fun _ _ _ => hn, fun _ _ he => by simp [acquireRest] at he⟩
  | cons request rest ih =>
    exact (acquireOneNoLock_turn hm hn).advance hm fun _ hm hn => ih hm hn

theorem wakeUp_advance (hm : Consistent m) (hq : ⟨t, request.mode⟩ ∈ (m.stateOf request.resource).waiters) :
    Advance t m (m.wakeUp t request rest poll) :=
  (waitTurn_turn hm hq).advance hm fun _ hm hn => acquireRest_advance hm hn

end Rag3db.Transaction.LockManager
