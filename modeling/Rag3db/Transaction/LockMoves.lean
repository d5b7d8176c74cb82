import Rag3db.Transaction.LockQueue

namespace Rag3db.Transaction.LockManager

open Relation

variable {m m' : LockManager} {t u : TransactionId} {request : LockRequest} {r : LockResource} {poll : Poll}

/-- What the thread of a transaction can do to the locks, one effect at a
time, with what the code has checked before each. -/
inductive Move (t : TransactionId) : LockManager → LockManager → Prop
  | agree {m m' : LockManager} : Agrees m m' → Move t m m'
  | grant {m : LockManager} (request : LockRequest) : t ∉ m.waitingFor →
      (∀ u held, u ≠ t → (m.stateOf request.resource).holders.lookup u = some held →
        request.mode = .shared ∧ held = .shared) → Move t m (m.grant t request)
  | join {m : LockManager} (request : LockRequest) : t ∉ m.waitingFor →
      (t ∈ (m.stateOf request.resource).holders → request.mode = .exclusive) →
      m.closesCycle t (collectBlockersNoLock (m.stateOf request.resource) t request.mode
        (m.stateOf request.resource).waiters.length) = false → Move t m (m.joinTheQueue t request)
  | leave {m : LockManager} (request : LockRequest) :
      m.waitingFor.lookup t = some request.resource → Move t m (m.leaveTheQueue t request)

abbrev Moves (t : TransactionId) : LockManager → LockManager → Prop := ReflTransGen (Move t)

theorem Moves.invariant {P : LockManager → Prop} (h : Moves t m m') (hm : P m)
    (hstep : ∀ m m', P m → Move t m m' → P m') : P m' := by
  induction h with
  | refl => exact hm
  | tail _ hmove ih => exact hstep _ _ ih hmove

theorem Move.coherent (h : Move t m m') (hc : Coherent m) : Coherent m' := by
  cases h with
  | agree ha => exact ha.coherent hc
  | grant request hn hcompat => exact hc.grant hn hcompat
  | join request hn hup _ => exact hc.joinTheQueue hn hup
  | leave request hw => exact hc.leaveTheQueue hw

theorem Moves.coherent (h : Moves t m m') (hc : Coherent m) : Coherent m' :=
  h.invariant hc fun _ _ hc hm => hm.coherent hc

/-- What a thread of `t` leaves untouched: the locks and the place in the
queues of every other transaction. -/
structure OthersKeep (t : TransactionId) (m m' : LockManager) : Prop where
  holders : ∀ r u, u ≠ t → (m'.stateOf r).holders.lookup u = (m.stateOf r).holders.lookup u
  waiters : ∀ r u mode, u ≠ t → (⟨u, mode⟩ ∈ (m'.stateOf r).waiters ↔ ⟨u, mode⟩ ∈ (m.stateOf r).waiters)
  held : ∀ u, u ≠ t → m'.held u = m.held u
  waitingFor : ∀ u, u ≠ t → m'.waitingFor.lookup u = m.waitingFor.lookup u

theorem OthersKeep.refl (t : TransactionId) (m : LockManager) : OthersKeep t m m :=
  ⟨fun _ _ _ => rfl, fun _ _ _ _ => Iff.rfl, fun _ _ => rfl, fun _ _ => rfl⟩

theorem OthersKeep.trans {m'' : LockManager} (h : OthersKeep t m m') (h' : OthersKeep t m' m'') :
    OthersKeep t m m'' where
  holders r u hu := (h'.holders r u hu).trans (h.holders r u hu)
  waiters r u mode hu := (h'.waiters r u mode hu).trans (h.waiters r u mode hu)
  held u hu := (h'.held u hu).trans (h.held u hu)
  waitingFor u hu := (h'.waitingFor u hu).trans (h.waitingFor u hu)

theorem Move.othersKeep (h : Move t m m') : OthersKeep t m m' := by
  cases h with
  | agree ha =>
    exact ⟨fun r u _ => by rw [ha.stateOf], fun r u mode _ => by rw [ha.stateOf],
      fun u _ => ha.held u, fun u _ => by rw [ha.waitingFor]⟩
  | grant request _ _ =>
    refine ⟨fun r u hu => ?_, fun r u mode _ => ?_, fun u hu => ?_, fun u _ => by simp⟩
    · rw [stateOf_grant]
      split_ifs
      · exact lookup_grantedHolders_ne hu
      · rfl
    · rw [stateOf_grant]
      split_ifs <;> rfl
    · rw [held_grant, if_neg (fun h => hu h.1)]
  | join request _ _ _ =>
    refine ⟨fun r u _ => by rw [holders_joinTheQueue], fun r u mode hu => ?_, fun u _ => rfl,
      fun u hu => by rw [lookup_waitingFor_joinTheQueue, if_neg hu]⟩
    rw [stateOf_joinTheQueue]
    split_ifs <;> simp [hu]
  | leave request _ =>
    refine ⟨fun r u _ => by rw [holders_leaveTheQueue], fun r u mode hu => ?_, fun u _ => rfl,
      fun u hu => by rw [lookup_waitingFor_leaveTheQueue, if_neg hu]⟩
    rw [stateOf_leaveTheQueue]
    split_ifs <;> simp [removeWaiterNoLock, hu]

theorem Moves.othersKeep (h : Moves t m m') : OthersKeep t m m' := by
  induction h with
  | refl => exact OthersKeep.refl t m
  | tail _ hmove ih => exact ih.trans hmove.othersKeep

theorem lookup_grantedHolders_kept {holders : AList fun _ : TransactionId => LockMode}
    {mode held : LockMode} (h : holders.lookup u = some held) :
    ∃ held', (grantedHolders holders t mode).lookup u = some held' ∧ held.value ≤ held'.value := by
  by_cases hu : u = t
  · subst hu
    have hm : u ∈ holders := AList.lookup_isSome.mp (by rw [h]; rfl)
    unfold grantedHolders
    split_ifs
    · exact ⟨.exclusive, AList.lookup_insert _, by cases held <;> decide⟩
    · exact ⟨held, h, le_rfl⟩
  · exact ⟨held, by rw [lookup_grantedHolders_ne hu, h], le_rfl⟩

theorem Moves.keepsLock {held : LockMode} (h : Moves t m m') (hu : (m.stateOf r).holders.lookup u = some held) :
    ∃ held', (m'.stateOf r).holders.lookup u = some held' ∧ held.value ≤ held'.value := by
  induction h with
  | refl => exact ⟨held, hu, le_rfl⟩
  | tail _ hmove ih =>
    obtain ⟨held₁, h₁, hle⟩ := ih
    cases hmove with
    | agree ha => exact ⟨held₁, by rw [ha.stateOf, h₁], hle⟩
    | grant request =>
      rw [stateOf_grant]
      split_ifs
      · obtain ⟨held₂, h₂, hle₂⟩ := lookup_grantedHolders_kept h₁
        exact ⟨held₂, h₂, hle.trans hle₂⟩
      · exact ⟨held₁, h₁, hle⟩
    | join request => exact ⟨held₁, by rw [holders_joinTheQueue, h₁], hle⟩
    | leave request => exact ⟨held₁, by rw [holders_leaveTheQueue, h₁], hle⟩

theorem waitTurn_cases (m : LockManager) (t : TransactionId) (request : LockRequest) (poll : Poll) :
    (∃ position, canGrantNoLock (m.stateOf request.resource) t request.mode position = true ∧
      m.waitTurn t request poll = ((m.leaveTheQueue t request).grant t request, some .acquired)) ∨
    (∃ outcome, (outcome = .interrupted ∨ outcome = .timeout) ∧ m.waitTurn t request poll =
      ((m.leaveTheQueue t request).eraseIfUnusedNoLock request.resource, some outcome)) ∨
    m.waitTurn t request poll = (m, none) := by
  unfold waitTurn
  dsimp only
  split_ifs with hg hi hx
  · exact .inl ⟨_, hg, rfl⟩
  · exact .inr (.inl ⟨_, .inl rfl, rfl⟩)
  · exact .inr (.inl ⟨_, .inr rfl, rfl⟩)
  · exact .inr (.inr rfl)

end Rag3db.Transaction.LockManager
