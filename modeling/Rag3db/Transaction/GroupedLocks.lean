import Rag3db.Transaction.WaitForGraph

open List AList

namespace Rag3db.Transaction

open Relation Library.Digraph LockRequest

theorem LockRequest.not_before_iff (a b : LockRequest) : ¬ b.before a ↔
    a.resource < b.resource ∨ (a.resource = b.resource ∧ b.mode.value ≤ a.mode.value) := by
  unfold before
  split_ifs with h
  · rw [not_lt, le_iff_lt_or_eq]
    exact or_congr_right (by simp [Ne.symm h])
  · simp [not_not.mp h]

instance : Std.Total fun a b : LockRequest => ¬ b.before a where
  total a b := by
    simp only [not_before_iff]
    rcases lt_trichotomy a.resource b.resource with h | h | h
    · exact .inl (.inl h)
    · exact (Nat.le_total b.mode.value a.mode.value).imp (fun hm => .inr ⟨h, hm⟩) fun hm => .inr ⟨h.symm, hm⟩
    · exact .inr (.inl h)

instance : IsTrans LockRequest fun a b => ¬ b.before a where
  trans a b c := by
    simp only [not_before_iff]
    rintro (h | ⟨h, hm⟩) (h' | ⟨h', hm'⟩)
    · exact .inl (h.trans h')
    · exact .inl (h' ▸ h)
    · exact .inl (h ▸ h')
    · exact .inr ⟨h.trans h', hm'.trans hm⟩

abbrev Ascending (requests : List LockRequest) : Prop :=
  requests.Pairwise fun a b => a.resource < b.resource

theorem ascending_of_sorted {requests : List LockRequest} (hle : requests.Pairwise fun a b => a.resource ≤ b.resource)
    (hne : requests.IsChain fun a b => a.resource ≠ b.resource) : Ascending requests := by
  induction requests with
  | nil => exact .nil
  | cons a requests ih =>
    obtain ⟨hhead, htail⟩ := pairwise_cons.mp hle
    have hrest := ih htail hne.of_cons
    refine pairwise_cons.mpr ⟨fun b hb => ?_, hrest⟩
    match requests, hb with
    | c :: rest, hb =>
      have hac : a.resource < c.resource := lt_of_le_of_ne (hhead c mem_cons_self) hne.rel
      rcases mem_cons.mp hb with rfl | hb
      · exact hac
      · exact hac.trans ((pairwise_cons.mp hrest).1 b hb)

theorem ordered_ascending (requests : List LockRequest) : Ascending (ordered requests) := by
  refine ascending_of_sorted ?_ (isChain_destutter _ _)
  refine ((pairwise_insertionSort _ requests).sublist (destutter_sublist _ _)).imp fun h => ?_
  rcases (not_before_iff _ _).mp h with h | h
  · exact h.le
  · exact h.1.le

namespace LockManager

variable {m m' : LockManager} {t u v : TransactionId} {request : LockRequest} {r : LockResource}
  {taken : List LockRequest}

/-- While it waits, a transaction holds only resources below the one it
waits for. -/
def WaitsUpwards (m : LockManager) (u : TransactionId) : Prop :=
  ∀ r r', m.waitingFor.lookup u = some r → u ∈ (m.stateOf r').holders → r' < r

theorem WaitsFor.holds_or_waits (hm : Coherent m) (h : WaitsFor m u v) :
    ∃ r, m.waitingFor.lookup u = some r ∧ (v ∈ (m.stateOf r).holders ∨ m.waitingFor.lookup v = some r) := by
  obtain ⟨r, mode, earlier, later, he, _, hb⟩ := h
  refine ⟨r, (hm.waiting_iff u r).mpr ⟨mode, by simp [he]⟩, ?_⟩
  rcases hb with ⟨held, hl, _⟩ | ⟨_, other, hw, _⟩
  · exact .inl (lookup_isSome.mp (by rw [hl]; rfl))
  · exact .inr ((hm.waiting_iff v r).mpr ⟨other, by simp [he, hw]⟩)

/-- With every other transaction waiting upwards, a request above all that
its transaction holds closes no cycle. -/
theorem closesCycle_of_waitsUpwards (request : LockRequest) (hm : Coherent m) (hn : t ∉ m.waitingFor)
    (hothers : ∀ u, u ≠ t → WaitsUpwards m u)
    (habove : ∀ r, t ∈ (m.stateOf r).holders → r < request.resource) :
    m.closesCycle t (collectBlockersNoLock (m.stateOf request.resource) t request.mode
      (m.stateOf request.resource).waiters.length) = false := by
  by_contra hcycle
  rw [Bool.not_eq_false] at hcycle
  obtain ⟨b, hb, seen, hreach⟩ := searchAll_true hcycle
  -- everything the search meets is another transaction, waiting no lower than the request
  have hwait : ∀ r v, v ≠ t → request.resource ≤ r → v ∈ (m.stateOf r).holders ∨ m.waitingFor.lookup v = some r →
      ∀ r', m.waitingFor.lookup v = some r' → request.resource ≤ r' := by
    rintro r v hv hr (hh | hw) r' hr'
    · exact hr.trans (hothers v hv r' r hr' hh).le
    · rw [Option.some.inj (hr'.symm.trans hw)]
      exact hr
  have hpath : ∀ v, ReflTransGen (Edge m.blockersOf) b v → v ≠ t ∧
      ∀ r', m.waitingFor.lookup v = some r' → request.resource ≤ r' := by
    intro v hv
    induction hv with
    | refl =>
      obtain ⟨hbt, hbb⟩ := (mem_collectBlockers _).mp hb
      refine ⟨hbt, hwait _ b hbt le_rfl ?_⟩
      rcases hbb with ⟨held, hl, _⟩ | ⟨_, other, hw, _⟩
      · exact .inl (lookup_isSome.mp (by rw [hl]; rfl))
      · exact .inr ((hm.waiting_iff b _).mpr ⟨other, mem_of_mem_take hw⟩)
    | @tail x y _ hedge ih =>
      obtain ⟨r, hr, hend⟩ := ((mem_blockersOf hm).mp hedge).holds_or_waits hm
      have hle := ih.2 r hr
      have hne : y ≠ t := by
        rintro rfl
        rcases hend with hh | hw
        · exact absurd hle (not_le.mpr (habove r hh))
        · exact hn (lookup_isSome.mp (by rw [hw]; rfl))
      exact ⟨hne, hwait r y hne hle hend⟩
  exact (hpath t (reaches_sound hreach)).1 rfl

def HoldsExactly (m : LockManager) (t : TransactionId) (taken : List LockRequest) : Prop :=
  ∀ r mode, (m.stateOf r).holders.lookup t = some mode ↔ ⟨r, mode⟩ ∈ taken

theorem HoldsExactly.mem_iff (h : HoldsExactly m t taken) (r : LockResource) :
    t ∈ (m.stateOf r).holders ↔ ∃ mode, ⟨r, mode⟩ ∈ taken := by
  rw [← lookup_isSome, Option.isSome_iff_exists]
  exact exists_congr (h r)

theorem HoldsExactly.sameLocks (h : HoldsExactly m t taken) (hs : LockSystem.SameLocks m m') :
    HoldsExactly m' t taken := fun r mode => by
  rw [hs.holders]
  exact h r mode

theorem HoldsExactly.grant (h : HoldsExactly m t taken) (hnew : t ∉ (m.stateOf request.resource).holders) :
    HoldsExactly (m.grant t request) t (taken ++ [request]) := fun r mode => by
  have hr := h r mode
  rw [stateOf_grant]
  split_ifs with he
  · subst he
    have hnone : (m.stateOf request.resource).holders.lookup t = none := AList.lookup_eq_none.mpr hnew
    rw [hnone] at hr
    simp only [grantedHolders, hnew, mem_append, mem_singleton, ← hr, LockRequest.ext_iff]
    simp [eq_comm]
  · rw [hr]
    simp [LockRequest.ext_iff, he]

/-- What one request of an ascending group does to the locks of its
transaction: it adds the request when granted, and nothing otherwise. -/
theorem waitTurn_holds (poll : Poll) (h : HoldsExactly m t taken) (hnew : t ∉ (m.stateOf request.resource).holders) :
    HoldsExactly (m.waitTurn t request poll).1 t
        (if (m.waitTurn t request poll).2 = some .acquired then taken ++ [request] else taken) ∧
      (m.waitTurn t request poll).2 ≠ some .deadlock := by
  have hleave : HoldsExactly (m.leaveTheQueue t request) t taken :=
    h.sameLocks ⟨holders_leaveTheQueue m t request, rfl⟩
  rcases waitTurn_cases m t request poll with ⟨_, _, he⟩ | ⟨outcome, ho, he⟩ | he <;> rw [he]
  · refine ⟨?_, by simp⟩
    exact hleave.grant (by rwa [holders_leaveTheQueue])
  · refine ⟨?_, by rcases ho with rfl | rfl <;> simp⟩
    rw [if_neg (by rcases ho with rfl | rfl <;> simp)]
    exact hleave.sameLocks (LockSystem.sameLocks_of_agrees (agrees_eraseIfUnused _ _))
  · exact ⟨by exact h, by simp⟩

theorem acquireOneNoLock_holds (poll : Poll) (hm : Coherent m) (hn : t ∉ m.waitingFor)
    (hothers : ∀ u, u ≠ t → WaitsUpwards m u) (h : HoldsExactly m t taken)
    (habove : ∀ r, t ∈ (m.stateOf r).holders → r < request.resource) :
    HoldsExactly (m.acquireOneNoLock t request poll).1 t
        (if (m.acquireOneNoLock t request poll).2 = some .acquired then taken ++ [request] else taken) ∧
      (m.acquireOneNoLock t request poll).2 ≠ some .deadlock := by
  have hnew : t ∉ (m.stateOf request.resource).holders := fun hh => lt_irrefl _ (habove _ hh)
  have htouch := agrees_touch m request.resource
  have htouched := h.sameLocks (LockSystem.sameLocks_of_agrees htouch)
  rcases acquireOneNoLock_cases m t request poll with ⟨hh, _⟩ | ⟨_, he⟩ | ⟨hcycle, _⟩ | ⟨_, _, he⟩
  · exact absurd hh hnew
  · rw [he]
    refine ⟨?_, by simp⟩
    exact htouched.grant (by rwa [htouch.stateOf])
  · have := closesCycle_of_waitsUpwards request (htouch.coherent hm) hn
      (fun u hu r r' => by simpa only [htouch.stateOf, htouch.waitingFor] using hothers u hu r r')
      (fun r => by simpa only [htouch.stateOf] using habove r)
    rw [htouch.stateOf, hcycle] at this
    cases this
  · rw [he]
    refine waitTurn_holds poll (htouched.sameLocks ⟨holders_joinTheQueue _ t request, rfl⟩) ?_
    rwa [holders_joinTheQueue, htouch.stateOf]

end LockManager

end Rag3db.Transaction
