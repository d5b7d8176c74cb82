import Rag3db.Transaction.LockManager

open AList

namespace Rag3db.Transaction.LockManager

variable {m m' : LockManager} {t u : TransactionId} {request : LockRequest} {r r' : LockResource}
  {state : ResourceState}
  {l : List LockResource}

@[simp] theorem stateOf_setState :
    (m.setState r state).stateOf r' = if r' = r then state else m.stateOf r' := by
  by_cases h : r' = r
  · subst h
    simp [stateOf, setState]
  · simp [stateOf, setState, h]

@[simp] theorem heldBy_setState : (m.setState r state).heldBy = m.heldBy := rfl

@[simp] theorem waitingFor_setState : (m.setState r state).waitingFor = m.waitingFor := rfl

@[simp] theorem stateOf_setHeld : (m.setHeld t l).stateOf r = m.stateOf r := rfl

@[simp] theorem stateOf_setWaiting : (m.setWaiting t r').stateOf r = m.stateOf r := rfl

@[simp] theorem stateOf_clearWaiting : (m.clearWaiting t).stateOf r = m.stateOf r := rfl

@[simp] theorem held_setState : (m.setState r state).held t = m.held t := rfl

@[simp] theorem held_setHeld : (m.setHeld t l).held u = if u = t then l else m.held u := by
  by_cases h : u = t
  · subst h
    simp [held, setHeld]
  · simp [held, setHeld, h]

theorem stateOf_of_lookup (h : m.resources.lookup r = some state) : m.stateOf r = state := by
  simp [stateOf, h]

theorem stateOf_of_not_mem (h : r ∉ m.resources) : m.stateOf r = {} := by
  simp [stateOf, lookup_eq_none.mpr h]

/-- Two managers with the same locks and queues, whatever unused entries
their tables hold. -/
structure Agrees (m m' : LockManager) : Prop where
  stateOf : ∀ r, m'.stateOf r = m.stateOf r
  heldBy : m'.heldBy = m.heldBy
  waitingFor : m'.waitingFor = m.waitingFor

theorem Agrees.trans {m'' : LockManager} (h : Agrees m m') (h' : Agrees m' m'') : Agrees m m'' :=
  ⟨fun r => (h'.stateOf r).trans (h.stateOf r), h'.heldBy.trans h.heldBy, h'.waitingFor.trans h.waitingFor⟩

theorem agrees_touch (m : LockManager) (r : LockResource) : Agrees m (m.setState r (m.stateOf r)) where
  stateOf r' := by by_cases h : r' = r <;> simp [h]
  heldBy := rfl
  waitingFor := rfl

theorem agrees_eraseIfUnused (m : LockManager) (r : LockResource) : Agrees m (m.eraseIfUnusedNoLock r) := by
  unfold eraseIfUnusedNoLock
  split
  · exact ⟨fun _ => rfl, rfl, rfl⟩
  · next state hs =>
      split_ifs with hu
      · refine ⟨fun r' => ?_, rfl, rfl⟩
        by_cases h : r' = r
        · have he : state = {} := by
            obtain ⟨holders, waiters⟩ := state
            obtain ⟨hh, hw⟩ := hu
            simp only at hh hw
            simp only [hw, ResourceState.mk.injEq, and_true]
            exact ext hh
          subst h
          simp [LockManager.stateOf, hs, he]
        · simp [LockManager.stateOf, lookup_erase_ne h]
      · exact ⟨fun _ => rfl, rfl, rfl⟩

def UsedExcept (exempt : List LockResource) (m : LockManager) : Prop :=
  ∀ r ∈ m.resources, r ∈ exempt ∨ (m.stateOf r).holders ≠ ∅ ∨ (m.stateOf r).waiters ≠ []

theorem UsedExcept.weaken (h : UsedExcept [] m) : UsedExcept [r] m :=
  fun r' hr' => .inr ((h r' hr').resolve_left List.not_mem_nil)

theorem mem_resources_setState :
    r' ∈ (m.setState r state).resources ↔ r' = r ∨ r' ∈ m.resources := by
  simp [setState]

theorem UsedExcept.setState (h : UsedExcept [r] m)
    (hu : state.holders ≠ ∅ ∨ state.waiters ≠ []) : UsedExcept [] (m.setState r state) := by
  intro r' hr'
  by_cases he : r' = r
  · simpa [he] using hu
  · have hm := h r' ((mem_resources_setState.mp hr').resolve_left he)
    simpa [he] using hm

theorem UsedExcept.setState_exempt (h : UsedExcept [] m) : UsedExcept [r] (m.setState r state) := by
  intro r' hr'
  by_cases he : r' = r
  · exact .inl (by simp [he])
  · have hm := h r' ((mem_resources_setState.mp hr').resolve_left he)
    simpa [he] using hm

theorem UsedExcept.eraseIfUnused (h : UsedExcept [r] m) : UsedExcept [] (m.eraseIfUnusedNoLock r) := by
  intro r' hr'
  rw [(agrees_eraseIfUnused m r).stateOf r']
  unfold eraseIfUnusedNoLock at hr'
  split at hr'
  · next hn =>
      have hne : r' ≠ r := by
        rintro rfl
        exact lookup_eq_none.mp hn hr'
      simpa [hne] using h r' hr'
  · next state hs =>
      split_ifs at hr' with hu
      · obtain ⟨hne, hm⟩ := mem_erase.mp hr'
        simpa [hne] using h r' hm
      · by_cases hne : r' = r
        · subst hne
          rw [stateOf_of_lookup hs]
          by_cases hw : state.waiters = []
          · refine .inr (.inl fun hh => hu ⟨by simp [hh], hw⟩)
          · exact .inr (.inr hw)
        · simpa [hne] using h r' hr'

/-- What holds of the locks and queues between any two operations. -/
structure Coherent (m : LockManager) : Prop where
  exclusive : ∀ r t u, (m.stateOf r).holders.lookup t = some .exclusive → u ∈ (m.stateOf r).holders → u = t
  held_iff : ∀ t r, r ∈ m.held t ↔ t ∈ (m.stateOf r).holders
  held_nodup : ∀ t, (m.held t).Nodup
  waiting_iff : ∀ t r, m.waitingFor.lookup t = some r ↔ ∃ mode, ⟨t, mode⟩ ∈ (m.stateOf r).waiters
  queue_nodup : ∀ r, ((m.stateOf r).waiters.map Waiter.transactionID).Nodup
  upgrade : ∀ r t mode, ⟨t, mode⟩ ∈ (m.stateOf r).waiters → t ∈ (m.stateOf r).holders → mode = .exclusive

theorem Coherent.empty : Coherent {} := by
  constructor <;> simp [stateOf, held]

theorem Agrees.held (h : Agrees m m') (t : TransactionId) : m'.held t = m.held t := by
  simp [LockManager.held, h.heldBy]

theorem Agrees.coherent (h : Agrees m m') (hc : Coherent m) : Coherent m' where
  exclusive r := by simpa only [h.stateOf] using hc.exclusive r
  held_iff t r := by simpa only [h.stateOf, h.held] using hc.held_iff t r
  held_nodup t := by simpa only [h.held] using hc.held_nodup t
  waiting_iff t r := by simpa only [h.stateOf, h.waitingFor] using hc.waiting_iff t r
  queue_nodup r := by simpa only [h.stateOf] using hc.queue_nodup r
  upgrade r := by simpa only [h.stateOf] using hc.upgrade r

theorem Coherent.not_queued (hc : Coherent m) (h : t ∉ m.waitingFor) (r : LockResource)
    (mode : LockMode) : ⟨t, mode⟩ ∉ (m.stateOf r).waiters := fun hm => by
  have := (hc.waiting_iff t r).mpr ⟨mode, hm⟩
  rw [lookup_eq_none.mpr h] at this
  cases this

variable {mode : LockMode}

theorem canGrantNoLock_compatible {position : Nat}
    (h : canGrantNoLock state t mode position = true) {held : LockMode} (hne : u ≠ t)
    (hu : state.holders.lookup u = some held) : mode = .shared ∧ held = .shared := by
  unfold canGrantNoLock at h
  split_ifs at h with ha
  all_goals
    simp only [List.any_eq_true, not_exists, not_and] at ha
    have := ha ⟨u, held⟩ (mem_lookup_iff.mp hu)
    cases mode <;> cases held <;> simp_all [incompatible]

variable {holders : AList fun _ : TransactionId => LockMode}

theorem lookup_grantedHolders_ne (h : u ≠ t) : (grantedHolders holders t mode).lookup u = holders.lookup u := by
  unfold grantedHolders
  split_ifs <;> simp [lookup_insert_ne h]

theorem mem_grantedHolders : u ∈ grantedHolders holders t mode ↔ u = t ∨ u ∈ holders := by
  unfold grantedHolders
  split_ifs with h
  · rw [mem_insert]
  · exact ⟨.inr, fun hu => hu.elim (· ▸ h) id⟩
  · rw [mem_insert]

theorem lookup_grantedHolders_shared (h : (grantedHolders holders t .shared).lookup t = some .exclusive) :
    holders.lookup t = some .exclusive := by
  unfold grantedHolders at h
  split_ifs at h with ht
  · contradiction
  · exact h
  · simp at h

theorem grantedHolders_exclusive (hx : ∀ a b, holders.lookup a = some .exclusive → b ∈ holders → b = a)
    (hcompat : ∀ u held, u ≠ t → holders.lookup u = some held → mode = .shared ∧ held = .shared)
    {a b : TransactionId} (ha : (grantedHolders holders t mode).lookup a = some .exclusive)
    (hb : b ∈ grantedHolders holders t mode) : b = a := by
  have hshared : mode = .shared ∨ ∀ u ∈ grantedHolders holders t mode, u = t := by
    refine or_iff_not_imp_right.mpr fun hn => ?_
    push Not at hn
    obtain ⟨u, hu, hne⟩ := hn
    obtain ⟨held, hl⟩ := Option.isSome_iff_exists.mp (lookup_isSome.mpr ((mem_grantedHolders.mp hu).resolve_left hne))
    exact (hcompat u held hne hl).1
  rcases hshared with rfl | hall
  · by_cases hat : a = t
    · subst hat
      have hh := lookup_grantedHolders_shared ha
      exact (mem_grantedHolders.mp hb).elim id fun hb => hx a b hh hb
    · rw [lookup_grantedHolders_ne hat] at ha
      exact absurd (hcompat a _ hat ha).2 (by decide)
  · rw [hall b hb, hall a (lookup_isSome.mp (by rw [ha]; rfl))]

theorem stateOf_grant : (m.grant t request).stateOf r = if r = request.resource then
      { m.stateOf r with holders := grantedHolders (m.stateOf r).holders t request.mode }
    else m.stateOf r := by
  unfold grant
  dsimp only
  split_ifs with ht hr hr <;> simp [hr]

theorem held_grant : (m.grant t request).held u = if u = t ∧ t ∉ (m.stateOf request.resource).holders then
      m.held u ++ [request.resource] else m.held u := by
  unfold grant
  dsimp only
  split_ifs with ht hr hr <;> simp_all

@[simp] theorem waitingFor_grant : (m.grant t request).waitingFor = m.waitingFor := by
  unfold grant
  dsimp only
  split_ifs <;> rfl

theorem Coherent.grant (hc : Coherent m) (hn : t ∉ m.waitingFor)
    (hcompat : ∀ u held, u ≠ t → (m.stateOf request.resource).holders.lookup u = some held →
      request.mode = .shared ∧ held = .shared) : Coherent (m.grant t request) where
  exclusive r a b ha hb := by
    rw [stateOf_grant] at ha hb
    split_ifs at ha hb with hr
    · subst hr
      exact grantedHolders_exclusive (hc.exclusive request.resource) hcompat ha hb
    · exact hc.exclusive r a b ha hb
  held_iff a r := by
    rw [held_grant, stateOf_grant]
    have := hc.held_iff a r
    split_ifs with ht hr hr
    · simp [mem_grantedHolders, hr, ht.1]
    · simp [hr, this]
    · subst hr
      rw [mem_grantedHolders, this]
      exact ⟨.inr, fun h => h.elim (fun h => not_not.mp fun hn => ht ⟨h, h ▸ hn⟩) id⟩
    · exact this
  held_nodup a := by
    rw [held_grant]
    have := hc.held_nodup a
    split_ifs with ht
    · have hn : request.resource ∉ m.held a := by
        rw [hc.held_iff, ht.1]
        exact ht.2
      exact this.append (List.nodup_singleton _) (by simpa using hn)
    · exact this
  waiting_iff a r := by
    have := hc.waiting_iff a r
    rw [waitingFor_grant, stateOf_grant, this]
    split_ifs <;> rfl
  queue_nodup r := by
    have := hc.queue_nodup r
    rw [stateOf_grant]
    split_ifs <;> exact this
  upgrade r a mode := by
    rw [stateOf_grant]
    split_ifs
    · intro hw ha
      rcases mem_grantedHolders.mp ha with rfl | ha
      · exact absurd hw (hc.not_queued hn r mode)
      · exact hc.upgrade r a mode hw ha
    · exact hc.upgrade r a mode

end Rag3db.Transaction.LockManager
