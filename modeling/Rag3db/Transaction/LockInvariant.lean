import Rag3db.Library.Transition
import Rag3db.Transaction.LockRelease

open List Option AList

namespace Rag3db.Transaction.LockSystem

open Library.Transition LockManager

variable {s s' : LockSystem} {a : LockAction} {t u : TransactionId} {result : LockManager × Progress}

/-- The invariant of the lock manager with its waiting threads: a thread is
blocked exactly while its transaction stands in the queue of its request. -/
structure Sound (s : LockSystem) : Prop where
  manager : Consistent s.manager
  calls : ∀ t call, s.calls.lookup t = some call →
    ⟨t, call.request.mode⟩ ∈ (s.manager.stateOf call.request.resource).waiters
  idle : ∀ t, t ∉ s.calls → t ∉ s.manager.waitingFor

@[simp] theorem manager_settle : (s.settle t result).manager = result.1 := by
  obtain ⟨m, _ | _⟩ := result <;> rfl

theorem lookup_calls_settle_ne (s : LockSystem) (result : LockManager × Progress) (h : u ≠ t) :
    (s.settle t result).calls.lookup u = s.calls.lookup u := by
  obtain ⟨m, _ | _⟩ := result
  · exact lookup_erase_ne h
  · exact lookup_insert_ne h

theorem perform_cases {p : Option Progress} (hs : Sound s) (h : s.perform a = some (s', p)) :
    (∃ t result, Advance t s.manager result ∧ s' = s.settle t result ∧ p = some result.2) ∨
    ∃ t, s' = ⟨s.manager.releaseAll t, s.calls⟩ ∧ p = none := by
  cases a with
  | acquire t requests poll =>
    simp only [perform] at h
    split_ifs at h with ht
    obtain ⟨rfl, rfl⟩ := Prod.mk.inj (some.inj h)
    exact .inl ⟨t, _, acquireRest_advance hs.manager (hs.idle t ht), rfl, rfl⟩
  | wakeUp t poll =>
    simp only [perform] at h
    split at h
    · cases h
    · next call hcall =>
        obtain ⟨rfl, rfl⟩ := Prod.mk.inj (some.inj h)
        exact .inl ⟨t, _, wakeUp_advance hs.manager (hs.calls t call hcall), rfl, rfl⟩
  | releaseAll t =>
    obtain ⟨rfl, rfl⟩ := Prod.mk.inj (some.inj h)
    exact .inr ⟨t, rfl, rfl⟩

theorem step_cases (hs : Sound s) (h : s.step a = some s') :
    (∃ t result, Advance t s.manager result ∧ s' = s.settle t result) ∨
    ∃ t, s' = ⟨s.manager.releaseAll t, s.calls⟩ := by
  obtain ⟨⟨s'', p⟩, hp, rfl⟩ := map_eq_some_iff.mp h
  rcases perform_cases hs hp with ⟨t, result, ha, he, _⟩ | ⟨t, he, _⟩
  · exact .inl ⟨t, result, ha, he⟩
  · exact .inr ⟨t, he⟩

theorem Sound.settle {result : LockManager × Progress} (hs : Sound s)
    (ha : Advance t s.manager result) : Sound (s.settle t result) := by
  have hkeep := ha.moves.othersKeep
  refine ⟨?_, fun u call hu => ?_, fun u hu => ?_⟩
  · rw [manager_settle]
    exact ⟨ha.moves.coherent hs.manager.coherent, ha.used⟩
  · rw [manager_settle]
    by_cases hut : u = t
    · subst hut
      obtain ⟨m, ⟨outcome, failedOn⟩ | ⟨request, rest⟩⟩ := result
      · simp [LockSystem.settle] at hu
      · simp only [LockSystem.settle, lookup_insert, Option.some.injEq] at hu
        exact hu ▸ ha.waiting request rest rfl
    · rw [lookup_calls_settle_ne s result hut] at hu
      exact (hkeep.waiters _ u _ hut).mpr (hs.calls u call hu)
  · rw [manager_settle]
    by_cases hut : u = t
    · subst hut
      obtain ⟨m, ⟨outcome, failedOn⟩ | ⟨request, rest⟩⟩ := result
      · exact ha.returned outcome failedOn rfl
      · simp [LockSystem.settle] at hu
    · rw [← lookup_eq_none, lookup_calls_settle_ne s result hut] at hu
      rw [← lookup_eq_none, hkeep.waitingFor u hut, lookup_eq_none]
      exact hs.idle u (lookup_eq_none.mp hu)

theorem Sound.releaseAll (hs : Sound s) : Sound ⟨s.manager.releaseAll t, s.calls⟩ where
  manager := ⟨hs.manager.coherent.releaseAll, hs.manager.used.releaseAll⟩
  calls u call hu := by
    rw [stateOf_releaseAll hs.manager.coherent]
    exact hs.calls u call hu
  idle u hu := by
    rw [waitingFor_releaseAll]
    exact hs.idle u hu

theorem Sound.step (hs : Sound s) (h : s.step a = some s') : Sound s' := by
  rcases step_cases hs h with ⟨t, result, ha, rfl⟩ | ⟨t, rfl⟩
  · exact hs.settle ha
  · exact hs.releaseAll

theorem Sound.init : Sound {} where
  manager := ⟨Coherent.empty, fun r hr => absurd hr (notMem_empty r)⟩
  calls t call h := by simp at h
  idle t _ := notMem_empty t

theorem sound_of_reachable (h : Reachable step {} s) : Sound s :=
  h.invariant Sound.init fun _ _ _ hs hstep => hs.step hstep

theorem exclusive_alone {holders : AList fun _ : TransactionId => LockMode}
    (hx : ∀ t u, holders.lookup t = some .exclusive → u ∈ holders → u = t) :
    (∀ t mode, holders.lookup t = some mode → mode = .shared) ∨ ∃ t, holders.entries = [⟨t, .exclusive⟩] := by
  refine or_iff_not_imp_left.mpr fun hn => ?_
  push Not at hn
  obtain ⟨t, mode, ht, hmode⟩ := hn
  have hmode : mode = .exclusive := by cases mode <;> trivial
  subst hmode
  have hall : ∀ h ∈ holders.entries, h.1 = t := fun h hh =>
    hx t h.1 ht (lookup_isSome.mp (by rw [mem_lookup_iff.mpr hh]; rfl))
  have hmem : (⟨t, .exclusive⟩ : Sigma fun _ : TransactionId => LockMode) ∈ holders.entries :=
    mem_lookup_iff.mp ht
  have hnd := holders.nodupKeys
  generalize holders.entries = entries at hall hmem hnd
  match entries with
  | [] => exact absurd hmem not_mem_nil
  | [h] => exact ⟨t, by rw [mem_singleton.mp hmem]⟩
  | h :: h' :: rest =>
    have hne := (nodupKeys_cons.mp hnd).1
    rw [hall h mem_cons_self, keys_cons, hall h' (by simp)] at hne
    exact absurd mem_cons_self hne

theorem mem_resources_iff (hm : Consistent s.manager) (r : LockResource) : r ∈ s.manager.resources ↔
    (s.manager.stateOf r).holders ≠ ∅ ∨ (s.manager.stateOf r).waiters ≠ [] := by
  refine ⟨fun hr => (hm.used r hr).resolve_left not_mem_nil, fun hu => ?_⟩
  by_contra hr
  rw [stateOf_of_not_mem hr] at hu
  simp at hu

/-- The same locks, whatever has become of the queues. -/
structure SameLocks (m m' : LockManager) : Prop where
  holders : ∀ r, (m'.stateOf r).holders = (m.stateOf r).holders
  heldBy : m'.heldBy = m.heldBy

variable {m m' : LockManager}

theorem SameLocks.trans {m'' : LockManager} (h : SameLocks m m') (h' : SameLocks m' m'') : SameLocks m m'' :=
  ⟨fun r => (h'.holders r).trans (h.holders r), h'.heldBy.trans h.heldBy⟩

theorem sameLocks_of_agrees (h : Agrees m m') : SameLocks m m' :=
  ⟨fun r => by rw [h.stateOf], h.heldBy⟩

variable {request : LockRequest} {poll : Poll} {outcome : LockOutcome}

theorem waitTurn_refused (h : m.waitTurn t request poll = (m', some outcome))
    (ho : outcome ≠ .acquired) : SameLocks m m' := by
  rcases waitTurn_cases m t request poll with ⟨_, _, he⟩ | ⟨o, _, he⟩ | he <;> rw [he] at h
  · exact absurd (some.inj (Prod.mk.inj h).2).symm ho
  · rw [← (Prod.mk.inj h).1]
    exact SameLocks.trans ⟨holders_leaveTheQueue m t request, rfl⟩ (sameLocks_of_agrees (agrees_eraseIfUnused _ _))
  · cases h

theorem acquireOneNoLock_refused (h : m.acquireOneNoLock t request poll = (m', some outcome))
    (ho : outcome ≠ .acquired) : SameLocks m m' := by
  have htouch := sameLocks_of_agrees (agrees_touch m request.resource)
  rcases acquireOneNoLock_cases m t request poll with ⟨_, he⟩ | ⟨_, he⟩ | ⟨_, he⟩ | ⟨_, _, he⟩ <;>
    rw [he] at h
  · exact absurd (some.inj (Prod.mk.inj h).2).symm ho
  · exact absurd (some.inj (Prod.mk.inj h).2).symm ho
  · rw [← (Prod.mk.inj h).1]
    exact htouch.trans (sameLocks_of_agrees (agrees_eraseIfUnused _ _))
  · exact htouch.trans (SameLocks.trans ⟨holders_joinTheQueue _ t request, rfl⟩ (waitTurn_refused h ho))

/-- What the four redundant structures of the lock manager say of each other. -/
structure TableInvariant (s : LockSystem) : Prop where
  modes : ∀ r, (∀ t mode, (s.manager.stateOf r).holders.lookup t = some mode → mode = .shared) ∨
    ∃ t, (s.manager.stateOf r).holders.entries = [⟨t, .exclusive⟩]
  held : ∀ t r, r ∈ s.manager.held t ↔ t ∈ (s.manager.stateOf r).holders
  held_nodup : ∀ t, (s.manager.held t).Nodup
  blocked : ∀ t, t ∈ s.calls ↔ t ∈ s.manager.waitingFor
  waiting : ∀ t r, s.manager.waitingFor.lookup t = some r ↔ ∃ mode, ⟨t, mode⟩ ∈ (s.manager.stateOf r).waiters
  queue_nodup : ∀ r, ((s.manager.stateOf r).waiters.map Waiter.transactionID).Nodup
  entries : ∀ r, r ∈ s.manager.resources ↔ (s.manager.stateOf r).holders ≠ ∅ ∨ (s.manager.stateOf r).waiters ≠ []

theorem Sound.blocked_iff (hs : Sound s) (t : TransactionId) : t ∈ s.calls ↔ t ∈ s.manager.waitingFor := by
  refine ⟨fun ht => ?_, fun ht => not_not.mp fun hn => hs.idle t hn ht⟩
  obtain ⟨call, hcall⟩ := isSome_iff_exists.mp (lookup_isSome.mpr ht)
  have := (hs.manager.coherent.waiting_iff t _).mpr ⟨_, hs.calls t call hcall⟩
  exact lookup_isSome.mp (by rw [this]; rfl)

theorem Sound.tableInvariant (hs : Sound s) : TableInvariant s where
  modes r := exclusive_alone (hs.manager.coherent.exclusive r)
  held := hs.manager.coherent.held_iff
  held_nodup := hs.manager.coherent.held_nodup
  blocked := hs.blocked_iff
  waiting := hs.manager.coherent.waiting_iff
  queue_nodup := hs.manager.coherent.queue_nodup
  entries := mem_resources_iff hs.manager

/-- The lock table is sound in every reachable state; a refused request
changes no lock, in whatever state of the table it is made, and a call that
ends with a refusal keeps every lock there was before it. -/
theorem lockTable_sound (h : Reachable step {} s) : TableInvariant s ∧
    (∀ (m m' : LockManager) t request poll outcome, outcome ≠ .acquired →
      m.acquireOneNoLock t request poll = (m', some outcome) ∨
        m.waitTurn t request poll = (m', some outcome) → SameLocks m m') ∧
    ∀ a s' p, s.perform a = some (s', some p) → ∀ r t held, (s.manager.stateOf r).holders.lookup t = some held →
        ∃ held', (s'.manager.stateOf r).holders.lookup t = some held' ∧ held.value ≤ held'.value := by
  have hs := sound_of_reachable h
  refine ⟨hs.tableInvariant, fun m m' t request poll outcome ho he => ?_, fun a s' p hp r t held hh => ?_⟩
  · exact he.elim (acquireOneNoLock_refused · ho) (waitTurn_refused · ho)
  · rcases perform_cases hs hp with ⟨u, result, ha, rfl, _⟩ | ⟨_, _, hn⟩
    · rw [manager_settle]
      exact ha.moves.keepsLock hh
    · cases hn

def contended : List LockAction :=
  [.acquire 1 [⟨⟨.row, 3, [65]⟩, .exclusive⟩] fun _ => ⟨false, false⟩,
    .acquire 2 [⟨⟨.row, 3, [65]⟩, .shared⟩] fun _ => ⟨false, false⟩]

theorem lockTable_sound_contended : ∃ s, run step {} contended = some s ∧ 2 ∈ s.calls ∧ TableInvariant s :=
  ⟨_, rfl, by decide, (lockTable_sound (Reachable.init.run (show run step {} contended = some _ from rfl))).1⟩

end Rag3db.Transaction.LockSystem
