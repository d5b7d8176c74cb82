import Rag3db.Transaction.LockInvariant

open List AList

namespace Rag3db.Transaction.LockManager

open Relation Library.Digraph ReflTransGen

variable {m m' : LockManager} {t u v : TransactionId} {request : LockRequest} {r : LockResource}
  {state : ResourceState} {mode : LockMode}

/-- `v` keeps `u` from a resource that `u` asks for behind `earlier`: it holds
the resource in an incompatible mode, or, unless `u` is upgrading, it asked
for an incompatible mode first. -/
def Blocks (state : ResourceState) (u : TransactionId) (mode : LockMode) (earlier : List Waiter)
    (v : TransactionId) : Prop :=
  v ≠ u ∧ ((∃ held, state.holders.lookup v = some held ∧ incompatible mode held = true) ∨
    (u ∉ state.holders ∧ ∃ other, ⟨v, other⟩ ∈ earlier ∧ incompatible mode other = true))

/-- The wait-for graph: an edge goes from each queued waiter to each of its
current blockers. -/
def WaitsFor (m : LockManager) (u v : TransactionId) : Prop :=
  ∃ r mode earlier later, (m.stateOf r).waiters = earlier ++ ⟨u, mode⟩ :: later ∧ Blocks (m.stateOf r) u mode earlier v

theorem mem_collectBlockers (n : Nat) :
    v ∈ collectBlockersNoLock state u mode n ↔ Blocks state u mode (state.waiters.take n) v := by
  have hholders : v ∈ (state.holders.entries.filter fun h => h.1 ≠ u && incompatible mode h.2).map (·.1) ↔
      v ≠ u ∧ ∃ held, state.holders.lookup v = some held ∧ incompatible mode held = true := by
    simp only [mem_map, mem_filter, Bool.and_eq_true, decide_eq_true_eq, Sigma.exists]
    constructor
    · rintro ⟨a, held, ⟨hm, hne, hi⟩, rfl⟩
      exact ⟨hne, held, mem_lookup_iff.mpr hm, hi⟩
    · rintro ⟨hne, held, hl, hi⟩
      exact ⟨v, held, ⟨mem_lookup_iff.mp hl, hne, hi⟩, rfl⟩
  have hwaiters : v ∈ ((state.waiters.take n).filter fun w =>
      w.transactionID ≠ u && incompatible mode w.mode).map (·.transactionID) ↔
      v ≠ u ∧ ∃ other, ⟨v, other⟩ ∈ state.waiters.take n ∧ incompatible mode other = true := by
    simp only [mem_map, mem_filter, Bool.and_eq_true, decide_eq_true_eq]
    constructor
    · rintro ⟨⟨a, other⟩, ⟨hm, hne, hi⟩, rfl⟩
      exact ⟨hne, other, hm, hi⟩
    · rintro ⟨hne, other, hm, hi⟩
      exact ⟨⟨v, other⟩, ⟨hm, hne, hi⟩, rfl⟩
  unfold collectBlockersNoLock Blocks
  split_ifs with hu
  · simp only [hholders, hu, not_true_eq_false, false_and, or_false]
  · simp only [mem_append, hholders, hwaiters, hu, not_false_eq_true, true_and, ← and_or_left]

theorem lookup_resources (h : (m.stateOf r).waiters ≠ []) : m.resources.lookup r = some (m.stateOf r) := by
  unfold stateOf at h ⊢
  cases hl : m.resources.lookup r with
  | none => simp [hl] at h
  | some state => rfl

variable {earlier later : List Waiter}

theorem find_of_append (mode : LockMode) (hnd : (earlier.map Waiter.transactionID ++
      u :: later.map Waiter.transactionID).Nodup) :
    (earlier ++ ⟨u, mode⟩ :: later).find? (·.transactionID = u) = some ⟨u, mode⟩ ∧
      (earlier ++ ⟨u, mode⟩ :: later).findIdx (·.transactionID = u) = earlier.length := by
  have hne : ∀ w ∈ earlier, w.transactionID ≠ u := fun w hw he =>
    (nodup_append.mp hnd).2.2 _ (mem_map_of_mem hw) u mem_cons_self he
  constructor
  · refine find?_eq_some_iff_append.mpr ⟨by simp, earlier, later, rfl, ?_⟩
    simpa using hne
  · rw [findIdx_append, findIdx_eq_length_of_false (by simpa using hne)]
    simp [findIdx_cons]

theorem mem_blockersOf (hm : Coherent m) : v ∈ m.blockersOf u ↔ WaitsFor m u v := by
  unfold blockersOf
  constructor
  · intro h
    split at h
    · exact absurd h not_mem_nil
    · next r hr =>
        split at h
        · exact absurd h not_mem_nil
        · next state hs =>
            split at h
            · exact absurd h not_mem_nil
            · next self hf =>
                obtain ⟨hp, earlier, later, he, _⟩ := find?_eq_some_iff_append.mp hf
                obtain ⟨w, mode⟩ := self
                simp only [decide_eq_true_eq] at hp
                subst hp
                have hst := stateOf_of_lookup hs
                have hnd := hm.queue_nodup r
                rw [hst, he, map_append] at hnd
                rw [mem_collectBlockers, he, (find_of_append mode hnd).2, take_left' rfl] at h
                exact ⟨r, mode, earlier, later, hst ▸ he, hst ▸ h⟩
  · rintro ⟨r, mode, earlier, later, he, hb⟩
    have hr : m.waitingFor.lookup u = some r := (hm.waiting_iff u r).mpr ⟨mode, by simp [he]⟩
    have hnd := hm.queue_nodup r
    rw [he, map_append] at hnd
    have hs : m.resources.lookup r = some (m.stateOf r) := lookup_resources (by simp [he])
    have hfind := find_of_append mode hnd
    simp only [hr, hs]
    simp only [he, hfind.1, hfind.2, mem_collectBlockers, take_left' rfl]
    exact hb

theorem WaitsFor.waiting (hm : Coherent m) (h : WaitsFor m u v) : u ∈ m.waitingFor := by
  obtain ⟨r, mode, earlier, later, he, _⟩ := h
  have := (hm.waiting_iff u r).mpr ⟨mode, by simp [he]⟩
  exact lookup_isSome.mp (by rw [this]; rfl)

theorem Agrees.waitsFor (h : Agrees m m') : WaitsFor m' u v ↔ WaitsFor m u v := by
  simp only [WaitsFor, h.stateOf]

/-- A grant adds edges into the transaction it serves, and no other. -/
theorem waitsFor_grant (h : WaitsFor (m.grant t request) u v) : WaitsFor m u v ∨ v = t := by
  refine or_iff_not_imp_right.mpr fun hv => ?_
  obtain ⟨r, mode, earlier, later, he, hne, hb⟩ := h
  rw [stateOf_grant] at he hb
  split_ifs at he hb with hr
  · refine ⟨r, mode, earlier, later, he, hne, ?_⟩
    rcases hb with ⟨held, hl, hi⟩ | ⟨hu, hw⟩
    · exact .inl ⟨held, by rwa [lookup_grantedHolders_ne hv] at hl, hi⟩
    · exact .inr ⟨fun hh => hu (mem_grantedHolders.mpr (.inr hh)), hw⟩
  · exact ⟨r, mode, earlier, later, he, hne, hb⟩

theorem waitsFor_leaveTheQueue (h : WaitsFor (m.leaveTheQueue t request) u v) : WaitsFor m u v := by
  obtain ⟨r, mode, earlier, later, he, hb⟩ := h
  rw [stateOf_leaveTheQueue] at he hb
  split_ifs at he hb with hr
  · obtain ⟨earlier₀, rest₀, hq, hearlier, hrest⟩ := filter_eq_append_iff.mp he
    obtain ⟨skipped, later₀, hr₀, _, _, _⟩ := filter_eq_cons_iff.mp hrest
    refine ⟨r, mode, earlier₀ ++ skipped, later₀, by rw [hq, hr₀, append_assoc], hb.1,
      hb.2.imp_right fun ⟨hu, other, hw, hi⟩ => ⟨hu, other, mem_append_left _ ?_, hi⟩⟩
    rw [← hearlier] at hw
    exact mem_of_mem_filter hw
  · exact ⟨r, mode, earlier, later, he, hb⟩

/-- Joining a queue adds edges from the newcomer to the blockers collected
for it, and no other. -/
theorem waitsFor_joinTheQueue (h : WaitsFor (m.joinTheQueue t request) u v) : WaitsFor m u v ∨
      (u = t ∧ v ∈ collectBlockersNoLock (m.stateOf request.resource) t request.mode
        (m.stateOf request.resource).waiters.length) := by
  obtain ⟨r, mode, earlier, later, he, hb⟩ := h
  rw [stateOf_joinTheQueue] at he hb
  split_ifs at he hb with hr
  · subst hr
    rcases eq_nil_or_concat later with rfl | ⟨later₀, last, rfl⟩
    · obtain ⟨hq, hw⟩ := append_inj' he rfl
      obtain ⟨rfl, rfl⟩ := Waiter.mk.inj (singleton_inj.mp hw)
      exact .inr ⟨rfl, (mem_collectBlockers _).mpr (by rw [take_length, hq]; exact hb)⟩
    · rw [concat_eq_append, ← cons_append, ← append_assoc] at he
      exact .inl ⟨_, mode, earlier, later₀, (append_inj' he rfl).1, hb⟩
  · exact .inl ⟨r, mode, earlier, later, he, hb⟩

variable {blockers : List TransactionId}

theorem closesCycle_iff (hm : Coherent m) :
    m.closesCycle t blockers = true ↔ ∃ b ∈ blockers, ReflTransGen (WaitsFor m) b t := by
  have hedge : ∀ a c, Edge m.blockersOf a c ↔ WaitsFor m a c := fun a c => mem_blockersOf hm
  refine ⟨fun h => ?_, fun ⟨b, hb, hpath⟩ => Bool.not_eq_false _ ▸ fun h => ?_⟩
  · obtain ⟨b, hb, seen, hs⟩ := searchAll_true h
    exact ⟨b, hb, mono (fun a c => (hedge a c).mp) _ _ (reaches_sound hs)⟩
  · have hexpand : ∀ a, m.blockersOf a ≠ [] → a ∈ m.waitingFor.keys.toFinset := by
      intro a ha
      obtain ⟨c, hc⟩ := exists_mem_of_ne_nil _ ha
      rw [mem_toFinset]
      exact ((hedge a c).mp hc).waiting hm
    have hcard : m.waitingFor.keys.toFinset.card < m.waitingFor.entries.length + 1 := by
      have hkeys : m.waitingFor.keys.length = m.waitingFor.entries.length := length_map _
      have := toFinset_card_le m.waitingFor.keys
      omega
    exact searchAll_complete hexpand hcard h b hb (mono (fun a c => (hedge a c).mpr) _ _ hpath)

/-- When the check made before a transaction queues up passes, none of its
blockers waits for it, directly or through others. -/
theorem closesCycle_false (hm : Coherent m) (h : m.closesCycle t blockers = false) :
    ∀ b ∈ blockers, ¬ ReflTransGen (WaitsFor m) b t := by
  intro b hb hpath
  exact absurd ((closesCycle_iff hm).mpr ⟨b, hb, hpath⟩) (by simp [h])

theorem Move.acyclic (hm : Coherent m) (h : Move t m m') (ha : Acyclic (WaitsFor m)) : Acyclic (WaitsFor m') := by
  have hm' := h.coherent hm
  cases h with
  | agree hag => exact ha.mono fun _ _ => hag.waitsFor.mp
  | grant request hn _ =>
    exact ha.of_sink (fun b hb => hn (by simpa using hb.waiting hm')) fun _ _ => waitsFor_grant
  | join request _ _ hcycle =>
    exact ha.of_source fun a b hab => (waitsFor_joinTheQueue hab).imp_right
      fun ⟨he, hb⟩ => ⟨he, closesCycle_false hm hcycle b hb⟩
  | leave request _ => exact ha.mono fun _ _ => waitsFor_leaveTheQueue

theorem Moves.acyclic (hm : Coherent m) (h : Moves t m m') (ha : Acyclic (WaitsFor m)) : Acyclic (WaitsFor m') :=
  (h.invariant (P := fun m => Coherent m ∧ Acyclic (WaitsFor m)) ⟨hm, ha⟩
    fun _ _ hp hmove => ⟨hmove.coherent hp.1, hmove.acyclic hp.1 hp.2⟩).2

/-- The new edges lead from the newcomer, at the end of the queue, to its blockers. -/
theorem acyclic_joinTheQueue_iff (ha : Acyclic (WaitsFor m)) : Acyclic (WaitsFor (m.joinTheQueue t request)) ↔
    ∀ b, Blocks (m.stateOf request.resource) t request.mode (m.stateOf request.resource).waiters b →
      ¬ ReflTransGen (WaitsFor m) b t := by
  refine ⟨fun h b hb hpath => ?_, fun h => ha.of_source (t := t) fun a b hab => ?_⟩
  · have hold : ∀ a b, WaitsFor m a b → WaitsFor (m.joinTheQueue t request) a b := by
      rintro a b ⟨r, mode, earlier, later, he, hab⟩
      by_cases hr : r = request.resource
      · subst hr
        exact ⟨request.resource, mode, earlier, later ++ [⟨t, request.mode⟩], by simp [stateOf_joinTheQueue, he],
          by simpa [stateOf_joinTheQueue, Blocks] using hab⟩
      · exact ⟨r, mode, earlier, later, by simpa [stateOf_joinTheQueue, hr] using he,
          by simpa [stateOf_joinTheQueue, hr] using hab⟩
    have hnew : WaitsFor (m.joinTheQueue t request) t b :=
      ⟨request.resource, request.mode, (m.stateOf request.resource).waiters, [],
        by simp [stateOf_joinTheQueue], by simpa [stateOf_joinTheQueue, Blocks] using hb⟩
    exact h t (TransGen.head' hnew (mono hold _ _ hpath))
  · refine (waitsFor_joinTheQueue hab).imp_right fun ⟨he, hb⟩ => ⟨he, h b ?_⟩
    rwa [mem_collectBlockers, take_length] at hb

theorem closesCycle_blockers_iff (mode : LockMode) (hm : Coherent m) (hag : Agrees m m') :
    m'.closesCycle t (collectBlockersNoLock (m.stateOf r) t mode (m.stateOf r).waiters.length) = true ↔
      ∃ b, Blocks (m.stateOf r) t mode (m.stateOf r).waiters b ∧ ReflTransGen (WaitsFor m) b t := by
  have he : WaitsFor m' = WaitsFor m := by
    funext a b
    exact propext hag.waitsFor
  simp only [closesCycle_iff (hag.coherent hm), mem_collectBlockers, take_length, he]

theorem not_blocks_of_held (hm : Coherent m)
    (h : (m.stateOf r).holders.lookup t = some .exclusive ∨ (t ∈ (m.stateOf r).holders ∧ mode = .shared)) :
    ¬ Blocks (m.stateOf r) t mode (m.stateOf r).waiters v := by
  have ht : t ∈ (m.stateOf r).holders := h.elim (fun hx => lookup_isSome.mp (by rw [hx]; rfl)) And.left
  rintro ⟨hne, ⟨held, hl, hi⟩ | ⟨hn, _⟩⟩
  · rcases h with hx | ⟨_, rfl⟩
    · exact hne (hm.exclusive r t v hx (lookup_isSome.mp (by rw [hl]; rfl)))
    · obtain rfl : held = .exclusive := by simpa [incompatible] using hi
      exact hne (hm.exclusive r v t hl ht).symm
  · exact hn ht

theorem not_blocks_of_canGrant {state : ResourceState}
    (h : canGrantNoLock state t mode state.waiters.length = true) : ¬ Blocks state t mode state.waiters v := by
  rintro ⟨hne, ⟨held, hl, hi⟩ | ⟨hn, other, hw, hi⟩⟩
  · obtain ⟨rfl, rfl⟩ := canGrantNoLock_compatible h hne hl
    simp [incompatible] at hi
  · unfold canGrantNoLock at h
    split_ifs at h
    simp only [take_length, Bool.not_eq_true', any_eq_false] at h
    exact h _ hw hi

theorem queue_split_unique {queue earlier earlier' later later' : List Waiter} {mode' : LockMode}
    (hnd : (queue.map Waiter.transactionID).Nodup) (he : queue = earlier ++ ⟨u, mode⟩ :: later)
    (he' : queue = earlier' ++ ⟨u, mode'⟩ :: later') : earlier = earlier' := by
  have hidx : ∀ front mode back, queue = front ++ ⟨u, mode⟩ :: back →
      queue.findIdx (·.transactionID = u) = front.length := by
    rintro front mode back rfl
    rw [map_append] at hnd
    exact (find_of_append mode hnd).2
  exact (append_inj (he.symm.trans he') ((hidx _ _ _ he).symm.trans (hidx _ _ _ he'))).1

/-- Releasing only adds edges when a transaction gives up a lock it is
waiting to upgrade: it then waits behind those who came before it. -/
theorem waitsFor_releaseAll (hm : Coherent m) (h : WaitsFor (m.releaseAll t) u v) :
    WaitsFor m u v ∨ (u = t ∧ ∃ r mode earlier later,
      (m.stateOf r).waiters = earlier ++ ⟨t, mode⟩ :: later ∧ t ∈ (m.stateOf r).holders ∧
        ∃ other, ⟨v, other⟩ ∈ earlier) := by
  obtain ⟨r, mode, earlier, later, he, hne, hb⟩ := h
  rw [stateOf_releaseAll hm] at he hb
  rcases hb with ⟨held, hl, hi⟩ | ⟨hu, other, hw, hi⟩
  · have hvt : v ≠ t := by
      rintro rfl
      simp [withoutHolder] at hl
    rw [withoutHolder, lookup_erase_ne hvt] at hl
    exact .inl ⟨r, mode, earlier, later, he, hne, .inl ⟨held, hl, hi⟩⟩
  · by_cases hh : u ∈ (m.stateOf r).holders
    · have hut : u = t := not_not.mp fun hut => hu (mem_erase.mpr ⟨hut, hh⟩)
      subst hut
      exact .inr ⟨rfl, r, mode, earlier, later, he, hh, other, hw⟩
    · exact .inl ⟨r, mode, earlier, later, he, hne, .inr ⟨hh, other, hw, hi⟩⟩

/-- No one who waits in front of an upgrade leads back to it once it has
released its lock: the path would leave the queue through a holder that the
upgrade was already waiting for. -/
theorem not_reaches_upgrade (hm : Coherent m) (ha : Acyclic (WaitsFor m))
    (he : (m.stateOf r).waiters = earlier ++ ⟨t, mode⟩ :: later) (ht : t ∈ (m.stateOf r).holders)
    (hpath : ReflTransGen (fun a b => WaitsFor m a b ∧ WaitsFor (m.releaseAll t) a b) u t) :
    ¬ ∃ other, ⟨u, other⟩ ∈ earlier := by
  have hmode : mode = .exclusive := hm.upgrade r t mode (by simp [he]) ht
  have hnd := hm.queue_nodup r
  induction hpath using head_induction_on with
  | refl =>
    rintro ⟨other, hw⟩
    rw [he, map_append] at hnd
    exact (nodup_append.mp hnd).2.2 _ (mem_map_of_mem hw) t mem_cons_self rfl
  | head hxy hyt ih =>
    rename_i x y
    rintro ⟨other, hw⟩
    obtain ⟨r', mode', earlier', later', he', hne, hb⟩ := hxy.2
    rw [stateOf_releaseAll hm] at he' hb
    rw [waiters_withoutHolder] at he'
    have hr : r' = r := by
      have h₁ := (hm.waiting_iff x r').mpr ⟨mode', by simp [he']⟩
      have h₂ := (hm.waiting_iff x r).mpr ⟨other, by simp [he, hw]⟩
      exact Option.some.inj (h₁.symm.trans h₂)
    subst hr
    rcases hb with ⟨held, hl, _⟩ | ⟨_, other', hw', _⟩
    · have hyt' : y ≠ t := by
        rintro rfl
        simp [withoutHolder] at hl
      rw [withoutHolder, lookup_erase_ne hyt'] at hl
      have hedge : WaitsFor m t y :=
        ⟨r', mode, earlier, later, he, hyt', .inl ⟨held, hl, by simp [incompatible, hmode]⟩⟩
      exact ha t (TransGen.head' hedge (mono (fun _ _ h => h.1) _ _ hyt))
    · -- an earlier waiter than one in front of the upgrade is in front of it too
      obtain ⟨front, back, rfl⟩ := append_of_mem hw
      rw [append_assoc] at he
      have hsplit : front = earlier' := queue_split_unique hnd he he'
      exact ih ⟨other', by simp [hsplit, hw']⟩

theorem Coherent.acyclic_releaseAll (hm : Coherent m) (ha : Acyclic (WaitsFor m)) :
    Acyclic (WaitsFor (m.releaseAll t)) := by
  have hold : Acyclic fun a b => WaitsFor m a b ∧ WaitsFor (m.releaseAll t) a b :=
    ha.mono fun _ _ h => h.1
  refine hold.of_source (t := t) fun a b hab => ?_
  rcases waitsFor_releaseAll hm hab with h | ⟨rfl, r, mode, earlier, later, he, ht, hb⟩
  · exact .inl ⟨h, hab⟩
  · exact .inr ⟨rfl, fun hpath => not_reaches_upgrade hm ha he ht hpath hb⟩

end Rag3db.Transaction.LockManager

namespace Rag3db.Transaction.LockSystem

open Library.Digraph Library.Transition LockManager

variable {s : LockSystem}

/-- No state of any run has a cycle in its wait-for graph. -/
theorem waitForGraph_acyclic (h : Reachable step {} s) : Acyclic (WaitsFor s.manager) := by
  refine (h.invariant (P := fun s => Sound s ∧ Acyclic (WaitsFor s.manager)) ⟨Sound.init, ?_⟩ ?_).2
  · rintro a ha
    obtain ⟨b, ⟨r, mode, earlier, later, he, _⟩, _⟩ := Relation.TransGen.head'_iff.mp ha
    simp [stateOf] at he
  · rintro s a s' ⟨hs, ha⟩ hstep
    refine ⟨hs.step hstep, ?_⟩
    rcases step_cases hs hstep with ⟨t, result, hadv, rfl⟩ | ⟨t, rfl⟩
    · rw [manager_settle]
      exact hadv.moves.acyclic hs.manager.coherent ha
    · exact hs.manager.coherent.acyclic_releaseAll ha

/-- The lock table as a request of `t` finds it: when its call begins, when it
goes on after a wait, and after each lock granted before in the same call. -/
inductive Asking (s : LockSystem) (t : TransactionId) : LockManager → Prop
  | call : t ∉ s.calls → Asking s t s.manager
  | woken {call : Call} {poll : Poll} {m : LockManager} : s.calls.lookup t = some call →
      s.manager.waitTurn t call.request poll = (m, some .acquired) → Asking s t m
  | granted {request : LockRequest} {poll : Poll} {m m' : LockManager} : Asking s t m →
      m.acquireOneNoLock t request poll = (m', some .acquired) → Asking s t m'

variable {t : TransactionId} {m : LockManager}

theorem Asking.sound (hs : Sound s) (ha : Acyclic (WaitsFor s.manager)) (h : Asking s t m) :
    Consistent m ∧ t ∉ m.waitingFor ∧ Acyclic (WaitsFor m) := by
  have hturn : ∀ {m m' request}, Consistent m → Acyclic (WaitsFor m) →
      Turn t request m (m', some .acquired) → Consistent m' ∧ t ∉ m'.waitingFor ∧ Acyclic (WaitsFor m') :=
    fun hm ha ht => ⟨⟨ht.moves.coherent hm.coherent, ht.used⟩, ht.stands, ht.moves.acyclic hm.coherent ha⟩
  induction h with
  | call ht => exact ⟨hs.manager, hs.idle t ht, ha⟩
  | woken hcall he => exact hturn hs.manager ha (he ▸ waitTurn_turn hs.manager (hs.calls t _ hcall))
  | granted _ he ih => exact hturn ih.1 ih.2.2 (he ▸ acquireOneNoLock_turn ih.1 ih.2.1)

/-- A request is refused with a deadlock exactly when queueing it would close
a cycle, and the search, for all that its roots share what they visited,
finds the requester exactly when a path of blockers leads to it. -/
theorem deadlock_iff_closes_cycle (h : Reachable step {} s) (hm : Asking s t m) (request : LockRequest) (poll : Poll) :
    ((m.acquireOneNoLock t request poll).2 = some .deadlock ↔ ¬ Acyclic (WaitsFor (m.joinTheQueue t request))) ∧
    (m.closesCycle t (collectBlockersNoLock (m.stateOf request.resource) t request.mode
        (m.stateOf request.resource).waiters.length) = true ↔
      ∃ b, Blocks (m.stateOf request.resource) t request.mode (m.stateOf request.resource).waiters b ∧
        Relation.ReflTransGen (WaitsFor m) b t) := by
  obtain ⟨hc, -, ha⟩ := hm.sound (sound_of_reachable h) (waitForGraph_acyclic h)
  refine ⟨?_, closesCycle_blockers_iff _ hc.coherent ⟨fun _ => rfl, rfl, rfl⟩⟩
  have hcloses := closesCycle_blockers_iff (t := t) (r := request.resource) request.mode hc.coherent
    (agrees_touch m request.resource)
  rw [acyclic_joinTheQueue_iff ha]
  push Not
  unfold acquireOneNoLock
  dsimp only
  split_ifs with hheld hg hcycle
  · simp [not_blocks_of_held hc.coherent hheld]
  · simp [not_blocks_of_canGrant hg]
  · simp [hcloses.mp hcycle]
  · rw [← hcloses]
    refine iff_of_false (fun he => ?_) hcycle
    rcases waitTurn_cases ((m.setState request.resource (m.stateOf request.resource)).joinTheQueue t request)
      t request poll with ⟨_, _, hw⟩ | ⟨o, rfl | rfl, hw⟩ | hw <;> simp [hw] at he

def upgrading : List LockAction :=
  [.acquire 1 [⟨⟨.row, 3, [65]⟩, .shared⟩] fun _ => ⟨false, false⟩,
    .acquire 2 [⟨⟨.row, 3, [65]⟩, .shared⟩] fun _ => ⟨false, false⟩,
    .acquire 1 [⟨⟨.row, 3, [65]⟩, .exclusive⟩] fun _ => ⟨false, false⟩,
    .acquire 3 [⟨⟨.row, 3, [65]⟩, .exclusive⟩] fun _ => ⟨false, false⟩]

theorem waitForGraph_acyclic_upgrading : ∃ s, run step {} upgrading = some s ∧
    1 ∈ s.calls ∧ 3 ∈ s.calls ∧ Acyclic (WaitsFor s.manager) :=
  ⟨_, rfl, by decide, by decide,
    waitForGraph_acyclic (Reachable.init.run (show run step {} upgrading = some _ from rfl))⟩

def crossed : List LockAction :=
  [.acquire 1 [⟨⟨.row, 3, [65]⟩, .exclusive⟩] fun _ => ⟨false, false⟩,
    .acquire 2 [⟨⟨.row, 3, [66]⟩, .exclusive⟩] fun _ => ⟨false, false⟩,
    .acquire 1 [⟨⟨.row, 3, [66]⟩, .exclusive⟩] fun _ => ⟨false, false⟩]

theorem deadlock_iff_closes_cycle_crossed : ∃ s, run step {} crossed = some s ∧ 2 ∉ s.calls ∧
    ¬ Acyclic (WaitsFor (s.manager.joinTheQueue 2 ⟨⟨.row, 3, [65]⟩, .shared⟩)) := by
  refine ⟨_, rfl, by decide, ?_⟩
  have hreach : Reachable step {} _ := Reachable.init.run (show run step {} crossed = some _ from rfl)
  exact (deadlock_iff_closes_cycle hreach (.call (by decide)) ⟨⟨.row, 3, [65]⟩, .shared⟩ ⟨false, false⟩).1.mp
    (by decide)

end Rag3db.Transaction.LockSystem
