import Rag3db.Transaction.CheckpointHistory

open List

namespace Rag3db.Transaction.TransactionManager

open Library.History

variable {s s' : TransactionManager} {i j : ThreadId} {g : Gate} {x y : ActiveTransaction} {w : Wait}
  {t : TransactionId} {newer older : List Event}

/-- A forced commit, with what came after it, is in a complete checkpoint, or
the next failure of one is fatal, or one that holds it is being written, or
the database is condemned. -/
def Carried (s : TransactionManager) (newer : List Event) : Prop :=
  Checkpointed newer ∨ s.checkpointCarriesForcedCommit = true ∨
    (∃ i origin number, s.threads.lookup i = some (.writing origin number true) ∧
      .started number s.checkpointTS ∈ newer) ∨ s.checkpointFailed = true

/-- What the history says of the commits and checkpoints so far. -/
structure HistoryInvariant (s : TransactionManager) : Prop where
  bounded : ∀ x ∈ s.activeTransactions, x.id ≤ s.lastTransactionID
  unique : ∀ x ∈ s.activeTransactions, ∀ y ∈ s.activeTransactions, x.id = y.id → x = y
  applied : ∀ t ts oldest forced, .applied t ts oldest forced ∈ s.trace → s.Gone t
  numbered : ∀ number ts, .started number ts ∈ s.trace → number ≤ s.checkpointsStarted
  completed : ∀ newer older number ts, s.trace = newer ++ .completed number ts :: older → .started number ts ∈ older
  latest : s.lastCompletedCheckpoint = 0 ∨ ∃ ts, .completed s.lastCompletedCheckpoint ts ∈ s.trace
  returned : ∀ newer older t, s.trace = newer ++ .returned t :: older → Settled older t
  waits : ∀ j w, s.threads.lookup j = some w → s.Standing w
  carried : ∀ newer older t ts oldest, s.trace = newer ++ .applied t ts oldest true :: older → s.Carried newer
  durable : s.checkpointCarriesForcedCommit = true → s.config.inMemory = false
  actions : ∀ x ∈ s.activeTransactions, x.preCommitActions = true → x.forceCheckpoint = true

variable (h : Effect i s s')

include h

theorem Effect.bounded (hs : s.HistoryInvariant) : ∀ x ∈ s'.activeTransactions, x.id ≤ s'.lastTransactionID := by
  intro y hy
  rcases h.kept hy with ⟨x, hx, hk⟩ | hb
  · rw [hk.id]
    exact (hs.bounded x hx).trans h.last_le
  · cases h.list with
    | begun z hz _ hl => rw [hl, hb.eq]; exact le_rfl
    | same he _ => exact (hs.bounded y (he ▸ hy)).trans h.last_le
    | cleared t he _ => exact (hs.bounded y (mem_of_mem_filter (he ▸ hy))).trans h.last_le
    | changed u f hf he _ =>
      obtain ⟨x, hx, rfl⟩ := mem_map.mp (he ▸ hy)
      refine le_trans ?_ h.last_le
      split_ifs with hid
      · exact (hf x hx hid).id.le.trans (hs.bounded x hx)
      · exact hs.bounded x hx

theorem Effect.unique (hs : s.HistoryInvariant) :
    ∀ x ∈ s'.activeTransactions, ∀ y ∈ s'.activeTransactions, x.id = y.id → x = y := by
  intro y hy z hz hid
  cases h.list with
  | same he _ =>
    rw [he] at hy hz
    exact hs.unique y hy z hz hid
  | cleared t he _ =>
    rw [he] at hy hz
    exact hs.unique y (mem_of_mem_filter hy) z (mem_of_mem_filter hz) hid
  | changed t f hf he _ =>
    rw [he] at hy hz
    obtain ⟨x, hx, rfl⟩ := mem_map.mp hy
    obtain ⟨x', hx', rfl⟩ := mem_map.mp hz
    have same : ∀ u ∈ s.activeTransactions, (if u.id = t then f u else u).id = u.id := by
      intro u hu
      split_ifs with ht
      · exact (hf u hu ht).id
      · rfl
    rw [same x hx, same x' hx'] at hid
    rw [hs.unique x hx x' hx' hid]
  | begun b hb he _ =>
    have fresh : ∀ u ∈ s.activeTransactions, u.id ≠ b.id := by
      intro u hu hub
      rw [hb.eq] at hub
      exact absurd hub (Nat.lt_succ_of_le (hs.bounded u hu)).ne
    rw [he] at hy hz
    simp only [mem_append, mem_singleton] at hy hz
    rcases hy with hy | rfl <;> rcases hz with hz | rfl
    · exact hs.unique y hy z hz hid
    · exact absurd hid (fresh y hy)
    · exact absurd hid.symm (fresh z hz)
    · rfl

theorem Effect.started_le : s.checkpointsStarted ≤ s'.checkpointsStarted := by
  cases h with
  | commitForced | write | writeRequested => exact Nat.le_succ _
  | _ => exact le_rfl

theorem Effect.latest : s'.lastCompletedCheckpoint = s.lastCompletedCheckpoint ∨
    ∃ ts, .completed s'.lastCompletedCheckpoint ts ∈ s'.trace := by
  cases h with
  | complete origin number => exact .inr ⟨s.checkpointTS, mem_cons_self⟩
  | _ => exact .inl rfl

omit h in
theorem Ready.same {p : Purpose} (hr : s.Ready p) (ha : s'.activeTransactions = s.activeTransactions)
    (hl : s'.lastTransactionID = s.lastTransactionID) (hc : s'.config = s.config)
    (ht : s'.trace = s.trace) : s'.Ready p := by
  cases p with
  | forced t | preCommit t => simpa only [Ready, ha, hl, hc] using hr
  | checkpoint origin =>
    cases origin with
    | explicit => trivial
    | auto t | requested t | queue t | forced t => simpa only [Ready, Gone, ha, hl, ht] using hr

omit h in
theorem standing_startWriting {origin : Origin} (hr : s.Ready (.checkpoint origin)) (carries : Bool) :
    (s.startWriting i origin).Standing (.writing origin (s.checkpointsStarted + 1) carries) := by
  have settled : ∀ t, Settled s.trace t → Settled (s.startWriting i origin).trace t := by
    intro t hs newer older ts oldest he
    obtain ⟨rest, rfl, hold⟩ := split_cons he nofun
    exact (hs _ _ _ _ hold).append [_]
  have after : ∀ newer older t ts oldest, (s.startWriting i origin).trace =
      newer ++ .applied t ts oldest true :: older →
      .started (s.checkpointsStarted + 1) s.lastTimestamp ∈ newer := by
    intro newer older t ts oldest he
    obtain ⟨rest, rfl, hold⟩ := split_cons he nofun
    exact mem_cons_self
  refine ⟨mem_cons_self, ?_⟩
  cases origin with
  | explicit => trivial
  | auto t | requested t => exact ⟨hr.1, settled t hr.2⟩
  | queue t | forced t => exact ⟨hr, fun newer older ts oldest => after newer older t ts oldest⟩

omit h in
theorem standing_queueDone (hs : s.HistoryInvariant) (hx : x ∈ s.activeTransactions)
    (ha : s'.activeTransactions = s.activeTransactions.filter (·.id ≠ x.id))
    (hl : s'.lastTransactionID = s.lastTransactionID) (ht : s'.trace = s.stamped.commitEvents x ++ s.trace) :
    s'.Standing (.queueDone x.id s.checkpointsStarted) := by
  refine ⟨⟨fun y hy => ?_, hl ▸ hs.bounded x hx⟩, fun newer older ts oldest he number cp hmem => ?_⟩
  · rw [ha] at hy
    simpa using (mem_filter.mp hy).2
  · rw [ht] at he
    rcases split_append he with ⟨rest, _, hold⟩ | ⟨rest, hevents, rfl⟩
    · exact absurd rfl ((hs.applied _ _ _ _ (mem_of_split hold)).1 x hx)
    · -- No checkpoint starts among the events of the commit itself.
      refine hs.numbered number cp ((mem_append.mp hmem).resolve_left fun hrest => ?_)
      have : .started number cp ∈ s.stamped.commitEvents x := by
        rw [hevents]
        exact mem_append_right _ (mem_cons_of_mem _ hrest)
      unfold commitEvents at this
      split_ifs at this <;> simp at this

theorem Effect.own (hs : s.HistoryInvariant) (hl : s'.threads.lookup i = some w) :
    s.threads.lookup i = some w ∧ s'.checkpointTS = s.checkpointTS ∨ s'.Standing w := by
  have parked : ∀ (m : TransactionManager) v, (m.park i v).threads.lookup i = some w → w = v := by
    intro m v hv
    simpa using hv.symm
  have left : ∀ m : TransactionManager, (m.leave i).threads.lookup i ≠ some w := by simp
  cases h with try obtain rfl := parked _ _ hl
  | openDatabase | begin | modify | condemn | clear | dropRequest | cancelRequest | request
  | commitPlain => exact .inl ⟨hl, rfl⟩
  | takeRequest p _ _ hready | closeGate p _ _ hready | waitForGate p _ hready =>
    exact .inr (hready.same rfl rfl rfl rfl)
  | again v hi =>
    exact .inl ⟨hi, rfl⟩
  | callQueue p hi =>
    exact .inr (Ready.same (hs.waits i _ hi) rfl rfl rfl rfl)
  | enqueue x _ _ hready =>
    exact .inr (Ready.same hready rfl rfl rfl rfl)
  | commitInQueue x hx =>
    exact .inr (standing_queueDone hs hx rfl rfl rfl)
  | commitForced x phase _ hx =>
    refine .inr (standing_startWriting ?_ _)
    exact ⟨fun y hy => ne_of_mem_applied hy, hs.bounded x hx⟩
  | write origin phase _ hi =>
    refine .inr (standing_startWriting ?_ _)
    exact Ready.same (hs.waits i _ hi) rfl rfl rfl rfl
  | writeRequested t _ hready =>
    refine .inr (standing_startWriting ?_ _)
    exact Ready.same hready rfl rfl rfl rfl
  | _ => exact absurd hl (left _)

theorem Effect.waits (hg : s.ShowsGate g) (hs : s.HistoryInvariant) :
    ∀ j w, s'.threads.lookup j = some w → s'.Standing w := by
  intro j w hl
  by_cases hj : j = i
  · subst hj
    rcases h.own hs hl with ⟨hold, hts⟩ | hw
    · exact (hs.waits j w hold).effect h hold fun _ => hts
    · exact hw
  · have hold := (h.others hj).symm.trans hl
    refine (hs.waits j w hold).effect h hold fun hwriting => ?_
    cases w with
    | writing origin number carries => exact (h.timestamps hg hold).1
    | queued | queueDone | stopping => cases hwriting

theorem Effect.flag (hf : s.checkpointCarriesForcedCommit = true) : s'.Promised := by
  have started : ∀ (m : TransactionManager) origin, m.checkpointCarriesForcedCommit = true →
      (m.startWriting i origin).Promised := fun m origin hm =>
    .inr ⟨i, origin, _, _, hm ▸ AList.lookup_insert _, rfl⟩
  cases h with
  | commitForced => exact started _ _ rfl
  | write | writeRequested => exact started _ _ hf
  | commitInQueue => exact .inl rfl
  | _ => exact .inl hf

theorem Effect.failed_mono (hf : s.checkpointFailed = true) : s'.checkpointFailed = true := by
  cases h with
  | fail => rfl
  | _ => exact hf

omit h in
theorem Promised.carried (h : s.Promised) {a : Event} (he : s.trace = newer ++ a :: older)
    (ha : ∀ number ts, a ≠ .started number ts) : s.Carried newer := by
  rcases h with hf | ⟨i, origin, number, rest, hl, ht⟩
  · exact .inr (.inl hf)
  · obtain ⟨rest, rfl, _⟩ := split_cons (ht.symm.trans he) (ha _ _)
    exact .inr (.inr (.inl ⟨i, origin, number, hl, mem_cons_self⟩))

theorem Effect.carried (hg : s.ShowsGate g) (hs : s.HistoryInvariant) :
    ∀ newer older t ts oldest, s'.trace = newer ++ .applied t ts oldest true :: older → s'.Carried newer := by
  intro newer older t ts oldest he
  obtain ⟨events, ht, hadds⟩ := h.adds
  rcases split_append (ht ▸ he) with ⟨rest, rfl, hold⟩ | ⟨rest, hevents, _⟩
  · rcases hs.carried _ _ _ _ _ hold with hc | hf | ⟨j, origin, number, hl, hstarted⟩ | hf
    · exact .inl (hc.append events)
    · exact (h.flag hf).carried he nofun
    · rcases h.writer hg hl with hl' | hdone | hf | hc
      · refine .inr (.inr (.inl ⟨j, origin, number, hl', ?_⟩))
        rw [(h.timestamps hg hl).1]
        exact mem_append_right _ hstarted
      · obtain rfl : events = [.completed number s.checkpointTS] := append_cancel_right (ht.symm.trans hdone)
        exact .inl ⟨number, s.checkpointTS, mem_append_right _ hstarted, mem_cons_self⟩
      · exact .inr (.inr (.inr hf))
      · cases hc
    · exact .inr (.inr (.inr (h.failed_mono hf)))
  · have hmem : .applied t ts oldest true ∈ events := mem_of_split hevents
    exact ((hadds _ hmem).2.2.1 rfl).carried he nofun

theorem Effect.durable (hs : s.HistoryInvariant) (hf : s'.checkpointCarriesForcedCommit = true) :
    s'.config.inMemory = false := by
  rw [h.config]
  cases h with
  | commitInQueue x _ _ hforced => simpa using (Bool.and_eq_true_iff.mp hforced).1
  | commitForced | write | writeRequested => cases hf
  | _ => exact hs.durable hf

theorem Effect.actions (hs : s.HistoryInvariant) :
    ∀ x ∈ s'.activeTransactions, x.preCommitActions = true → x.forceCheckpoint = true := by
  intro y hy
  rcases h.kept hy with ⟨x, hx, hk⟩ | hb
  · exact hk.forced (hs.actions x hx)
  · rw [hb.eq]
    exact fun hp => hp

theorem Effect.historyInvariant (hg : s.ShowsGate g) (hs : s.HistoryInvariant) : s'.HistoryInvariant := by
  obtain ⟨events, ht, hadds⟩ := h.adds
  have mem_trace : ∀ e ∈ s'.trace, e ∈ events ∨ e ∈ s.trace := fun e he => by
    rw [ht] at he
    exact mem_append.mp he
  refine ⟨h.bounded hs, h.unique hs, ?_, ?_, ?_, ?_, ?_, h.waits hg hs, h.carried hg hs, h.durable hs, h.actions hs⟩
  · intro t ts oldest forced hmem
    rcases mem_trace _ hmem with hmem | hmem
    · obtain ⟨⟨x, hx, rfl, _⟩, hgone, _⟩ := hadds _ hmem
      exact ⟨hgone, (hs.bounded x hx).trans h.last_le⟩
    · exact (hs.applied _ _ _ _ hmem).effect h
  · intro number ts hmem
    rcases mem_trace _ hmem with hmem | hmem
    · exact (hadds _ hmem).2.ge
    · exact (hs.numbered _ _ hmem).trans h.started_le
  · intro newer older number ts he
    rcases split_append (ht ▸ he) with ⟨rest, _, hold⟩ | ⟨rest, hevents, rfl⟩
    · exact hs.completed _ _ _ _ hold
    · obtain ⟨⟨j, origin, carries, hl⟩, rfl⟩ := hadds _ (mem_of_split hevents)
      exact mem_append_right _ (hs.waits j _ hl).1
  · rcases h.latest with hl | hl
    · rw [hl, ht]
      exact hs.latest.imp id fun ⟨ts, hts⟩ => ⟨ts, mem_append_right _ hts⟩
    · exact .inr hl
  · intro newer older t he
    rcases split_append (ht ▸ he) with ⟨rest, _, hold⟩ | ⟨rest, hevents, rfl⟩
    · exact hs.returned _ _ _ hold
    · obtain ⟨hsettled, hone⟩ := hadds _ (mem_of_split hevents)
      obtain rfl : events = [.returned t] := append_cancel_right (ht.symm.trans hone)
      obtain rfl : rest = [] := by
        cases newer with
        | nil => exact (List.cons.inj hevents).2.symm
        | cons e newer => exact absurd (List.cons.inj hevents).2 (by simp)
      exact hsettled

end Rag3db.Transaction.TransactionManager
