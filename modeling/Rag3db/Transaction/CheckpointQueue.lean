import Rag3db.Transaction.CheckpointSafety

namespace Rag3db.Transaction.TransactionManager

variable {s s' : TransactionManager} {i j : ThreadId} {g : Gate} {x y : ActiveTransaction} {w : Wait}
  {t : TransactionId}

theorem not_mem_leaveQueue (s : TransactionManager) (t : TransactionId) :
    t ∉ (s.leaveQueue t).queuedCheckpointCommits := by
  simp [leaveQueue]

theorem Effect.keepsQueued (h : Effect i s s') (hl : s.threads.lookup j = some (.queued t)) :
    s'.threads.lookup j = some (.queued t) ∨ t ∉ s'.queuedCheckpointCommits := by
  by_cases hj : j = i
  · subst hj
    have busy : ¬ s.Idle j := fun hidle => by
      obtain ⟨_, _, hq⟩ := hidle _ hl
      cases hq
    have here : ∀ w, s.threads.lookup j = some w → w = .queued t := fun w hw =>
      Option.some.inj (hw.symm.trans hl)
    cases h with
    | closeGate p _ hmay => exact absurd (hmay.resolve_right fun hi => nomatch here _ hi) busy
    | again w hi =>
      rw [here w hi]
      exact .inl (by simp)
    | callQueue p hi | giveUp p phase _ hi | commitForced x phase _ _ _ _ hi | commitAlone x phase _ _ _ hi
    | raiseAlone x p phase appended _ _ _ _ _ hi | write _ phase _ hi | complete _ _ _ hi | refuse _ _ hi
    | fail _ _ _ hi => cases here _ hi
    | dequeue t' hi | commitInQueue x _ _ _ hi | raiseInQueue x appended _ _ _ hi =>
      cases here _ hi
      exact .inr (not_mem_leaveQueue _ _)
    | _ => first | exact .inl hl | exact absurd ‹s.Idle j› busy
  · exact .inl ((h.others hj).trans hl)

theorem Effect.enqueued (h : Effect i s s') (ht : t ∈ s'.queuedCheckpointCommits) :
    t ∈ s.queuedCheckpointCommits ∨ s'.threads.lookup i = some (.queued t) := by
  cases h with
  | enqueue x =>
    rcases List.mem_append.mp ht with ht | ht
    · exact .inl ht
    · obtain rfl := List.mem_singleton.mp ht
      exact .inr (by simp)
  | dequeue | commitInQueue | raiseInQueue => exact .inl (List.mem_of_mem_filter ht)
  | _ => exact .inl ht

/-- The queue holds commits with a thread each; once it is called, every
writer still open is carried by a thread or has failed to commit. -/
structure QueueInvariant (s : TransactionManager) : Prop where
  threads : ∀ t ∈ s.queuedCheckpointCommits, ∃ j, s.threads.lookup j = some (.queued t)
  called : s.commitQueuedNow = true → ∀ x ∈ s.activeTransactions, x.type ≠ .readOnly →
    x.commitRaised = true ∨ s.busy x.id = true

theorem Effect.queueThreads (h : Effect i s s') (hq : s.QueueInvariant) :
    ∀ t ∈ s'.queuedCheckpointCommits, ∃ j, s'.threads.lookup j = some (.queued t) := by
  intro t ht
  rcases h.enqueued ht with hold | hnew
  · obtain ⟨j, hj⟩ := hq.threads t hold
    exact ⟨j, (h.keepsQueued hj).resolve_right fun hnot => hnot ht⟩
  · exact ⟨i, hnew⟩

theorem exists_of_busy (h : s.busy t = true) : ∃ j w, s.threads.lookup j = some w ∧ w.transaction = some t := by
  obtain ⟨⟨j, w⟩, hmem, hw⟩ := List.any_eq_true.mp h
  exact ⟨j, w, AList.mem_lookup_iff.mpr hmem, by simpa using hw⟩

theorem ShowsGate.pending_of_calling (h : s.ShowsGate g) (hc : s.commitQueuedNow = true) :
    s.checkpointPending = true := by
  have hcalling := hc.symm.trans h.calling
  rw [show s.checkpointPending = g.closed from h.pending]
  cases g with
  | opened => cases hcalling
  | requested => rfl
  | held i w => rfl

theorem raised_of_mem (appended : Bool) (hy : y ∈ (s.raised x appended).activeTransactions) (hid : y.id = x.id) :
    y.commitRaised = true := by
  obtain ⟨z, _, rfl⟩ := List.mem_map.mp hy
  split_ifs at hid ⊢ with hz
  · rfl
  · exact absurd hid hz

/-- While the queue stays called, a thread goes on carrying its commit, or the
commit has left or failed. -/
theorem Effect.keepsCarried (h : Effect i s s') (hs : s.Sound) (hg : s.ShowsGate g)
    (hc : s.commitQueuedNow = true) (hc' : s'.commitQueuedNow = true)
    (hl : s.threads.lookup i = some w) (hw : w.transaction = some t) :
    s'.busy t = true ∨ ∀ y ∈ s'.activeTransactions, y.id = t → y.type ≠ .readOnly → y.commitRaised = true := by
  have here : ∀ v, s.threads.lookup i = some v → v.transaction = some t := fun v hv => by
    rw [← Option.some.inj (hl.symm.trans hv)]
    exact hw
  have busy : ¬ s.Idle i := fun hidle => by
    obtain ⟨_, _, rfl⟩ := hidle _ hl
    cases hw
  have ends : ∀ {p phase}, phase ≠ .pending → s.threads.lookup i = some (.stopping p phase) →
      (s.endCall phase).commitQueuedNow = true → False := fun hphase hi hcalled =>
    nomatch hcalled.symm.trans (hg.stopping hphase hi).2.2.1
  cases h with
  | closeGate p hp => cases hp.symm.trans (hg.pending_of_calling hc)
  | again v hi => exact .inl (busy_of_lookup (AList.lookup_insert _) (here v hi))
  | callQueue p hi =>
    have hstay : (Wait.stopping p .queued).transaction = some t := here (.stopping p .others) hi
    exact .inl (busy_of_lookup (AList.lookup_insert _) hstay)
  | giveUp p phase hphase hi | commitForced x phase hphase _ _ _ hi | commitAlone x phase hphase _ _ hi
  | raiseAlone x p phase appended hphase _ _ _ _ hi | write _ phase hphase hi =>
    exact (ends hphase hi hc').elim
  | dequeue u hi hcond =>
    refine .inr fun y hy _ htype => absurd (hs.gate.failed ?_ y hy) htype
    exact hcond.resolve_left fun hf => nomatch hf.symm.trans hc
  | commitInQueue x _ _ _ hi =>
    refine .inr fun y hy hid _ => absurd hid ?_
    rw [← Option.some.inj (here _ hi)]
    exact ne_of_mem_applied hy
  | raiseInQueue x appended _ _ _ hi =>
    refine .inr fun y hy hid _ => raised_of_mem appended hy ?_
    rw [hid, ← Option.some.inj (here _ hi)]
  | complete _ _ _ hi | refuse _ _ hi | fail _ _ _ hi => cases here _ hi
  | _ => first | exact .inl (busy_of_lookup hl hw) | exact absurd ‹s.Idle i› busy

theorem Effect.called (h : Effect i s s') (hs : s.Sound) (hg : s.ShowsGate g) (hq : s.QueueInvariant)
    (hc : s.commitQueuedNow = true) (hc' : s'.commitQueuedNow = true) (hy : y ∈ s'.activeTransactions)
    (htype : y.type ≠ .readOnly) : y.commitRaised = true ∨ s'.busy y.id = true := by
  rcases h.kept hy with ⟨x, hx, hk⟩ | hb
  · rcases hq.called hc x hx (hk.type ▸ htype) with hr | hbusy
    · exact .inl (hk.raised hr)
    · obtain ⟨j, w, hl, hw⟩ := exists_of_busy hbusy
      rw [← hk.id] at hw
      by_cases hj : j = i
      · subst hj
        rcases h.keepsCarried hs hg hc hc' hl hw with hb | hraised
        · exact .inr hb
        · exact .inl (hraised y hy rfl htype)
      · exact .inr (busy_of_lookup ((h.others hj).trans hl) hw)
  · have := hb.held
    simp [held, hg.pending_of_calling hc, hg.not_calling_writing hc] at this

/-- Either the queue was called before, or it is called now by a thread that
has seen every other writer queue up. -/
theorem Effect.callsQueue (h : Effect i s s') (hc' : s'.commitQueuedNow = true) :
    s.commitQueuedNow = true ∨ ∃ p, s.threads.lookup i = some (.stopping p .others) ∧
      s.othersLeftOrQueued p = true ∧ s'.threads.lookup i = some (.stopping p .queued) ∧
      s'.activeTransactions = s.activeTransactions := by
  cases h with
  | callQueue p hi hleft => exact .inr ⟨p, hi, hleft, by simp, rfl⟩
  | giveUp | commitForced | commitAlone | raiseAlone | write =>
    exact .inl (Bool.and_eq_true_iff.mp hc').1
  | _ => exact .inl hc'

theorem Effect.queueInvariant (h : Effect i s s') (hs : s.Sound) (hq : s.QueueInvariant) : s'.QueueInvariant := by
  obtain ⟨g, hg⟩ := hs.gate.gate
  refine ⟨h.queueThreads hq, fun hc' y hy htype => ?_⟩
  rcases h.callsQueue hc' with hc | ⟨p, hi, hleft, hi', ha⟩
  · exact h.called hs hg hq hc hc' hy htype
  · have := List.all_eq_true.mp hleft y (ha ▸ hy)
    simp only [Bool.or_eq_true, decide_eq_true_eq, Bool.and_eq_true] at this
    rcases this with (hstay | ⟨_, hreader⟩) | hqueued
    · exact .inr (busy_of_lookup hi' hstay.symm)
    · exact absurd hreader htype
    · obtain ⟨j, hj⟩ := hq.threads y.id hqueued
      have hne : j ≠ i := fun he => by
        rw [he, hi] at hj
        cases hj
      exact .inr (busy_of_lookup ((h.others hne).trans hj) rfl)

end Rag3db.Transaction.TransactionManager
