import Rag3db.Transaction.ManagerEffects

open Option

namespace Rag3db.Transaction.TransactionManager

open Library.History

variable {s s' : TransactionManager} {i : ThreadId} {x y : ActiveTransaction} {w : Wait}
  {t : TransactionId} {p : Purpose} {origin : Origin} {input : CommitInput}

theorem idle_of_not_mem (h : i ∉ s.threads) : s.Idle i := fun w hw => by
  rw [AList.lookup_eq_none.mpr h] at hw
  cases hw

theorem mem_of_find (h : s.find t = some x) : x ∈ s.activeTransactions ∧ x.id = t :=
  ⟨List.mem_of_find?_eq_some h, by simpa using List.find?_some h⟩

theorem closable_spec (h : s.closable t = some x) : x ∈ s.activeTransactions ∧ x.id = t ∧ s.busy t = false := by
  unfold closable at h
  split_ifs at h with hb
  obtain ⟨hx, hid⟩ := mem_of_find h
  exact ⟨hx, hid, by simpa using hb⟩

theorem usable_spec (h : s.usable t = some x) : x ∈ s.activeTransactions ∧ x.id = t ∧
    s.busy t = false ∧ x.failed = false ∧ x.commitRaised = false := by
  obtain ⟨hc, hx⟩ := filter_eq_some_iff.mp h
  obtain ⟨hmem, hid, hb⟩ := closable_spec hc
  obtain ⟨hf, hr⟩ : x.failed = false ∧ x.commitRaised = false := by simpa using hx
  exact ⟨hmem, hid, hb, hf, hr⟩

theorem unapplied (hs : s.HistoryInvariant) (hx : x ∈ s.activeTransactions) : Settled s.trace x.id :=
  fun _ _ _ _ he => absurd rfl ((hs.applied _ _ _ _ (mem_of_split he)).1 x hx)

theorem calls_commitWriter (hs : s.Sound) (hidle : s.Idle i) (hx : x ∈ s.activeTransactions)
    (hbusy : s.busy x.id = false) (hraised : x.commitRaised = false) (htype : x.type ≠ .readOnly)
    (input : CommitInput) :
    Calls i s (if x.shouldForceCheckpoint s.config && s.checkpointPending then
      { s with queuedCheckpointCommits := s.queuedCheckpointCommits ++ [x.id] }.queueTurn i x input
      else s.commitOrdinary i x input) := by
  split_ifs with hqueue
  · have henqueue := Effect.enqueue x hidle hx ⟨hs.history.bounded x hx, fun y hy hid => by
      rw [hs.history.unique y hy x hx hid]
      exact ⟨htype, (Bool.and_eq_true_iff.mp hqueue).1⟩⟩
    refine .step henqueue (.same rfl) ((forgets_queueTurn i x input).calls_park ?_)
    exact calls_queueTurn (henqueue.sound hs) (by simp) hx input
  · exact calls_commitOrdinary hs hidle hx htype input fun _ => ⟨hraised, hbusy⟩

theorem calls_commit (hs : s.Sound) (hidle : s.Idle i) (hx : x ∈ s.activeTransactions)
    (hbusy : s.busy x.id = false) (hraised : x.commitRaised = false) (input : CommitInput) :
    Calls i s (s.commit i x input) := by
  unfold commit
  split_ifs with htype
  · refine .step (.clear x.id hbusy) (.same rfl) (calls_writeRequested hidle ⟨⟨fun y hy => ?_, ?_⟩, ?_⟩)
    · simpa using (List.mem_filter.mp hy).2
    · exact hs.history.bounded x hx
    · have hsettled := unapplied hs.history hx
      exact hsettled
  · dsimp only
    by_cases hdrop : (x.shouldForceCheckpoint s.config && s.autoCheckpointRequested) = true
    · rw [if_pos hdrop]
      have heffect := Effect.dropRequest (i := i) (Bool.and_eq_true_iff.mp hdrop).2
      exact .step heffect (.same rfl) (calls_commitWriter (heffect.sound hs) hidle hx hbusy hraised htype input)
    · rw [if_neg hdrop]
      exact calls_commitWriter hs hidle hx hbusy hraised htype input

theorem settled_complete {number : Nat} (hw : s.WrittenFor number origin) :
    (origin = .auto t ∨ origin = .requested t ∨ origin = .queue t ∨ origin = .forced t) →
      s.Gone t ∧ Settled (.completed number s.checkpointTS :: s.trace) t := by
  have kept : Settled s.trace t → Settled (.completed number s.checkpointTS :: s.trace) t := by
    intro hsettled newer older ts oldest he
    obtain ⟨rest, rfl, hold⟩ := split_cons he nofun
    exact (hsettled _ _ _ _ hold).append [_]
  have done : (∀ newer older ts oldest, s.trace = newer ++ .applied t ts oldest true :: older →
      .started number s.checkpointTS ∈ newer) →
      Settled (.completed number s.checkpointTS :: s.trace) t := by
    intro hstarted newer older ts oldest he
    obtain ⟨rest, rfl, hold⟩ := split_cons he nofun
    exact ⟨number, s.checkpointTS, List.mem_cons_of_mem _ (hstarted _ _ _ _ hold), List.mem_cons_self⟩
  rintro (rfl | rfl | rfl | rfl)
  · exact ⟨hw.1, kept hw.2⟩
  · exact ⟨hw.1, kept hw.2⟩
  · exact ⟨hw.1, done hw.2⟩
  · exact ⟨hw.1, done hw.2⟩

theorem calls_afterWriting (hidle : s.Idle i)
    (hsettled : ∀ t, (origin = .auto t ∨ origin = .requested t ∨ origin = .queue t ∨ origin = .forced t) →
      s.Gone t ∧ Settled s.trace t) : Calls i s (s.afterWriting i origin) := by
  cases origin with
  | forced t | auto t => exact calls_writeRequested hidle (hsettled t (by simp))
  | requested t | queue t => exact .last (.returns t hidle (hsettled t (by simp)).2)
  | explicit => exact .last (.leave hidle)

theorem calls_finishWriting {number : Nat} {carries : Bool} (hs : s.Sound)
    (hl : s.threads.lookup i = some (.writing origin number carries)) (result : WriteResult) :
    Calls i s (s.finishWriting i origin number carries result) := by
  cases result with
  | completed =>
    have hcomplete := Effect.complete origin number carries hl
    refine .step hcomplete (.same rfl) ((forgets_afterWriting i origin).calls ?_)
    exact calls_afterWriting (by simp [Idle]) fun t ht => settled_complete (hs.standing hl).2 ht
  | failed changedMemory =>
    unfold finishWriting
    dsimp only
    split_ifs with hfatal
    · obtain rfl : carries = false := by simpa using (Bool.and_eq_true_iff.mp hfatal).1
      exact .last (.refuse origin number hl)
    · exact .last (.fail origin number carries hl)

theorem calls_resume {expired : Bool} (hs : s.Sound) (hl : s.threads.lookup i = some w)
    (h : s.resume i expired input w = some s') : Calls i s s' := by
  cases w with
  | queued t =>
    obtain ⟨x, hfind, rfl⟩ := map_eq_some_iff.mp h
    obtain ⟨hx, rfl⟩ := mem_of_find hfind
    exact calls_queueTurn hs hl hx input
  | queueDone t ticket =>
    cases h
    exact calls_queueDoneTurn hs hl
  | stopping p phase =>
    cases p with
    | forced t =>
      obtain ⟨x, hfind, rfl⟩ := map_eq_some_iff.mp h
      obtain ⟨hx, rfl⟩ := mem_of_find hfind
      exact calls_stopTurn (goesOn_forced hx input) hs rfl (forgets_commitNow i x input) hl expired
    | preCommit t =>
      obtain ⟨x, hfind, rfl⟩ := map_eq_some_iff.mp h
      obtain ⟨hx, rfl⟩ := mem_of_find hfind
      exact calls_stopTurn (goesOn_preCommit hx input) hs rfl (forgets_commitNow i x input) hl expired
    | checkpoint origin =>
      cases h
      exact calls_stopTurn (goesOn_checkpoint origin _) hs rfl (forgets_startWriting i origin) hl expired
  | writing => cases h

theorem calls_leaveRolledBack (hb : s.busy t = false) : Calls i s (s.leaveRolledBack t) := by
  unfold leaveRolledBack
  dsimp only
  split_ifs with h
  · exact .step (.clear t hb) (.same rfl) (.last (.cancelRequest (Bool.and_eq_true_iff.mp h).1))
  · exact .last (.clear t hb)

theorem undone_cases (s : TransactionManager) (result : UndoResult) :
    s.undone result = s ∨ s.undone result = { s with rollbackFailed := true }.emit .condemned := by
  match result with
  | .done => exact .inl rfl
  | .raised false => exact .inl rfl
  | .raised true => exact .inr rfl

theorem calls_rollback (hb : s.busy x.id = false) (result : UndoResult) : Calls i s (s.rollback x result) := by
  unfold rollback
  split_ifs
  · rcases undone_cases s result with he | he
    · rw [he]
      exact calls_leaveRolledBack hb
    · rw [he]
      exact .step .condemn (.same rfl) (calls_leaveRolledBack hb)
  · exact calls_leaveRolledBack hb

theorem wait_cases {readOnly expired : Bool} (h : s.waitWhileCheckpointPendingNoLock readOnly expired = some s') :
    s' = s ∧ s.held readOnly = false ∨ s.autoCheckpointRequested = true ∧ s' = s.cancelAutoCheckpointRequestNoLock := by
  unfold waitWhileCheckpointPendingNoLock at h
  split_ifs at h with hheld hcancel
  · exact .inr ⟨(Bool.and_eq_true_iff.mp hcancel).1, (some.inj h).symm⟩
  · exact .inl ⟨(some.inj h).symm, by simpa using hheld⟩

theorem calls_begin {type : TransactionType} (hheld : s.held (type = .readOnly) = false)
    (hstage : type = .recovery ↔ s.opened = false) : Calls i s (s.begin type) := by
  unfold begin
  split_ifs with hrefuses hmulti
  · exact .refl s
  · exact .refl s
  · exact .last (.begin type hheld (by simpa using hrefuses) hstage)

theorem calls_modify (hs : s.Sound) (hx : x ∈ s.activeTransactions) (hb : s.busy x.id = false)
    {f : ActiveTransaction → ActiveTransaction} (hf : s.Tweak x (f x)) :
    Calls i s (s.modify x.id f) := by
  refine .last (.modify x.id f (fun y hy hid => ?_) hb)
  rw [hs.history.unique y hy x hx hid]
  exact hf

/-- Every step of the manager is a run of effects of one thread. -/
theorem step_calls {a : ManagerAction} (hs : s.Sound) (h : s.step a = some s') : ∃ i, Calls i s s' := by
  cases a with try obtain ⟨x, hu, rfl⟩ := map_eq_some_iff.mp h
  | openDatabase =>
    obtain ⟨⟨hnil, _⟩, h⟩ := ite_none_right_eq_some.mp h
    cases h
    exact ⟨0, .last (.openDatabase hnil)⟩
  | beginTransaction type expired =>
    obtain ⟨hstage, h⟩ := ite_none_right_eq_some.mp h
    obtain ⟨m, hm, rfl⟩ := map_eq_some_iff.mp h
    rcases wait_cases hm with ⟨rfl, hheld⟩ | ⟨hr, rfl⟩
    · exact ⟨0, calls_begin hheld hstage⟩
    · exact ⟨0, .step (.cancelRequest hr) (.same rfl) (calls_begin rfl hstage)⟩
  | waitUntilNewTransactionsAreAllowed readOnly expired =>
    rcases wait_cases h with ⟨rfl, _⟩ | ⟨hr, rfl⟩
    · exact ⟨0, .refl _⟩
    · exact ⟨0, .last (.cancelRequest hr)⟩
  | write t =>
    obtain ⟨hx, rfl, hb, _⟩ := usable_spec hu
    exact ⟨0, calls_modify hs hx hb ⟨rfl, rfl, .inl rfl, rfl, fun h => h⟩⟩
  | setForceCheckpoint t =>
    obtain ⟨hx, rfl, hb, _⟩ := usable_spec hu
    exact ⟨0, calls_modify hs hx hb ⟨rfl, rfl, .inl rfl, rfl, fun _ _ => rfl⟩⟩
  | addPreCommitAction t =>
    obtain ⟨hu, hforce⟩ := filter_eq_some_iff.mp hu
    obtain ⟨hx, rfl, hb, _⟩ := usable_spec hu
    exact ⟨0, calls_modify hs hx hb ⟨rfl, rfl, .inl rfl, rfl, fun _ _ => hforce⟩⟩
  | refreshSnapshot t =>
    obtain ⟨hu, _⟩ := filter_eq_some_iff.mp hu
    obtain ⟨hx, rfl, hb, _⟩ := usable_spec hu
    exact ⟨0, calls_modify hs hx hb ⟨rfl, rfl, .inr rfl, rfl, fun h => h⟩⟩
  | failAfterStatement t result =>
    obtain ⟨hx, rfl, hb, _⟩ := usable_spec hu
    unfold failAfterStatement
    split_ifs
    · have hmodify := Effect.modify (i := 0) x.id (fun y => { y with failed := true })
        (fun y _ _ => ⟨rfl, rfl, .inl rfl, rfl, fun h => h⟩) hb
      rcases undone_cases (s.modify x.id fun y => { y with failed := true }) result with he | he
      · rw [he]
        exact ⟨0, .last hmodify⟩
      · rw [he]
        exact ⟨0, .step hmodify (.same rfl) (.last .condemn)⟩
    · exact ⟨0, .refl s⟩
  | rollback t result =>
    obtain ⟨_, rfl, hb⟩ := closable_spec hu
    exact ⟨0, calls_rollback hb result⟩
  | commit i t input =>
    obtain ⟨hi, h⟩ := ite_none_left_eq_some.mp h
    obtain ⟨x, hu, rfl⟩ := map_eq_some_iff.mp h
    obtain ⟨hx, rfl, hb, _, hr⟩ := usable_spec hu
    exact ⟨i, calls_commit hs (idle_of_not_mem hi) hx hb hr input⟩
  | checkpoint i =>
    obtain ⟨hi, h⟩ := ite_none_left_eq_some.mp h
    cases h
    unfold checkpoint
    split_ifs
    · exact ⟨i, .refl s⟩
    · exact ⟨i, calls_checkpointNoLock hs (idle_of_not_mem hi) trivial⟩
  | resume i expired input =>
    obtain ⟨w, hl, h⟩ := bind_eq_some_iff.mp h
    exact ⟨i, calls_resume hs hl h⟩
  | finishWriting i result =>
    simp only [step] at h
    split at h
    · rename_i origin number carries hl
      cases h
      exact ⟨i, calls_finishWriting hs hl result⟩
    · cases h

end Rag3db.Transaction.TransactionManager
