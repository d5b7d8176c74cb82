import Rag3db.Library.History
import Rag3db.Transaction.ActiveTransactions

open List AList

namespace Rag3db.Transaction

open Library.History ActiveTransaction

theorem Checkpointed.append {newer : List Event} (h : Checkpointed newer) (events : List Event) :
    Checkpointed (events ++ newer) := by
  obtain ⟨number, ts, hs, hc⟩ := h
  exact ⟨number, ts, mem_append_right _ hs, mem_append_right _ hc⟩

namespace TransactionManager

variable {s s' : TransactionManager} {i j : ThreadId} {g : Gate} {x y : ActiveTransaction} {ts oldest : Nat}
  {t : TransactionId} {newer older : List Event}

/-- The next checkpoint knows that it carries a forced commit, or one that
carries it has just started. -/
def Promised (s : TransactionManager) : Prop :=
  s.checkpointCarriesForcedCommit = true ∨ ∃ i origin number rest,
    s.threads.lookup i = some (.writing origin number true) ∧ s.trace = .started number s.checkpointTS :: rest

/-- The commit runs on its own: no thread waits with it, and it has not been
tried before. -/
structure Plain (s : TransactionManager) (x : ActiveTransaction) : Prop where
  type : x.type ≠ .readOnly
  raised : x.commitRaised = false
  busy : s.busy x.id = false

def NoNewForced (s s' : TransactionManager) : Prop :=
  ∀ t ts oldest, .applied t ts oldest true ∈ s'.trace → .applied t ts oldest true ∈ s.trace

/-- What the code has established when it adds an event to the history. -/
def Adds (s s' : TransactionManager) : Event → Prop
  | .applied t ts _ forced =>
    (∃ x ∈ s.activeTransactions, x.id = t ∧ x.type ≠ .readOnly) ∧ (∀ y ∈ s'.activeTransactions, y.id ≠ t) ∧
      (forced = true → s'.Promised) ∧ ts = s.lastTimestamp + 1 ∧ s'.lastTimestamp = ts
  | .appended ts => (∃ x ∈ s.activeTransactions, s.Plain x) ∧ s.NoNewForced s' ∧
      ts = s.lastTimestamp + 1 ∧ s'.lastTimestamp = ts
  | .started number _ => number = s.checkpointsStarted + 1 ∧ s'.checkpointsStarted = number
  | .completed number ts =>
    (∃ i origin carries, s.threads.lookup i = some (.writing origin number carries)) ∧ ts = s.checkpointTS
  | .returned t => Settled s.trace t ∧ s'.trace = .returned t :: s.trace
  | .began _ _ => s.refuses = false
  | .condemned => s'.refuses = true
  | .raised _ => True

section Events

variable (hlast : s'.lastTimestamp = s.lastTimestamp + 1)
include hlast

theorem adds_commitEvents (hx : x ∈ s.activeTransactions) (htype : x.type ≠ .readOnly)
    (hgone : ∀ y ∈ s'.activeTransactions, y.id ≠ x.id)
    (hplain : x.journaled s.config = true → s.Plain x ∧ s.NoNewForced s')
    (hpromised : x.shouldForceCheckpoint s.config = true → s'.Promised) :
    ∀ e ∈ s.stamped.commitEvents x, s.Adds s' e := by
  intro e he
  rcases mem_append.mp he with he | he
  · split_ifs at he with hlog
    · obtain rfl := mem_singleton.mp he
      obtain ⟨hplain, hnew⟩ := hplain hlog
      exact ⟨⟨x, hx, hplain⟩, hnew, rfl, hlast⟩
    · cases he
  · obtain rfl := mem_singleton.mp he
    exact ⟨⟨x, hx, rfl, htype⟩, hgone, hpromised, rfl, hlast⟩

theorem adds_raiseEvents (hx : x ∈ s.activeTransactions)
    (hplain : x.journaled s.config = true → s.Plain x ∧ s.NoNewForced s') (appended : Bool) :
    ∀ e ∈ s.stamped.raiseEvents x appended, s.Adds s' e := by
  intro e he
  rcases mem_cons.mp he with rfl | he
  · trivial
  · split_ifs at he with hlog
    · obtain rfl := mem_singleton.mp he
      obtain ⟨hplain, hnew⟩ := hplain (Bool.and_eq_true_iff.mp hlog).2
      exact ⟨⟨x, hx, hplain⟩, hnew, rfl, hlast⟩
    · cases he

end Events

theorem ne_of_mem_applied (hy : y ∈ (s.applied x).activeTransactions) : y.id ≠ x.id := by
  simpa using (mem_filter.mp hy).2

theorem not_journaled_of_forced {config : Config} (h : x.shouldForceCheckpoint config = true) :
    x.journaled config = false := by
  simp [journaled, h]

theorem not_journaled_of_inMemory {config : Config} (h : config.inMemory = true) : x.journaled config = false := by
  simp [journaled, shouldLogToWAL, h]

theorem not_forced_of_inMemory {config : Config} (h : config.inMemory = true) :
    x.shouldForceCheckpoint config = false := by
  simp [shouldForceCheckpoint, h]

theorem not_forced_of_mem (hf : x.shouldForceCheckpoint s.config = false) :
    .applied t ts oldest true ∉ s.stamped.commitEvents x := by
  intro hmem
  have hf : x.shouldForceCheckpoint s.stamped.config = false := hf
  unfold commitEvents at hmem
  split_ifs at hmem <;> simp [hf] at hmem

variable (h : Effect i s s') {w : Wait}

include h

theorem Effect.adds : ∃ events, s'.trace = events ++ s.trace ∧ ∀ e ∈ events, s.Adds s' e := by
  have never : ∀ {b : Bool} {P : Prop}, b = false → b = true → P := fun hf ht => nomatch hf.symm.trans ht
  cases h with
  | begin type _ hrefuses => exact ⟨[.began _ type], rfl, by simpa [Adds] using hrefuses⟩
  | condemn => exact ⟨[.condemned], rfl, by simp [Adds, emit, refuses]⟩
  | commitInQueue x hx htype hforced =>
    exact ⟨s.stamped.commitEvents x, rfl, adds_commitEvents rfl hx htype
      (fun y hy => ne_of_mem_applied hy) (never (not_journaled_of_forced hforced)) fun _ => .inl rfl⟩
  | raiseInQueue x appended hx _ hforced =>
    exact ⟨s.stamped.raiseEvents x appended, rfl,
      adds_raiseEvents rfl hx (never (not_journaled_of_forced hforced)) appended⟩
  | commitForced x phase _ hx htype hforced =>
    refine ⟨.started _ _ :: s.stamped.commitEvents x, rfl, forall_mem_cons.mpr ⟨⟨rfl, rfl⟩, ?_⟩⟩
    exact adds_commitEvents rfl hx htype (fun y hy => ne_of_mem_applied hy)
      (never (not_journaled_of_forced hforced)) fun _ => .inr ⟨i, _, _, _, lookup_insert _, rfl⟩
  | commitAlone x phase _ hx htype _ _ hmemory =>
    exact ⟨s.stamped.commitEvents x, rfl, adds_commitEvents rfl hx htype
      (fun y hy => ne_of_mem_applied hy) (never (not_journaled_of_inMemory hmemory))
      (never (not_forced_of_inMemory hmemory))⟩
  | raiseAlone x p phase appended _ hx _ _ hjournaled =>
    exact ⟨s.stamped.raiseEvents x appended, rfl, adds_raiseEvents rfl hx (never hjournaled) appended⟩
  | commitPlain x _ hx htype hraised hforced hbusy =>
    refine ⟨s.stamped.commitEvents x, rfl, adds_commitEvents rfl hx htype
      (fun y hy => ne_of_mem_applied hy) (fun _ => ⟨⟨htype, hraised, hbusy⟩, ?_⟩) (never hforced)⟩
    exact fun t ts oldest he => (mem_append.mp he).resolve_left (not_forced_of_mem hforced)
  | raisePlain x appended _ hx htype hraised _ hbusy =>
    refine ⟨s.stamped.raiseEvents x appended, rfl,
      adds_raiseEvents rfl hx (fun _ => ⟨⟨htype, hraised, hbusy⟩, ?_⟩) appended⟩
    refine fun t ts oldest he => (mem_append.mp he).resolve_left fun hmem => ?_
    unfold raiseEvents at hmem
    split_ifs at hmem <;> simp at hmem
  | write origin phase => exact ⟨[.started _ _], rfl, by simp [Adds, startWriting, emit, park, endCall]⟩
  | writeRequested t => exact ⟨[.started _ _], rfl, by simp [Adds, startWriting, emit, park]⟩
  | complete origin number carries hl =>
    refine ⟨[.completed number s.checkpointTS], rfl, ?_⟩
    simp only [mem_singleton, forall_eq]
    exact ⟨⟨i, origin, carries, hl⟩, rfl⟩
  | fail => exact ⟨[.condemned], rfl, by simp [Adds, emit, refuses, TransactionManager.leave]⟩
  | returns t _ hsettled =>
    refine ⟨[.returned t], rfl, ?_⟩
    simp only [mem_singleton, forall_eq]
    exact ⟨hsettled, rfl⟩
  | _ => exact ⟨[], rfl, by simp⟩

theorem Effect.last_le : s.lastTransactionID ≤ s'.lastTransactionID := by
  cases h.list with
  | same _ hl => exact hl.ge
  | cleared _ _ hl => exact hl.ge
  | changed _ _ _ _ hl => exact hl.ge
  | begun _ _ _ hl => omega

theorem Gone.effect (hg : s.Gone t) : s'.Gone t := by
  refine ⟨fun y hy => ?_, hg.2.trans h.last_le⟩
  rcases h.kept hy with ⟨x, hx, hk⟩ | hb
  · rw [hk.id]
    exact hg.1 x hx
  · rw [hb.eq]
    exact (Nat.lt_succ_of_le hg.2).ne'

theorem Gone.split (hg : s.Gone t) {forced : Bool} (he : s'.trace = newer ++ .applied t ts oldest forced :: older) :
    ∃ events rest, newer = events ++ rest ∧ s'.trace = events ++ s.trace ∧
      s.trace = rest ++ .applied t ts oldest forced :: older := by
  obtain ⟨events, ht, hadds⟩ := h.adds
  rw [ht] at he
  have hnot : .applied t ts oldest forced ∉ events := fun hmem => by
    obtain ⟨⟨x, hx, hid, _⟩, _⟩ := hadds _ hmem
    exact hg.1 x hx hid
  obtain ⟨rest, hn, hs⟩ := split_of_not_mem he hnot
  exact ⟨events, rest, hn, ht, hs⟩

theorem Gone.settled (hg : s.Gone t) (hs : Settled s.trace t) : Settled s'.trace t := by
  intro newer older ts oldest he
  obtain ⟨events, rest, rfl, _, hold⟩ := hg.split h he
  exact (hs _ _ _ _ hold).append events

omit h in
@[simp] theorem lookup_park (s : TransactionManager) (i j : ThreadId) (w : Wait) :
    (s.park i w).threads.lookup j = if j = i then some w else s.threads.lookup j := by
  split_ifs with hj
  · subst hj
    exact lookup_insert _
  · exact lookup_insert_ne hj

omit h in
@[simp] theorem lookup_leave (s : TransactionManager) (i j : ThreadId) :
    (s.leave i).threads.lookup j = if j = i then none else s.threads.lookup j := by
  split_ifs with hj
  · subst hj
    exact lookup_erase _ _
  · exact lookup_erase_ne hj

theorem Effect.others (hj : j ≠ i) : s'.threads.lookup j = s.threads.lookup j := by
  cases h with
  | openDatabase | begin | modify | condemn | clear | dropRequest | cancelRequest | request
  | commitPlain => rfl
  | leave | giveUp | dequeue | raiseInQueue | commitAlone | raiseAlone | raisePlain | complete | refuse
  | fail | returns => exact lookup_erase_ne hj
  | _ => exact lookup_insert_ne hj

omit h in
theorem busy_of_lookup (hl : s.threads.lookup j = some w) (hw : w.transaction = some t) : s.busy t = true := by
  refine any_eq_true.mpr ⟨⟨j, w⟩, mem_lookup_iff.mp hl, ?_⟩
  simpa using hw

theorem Effect.config : s'.config = s.config := by
  cases h <;> rfl

theorem Effect.keepsFlags (hb : s.busy t = true) (hle : t ≤ s.lastTransactionID) (hy : y ∈ s'.activeTransactions)
    (ht : y.id = t) : ∃ x ∈ s.activeTransactions, x.id = t ∧
      y.type = x.type ∧ y.shouldForceCheckpoint s'.config = x.shouldForceCheckpoint s.config ∧
      y.waitsWithoutCheckpoint s'.config = x.waitsWithoutCheckpoint s.config := by
  rcases h.kept hy with ⟨x, hx, hk⟩ | hb
  · have hid : x.id = t := hk.id.symm.trans ht
    obtain ⟨hf, hp⟩ := hk.flags (hid.symm ▸ hb)
    refine ⟨x, hx, hid, hk.type, ?_, ?_⟩ <;>
      simp [shouldForceCheckpoint, waitsWithoutCheckpoint, h.config, hf, hp]
  · rw [hb.eq] at ht
    exact absurd ht (Nat.lt_succ_of_le hle).ne'

theorem Ready.effect {p : Purpose} (hr : s.Ready p) (hb : ∀ t, p.staying = some t → s.busy t = true) : s'.Ready p := by
  cases p with
  | forced t =>
    refine ⟨hr.1.trans h.last_le, fun y hy ht => ?_⟩
    obtain ⟨x, hx, hid, htype, hf, _⟩ := h.keepsFlags (hb t rfl) hr.1 hy ht
    rw [htype, hf]
    exact hr.2 x hx hid
  | preCommit t =>
    refine ⟨hr.1.trans h.last_le, fun y hy ht => ?_⟩
    obtain ⟨x, hx, hid, htype, _, hw⟩ := h.keepsFlags (hb t rfl) hr.1 hy ht
    rw [htype, hw]
    exact hr.2 x hx hid
  | checkpoint origin =>
    cases origin with
    | explicit => trivial
    | auto t | requested t => exact ⟨hr.1.effect h, hr.1.settled h hr.2⟩
    | queue t | forced t => exact Gone.effect h hr

/-- A checkpoint with this number contains what the thread that writes it has
to make durable. -/
def WrittenFor (s : TransactionManager) (number : Nat) : Origin → Prop
  | .explicit => True
  | .auto t | .requested t => s.Gone t ∧ Settled s.trace t
  | .queue t | .forced t => s.Gone t ∧ ∀ newer older ts oldest,
      s.trace = newer ++ .applied t ts oldest true :: older → .started number s.checkpointTS ∈ newer

/-- What a waiting thread relies on when it wakes up. -/
def Standing (s : TransactionManager) : Wait → Prop
  | .queued t => s.Ready (.forced t)
  | .queueDone t ticket => s.Gone t ∧ ∀ newer older ts oldest, s.trace = newer ++ .applied t ts oldest true :: older →
        ∀ number cp, .started number cp ∈ older → number ≤ ticket
  | .stopping p _ => s.Ready p
  | .writing origin number _ => .started number s.checkpointTS ∈ s.trace ∧ s.WrittenFor number origin

variable {origin : Origin} {number : Nat} {carries : Bool}

theorem WrittenFor.effect (hw : s.WrittenFor number origin) (hts : s'.checkpointTS = s.checkpointTS) :
    s'.WrittenFor number origin := by
  cases origin with
  | explicit => trivial
  | auto t | requested t => exact ⟨hw.1.effect h, hw.1.settled h hw.2⟩
  | queue t | forced t =>
    refine ⟨hw.1.effect h, fun newer older ts oldest he => ?_⟩
    obtain ⟨events, rest, rfl, _, hold⟩ := hw.1.split h he
    rw [hts]
    exact mem_append_right _ (hw.2 _ _ _ _ hold)

theorem Standing.effect (hw : s.Standing w) (hl : s.threads.lookup j = some w)
    (hts : w.isWriting = true → s'.checkpointTS = s.checkpointTS) : s'.Standing w := by
  cases w with
  | queued t => exact Ready.effect (p := .forced t) h hw fun _ ht => busy_of_lookup hl ht
  | queueDone t ticket =>
    refine ⟨hw.1.effect h, fun newer older ts oldest he => ?_⟩
    obtain ⟨events, rest, _, _, hold⟩ := hw.1.split h he
    exact hw.2 _ _ _ _ hold
  | stopping p phase => exact Ready.effect h hw fun _ ht => busy_of_lookup hl ht
  | writing origin number carries =>
    obtain ⟨events, ht, _⟩ := h.adds
    refine ⟨?_, hw.2.effect h (hts rfl)⟩
    rw [hts rfl, ht]
    exact mem_append_right _ hw.1

theorem Effect.timestamps (hg : s.ShowsGate g) (hl : s.threads.lookup j = some (.writing origin number carries)) :
    s'.checkpointTS = s.checkpointTS ∧ s'.oldestReaderTS = s.oldestReaderTS := by
  have hheld := hg.only j _ hl rfl
  cases h with
  | commitForced x phase hphase _ _ _ hi | write _ phase hphase hi =>
    cases hheld.symm.trans (hg.only i _ hi (gate_stopping hphase))
  | writeRequested t _ _ hr => cases hr.symm.trans (hg.held hl rfl).2.1
  | _ => exact ⟨rfl, rfl⟩

/-- A checkpoint being written goes on, or completes, or fails for good; one
that carries no forced commit may also be given up. -/
theorem Effect.writer (hg : s.ShowsGate g) (hl : s.threads.lookup j = some (.writing origin number carries)) :
    s'.threads.lookup j = some (.writing origin number carries) ∨
      s'.trace = .completed number s.checkpointTS :: s.trace ∨ s'.checkpointFailed = true ∨
      carries = false := by
  by_cases hj : j = i
  · subst hj
    have busy : ¬ s.Idle j := fun hidle => by
      obtain ⟨_, _, hq⟩ := hidle _ hl
      cases hq
    have here : ∀ w, s.threads.lookup j = some w → w = .writing origin number carries := fun w hw =>
      Option.some.inj (hw.symm.trans hl)
    cases h with
    | closeGate p hp => cases hp.symm.trans (hg.held hl rfl).1
    | again w hi =>
      rw [here w hi]
      exact .inl (by simp)
    | callQueue p hi | giveUp p phase _ hi | dequeue t hi | commitInQueue x _ _ _ hi
    | raiseInQueue x appended _ _ _ hi | commitForced x phase _ _ _ _ hi | commitAlone x phase _ _ _ hi
    | raiseAlone x p phase appended _ _ _ _ _ hi | write _ phase _ hi => cases here _ hi
    | complete _ _ _ hi =>
      cases here _ hi
      exact .inr (.inl rfl)
    | refuse _ _ hi =>
      cases here _ hi
      exact .inr (.inr (.inr rfl))
    | fail => exact .inr (.inr (.inl rfl))
    -- the others leave the thread where it is, or are of an idle thread
    | _ => first | exact .inl hl | exact absurd ‹s.Idle j› busy
  · exact .inl ((h.others hj).trans hl)

end TransactionManager

end Rag3db.Transaction
