import Rag3db.Weaver.StreamEffects

open List Option Function

namespace Rag3db.Weaver

open Library.Transition Hub Weaver.System

variable {T : Type} {h h' : Hub T} {s s' : System T} {w u : WorkerId} {call : Call T} {what : Wait}

/-- Tried now, the call would neither return nor move an element. -/
def Hub.Blocks (h : Hub T) : Call T → Prop
  | .send chans v | .sendTimeout chans v => ∃ c, h.offer chans v = .full c
  | .recvAny chans | .recvTimeout chans => h.take chans = .empty

def Wait.For : Wait → Call T → Prop
  | .send c, .send chans _ => c ∈ chans
  | .recv cs, .recvAny chans => cs = chans ∧ chans ≠ []
  | _, _ => False

namespace System

def WaitsIn (s : System T) (w : WorkerId) (call : Call T) : Prop :=
  s.phase w = .asleep call ∨ s.phase w = .woken call

/-- Every living worker waits and none of the waits can be served. -/
def Stuck (s : System T) : Prop :=
  (∃ w, s.isLiving w) ∧ ∀ w, s.isLiving w → ∃ call, s.WaitsIn w call ∧ s.hub.Blocks call

def IsAsleep (s : System T) (w : WorkerId) : Prop := ∃ call, s.phase w = .asleep call

def IsWoken (s : System T) (w : WorkerId) : Prop := ∃ call, s.phase w = .woken call

theorem not_isAsleep_notifyAll : ¬ s.notifyAll.IsAsleep u := by
  rintro ⟨call, hp⟩
  revert hp
  simp only [notifyAll]
  cases s.phase u <;> simp [Phase.notified]

end System

variable {chans : List ChannelId} {v : T} {a : Action T} {expired : Bool}

theorem Hub.blocks_send : h.Blocks (.send chans v) ↔
      h.cancel = none ∧ ∃ c ∈ chans, (h.channels c).isRead = true ∧ (h.channels c).isFull = true := by
  simp only [Blocks, offer_eq_full, exists_and_left, ← isSome_iff_exists, find?_isSome, mem_filter, and_assoc]

theorem Hub.blocks_recvAny : h.Blocks (.recvAny chans) ↔ h.cancel = none ∧ (∀ c ∈ chans, (h.channels c).buf = []) ∧
        ∃ c ∈ chans, (h.channels c).isClosed = false := by
  unfold Blocks take
  cases h.cancel with
  | some cause => simp
  | none =>
    dsimp only
    cases hf : h.front chans with
    | some p =>
      have hn : ¬ ∀ c ∈ chans, (h.channels c).buf = [] :=
        fun hn => by simp [front_eq_none.mpr hn] at hf
      simp [hn]
    | none => simpa using fun _ _ _ => front_eq_none.mp hf

theorem Hub.Blocks.cancel (hb : h.Blocks call) : h.cancel = none := by
  cases call with
  | send chans v | sendTimeout chans v => exact (blocks_send.mp hb).1
  | recvAny chans | recvTimeout chans => exact (blocks_recvAny.mp hb).1

theorem Hub.Blocks.congr (hb : h.Blocks call) (hc : h'.cancel = h.cancel)
    (hch : h'.channels = h.channels) : h'.Blocks call := by
  cases call with
  | send chans v | sendTimeout chans v => exact blocks_send.mpr (hc ▸ hch ▸ blocks_send.mp hb)
  | recvAny chans | recvTimeout chans => exact blocks_recvAny.mpr (hc ▸ hch ▸ blocks_recvAny.mp hb)

/-- A wait that the detector does not take for one about to be served belongs
to a call that cannot go on. -/
theorem Hub.blocks_of_not_servable (hc : h.cancel = none) (hf : what.For call)
    (hs : h.servable what = false) : h.Blocks call := by
  match what, call, hf with
  | .send c, .send chans v, hf =>
    simp only [servable, Bool.or_eq_false_iff, Bool.not_eq_eq_eq_not] at hs
    exact blocks_send.mpr ⟨hc, c, hf, hs.2, hs.1⟩
  | .recv _, .recvAny chans, ⟨rfl, hne⟩ =>
    simp only [servable, List.any_eq_false, Bool.or_eq_true, Bool.not_eq_eq_eq_not, Bool.not_true,
      not_or, Bool.not_eq_false, List.isEmpty_iff, Bool.not_eq_true] at hs
    obtain ⟨c, hc'⟩ := List.exists_mem_of_ne_nil chans hne
    exact blocks_recvAny.mpr ⟨hc, fun c hc => (hs c hc).1, c, hc', (hs c hc').2⟩

/-- The detector finds nothing, or every living worker is registered with a
wait that is not about to be served. -/
theorem Hub.detectDeadlock_cases (h : Hub T) : (h.detectDeadlock = h ∧
      (h.cancel = none → (∀ w ∈ h.living, ∃ what, h.waiting w = some what) →
        (∀ p ∈ h.waits, h.servable p.2 = false) → h.living = [])) ∨
    (h.detectDeadlock = { h with cancel := some h.deadlockCause } ∧ h.cancel = none ∧ h.living ≠ [] ∧
      (∀ w ∈ h.living, ∃ what, h.waiting w = some what) ∧ ∀ p ∈ h.waits, h.servable p.2 = false) := by
  unfold detectDeadlock
  split_ifs with hc hl hs
  · refine .inl ⟨rfl, fun hn _ _ => ?_⟩
    simpa [hn] using hc
  · obtain ⟨w, hw, hn⟩ := List.any_eq_true.mp hl
    refine .inl ⟨rfl, fun _ hall _ => ?_⟩
    obtain ⟨what, hwhat⟩ := hall w hw
    simp [hwhat] at hn
  · obtain ⟨p, hp, hn⟩ := List.any_eq_true.mp hs
    refine .inl ⟨rfl, fun _ _ hall => ?_⟩
    simp [hall p hp] at hn
  · simp only [Bool.or_eq_true, not_or, Bool.not_eq_true, Option.isSome_eq_false_iff,
      Option.isNone_iff_eq_none, List.isEmpty_eq_false_iff, List.any_eq_false,
      Option.ne_none_iff_exists'] at hc hl hs
    exact .inr ⟨by simp [setCancel, hc.1], hc.1, hc.2, hl, hs⟩

theorem Hub.mem_living {h : Hub T} : w ∈ h.living ↔ w < h.nextId ∧ (h.names w).isSome := by
  simp [living]

theorem Hub.mem_waits {h : Hub T} {p : WorkerId × Wait} : p ∈ h.waits ↔ p.1 < h.nextId ∧ h.waiting p.1 = some p.2 := by
  obtain ⟨w, what⟩ := p
  simp only [waits, mem_filterMap, mem_range, map_eq_some_iff, Prod.mk.injEq]
  constructor
  · rintro ⟨u, hu, _, hw, rfl, rfl⟩
    exact ⟨hu, hw⟩
  · rintro ⟨hu, hw⟩
    exact ⟨w, hu, what, hw, rfl, rfl⟩

/-- What holds of a worker between two holdings of the lock, when no call has a
time limit. -/
inductive Settled (h : Hub T) (w : WorkerId) : Phase T → Prop
  | running : h.waiting w = none → Settled h w .running
  | asleep {call : Call T} {what : Wait} : (h.names w).isSome → h.cancel = none →
      h.waiting w = some what → what.For call → h.servable what = false → Settled h w (.asleep call)
  | woken {call : Call T} {what : Wait} : (h.names w).isSome → h.waiting w = some what →
      what.For call → Settled h w (.woken call)

namespace Settled

variable {p : Phase T}

theorem notified (hp : Settled h w p) (hn : h'.names w = h.names w)
    (hw : h'.waiting w = h.waiting w) : Settled h' w p.notified := by
  cases hp with
  | running hr => exact .running (hw.trans hr)
  | asleep hl _ hwait hf _ | woken hl hwait hf => exact .woken (hn ▸ hl) (hw.trans hwait) hf

theorem frame (hp : Settled h w p) (hn : h'.names w = h.names w)
    (hw : h'.waiting w = h.waiting w) (hc : h'.cancel = h.cancel) (hch : h'.channels = h.channels) :
    Settled h' w p := by
  cases hp with
  | running hr => exact .running (hw.trans hr)
  | asleep hl hcancel hwait hf hs =>
    refine .asleep (hn ▸ hl) (hc.trans hcancel) (hw.trans hwait) hf ?_
    rw [← hs]
    unfold servable
    rw [hch]
  | woken hl hwait hf => exact .woken (hn ▸ hl) (hw.trans hwait) hf

theorem waitsIn {what : Wait} (hp : Settled s.hub w (s.phase w)) (hw : s.hub.waiting w = some what) :
    ∃ call, s.WaitsIn w call ∧ what.For call := by
  generalize hph : s.phase w = p at hp
  cases hp with
  | running hr => simp [hr] at hw
  | asleep _ _ hwait hf _ => exact ⟨_, .inl hph, (some.inj (hw.symm.trans hwait)) ▸ hf⟩
  | woken _ hwait hf => exact ⟨_, .inr hph, (some.inj (hw.symm.trans hwait)) ▸ hf⟩

end Settled

/-- The channels of a receive that finds nothing to read all have a sender, or
none has. -/
def Hub.watchesOpen (h : Hub T) : Call T → Bool
  | .recvAny chans =>
    (h.front chans).isSome || (chans.all fun c => (h.channels c).isClosed) ||
      chans.all fun c => !(h.channels c).isClosed
  | _ => true

/-- The steps without a time limit in which no receive goes to sleep on an
ended channel. -/
def watchful (s : System T) : Action T → Bool
  | .call _ call => !call.timed && s.hub.watchesOpen call
  | .resume w _ =>
    match s.phase w with
    | .woken call => s.hub.watchesOpen call
    | _ => true
  | _ => true

/-- What a step that moves elements leaves alone. -/
structure Hub.SameBooks (h h' : Hub T) : Prop where
  names : h'.names = h.names
  nextId : h'.nextId = h.nextId
  waiting : h'.waiting = h.waiting

theorem Hub.SameBooks.modify (h : Hub T) (c : ChannelId) (f : Channel T → Channel T) :
    h.SameBooks (h.modify c f) := ⟨rfl, rfl, rfl⟩

theorem Hub.SameBooks.pushAll (live : List ChannelId) (v : T) (h : Hub T) : h.SameBooks (h.pushAll live v) := by
  induction live generalizing h with
  | nil => exact ⟨rfl, rfl, rfl⟩
  | cons c live ih =>
    obtain ⟨hn, hi, hw⟩ := ih (h.modify c (Channel.push v))
    exact ⟨hn, hi, hw⟩

theorem Hub.servable_send_of_full {c : ChannelId}
    (hf : h.offer chans v = .full c) : c ∈ chans ∧ h.servable (.send c) = false := by
  obtain ⟨_, hfind⟩ := offer_eq_full.mp hf
  have hfull := find?_some hfind
  obtain ⟨hmem, hread⟩ := mem_filter.mp (mem_of_find?_eq_some hfind)
  exact ⟨hmem, by simp [servable, hfull, hread]⟩

theorem Hub.servable_recv_of_empty (he : h.take chans = .empty) :
    chans ≠ [] ∧ (h.watchesOpen (.recvAny chans) → h.servable (.recv chans) = false) := by
  obtain ⟨_, hbuf, c, hc, hopen⟩ := blocks_recvAny.mp he
  refine ⟨List.ne_nil_of_mem hc, fun ho => ?_⟩
  have hsome : ¬ (chans.all fun c => (h.channels c).isClosed) = true := fun ha => by
    simp [List.all_eq_true.mp ha c hc] at hopen
  simp only [watchesOpen, front_eq_none.mpr hbuf, hsome, Option.isSome_none, Bool.false_or,
    List.all_eq_true, Bool.not_eq_eq_eq_not] at ho
  simp only [servable, List.any_eq_false, Bool.or_eq_true, not_or, Bool.not_eq_true]
  exact fun c hc => ⟨by simp [hbuf c hc], ho c hc⟩

/-- The call of `w` returns at once: nothing has changed, or elements or counts
have and everybody is woken. -/
inductive System.Returns (s : System T) (w : WorkerId) : System T → Prop
  | quiet (e : Event T) : Returns s w (s.report w e)
  | moved (e : Event T) {hub : Hub T} : s.hub.SameBooks hub → hub.cancel = s.hub.cancel →
      Returns s w (({ s with hub := hub }.notifyAll).report w e)

namespace System

theorem Returns.cancel (hr : s.Returns w s') : s'.hub.cancel = s.hub.cancel := by
  cases hr with
  | quiet e => rfl
  | moved e _ hc => exact hc

theorem sendOnce_cases (s : System T) (w : WorkerId) (chans : List ChannelId) (v : T) (blocked : ChannelId → System T) :
    s.Returns w (s.sendOnce w chans v blocked) ∨
      ∃ c, s.hub.offer chans v = .full c ∧ s.sendOnce w chans v blocked = blocked c := by
  unfold sendOnce
  cases ho : s.hub.offer chans v with
  | stopped why => exact .inl (.quiet _)
  | full c => exact .inr ⟨c, rfl, rfl⟩
  | sent live hub =>
    obtain ⟨_, _, _, _, rfl⟩ := offer_eq_sent ho
    exact .inl (.moved _ (.pushAll live v s.hub) (cancel_pushAll ..))

theorem recvOnce_cases (s : System T) (w : WorkerId) (chans : List ChannelId) (blocked : System T) :
    s.Returns w (s.recvOnce w chans blocked) ∨ s.hub.take chans = .empty ∧ s.recvOnce w chans blocked = blocked := by
  unfold recvOnce
  cases ht : s.hub.take chans with
  | cancelled cause | ended => exact .inl (.quiet _)
  | empty => exact .inr ⟨rfl, rfl⟩
  | taken i c v hub =>
    obtain ⟨_, _, rfl⟩ := take_eq_taken ht
    exact .inl (.moved _ (.modify ..) rfl)

theorem turn_cases (ht : call.timed = false) (w : WorkerId) (expired : Bool) (s : System T) :
    s.Returns w (s.turn w expired call) ∨
    ∃ what, what.For call ∧ s.hub.Blocks call ∧ (s.hub.watchesOpen call → s.hub.servable what = false) ∧
      s.turn w expired call = s.wait w call what := by
  cases call with
  | sendTimeout => cases ht
  | recvTimeout => cases ht
  | send chans v =>
    rcases s.sendOnce_cases w chans v fun c => s.wait w (.send chans v) (.send c) with hr | ⟨c, ho, he⟩
    · exact .inl hr
    · obtain ⟨hmem, hn⟩ := servable_send_of_full ho
      exact .inr ⟨.send c, hmem, ⟨c, ho⟩, fun _ => hn, he⟩
  | recvAny chans =>
    rcases s.recvOnce_cases w chans (s.wait w (.recvAny chans) (.recv chans)) with hr | ⟨ht, he⟩
    · exact .inl hr
    · obtain ⟨hne, hn⟩ := servable_recv_of_empty ht
      exact .inr ⟨.recv chans, ⟨rfl, hne⟩, ht, hn, he⟩

theorem returns_of_step (ha : s.step a = some s') : match a with
    | .trySend w _ _ | .tryRecv w _ | .releaseSender w _ | .releaseReceiver w _ =>
      s.isFree w = true ∧ s.Returns w s'
    | _ => True := by
  cases a with
  | trySend w chans v =>
    obtain ⟨hg, ⟨⟩⟩ := ite_none_right_eq_some.mp ha
    refine ⟨(Bool.and_eq_true_iff.mp hg).1, ?_⟩
    rcases s.sendOnce_cases w chans v fun _ => s.report w (.full v) with hr | ⟨_, _, he⟩
    · exact hr
    · rw [he]
      exact .quiet _
  | tryRecv w chans =>
    obtain ⟨hg, ⟨⟩⟩ := ite_none_right_eq_some.mp ha
    refine ⟨(Bool.and_eq_true_iff.mp hg).1, ?_⟩
    rcases s.recvOnce_cases w chans (s.report w .empty) with hr | ⟨_, he⟩
    · exact hr
    · rw [he]
      exact .quiet _
  | releaseSender w c | releaseReceiver w c =>
    obtain ⟨hg, ⟨⟩⟩ := ite_none_right_eq_some.mp ha
    exact ⟨(Bool.and_eq_true_iff.mp hg).1, .moved _ (.modify ..) rfl⟩
  | _ => trivial

theorem wait_cases (hc : s.hub.cancel = none) (w : WorkerId) (call : Call T) (what : Wait) :
    (s.wait w call what = { s with hub := s.hub.register w what }.setPhase w (.asleep call) ∧
      ((∀ u ∈ s.hub.living, ∃ what', (s.hub.register w what).waiting u = some what') →
        (∀ p ∈ (s.hub.register w what).waits, s.hub.servable p.2 = false) → s.hub.living = [])) ∨
    ∃ cause, cause.isDeadlock = true ∧ s.wait w call what =
        ({ s with hub := { s.hub.register w what with cancel := some cause }.unregister w }.notifyAll).report
          w (interruption cause call) ∧
      s.hub.living ≠ [] ∧
      (∀ u ∈ s.hub.living, ∃ what', (s.hub.register w what).waiting u = some what') ∧
      ∀ p ∈ (s.hub.register w what).waits, s.hub.servable p.2 = false := by
  unfold wait
  rcases (s.hub.register w what).detectDeadlock_cases with ⟨hd, hsilent⟩ | ⟨hd, -, hl, hw, hs⟩
  · left
    have hc' : (s.hub.register w what).cancel = none := hc
    exact ⟨by simp only [hd, hc'], hsilent hc⟩
  · right
    rw [hd]
    exact ⟨_, rfl, rfl, hl, hw, hs⟩

end System

/-- The invariant of the runs without time limits: the last clause says that
some living worker always still runs or has been woken. -/
structure Orderly (s : System T) : Prop where
  settled : ∀ w, Settled s.hub w (s.phase w)
  known : ∀ w, s.isLiving w → w < s.hub.nextId
  awake : ∀ w, s.isLiving w → ∃ u, s.isLiving u ∧ ¬ s.IsAsleep u

/-- The same while `w` holds the lock. -/
structure OrderlyBut (s : System T) (w : WorkerId) : Prop where
  settled : ∀ u, u ≠ w → Settled s.hub u (s.phase u)
  known : ∀ u, s.isLiving u → u < s.hub.nextId
  free : s.hub.waiting w = none
  living : s.isLiving w

namespace OrderlyBut

variable (hs : OrderlyBut s w)

include hs

theorem report (e : Event T) : Orderly (s.report w e) where
  settled u := by
    by_cases hu : u = w
    · subst hu
      simpa [report, setPhase] using Settled.running hs.free
    · simpa [System.report, System.setPhase, hu] using hs.settled u hu
  known := hs.known
  awake _ _ := ⟨w, hs.living, by simp [System.IsAsleep, System.report, System.setPhase]⟩

theorem notifyAll (hb : s.hub.SameBooks h') : OrderlyBut ({ s with hub := h' }.notifyAll) w where
  settled u hu := (hs.settled u hu).notified (congrFun hb.names u) (congrFun hb.waiting u)
  known u hl := by
    have hl' : s.isLiving u := by simpa [isLiving, hb.names] using hl
    simpa [hb.nextId] using hs.known u hl'
  free := (congrFun hb.waiting w).trans hs.free
  living := by simpa [isLiving, hb.names] using hs.living

theorem returns (hr : s.Returns w s') : Orderly s' := by
  cases hr with
  | quiet e => exact hs.report e
  | moved e hb _ => exact (hs.notifyAll hb).report e

/-- A registered wait of another worker is not about to be served if its worker
sleeps. -/
theorem wait_of_asleep (hu : u ≠ w) (ha : s.isLiving u → s.IsAsleep u) (hwait : s.hub.waiting u = some what) :
    s.hub.servable what = false := by
  have hset := hs.settled u hu
  generalize hp : s.phase u = p at hset
  cases hset with
  | running hr => simp [hr] at hwait
  | asleep _ _ hw _ hn => exact (some.inj (hwait.symm.trans hw)) ▸ hn
  | woken hl _ _ =>
    obtain ⟨call, ha⟩ := ha hl
    simp [hp] at ha

theorem sleep (hc : s.hub.cancel = none) (hf : what.For call) (hn : s.hub.servable what = false)
    (hsilent : (∀ u ∈ s.hub.living, ∃ what', (s.hub.register w what).waiting u = some what') →
      (∀ p ∈ (s.hub.register w what).waits, s.hub.servable p.2 = false) → s.hub.living = []) :
    Orderly ({ s with hub := s.hub.register w what }.setPhase w (.asleep call)) where
  settled u := by
    by_cases hu : u = w
    · subst hu
      simpa [setPhase] using Settled.asleep (h := s.hub.register u what) hs.living hc (update_self ..) hf hn
    · have hw : (s.hub.register w what).waiting u = s.hub.waiting u := update_of_ne hu ..
      have hset : Settled (s.hub.register w what) u (s.phase u) :=
        (hs.settled u hu).frame rfl hw rfl rfl
      simpa [setPhase, hu] using hset
  known := hs.known
  awake _ _ := by
    by_contra hall
    push Not at hall
    -- every other living worker sleeps, so that the detector would have spoken
    have hasleep : ∀ u, u ≠ w → s.isLiving u → s.IsAsleep u := fun u hu hl => by
      simpa [System.IsAsleep, setPhase, hu] using hall u hl
    have hnil : s.hub.living = [] := by
      refine hsilent (fun u hl => ?_) (fun p hp => ?_)
      · by_cases hu : u = w
        · exact ⟨what, hu ▸ update_self ..⟩
        · obtain ⟨call', hp⟩ := hasleep u hu (mem_living.mp hl).2
          have hset := hs.settled u hu
          rw [hp] at hset
          cases hset with
          | asleep _ _ hw _ _ => exact ⟨_, (update_of_ne hu ..).trans hw⟩
      · obtain ⟨_, hw⟩ := mem_waits.mp hp
        by_cases hu : p.1 = w
        · have : what = p.2 := by simpa [register, hu] using hw
          exact this ▸ hn
        · exact hs.wait_of_asleep hu (hasleep p.1 hu) ((update_of_ne hu ..).symm.trans hw)
    have hmem : w ∈ s.hub.living := mem_living.mpr ⟨hs.known w hs.living, hs.living⟩
    simp [hnil] at hmem

theorem wait (hc : s.hub.cancel = none) (hf : what.For call) (hn : s.hub.servable what = false) :
    Orderly (s.wait w call what) := by
  rcases wait_cases hc w call what with ⟨he, hsilent⟩ | ⟨cause, _, he, _⟩
  · rw [he]
    exact hs.sleep hc hf hn hsilent
  · rw [he]
    refine (hs.notifyAll ?_).report _
    exact ⟨rfl, rfl, by simp [unregister, register, hs.free]⟩

theorem turn (ht : call.timed = false) (ho : s.hub.watchesOpen call = true) (expired : Bool) :
    Orderly (s.turn w expired call) := by
  rcases turn_cases ht w expired s with hr | ⟨what, hf, hblocks, hn, he⟩
  · exact hs.returns hr
  · exact he ▸ hs.wait hblocks.cancel hf (hn ho)

end OrderlyBut

namespace Orderly

section

variable (hs : Orderly s)

include hs

theorem orderlyBut (hf : s.isFree w = true) : OrderlyBut s w := by
  obtain ⟨hl, hp⟩ := Bool.and_eq_true_iff.mp hf
  refine ⟨fun u _ => hs.settled u, hs.known, ?_, hl⟩
  have hset := hs.settled w
  generalize s.phase w = p at hp hset
  cases hset with
  | running hr => exact hr
  | asleep => cases hp
  | woken => cases hp

theorem orderlyBut_woken (hp : s.phase w = .woken call) :
    OrderlyBut { s with hub := s.hub.unregister w } w ∧ call.timed = false := by
  have hset := hs.settled w
  rw [hp] at hset
  cases hset with
  | @woken _ what hl _ hf =>
    refine ⟨⟨fun u hu => ?_, hs.known, update_self .., hl⟩, ?_⟩
    · exact (hs.settled u).frame rfl (update_of_ne hu ..) rfl rfl
    · cases what <;> cases call <;> first | rfl | cases hf

theorem resume (ha : s.step (.resume w expired) = some s') :
    ∃ call, s.phase w = .woken call ∧ call.timed = false ∧ OrderlyBut { s with hub := s.hub.unregister w } w ∧
      { s with hub := s.hub.unregister w }.turn w expired call = s' := by
  have hset := hs.settled w
  simp only [System.step] at ha
  split at ha
  · rename_i call hp
    obtain ⟨hbut, ht⟩ := hs.orderlyBut_woken hp
    simp only [ht, Option.some.injEq] at ha
    exact ⟨call, hp, ht, hbut, ha⟩
  · rename_i hp
    rw [hp] at hset
    cases hset
  · rename_i hp
    rw [hp] at hset
    cases hset
  · cases ha

theorem notifyAll (hb : s.hub.SameBooks h') : Orderly ({ s with hub := h' }.notifyAll) where
  settled u := (hs.settled u).notified (congrFun hb.names u) (congrFun hb.waiting u)
  known u hl := by
    have hl' : s.isLiving u := by simpa [isLiving, hb.names] using hl
    simpa [hb.nextId] using hs.known u hl'
  awake u hl := ⟨u, hl, not_isAsleep_notifyAll⟩

theorem workerDone (hf : s.isFree w = true) :
    Orderly ({ s with hub := s.hub.workerDone w }.notifyAll) := by
  have hbut := hs.orderlyBut hf
  have hbooks : (s.hub.workerDone w).names = update s.hub.names w none ∧ (s.hub.workerDone w).nextId = s.hub.nextId ∧
      (s.hub.workerDone w).waiting = s.hub.waiting := by
    have hw : update s.hub.waiting w none = s.hub.waiting := by simp [hbut.free]
    rcases (({ s.hub with names := update s.hub.names w none }.unregister w)).detectDeadlock_cases
      with ⟨hd, _⟩ | ⟨hd, _⟩ <;> simp only [Hub.workerDone, hd] <;> exact ⟨rfl, rfl, hw⟩
  obtain ⟨hn, hi, hw⟩ := hbooks
  have hne : ∀ u, (s.hub.workerDone w).names u ≠ none → u ≠ w := by
    rintro u hu rfl
    simp [hn] at hu
  refine ⟨fun u => ?_, fun u hl => ?_, fun u hl => ⟨u, hl, not_isAsleep_notifyAll⟩⟩
  · by_cases hu : u = w
    · subst hu
      have hp : s.phase u = .running := by
        obtain ⟨_, hp⟩ := Bool.and_eq_true_iff.mp hf
        generalize s.phase u = p at hp
        cases p <;> first | rfl | cases hp
      simpa [System.notifyAll, hp, Phase.notified] using Settled.running ((congrFun hw u).trans hbut.free)
    · have hset : Settled (s.hub.workerDone w) u (s.phase u).notified :=
        (hs.settled u).notified (by simp [hn, hu]) (congrFun hw u)
      exact hset
  · have hu : u ≠ w := hne u (by simpa [isLiving, isSome_iff_ne_none] using hl)
    have hl' : s.isLiving u := by simpa [isLiving, hn, hu] using hl
    simpa [hi] using hs.known u hl'

theorem wake (hp : s.phase w = .asleep call) : Orderly (s.setPhase w (.woken call)) where
  settled u := by
    by_cases hu : u = w
    · subst hu
      have hset := hs.settled u
      rw [hp] at hset
      cases hset with
      | asleep hl _ hw hf _ => simpa [setPhase] using Settled.woken hl hw hf
    · simpa [setPhase, hu] using hs.settled u
  known := hs.known
  awake u hl := by
    obtain ⟨x, hx, hn⟩ := hs.awake u hl
    refine ⟨x, hx, ?_⟩
    by_cases hxw : x = w
    · simp [System.IsAsleep, setPhase, hxw]
    · simpa [System.IsAsleep, setPhase, hxw] using hn

theorem step (hw : watchful s a = true) (ha : s.step a = some s') : Orderly s' := by
  cases a with
  | call w call =>
    obtain ⟨hg, ⟨⟩⟩ := ite_none_right_eq_some.mp ha
    obtain ⟨ht, ho⟩ := Bool.and_eq_true_iff.mp hw
    simp only [Bool.not_eq_eq_eq_not] at ht
    simpa [ht] using (hs.orderlyBut (Bool.and_eq_true_iff.mp hg).1).turn ht ho false
  | wake w =>
    simp only [System.step] at ha
    split at ha
    · cases ha
      exact hs.wake ‹_›
    · cases ha
  | resume w expired =>
    obtain ⟨call, hp, ht, hbut, rfl⟩ := hs.resume ha
    simp only [watchful, hp] at hw
    exact hbut.turn ht hw expired
  | trySend | tryRecv | releaseSender | releaseReceiver =>
    obtain ⟨hf, hr⟩ := returns_of_step ha
    exact (hs.orderlyBut hf).returns hr
  | workerDone w =>
    obtain ⟨hg, ⟨⟩⟩ := ite_none_right_eq_some.mp ha
    exact hs.workerDone hg
  | cancel cause =>
    obtain ⟨_, ⟨⟩⟩ := ite_none_left_eq_some.mp ha
    unfold setCancel
    split_ifs
    · exact hs.notifyAll ⟨rfl, rfl, rfl⟩
    · exact hs.notifyAll ⟨rfl, rfl, rfl⟩

end

end Orderly

/-- The system the detector looks at in a step: the worker that acts counts as
waiting in its call, or is gone. -/
def System.atDetection (s : System T) : Action T → System T
  | .call w call => s.setPhase w (.asleep call)
  | .resume w _ =>
    match s.phase w with
    | .woken call => s.setPhase w (.asleep call)
    | _ => s
  | .workerDone w => { s with hub := { s.hub with names := update s.hub.names w none } }
  | _ => s

/-- The worker that goes to sleep in a turn that cancels the run for a deadlock
was the last one that did not wait. -/
theorem OrderlyBut.stuck_of_turn (hs : OrderlyBut s w) (ht : call.timed = false)
    (hc : s.hub.cancel = none) (hd : (s.turn w expired call).hub.cancel ≠ none) :
    (s.setPhase w (.asleep call)).Stuck := by
  rcases turn_cases ht w expired s with hr | ⟨what, _, hblocks, _, he⟩
  · exact absurd (hr.cancel.trans hc) hd
  · rcases wait_cases hc w call what with ⟨hw, _⟩ | ⟨_, _, _, _, hreg, hn⟩
    · rw [he, hw] at hd
      exact absurd hc hd
    · refine ⟨⟨w, hs.living⟩, fun u hl => ?_⟩
      by_cases hu : u = w
      · subst hu
        exact ⟨call, .inl (by simp [setPhase]), hblocks⟩
      · have hmem := hs.known u hl
        obtain ⟨what', hw'⟩ := hreg u (mem_living.mpr ⟨hmem, hl⟩)
        have hw : s.hub.waiting u = some what' := (update_of_ne hu ..).symm.trans hw'
        obtain ⟨call', hin, hf⟩ := (hs.settled u hu).waitsIn hw
        refine ⟨call', ?_, blocks_of_not_servable hc hf (hn (u, what') (mem_waits.mpr ⟨hmem, hw'⟩))⟩
        simpa [System.WaitsIn, setPhase, hu] using hin

theorem System.Stuck.congr (hs : s.Stuck) (hp : s'.phase = s.phase) (hn : s'.hub.names = s.hub.names)
    (hc : s'.hub.cancel = s.hub.cancel) (hch : s'.hub.channels = s.hub.channels) : s'.Stuck := by
  simp only [Stuck, isLiving, WaitsIn, hp, hn] at hs ⊢
  refine ⟨hs.1, fun w hl => ?_⟩
  obtain ⟨call, hin, hb⟩ := hs.2 w hl
  exact ⟨call, hin, hb.congr hc hch⟩

theorem Orderly.stuck_of_workerDone (hs : Orderly s) (hc : s.hub.cancel = none)
    (hd : (s.hub.workerDone w).cancel ≠ none) : (s.atDetection (.workerDone w)).Stuck := by
  rcases ({ s.hub with names := update s.hub.names w none }.unregister w).detectDeadlock_cases
    with ⟨he, _⟩ | ⟨_, _, hl, hreg, hn⟩
  · rw [Hub.workerDone, he] at hd
    exact absurd hc hd
  · obtain ⟨x, hx⟩ := exists_mem_of_ne_nil _ hl
    refine ⟨⟨x, (mem_living.mp hx).2⟩, fun u hlu => ?_⟩
    have hu : u ≠ w := by
      rintro rfl
      simp [isLiving, atDetection] at hlu
    have hlu' : s.isLiving u := by simpa [isLiving, atDetection, hu] using hlu
    obtain ⟨what, hw⟩ := hreg u (mem_living.mpr ⟨hs.known u hlu', hlu⟩)
    have hw' : s.hub.waiting u = some what := (update_of_ne hu ..).symm.trans hw
    obtain ⟨call, hin, hf⟩ := (hs.settled u).waitsIn hw'
    have hun : s.hub.servable what = false := hn (u, what) (mem_waits.mpr ⟨hs.known u hlu', hw⟩)
    exact ⟨call, hin, (blocks_of_not_servable hc hf hun).congr rfl rfl⟩

/-- A step cancels for a deadlock only when every living worker waits in a call
that cannot be served. -/
theorem Orderly.stuck_of_deadlock {why : String} (hs : Orderly s)
    (hw : watchful s a = true) (ha : s.step a = some s') (hc : s.hub.cancel = none)
    (hd : s'.hub.cancel = some (.deadlock why)) : (s.atDetection a).Stuck := by
  have hne : s'.hub.cancel ≠ none := by simp [hd]
  cases a with
  | call w call =>
    obtain ⟨hg, ⟨⟩⟩ := ite_none_right_eq_some.mp ha
    have ht : call.timed = false := by simpa using (Bool.and_eq_true_iff.mp hw).1
    simp only [ht] at hne
    exact (hs.orderlyBut (Bool.and_eq_true_iff.mp hg).1).stuck_of_turn ht hc hne
  | wake w =>
    simp only [System.step] at ha
    split at ha
    · cases ha
      exact absurd hc hne
    · cases ha
  | resume w expired =>
    obtain ⟨call, hp, ht, hbut, rfl⟩ := hs.resume ha
    have hstuck := hbut.stuck_of_turn ht hc hne
    simp only [System.atDetection, hp]
    exact hstuck.congr rfl rfl rfl rfl
  | trySend | tryRecv | releaseSender | releaseReceiver =>
    exact absurd ((System.returns_of_step ha).2.cancel.trans hc) hne
  | workerDone w =>
    obtain ⟨_, ⟨⟩⟩ := ite_none_right_eq_some.mp ha
    exact hs.stuck_of_workerDone hc hne
  | cancel cause =>
    obtain ⟨hn, ⟨⟩⟩ := ite_none_left_eq_some.mp ha
    simp only [System.notifyAll, Hub.setCancel, hc, isSome_none, Bool.false_eq_true,
      ↓reduceIte, Option.some.injEq] at hd
    subst hd
    exact absurd rfl hn

theorem Orderly.start (specs : List ChannelSpec) (names : List String) : Orderly (start (T := T) specs names) where
  settled w := .running ((setUp_fresh specs names).waiting w)
  known := (setUp_fresh specs names).known
  awake w hl := ⟨w, hl, fun ⟨_, hp⟩ => by cases hp⟩

theorem System.turn_of_blocks (ht : call.timed = false) (hb : s.hub.Blocks call) (expired : Bool) :
    ∃ what, s.turn w expired call = s.wait w call what := by
  cases call with
  | sendTimeout => cases ht
  | recvTimeout => cases ht
  | send chans v =>
    obtain ⟨c, ho⟩ := hb
    exact ⟨.send c, by simp [turn, sendOnce, ho]⟩
  | recvAny chans =>
    have he : s.hub.take chans = .empty := hb
    exact ⟨.recv chans, by simp [turn, recvOnce, he]⟩

/-- In a stuck system a woken worker looks at its channels and goes back to
sleep, or finds the deadlock. -/
theorem Orderly.resume_stuck (hs : Orderly s) (hst : s.Stuck) (hc : s.hub.cancel = none)
    (ha : s.step (.resume w false) = some s') :
    (∃ why, s'.hub.cancel = some (.deadlock why)) ∨
      s'.Stuck ∧ s'.hub.cancel = none ∧ ∀ u, s'.isLiving u → s'.IsWoken u → s.isLiving u ∧ s.IsWoken u ∧ u ≠ w := by
  obtain ⟨call, hp, ht, hbut, rfl⟩ := hs.resume ha
  obtain ⟨call', hin, hb⟩ := hst.2 w hbut.living
  obtain rfl : call = call' := by
    rcases hin with h | h <;> rw [hp] at h <;> cases h
    rfl
  have hb' : (s.hub.unregister w).Blocks call := hb.congr rfl rfl
  obtain ⟨what, he⟩ := turn_of_blocks (s := { s with hub := s.hub.unregister w }) ht hb' false
  rw [he]
  rcases wait_cases (s := { s with hub := s.hub.unregister w }) hc w call what with
    ⟨hw, _⟩ | ⟨cause, hcause, hw, _⟩
  · rw [hw]
    refine .inr ⟨⟨hst.1, fun u hl => ?_⟩, hc, fun u hl hwoken => ?_⟩
    · by_cases hu : u = w
      · subst hu
        exact ⟨call, .inl (by simp [setPhase]), hb.congr rfl rfl⟩
      · obtain ⟨callu, hinu, hbu⟩ := hst.2 u hl
        exact ⟨callu, by simpa [System.WaitsIn, setPhase, hu] using hinu, hbu.congr rfl rfl⟩
    · have hu : u ≠ w := by
        rintro rfl
        simp [System.IsWoken, setPhase] at hwoken
      exact ⟨hl, by simpa [System.IsWoken, setPhase, hu] using hwoken, hu⟩
  · rw [hw]
    cases cause with
    | deadlock why => exact .inl ⟨why, rfl⟩
    | failed node => cases hcause
    | external => cases hcause

theorem cancel_of_run {as : List (Action T)} {cause : CancelCause}
    (hr : run (guarded watchful step) s as = some s') (hc : s.hub.cancel = some cause) :
    s'.hub.cancel = some cause := by
  induction as generalizing s with
  | nil => exact some.inj hr ▸ hc
  | cons a as ih =>
    obtain ⟨t, ht, hr⟩ := bind_eq_some_iff.mp hr
    exact ih hr (step_cancel (guarded_eq_some.mp ht).2 hc)

/-- Once the pending wake-ups of a stuck system have taken place the run is
cancelled. -/
theorem Orderly.cancelled_of_wakeUps {ws : List WorkerId} (hs : Orderly s) (hst : s.Stuck)
    (hc : s.hub.cancel = none) (hws : ∀ w, s.isLiving w → s.IsWoken w → w ∈ ws)
    (hr : run (guarded watchful System.step) s (ws.map (.resume · false)) = some s') :
    ∃ why, s'.hub.cancel = some (.deadlock why) := by
  induction ws generalizing s with
  | nil =>
    -- nobody is woken, so that everybody sleeps
    obtain ⟨w, hl⟩ := hst.1
    obtain ⟨u, hlu, hn⟩ := hs.awake w hl
    obtain ⟨call, hin, _⟩ := hst.2 u hlu
    rcases hin with hin | hin
    · exact absurd ⟨call, hin⟩ hn
    · exact absurd (hws u hlu ⟨call, hin⟩) not_mem_nil
  | cons w ws ih =>
    obtain ⟨t, ht, hr⟩ := bind_eq_some_iff.mp hr
    obtain ⟨hw, ht⟩ := guarded_eq_some.mp ht
    rcases hs.resume_stuck hst hc ht with ⟨why, hd⟩ | ⟨hst', hc', hwoken⟩
    · exact ⟨why, cancel_of_run hr hd⟩
    · refine ih (hs.step hw ht) hst' hc' (fun u hl hu => ?_) hr
      obtain ⟨hl', hu', hne⟩ := hwoken u hl hu
      exact (mem_cons.mp (hws u hl' hu')).resolve_left hne

/-- The detector is exact in `s`: a step that cancels for a deadlock finds every
living worker in a wait that cannot be served, the living workers never all
sleep, and when all of them wait for nothing the wake-ups still under way cancel
the run. -/
structure System.DetectsExactly (s : System T) : Prop where
  sound : ∀ a s' why, watchful s a → s.step a = some s' → s.hub.cancel = none →
    s'.hub.cancel = some (.deadlock why) → (s.atDetection a).Stuck
  awake : ∀ w, s.isLiving w → ∃ u, s.isLiving u ∧ ¬ s.IsAsleep u
  prompt : s.Stuck → s.hub.cancel = none → ∀ (ws : List WorkerId) s', (∀ w, s.isLiving w → s.IsWoken w → w ∈ ws) →
    run (guarded watchful step) s (ws.map (.resume · false)) = some s' →
    ∃ why, s'.hub.cancel = some (.deadlock why)

theorem detects_exactly_of_watchful {specs : List ChannelSpec} {names : List String}
    (hr : Reachable (guarded watchful step) (start specs names) s) :
    s.DetectsExactly := by
  have hs : Orderly s := hr.invariant (Orderly.start specs names) fun _ _ _ hs ha =>
    hs.step (guarded_eq_some.mp ha).1 (guarded_eq_some.mp ha).2
  exact ⟨fun _ _ _ hw ha hc hd => hs.stuck_of_deadlock hw ha hc hd, hs.awake,
    fun hst hc _ _ hws hrun => hs.cancelled_of_wakeUps hst hc hws hrun⟩

/-- A reader waits for a writer that waits for the reader: the second one to
wait finds the deadlock. -/
theorem detects_exactly_deadlock : ∃ s : System Nat, Reachable (guarded watchful step)
        (start [⟨"a", 1, 1, 1⟩, ⟨"b", 1, 1, 1⟩] ["reader", "writer"]) s ∧
      s.hub.cancel ≠ none ∧ s.DetectsExactly := by
  have hr : Reachable (guarded watchful (step (T := Nat)))
      (start [⟨"a", 1, 1, 1⟩, ⟨"b", 1, 1, 1⟩] ["reader", "writer"]) _ :=
    Reachable.init.run (show run (guarded watchful step) _
      [.call 0 (.recvAny [0]), .call 1 (.recvAny [1])] = some _ from rfl)
  exact ⟨_, hr, nofun, detects_exactly_of_watchful hr⟩

/-- The reader watches a channel that has ended beside one that has not, the
writer waits for the reader: both sleep for ever. -/
theorem deadlock_undetected : ∃ s : System Nat, Reachable step
        (start [⟨"a", 1, 1, 1⟩, ⟨"b", 1, 1, 1⟩, ⟨"c", 1, 1, 1⟩] ["reader", "writer"]) s ∧
      s.hub.cancel = none ∧ s.Stuck ∧ ∀ w, s.isLiving w → s.IsAsleep w := by
  refine ⟨_, Reachable.init.run (show run step _
    [.releaseSender 1 0, .call 0 (.recvAny [0, 1]), .call 1 (.recvAny [2])] = some _ from rfl),
    rfl, ⟨⟨0, rfl⟩, ?_⟩, ?_⟩
  · rintro (_ | _ | w) hl
    · exact ⟨_, .inl rfl, rfl⟩
    · exact ⟨_, .inl rfl, rfl⟩
    · cases hl
  · rintro (_ | _ | w) hl
    · exact ⟨_, rfl⟩
    · exact ⟨_, rfl⟩
    · cases hl

end Rag3db.Weaver
