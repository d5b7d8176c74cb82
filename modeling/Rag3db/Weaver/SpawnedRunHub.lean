import Rag3db.Weaver.SpawnedRun

open List Option

namespace Rag3db.Weaver

variable {T : Type} {h h' h'' : Hub T} {c : ChannelId} {port : String}

/-- No sender, no worker and no channel comes, and a cancellation stays. -/
structure Hub.Shrinks (h h' : Hub T) : Prop where
  senders : ∀ c, (h'.channels c).senders ≤ (h.channels c).senders
  names : ∀ w, h'.names w ≠ none → h.names w ≠ none
  cancel : h.cancel ≠ none → h'.cancel ≠ none
  numChannels : h'.numChannels = h.numChannels

namespace Hub

theorem Shrinks.trans (hs : h.Shrinks h') (hs' : h'.Shrinks h'') : h.Shrinks h'' where
  senders c := (hs'.senders c).trans (hs.senders c)
  names w hw := hs.names w (hs'.names w hw)
  cancel hc := hs'.cancel (hs.cancel hc)
  numChannels := hs'.numChannels.trans hs.numChannels

variable (h)

theorem Shrinks.refl : h.Shrinks h := ⟨fun _ => le_rfl, fun _ hw => hw, fun hc => hc, rfl⟩

theorem Shrinks.modify (c : ChannelId) {f : Channel T → Channel T}
    (hf : ∀ ch, (f ch).senders ≤ ch.senders) : h.Shrinks (h.modify c f) := by
  refine ⟨fun d => ?_, fun _ hw => hw, fun hc => hc, rfl⟩
  by_cases hd : d = c
  · subst hd
    simpa [Hub.modify] using hf (h.channels d)
  · simp [Hub.modify, hd]

theorem Shrinks.pushAll (live : List ChannelId) (v : T) : h.Shrinks (h.pushAll live v) := by
  induction live generalizing h with
  | nil => exact .refl h
  | cons c live ih =>
    have hpush : h.Shrinks (h.modify c (Channel.push v)) := .modify h c fun _ => le_rfl
    exact hpush.trans (ih _)

theorem Shrinks.setCancel (cause : CancelCause) : h.Shrinks (h.setCancel cause) := by
  unfold Hub.setCancel
  split_ifs
  · exact .refl h
  · exact ⟨fun _ => le_rfl, fun _ hw => hw, fun _ => some_ne_none _, rfl⟩

theorem Shrinks.register (w : WorkerId) (what : Wait) : h.Shrinks (h.register w what) :=
  ⟨fun _ => le_rfl, fun _ hw => hw, fun hc => hc, rfl⟩

theorem Shrinks.unregister (w : WorkerId) : h.Shrinks (h.unregister w) :=
  ⟨fun _ => le_rfl, fun _ hw => hw, fun hc => hc, rfl⟩

theorem Shrinks.detectDeadlock : h.Shrinks h.detectDeadlock := by
  unfold Hub.detectDeadlock
  split_ifs
  · exact .refl h
  · exact .refl h
  · exact .refl h
  · exact .setCancel h _

theorem Shrinks.releaseSender (c : ChannelId) : h.Shrinks (h.releaseSender c) :=
  .modify h c fun _ => Nat.sub_le _ _

theorem Shrinks.releaseReceiver (c : ChannelId) : h.Shrinks (h.releaseReceiver c) :=
  .modify h c fun _ => le_rfl

theorem names_detectDeadlock : h.detectDeadlock.names = h.names := by
  unfold detectDeadlock setCancel
  split_ifs <;> rfl

theorem names_workerDone (w v : WorkerId) :
    (h.workerDone w).names v = if v = w then none else h.names v := by
  unfold workerDone
  rw [names_detectDeadlock]
  exact Function.update_apply ..

theorem Shrinks.workerDone (w : WorkerId) : h.Shrinks (h.workerDone w) := by
  have hleft : h.Shrinks { h with names := Function.update h.names w none } := by
    refine ⟨fun _ => le_rfl, fun v hv => ?_, fun hc => hc, rfl⟩
    by_cases hvw : v = w
    · exact absurd (by simp [hvw]) hv
    · simpa [hvw] using hv
  exact (hleft.trans (.unregister _ w)).trans (.detectDeadlock _)

theorem Shrinks.releaseAll (outputs : List (String × ChannelId)) :
    h.Shrinks (outputs.foldl (fun h o => h.releaseSender o.2) h) := by
  induction outputs generalizing h with
  | nil => exact .refl h
  | cons o outputs ih => exact (Shrinks.releaseSender h o.2).trans (ih _)

theorem senders_releaseAll {h : Hub T} {outputs : List (String × ChannelId)}
    (hmem : (port, c) ∈ outputs) (hone : (h.channels c).senders ≤ 1) :
    ((outputs.foldl (fun h o => h.releaseSender o.2) h).channels c).senders = 0 := by
  induction outputs generalizing h with
  | nil => cases hmem
  | cons o outputs ih =>
    rcases mem_cons.mp hmem with rfl | hmem
    · have hzero : ((h.releaseSender c).channels c).senders = 0 := by
        simp [releaseSender, modify, Nat.sub_eq_zero_of_le hone]
      exact Nat.le_zero.mp (hzero ▸ (Shrinks.releaseAll (h.releaseSender c) outputs).senders c)
    · exact ih hmem (((Shrinks.releaseSender h o.2).senders c).trans hone)

theorem cancel_setCancel (cause : CancelCause) : (h.setCancel cause).cancel ≠ none := by
  unfold setCancel
  split_ifs with hc
  · exact isSome_iff_ne_none.mp hc
  · exact some_ne_none _

end Hub

namespace System

variable {s s' : System T} {w : WorkerId} {chans : List ChannelId}

def Loses (s s' : System T) : Prop := s.hub.Shrinks s'.hub

theorem Loses.wait (s : System T) (w : WorkerId) (call : Call T) (what : Wait) : s.Loses (s.wait w call what) := by
  have hwait : s.hub.Shrinks (s.hub.register w what).detectDeadlock :=
    (Hub.Shrinks.register s.hub w what).trans (.detectDeadlock _)
  unfold System.wait
  dsimp only
  split
  · exact hwait.trans (.unregister _ w)
  · exact hwait

theorem Loses.waitUntil (s : System T) (w : WorkerId) (call : Call T) (what : Wait) (expired : Bool) :
    s.Loses (s.waitUntil w call what expired) := by
  have hwait : s.hub.Shrinks (s.hub.register w what).detectDeadlock :=
    (Hub.Shrinks.register s.hub w what).trans (.detectDeadlock _)
  unfold System.waitUntil
  dsimp only
  split_ifs
  · exact hwait.trans (.unregister _ w)
  · exact hwait.trans (.unregister _ w)
  · exact hwait

theorem Loses.sendOnce {v : T} {blocked : ChannelId → System T}
    (hb : ∀ c, s.Loses (blocked c)) : s.Loses (s.sendOnce w chans v blocked) := by
  unfold System.sendOnce
  cases ho : s.hub.offer chans v with
  | stopped why => exact .refl _
  | full c => exact hb c
  | sent live hub =>
    obtain ⟨-, -, -, -, rfl⟩ := Hub.offer_eq_sent ho
    exact .pushAll _ live v

theorem Loses.recvOnce {blocked : System T} (hb : s.Loses blocked) : s.Loses (s.recvOnce w chans blocked) := by
  unfold System.recvOnce
  cases ht : s.hub.take chans with
  | cancelled cause => exact .refl _
  | taken i c v hub =>
    obtain ⟨-, -, rfl⟩ := Hub.take_eq_taken ht
    have htaken : s.hub.Shrinks (s.hub.modify c fun ch => { ch with buf := ch.buf.tail }) :=
      .modify s.hub c fun _ => le_rfl
    exact htaken
  | ended => exact .refl _
  | empty => exact hb

theorem Loses.turn (s : System T) (w : WorkerId) (expired : Bool) (call : Call T) :
    s.Loses (s.turn w expired call) := by
  cases call with
  | send chans v => exact .sendOnce fun c => .wait s w _ _
  | recvAny chans => exact .recvOnce (.wait s w _ _)
  | sendTimeout chans v =>
    refine .sendOnce fun c => ?_
    split_ifs <;> exact .refl _
  | recvTimeout chans =>
    refine .recvOnce ?_
    split_ifs <;> exact .refl _

theorem Loses.park (s : System T) (w : WorkerId) (expired : Bool) (call : Call T) :
    s.Loses (s.park w expired call) := by
  unfold System.park
  split
  · split
    · exact .waitUntil s w _ _ expired
    · exact .refl _
  · exact .waitUntil s w _ _ expired
  · exact .refl _

theorem Loses.step {a : Action T} (ha : s.step a = some s') : s.Loses s' := by
  cases a with try (replace ha := ite_none_right_eq_some.mp ha; obtain ⟨_, ⟨⟩⟩ := ha)
  | call w call =>
    split_ifs
    · exact .refl _
    · exact .turn s w false call
  | trySend w chans v =>
    exact .sendOnce fun _ => .refl _
  | tryRecv w chans =>
    exact .recvOnce (.refl _)
  | wake w =>
    simp only [System.step] at ha
    split at ha <;> cases ha
    exact .refl _
  | resume w expired =>
    simp only [System.step] at ha
    split at ha <;> cases ha
    · split_ifs
      · exact .unregister _ w
      · exact Hub.Shrinks.trans (.unregister s.hub w) (Loses.turn { s with hub := s.hub.unregister w } w expired _)
    · exact .turn s w expired _
    · exact .park s w expired _
  | releaseSender w c =>
    exact .releaseSender _ c
  | releaseReceiver w c =>
    exact .releaseReceiver _ c
  | workerDone w =>
    exact .workerDone _ w
  | cancel cause =>
    obtain ⟨_, ⟨⟩⟩ := ite_none_left_eq_some.mp ha
    exact .setCancel _ cause

end System

namespace Mounting

variable {m : Mounting} {hub : Hub T} {n : FlowNode} {k : Nat}

theorem get_threads {t : FlowThread} (h : (m.threads hub)[k]? = some t) : ∃ n, m.nodes[k]? = some n ∧
    t = ⟨n, m.lead ++ n.name, hub.nextId + k, m.outputs hub.numChannels n, m.parent, .working⟩ := by
  unfold threads at h
  rw [getElem?_map, getElem?_zipIdx] at h
  obtain ⟨p, hp, rfl⟩ := map_eq_some_iff.mp h
  obtain ⟨n, hn, rfl⟩ := map_eq_some_iff.mp hp
  exact ⟨n, hn, by simp⟩

theorem threads_get (h : m.nodes[k]? = some n) : (m.threads hub)[k]? =
    some ⟨n, m.lead ++ n.name, hub.nextId + k, m.outputs hub.numChannels n, m.parent, .working⟩ := by
  unfold threads
  rw [getElem?_map, getElem?_zipIdx, h]
  simp

theorem outer_of_mem_outputs {first : ChannelId} (hc : c < first)
    (h : (port, c) ∈ m.outputs first n) : ((n.name, port), c) ∈ m.outer := by
  rcases mem_append.mp h with h | h
  · obtain ⟨e, -, he⟩ := mem_map.mp h
    have hnew : first + e.2 = c := (Prod.mk.inj he).2
    exact absurd hc (Nat.not_lt.mpr (hnew ▸ Nat.le_add_right _ _))
  · obtain ⟨o, ho, heq⟩ := mem_map.mp h
    obtain ⟨ho, hname⟩ := mem_filter.mp ho
    cases heq
    rw [← of_decide_eq_true hname]
    exact ho

theorem mem_outputs_of_outer (first : ChannelId) (h : ((n.name, port), c) ∈ m.outer) : (port, c) ∈ m.outputs first n :=
  mem_append_right _ (mem_map.mpr ⟨((n.name, port), c), mem_filter.mpr ⟨h, decide_eq_true rfl⟩, rfl⟩)

theorem channels_spec (m : Mounting) (hub : Hub T) :
    (m.channels hub).names = hub.names ∧ (m.channels hub).nextId = hub.nextId ∧
      (m.channels hub).cancel = hub.cancel ∧ hub.numChannels ≤ (m.channels hub).numChannels ∧
      ∀ c < hub.numChannels, (m.channels hub).channels c = hub.channels c := by
  unfold channels
  induction m.edges generalizing hub with
  | nil => exact ⟨rfl, rfl, rfl, le_rfl, fun _ _ => rfl⟩
  | cons e edges ih =>
    obtain ⟨hnames, hid, hcancel, hnum, hch⟩ := ih (hub.channel (m.label e) m.capacity 1 1)
    refine ⟨hnames, hid, hcancel, (Nat.le_succ _).trans hnum, fun c hc => ?_⟩
    rw [foldl_cons, hch c (Nat.lt_succ_of_lt hc)]
    exact Function.update_of_ne (Nat.ne_of_lt hc) _ _

theorem workers_spec (m : Mounting) (hub : Hub T) :
    (m.workers hub).channels = hub.channels ∧ (m.workers hub).cancel = hub.cancel ∧
      (m.workers hub).numChannels = hub.numChannels ∧
      ∀ w, (m.workers hub).names w ≠ none → hub.names w ≠ none ∨ ∃ k < m.nodes.length, w = hub.nextId + k := by
  unfold workers
  induction m.nodes generalizing hub with
  | nil => exact ⟨rfl, rfl, rfl, fun w hw => .inl hw⟩
  | cons n nodes ih =>
    obtain ⟨hch, hcancel, hnum, hnames⟩ := ih (hub.worker (m.lead ++ n.name))
    refine ⟨hch, hcancel, hnum, fun w hw => ?_⟩
    rcases hnames w hw with hold | ⟨k, hk, rfl⟩
    · by_cases hself : w = hub.nextId
      · exact .inr ⟨0, Nat.succ_pos _, hself⟩
      · refine .inl ?_
        have hne : (hub.worker (m.lead ++ n.name)).names w = hub.names w := Function.update_of_ne hself _ _
        exact hne ▸ hold
    · exact .inr ⟨k + 1, Nat.succ_lt_succ hk, Nat.add_right_comm _ _ _⟩

theorem names_mounted {w : WorkerId} (h : (m.workers (m.channels hub)).names w ≠ none) :
    hub.names w ≠ none ∨
      ∃ (k : Nat) (t : FlowThread), (m.threads hub)[k]? = some t ∧ t.worker = w ∧ t.isEnded = false := by
  obtain ⟨hnames, hid, -⟩ := m.channels_spec hub
  rcases (m.workers_spec (m.channels hub)).2.2.2 w h with hold | ⟨k, hk, rfl⟩
  · exact .inl (hnames ▸ hold)
  · have hn := getElem?_eq_getElem hk
    exact .inr ⟨k, _, threads_get hn, by rw [hid], rfl⟩

end Mounting

end Rag3db.Weaver
