import Rag3db.Weaver.StreamWorkers

open Option

namespace Rag3db.Weaver

open Hub

variable {T : Type} {h h' : Hub T} {s s' : System T} {w : WorkerId} {chans : List ChannelId} {v : T} {a : Action T}

/-- The reports of a call that moved nothing: under a cancelled hub they name
its cause. -/
def Event.Fails (h h' : Hub T) : Event T → Prop
  | .refused .noReader | .full _ | .empty => h.cancel = none
  | .refused (.cancelled cause) | .interrupted cause => h'.cancel = some cause
  | _ => False

/-- What one holding of the lock does to the channels, by what it reports. -/
inductive Hub.Effect (h h' : Hub T) : List (WorkerId × Event T) → Prop
  | silent : h'.channels = h.channels → (h.cancel ≠ none → h'.cancel = h.cancel) → Effect h h' []
  | failed {w : WorkerId} {e : Event T} : h'.channels = h.channels →
      (h.cancel ≠ none → h'.cancel = h.cancel) → e.Fails h h' → Effect h h' [(w, e)]
  | sent {w : WorkerId} {live : List ChannelId} {v : T} : h.cancel = none → h'.cancel = none →
      (∀ c ∈ live, (h.channels c).isRead = true) →
      (∀ c, h'.channels c = { h.channels c with buf := (h.channels c).buf ++ List.replicate (live.count c) v }) →
      Effect h h' [(w, .sent live v)]
  | received {w : WorkerId} {i : Nat} {c : ChannelId} {v : T} {rest : List T} : h.cancel = none →
      h'.cancel = none → (h.channels c).buf = v :: rest →
      h'.channels = Function.update h.channels c { h.channels c with buf := rest } →
      Effect h h' [(w, .received i c v)]
  | ended {w : WorkerId} {chans : List ChannelId} : h.cancel = none → h'.cancel = none →
      (∀ c ∈ chans, (h.channels c).buf = []) → (∀ c ∈ chans, (h.channels c).isClosed = true) →
      h'.channels = h.channels → Effect h h' [(w, .ended chans)]
  | releasedSender {w : WorkerId} {c : ChannelId} : h'.cancel = h.cancel →
      h'.channels = (h.releaseSender c).channels → Effect h h' [(w, .releasedSender c)]
  | releasedReceiver {w : WorkerId} {c : ChannelId} : h'.cancel = h.cancel →
      h'.channels = (h.releaseReceiver c).channels → Effect h h' [(w, .releasedReceiver c)]

namespace Hub

theorem channels_pushAll (h : Hub T) (live : List ChannelId) (v : T) (c : ChannelId) : (h.pushAll live v).channels c =
      { h.channels c with buf := (h.channels c).buf ++ List.replicate (live.count c) v } := by
  induction live generalizing h with
  | nil => simp [pushAll]
  | cons d live ih =>
    have he : h.pushAll (d :: live) v = (h.modify d (Channel.push v)).pushAll live v := rfl
    rw [he, ih]
    by_cases hcd : c = d
    · subst hcd
      simp [modify, Channel.push, List.replicate_succ]
    · simp [modify, hcd, List.count_cons_of_ne (Ne.symm hcd)]

theorem cancel_pushAll (h : Hub T) (live : List ChannelId) (v : T) : (h.pushAll live v).cancel = h.cancel := by
  induction live generalizing h with
  | nil => rfl
  | cons c live ih => exact ih (h.modify c (Channel.push v))

theorem front_eq_some {i : Nat} {c : ChannelId}
    (hf : h.front chans = some (i, c, v)) : chans[i]? = some c ∧ ∃ rest, (h.channels c).buf = v :: rest := by
  obtain ⟨p, hp, hm⟩ := List.exists_of_findSome?_eq_some hf
  obtain ⟨v', hv, he⟩ := map_eq_some_iff.mp hm
  cases he
  exact ⟨List.mem_zipIdx_iff_getElem?.mp hp, List.head?_eq_some_iff.mp hv⟩

theorem channels_detectDeadlock (h : Hub T) : h.detectDeadlock.channels = h.channels := by
  unfold detectDeadlock setCancel
  split_ifs <;> rfl

theorem cancel_detectDeadlock (hc : h.cancel ≠ none) : h.detectDeadlock.cancel = h.cancel := by
  simp [detectDeadlock, isSome_iff_ne_none.mpr hc]

end Hub

namespace System

def Does (s s' : System T) : Prop :=
  ∃ es, s'.log = s.log ++ es ∧ s.hub.Effect s'.hub es

theorem does_report {e : Event T} (hp : s'.hub = s.hub) (hl : s'.log = s.log ++ [(w, e)])
    (he : e.Fails s.hub s.hub) : s.Does s' := by
  refine ⟨_, hl, ?_⟩
  rw [hp]
  exact .failed rfl (fun _ => rfl) he

theorem sendOnce_does {blocked : ChannelId → System T}
    (hb : ∀ c, s.hub.cancel = none → s.Does (blocked c)) : s.Does (s.sendOnce w chans v blocked) := by
  unfold sendOnce
  cases ho : s.hub.offer chans v with
  | full c => exact hb c (offer_eq_full.mp ho).1
  | stopped why =>
    refine does_report rfl rfl ?_
    unfold offer at ho
    cases hc : s.hub.cancel with
    | some cause =>
      simp only [hc] at ho
      cases ho
      exact hc
    | none =>
      simp only [hc] at ho
      split_ifs at ho
      · cases ho
        exact hc
      · split at ho <;> cases ho
  | sent live hub =>
    obtain ⟨hc, rfl, _, _, rfl⟩ := offer_eq_sent ho
    refine ⟨_, rfl, .sent hc ((cancel_pushAll ..).trans hc) (fun c hc => ?_) (channels_pushAll s.hub _ v)⟩
    exact (List.mem_filter.mp hc).2

theorem recvOnce_does {blocked : System T}
    (hb : s.hub.cancel = none → s.Does blocked) : s.Does (s.recvOnce w chans blocked) := by
  unfold recvOnce
  cases ht : s.hub.take chans with
  | empty =>
    refine hb ?_
    cases hc : s.hub.cancel with
    | none => rfl
    | some cause => simp [take, hc] at ht
  | cancelled cause =>
    refine does_report rfl rfl ?_
    unfold take at ht
    cases hc : s.hub.cancel with
    | some cause' =>
      simp only [hc] at ht
      cases ht
      exact hc
    | none =>
      simp only [hc] at ht
      split at ht
      · cases ht
      · split_ifs at ht
  | ended =>
    obtain ⟨hc, hbuf, hcl⟩ := take_eq_ended ht
    exact ⟨_, rfl, .ended hc hc hbuf hcl rfl⟩
  | taken i c v hub =>
    obtain ⟨hc, hf, rfl⟩ := take_eq_taken ht
    obtain ⟨_, rest, hbuf⟩ := front_eq_some hf
    refine ⟨_, rfl, .received hc hc hbuf ?_⟩
    simp [Hub.modify, hbuf]

theorem Does.of_unregister (hd : System.Does { s with hub := s.hub.unregister w } s') : s.Does s' := by
  obtain ⟨es, hl, he⟩ := hd
  refine ⟨es, hl, ?_⟩
  cases he with
  | silent hch hc => exact .silent hch hc
  | failed hch hc hf => exact .failed hch hc hf
  | sent hc hc' hr hch => exact .sent hc hc' hr hch
  | received hc hc' hb hch => exact .received hc hc' hb hch
  | ended hc hc' hb hcl hch => exact .ended hc hc' hb hcl hch
  | releasedSender hc hch => exact .releasedSender hc hch
  | releasedReceiver hc hch => exact .releasedReceiver hc hch

theorem does_silent (hl : s'.log = s.log) (hch : s'.hub.channels = s.hub.channels)
    (hc : s.hub.cancel ≠ none → s'.hub.cancel = s.hub.cancel) : s.Does s' :=
  ⟨[], by simp [hl], .silent hch hc⟩

theorem wait_does (hc : s.hub.cancel = none) (call : Call T) (what : Wait) : s.Does (s.wait w call what) := by
  have hch : (s.hub.register w what).detectDeadlock.channels = s.hub.channels :=
    channels_detectDeadlock _
  unfold wait
  dsimp only
  split
  · rename_i cause hcause
    refine ⟨_, rfl, .failed hch (fun hn => absurd hc hn) ?_⟩
    cases call <;> exact hcause
  · exact does_silent rfl hch fun hn => absurd hc hn

theorem waitUntil_does (call : Call T) (what : Wait) (expired : Bool) : s.Does (s.waitUntil w call what expired) := by
  have hch : (s.hub.register w what).detectDeadlock.channels = s.hub.channels :=
    channels_detectDeadlock _
  have hc : s.hub.cancel ≠ none → (s.hub.register w what).detectDeadlock.cancel = s.hub.cancel :=
    fun hn => cancel_detectDeadlock hn
  unfold waitUntil
  dsimp only
  split_ifs <;> exact does_silent rfl hch hc

theorem turn_does (call : Call T) (expired : Bool) : s.Does (s.turn w expired call) := by
  cases call with
  | send chans v => exact sendOnce_does fun c hc => wait_does hc _ _
  | recvAny chans => exact recvOnce_does fun hc => wait_does hc _ _
  | sendTimeout chans v =>
    refine sendOnce_does fun c hc => ?_
    split_ifs
    · exact does_report rfl rfl hc
    · exact does_silent rfl rfl fun _ => rfl
  | recvTimeout chans =>
    refine recvOnce_does fun hc => ?_
    split_ifs
    · exact does_report rfl rfl hc
    · exact does_silent rfl rfl fun _ => rfl

theorem park_does (call : Call T) (expired : Bool) : s.Does (s.park w expired call) := by
  unfold park
  split
  · split
    · exact waitUntil_does ..
    · exact does_silent rfl rfl fun _ => rfl
  · exact waitUntil_does ..
  · exact does_silent rfl rfl fun _ => rfl

/-- Every step, timed or not, adds at most one event to the log and changes the
channels as this event says. -/
theorem step_does (ha : s.step a = some s') : s.Does s' := by
  cases a with try (replace ha := ite_none_right_eq_some.mp ha; obtain ⟨_, ⟨⟩⟩ := ha)
  | call w call =>
    split_ifs
    · exact does_silent rfl rfl fun _ => rfl
    · exact turn_does call false
  | trySend w chans v =>
    exact sendOnce_does fun _ hc => does_report rfl rfl hc
  | tryRecv w chans =>
    exact recvOnce_does fun hc => does_report rfl rfl hc
  | wake w =>
    simp only [step] at ha
    split at ha <;> cases ha
    exact does_silent rfl rfl fun _ => rfl
  | resume w expired =>
    simp only [step] at ha
    split at ha <;> cases ha
    · split_ifs
      · exact does_silent rfl rfl fun _ => rfl
      · exact (turn_does _ expired).of_unregister
    · exact turn_does _ expired
    · exact park_does _ expired
  | releaseSender w c =>
    exact ⟨_, rfl, .releasedSender rfl rfl⟩
  | releaseReceiver w c =>
    exact ⟨_, rfl, .releasedReceiver rfl rfl⟩
  | workerDone w =>
    exact does_silent rfl (channels_detectDeadlock _) fun hn => cancel_detectDeadlock hn
  | cancel cause =>
    obtain ⟨_, ⟨⟩⟩ := ite_none_left_eq_some.mp ha
    unfold setCancel
    split_ifs with hs
    · exact does_silent rfl rfl fun _ => rfl
    · exact does_silent rfl rfl fun hn => absurd (by simpa using hs) hn

theorem step_cancel {cause : CancelCause} (ha : s.step a = some s')
    (hc : s.hub.cancel = some cause) : s'.hub.cancel = some cause := by
  obtain ⟨es, _, he⟩ := step_does ha
  cases he with
  | silent _ hk | failed _ hk _ => exact (hk (by simp [hc])).trans hc
  | sent hn => simp [hn] at hc
  | received hn => simp [hn] at hc
  | ended hn => simp [hn] at hc
  | releasedSender hk => exact hk.trans hc
  | releasedReceiver hk => exact hk.trans hc

end System

end Rag3db.Weaver
