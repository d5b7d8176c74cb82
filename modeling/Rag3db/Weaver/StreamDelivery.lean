import Rag3db.Weaver.StreamEffects

open List

namespace Rag3db.Weaver

open Library.Transition Event Hub Weaver.System

variable {T : Type} {s s' : System T} {c : ChannelId} {r : WorkerId} {log : List (WorkerId × Event T)}

namespace Event

def puts (c : ChannelId) : Event T → List T
  | .sent live v => List.replicate (live.count c) v
  | _ => []

def takes (c : ChannelId) : Event T → List T
  | .received _ d v => if d = c then [v] else []
  | _ => []

def leavesSending (c : ChannelId) : Event T → Nat
  | .releasedSender d => if d = c then 1 else 0
  | _ => 0

def leavesReading (c : ChannelId) : Event T → Nat
  | .releasedReceiver d => if d = c then 1 else 0
  | _ => 0

end Event

def sentOn (c : ChannelId) (log : List (WorkerId × Event T)) : List T := log.flatMap (·.2.puts c)

def receivedFrom (c : ChannelId) (log : List (WorkerId × Event T)) : List T := log.flatMap (·.2.takes c)

def receivedBy (r : WorkerId) (c : ChannelId) (log : List (WorkerId × Event T)) : List T :=
  receivedFrom c (log.filter (·.1 == r))

def OnlyReader (r : WorkerId) (c : ChannelId) (log : List (WorkerId × Event T)) : Prop :=
  ∀ p ∈ log, p.2.takes c ≠ [] → p.1 = r

def senderReleases (c : ChannelId) (log : List (WorkerId × Event T)) : Nat :=
  (log.map (·.2.leavesSending c)).sum

def receiverReleases (c : ChannelId) (log : List (WorkerId × Event T)) : Nat :=
  (log.map (·.2.leavesReading c)).sum

theorem receivedBy_eq (h : OnlyReader r c log) : receivedBy r c log = receivedFrom c log := by
  induction log with
  | nil => rfl
  | cons p log ih =>
    have ih := ih fun q hq => h q (mem_cons_of_mem p hq)
    simp only [receivedBy, receivedFrom] at ih ⊢
    by_cases hp : p.1 = r
    · simp [hp, ih]
    · have hn : p.2.takes c = [] := by
        by_contra hne
        exact hp (h p mem_cons_self hne)
      simp [hp, hn, ih]

/-- What the log says of the channel `c`, which was set up as `made`. -/
structure Delivered (made : Channel T) (c : ChannelId) (ch : Channel T) (log : List (WorkerId × Event T)) : Prop where
  senders : ch.senders = made.senders - senderReleases c log
  receivers : ch.receivers = made.receivers - receiverReleases c log
  queue : ch.receivers ≠ 0 → sentOn c log = receivedFrom c log ++ ch.buf
  unread : ch.receivers = 0 → ch.buf = [] ∧ receivedFrom c log <+: sentOn c log

namespace Delivered

variable {made ch ch' : Channel T} {w : WorkerId} {e : Event T}

theorem received_initial (hd : Delivered made c ch log) : receivedFrom c log <+: sentOn c log := by
  by_cases hr : ch.receivers = 0
  · exact (hd.unread hr).2
  · exact ⟨ch.buf, (hd.queue hr).symm⟩

theorem append (hd : Delivered made c ch log) (hs : ch'.senders = ch.senders - e.leavesSending c)
    (hr : ch'.receivers = ch.receivers - e.leavesReading c)
    (hq : ch'.receivers ≠ 0 → ch.buf ++ e.puts c = e.takes c ++ ch'.buf)
    (hu : ch'.receivers = 0 → ch'.buf = [] ∧ e.puts c = [] ∧ e.takes c = []) :
    Delivered made c ch' (log ++ [(w, e)]) where
  senders := by simp [hs, hd.senders, senderReleases, Nat.sub_sub]
  receivers := by simp [hr, hd.receivers, receiverReleases, Nat.sub_sub]
  queue hn := by
    have hsent := hd.queue fun h0 => hn (by simp [hr, h0])
    simp only [sentOn] at hsent
    simp [sentOn, receivedFrom, hsent, hq hn]
  unread hn := by
    obtain ⟨hb, hp, ht⟩ := hu hn
    refine ⟨hb, ?_⟩
    simpa [sentOn, receivedFrom, hp, ht] using hd.received_initial

theorem append_other (hd : Delivered made c ch log) (hp : e.puts c = []) (ht : e.takes c = [])
    (hs : e.leavesSending c = 0) (hr : e.leavesReading c = 0) : Delivered made c ch (log ++ [(w, e)]) :=
  hd.append (by simp [hs]) (by simp [hr]) (fun _ => by simp [hp, ht]) fun hn => ⟨(hd.unread hn).1, hp, ht⟩

theorem step {h h' : Hub T} {es : List (WorkerId × Event T)}
    (hd : Delivered made c (h.channels c) log) (he : h.Effect h' es) :
    Delivered made c (h'.channels c) (log ++ es) := by
  cases he with
  | silent hch _ => simpa [hch] using hd
  | @failed w e hch _ hf =>
    rw [hch]
    refine hd.append_other ?_ ?_ ?_ ?_ <;> cases e <;> first | rfl | exact absurd hf id
  | ended _ _ _ _ hch =>
    rw [hch]
    exact hd.append_other rfl rfl rfl rfl
  | @sent w live v _ _ hread hch =>
    rw [hch]
    refine hd.append rfl rfl (fun _ => by simp [puts, takes]) fun hn => ?_
    -- a channel without a reader is not among the live ones
    have hcount : live.count c = 0 := by
      refine count_eq_zero_of_not_mem fun hmem => ?_
      have hpos := hread c hmem
      simp only [Channel.isRead, decide_eq_true_eq] at hpos
      exact absurd hn (Nat.pos_iff_ne_zero.mp hpos)
    simp [puts, takes, hcount, (hd.unread hn).1]
  | @received w i d v rest _ _ hbuf hch =>
    rw [hch]
    by_cases hcd : c = d
    · subst hcd
      have hr : (h.channels c).receivers ≠ 0 := fun hn => by simp [(hd.unread hn).1] at hbuf
      exact hd.append (by simp [leavesSending]) (by simp [leavesReading])
        (fun _ => by simp [puts, takes, hbuf]) fun hn => absurd (by simpa using hn) hr
    · rw [Function.update_of_ne hcd]
      exact hd.append_other rfl (by simp [takes, Ne.symm hcd]) rfl rfl
  | @releasedSender w d _ hch =>
    rw [hch]
    by_cases hcd : c = d
    · subst hcd
      refine hd.append ?_ ?_ (fun _ => ?_) fun hn => ⟨?_, rfl, rfl⟩
      · simp [Hub.releaseSender, Hub.modify, Event.leavesSending]
      · simp [Hub.releaseSender, Hub.modify, Event.leavesReading]
      · simp [Hub.releaseSender, Hub.modify, Event.puts, Event.takes]
      · simpa [Hub.releaseSender, Hub.modify] using (hd.unread (by simpa [Hub.releaseSender, Hub.modify] using hn)).1
    · have hsame : (h.releaseSender d).channels c = h.channels c := by
        simp [Hub.releaseSender, Hub.modify, hcd]
      rw [hsame]
      exact hd.append_other rfl rfl (by simp [leavesSending, Ne.symm hcd]) rfl
  | @releasedReceiver w d _ hch =>
    rw [hch]
    by_cases hcd : c = d
    · subst hcd
      refine hd.append ?_ ?_ (fun hn => ?_) fun hn => ⟨?_, rfl, rfl⟩
      · simp [Hub.releaseReceiver, Hub.modify, Event.leavesSending]
      · simp [Hub.releaseReceiver, Hub.modify, Event.leavesReading]
      · have hn' : (h.channels c).receivers - 1 ≠ 0 := by
          simpa [Hub.releaseReceiver, Hub.modify] using hn
        simp [Hub.releaseReceiver, Hub.modify, Event.puts, Event.takes, hn']
      · have hn' : (h.channels c).receivers - 1 = 0 := by
          simpa [Hub.releaseReceiver, Hub.modify] using hn
        simp [Hub.releaseReceiver, Hub.modify, hn']
    · have hsame : (h.releaseReceiver d).channels c = h.channels c := by
        simp [Hub.releaseReceiver, Hub.modify, hcd]
      rw [hsame]
      exact hd.append_other rfl rfl rfl (by simp [leavesReading, Ne.symm hcd])

end Delivered

variable {specs : List ChannelSpec} {names : List String}

theorem delivered_of_reachable (hr : Reachable step (start specs names) s) (c : ChannelId) :
    Delivered ((setUp specs names).channels c) c (s.hub.channels c) s.log := by
  induction hr with
  | init =>
    have hb := (setUp_fresh (T := T) specs names).buf c
    exact ⟨rfl, rfl, fun _ => hb.symm, fun _ => ⟨hb, prefix_rfl⟩⟩
  | step a _ ha ih =>
    obtain ⟨es, hl, he⟩ := step_does ha
    exact hl ▸ ih.step he

/-- A receive reports the end of its channels only when every sender has
released and, if its reader has not let go of the channel, everything sent has
been read. -/
theorem ended_of_reachable {a : Action T} {w : WorkerId} {chans : List ChannelId}
    (hr : Reachable step (start specs names) s) (ha : s.step a = some s')
    (hl : s'.log = s.log ++ [(w, .ended chans)]) (hc : c ∈ chans) :
    ((setUp (T := T) specs names).channels c).senders ≤ senderReleases c s.log ∧
      (receiverReleases c s.log < ((setUp (T := T) specs names).channels c).receivers →
        receivedFrom c s.log = sentOn c s.log) := by
  have hd := delivered_of_reachable hr c
  obtain ⟨es, hl', he⟩ := step_does ha
  obtain rfl : es = [(w, .ended chans)] := append_cancel_left (hl'.symm.trans hl)
  cases he with
  | failed _ _ hf => exact absurd hf id
  | ended _ _ hbuf hcl _ =>
    have hsenders : (s.hub.channels c).senders = 0 := by simpa [Channel.isClosed] using hcl c hc
    refine ⟨Nat.sub_eq_zero_iff_le.mp (hd.senders.symm.trans hsenders), fun hlt => ?_⟩
    have hq := hd.queue (by rw [hd.receivers]; exact Nat.sub_ne_zero_of_lt hlt)
    rw [hq, hbuf c hc, append_nil]

theorem reports_of_cancelled {a : Action T} {w : WorkerId} {e : Event T} {cause : CancelCause}
    (hc : s.hub.cancel = some cause) (ha : s.step a = some s') (hl : s'.log = s.log ++ [(w, e)]) :
    e = .refused (.cancelled cause) ∨ e = .interrupted cause ∨
      ∃ c, e = .releasedSender c ∨ e = .releasedReceiver c := by
  obtain ⟨es, hl', he⟩ := step_does ha
  obtain rfl : es = [(w, e)] := append_cancel_left (hl'.symm.trans hl)
  have hc' := step_cancel ha hc
  cases he with
  | failed _ _ hf =>
    cases e with
    | refused why =>
      cases why with
      | noReader => exact absurd (hf.symm.trans hc) nofun
      | cancelled cause' =>
        obtain rfl : cause' = cause := Option.some.inj (hf.symm.trans hc')
        exact .inl rfl
    | interrupted cause' =>
      obtain rfl : cause' = cause := Option.some.inj (hf.symm.trans hc')
      exact .inr (.inl rfl)
    | full v | empty => exact absurd (hf.symm.trans hc) nofun
    | _ => exact absurd hf id
  | sent hn | received hn | ended hn => exact absurd (hn.symm.trans hc) nofun
  | releasedSender => exact .inr (.inr ⟨_, .inl rfl⟩)
  | releasedReceiver => exact .inr (.inr ⟨_, .inr rfl⟩)

end Rag3db.Weaver
