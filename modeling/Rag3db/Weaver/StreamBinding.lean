import Rag3db.Weaver.StreamDelivery

namespace Rag3db.Weaver

open Library.Transition Weaver.System

variable {T : Type}

/-- What a node sees of its channels. `ports` are the names of its ports in
their order; `pending` is what the runtime has read of an input before the node
started. -/
structure StreamBinding (T : Type) where
  ports : List String
  inputs : String → Option (List ChannelId)
  pending : String → List T
  outputs : String → Option (List ChannelId)
  sent : String → Nat
  recorded : Option (String → List T)

/-- The first look of a read: it is answered without the hub, there is no
channel to ask, or the hub is asked for one of `chans`, each with its port. -/
inductive Reading (T : Type)
  | ready (port : String) (v : T) (binding : StreamBinding T)
  | over
  | asked (chans : List (String × ChannelId)) (found : Hub.Take T)

def Reading.reports : Reading T → Option (Except CancelCause (Option (String × T)))
  | .ready port v _ => some (.ok (some (port, v)))
  | .over => some (.ok none)
  | .asked _ (.cancelled cause) => some (.error cause)
  | .asked chans (.taken i _ v _) => some (.ok (chans[i]?.map fun p => (p.1, v)))
  | .asked _ .ended => some (.ok none)
  | .asked _ .empty => none

namespace StreamBinding

variable (b : StreamBinding T) (hub : Hub T)

def ask (chans : List (String × ChannelId)) : Reading T := .asked chans (hub.take (chans.map (·.2)))

def next (port : String) : Reading T :=
  match b.pending port with
  | v :: rest => .ready port v { b with pending := Function.update b.pending port rest }
  | [] =>
    match b.inputs port with
    | none => .over
    | some chans => ask hub (chans.map (port, ·))

def nextAny : Reading T :=
  match b.ports.find? fun port => !(b.pending port).isEmpty with
  | some port => b.next hub port
  | none =>
    let chans := b.ports.flatMap fun port => ((b.inputs port).getD []).map (port, ·)
    if chans.isEmpty then .over else ask hub chans

/-- The first look of a send. What is sent is recorded before it is sent, and
counted once it is. -/
def send (port : String) (v : T) : StreamBinding T × Hub.Offer T :=
  let b := { b with
    recorded := b.recorded.map fun r => Function.update r port (r port ++ [v]) }
  match hub.offer ((b.outputs port).getD []) v with
  | .sent live hub => ({ b with sent := Function.update b.sent port (b.sent port + 1) }, .sent live hub)
  | other => (b, other)

variable {b hub} {cause : CancelCause}

section

variable (hc : hub.cancel = some cause)

include hc

theorem ask_of_cancelled (chans : List (String × ChannelId)) :
    (ask hub chans).reports = some (.error cause) := by
  simp [ask, Hub.take, hc, Reading.reports]

theorem next_of_cancelled (port : String) :
    (b.next hub port).reports = some (.error cause) ∨
      (∃ v rest, b.pending port = v :: rest ∧ (b.next hub port).reports = some (.ok (some (port, v)))) ∨
      (b.pending port = [] ∧ b.inputs port = none ∧ (b.next hub port).reports = some (.ok none)) := by
  unfold next
  cases hp : b.pending port with
  | cons v rest => exact .inr (.inl ⟨v, rest, rfl, rfl⟩)
  | nil =>
    cases hi : b.inputs port with
    | none => exact .inr (.inr ⟨rfl, rfl, rfl⟩)
    | some chans => exact .inl (ask_of_cancelled hc _)

theorem nextAny_of_cancelled : (b.nextAny hub).reports = some (.error cause) ∨
      (∃ port ∈ b.ports, ∃ v rest, b.pending port = v :: rest ∧ (b.nextAny hub).reports = some (.ok (some (port, v)))) ∨
      ((∀ port ∈ b.ports, b.pending port = [] ∧ (b.inputs port).getD [] = []) ∧
        (b.nextAny hub).reports = some (.ok none)) := by
  unfold nextAny
  cases hf : b.ports.find? fun port => !(b.pending port).isEmpty with
  | some port =>
    have hne := List.find?_some hf
    rcases next_of_cancelled hc port with he | ⟨v, rest, hp, hr⟩ | ⟨hp, _⟩
    · exact .inl he
    · exact .inr (.inl ⟨port, List.mem_of_find?_eq_some hf, v, rest, hp, hr⟩)
    · simp [hp] at hne
  | none =>
    dsimp only
    split_ifs with he
    · refine .inr (.inr ⟨fun port hport => ⟨?_, ?_⟩, rfl⟩)
      · simpa using List.find?_eq_none.mp hf port hport
      · simpa using List.flatMap_eq_nil_iff.mp (List.isEmpty_iff.mp he) port hport
    · exact .inl (ask_of_cancelled hc _)

theorem send_of_cancelled (port : String) (v : T) :
    (b.send hub port v).2 = .stopped (.cancelled cause) := by
  simp [send, Hub.offer, hc]

end

end StreamBinding

/-- The elements of a channel reach its reader once each and in order, the end
is reported only when all have, and under a cancelled hub every call of the hub
reports the cause; through its binding a node then still reads what the runtime
had read for it, and the end of a port without channels. -/
theorem delivered_once_in_order {specs : List ChannelSpec} {names : List String} {s : System T}
    (hr : Reachable step (start specs names) s) :
    (∀ r c, OnlyReader r c s.log → receivedBy r c s.log <+: sentOn c s.log) ∧
    (∀ a s' w chans, s.step a = some s' → s'.log = s.log ++ [(w, .ended chans)] → ∀ c ∈ chans,
      ((Hub.setUp (T := T) specs names).channels c).senders ≤ senderReleases c s.log ∧
        (receiverReleases c s.log < ((Hub.setUp (T := T) specs names).channels c).receivers →
          receivedFrom c s.log = sentOn c s.log)) ∧
    ∀ cause, s.hub.cancel = some cause → (∀ a s' w e, s.step a = some s' → s'.log = s.log ++ [(w, e)] →
        e = .refused (.cancelled cause) ∨ e = .interrupted cause ∨
          ∃ c, e = .releasedSender c ∨ e = .releasedReceiver c) ∧
      (∀ (b : StreamBinding T) port, (b.next s.hub port).reports = some (.error cause) ∨
        (∃ v rest, b.pending port = v :: rest ∧ (b.next s.hub port).reports = some (.ok (some (port, v)))) ∨
        (b.pending port = [] ∧ b.inputs port = none ∧ (b.next s.hub port).reports = some (.ok none))) ∧
      (∀ b : StreamBinding T, (b.nextAny s.hub).reports = some (.error cause) ∨
        (∃ port ∈ b.ports, ∃ v rest, b.pending port = v :: rest ∧
          (b.nextAny s.hub).reports = some (.ok (some (port, v)))) ∨
        ((∀ port ∈ b.ports, b.pending port = [] ∧ (b.inputs port).getD [] = []) ∧
          (b.nextAny s.hub).reports = some (.ok none))) ∧
      ∀ (b : StreamBinding T) port v, (b.send s.hub port v).2 = .stopped (.cancelled cause) := by
  refine ⟨fun r c ho => ?_, fun a s' w chans ha hl c hc => ended_of_reachable hr ha hl hc,
    fun cause hc => ⟨fun a s' w e ha hl => reports_of_cancelled hc ha hl, ?_, ?_, ?_⟩⟩
  · rw [receivedBy_eq ho]
    exact (delivered_of_reachable hr c).received_initial
  · exact fun b port => StreamBinding.next_of_cancelled hc port
  · exact fun b => StreamBinding.nextAny_of_cancelled hc
  · exact fun b port v => StreamBinding.send_of_cancelled hc port v

def readThenCancelled : List (Action Nat) :=
  [.call 1 (.send [0] 7), .call 0 (.recvAny [0]), .cancel .external]

theorem delivered_once_in_order_cancelled : ∃ s : System Nat,
    Reachable step (start [⟨"a", 1, 1, 1⟩] ["reader", "writer"]) s ∧
      s.hub.cancel = some .external ∧ receivedBy 0 0 s.log <+: sentOn 0 s.log := by
  have hr : Reachable (step) (start [⟨"a", 1, 1, 1⟩] ["reader", "writer"]) _ :=
    Reachable.init.run (show run step _ readThenCancelled = some _ from rfl)
  exact ⟨_, hr, rfl, (delivered_once_in_order hr).1 0 0 (by unfold OnlyReader; decide)⟩

/-- The element is still handed out once the hub is cancelled. -/
theorem pending_read_after_cancel : ∃ (s : System Nat) (b : StreamBinding Nat),
    Reachable step (start [⟨"a", 1, 1, 1⟩] ["reader", "writer"]) s ∧
      s.hub.cancel = some .external ∧ b.pending "in" = receivedBy 0 0 s.log ∧ b.inputs "in" = some [0] ∧
      (b.next s.hub "in").reports = some (.ok (some ("in", 7))) :=
  ⟨_, { ports := ["in"], inputs := fun _ => some [0], pending := fun _ => [7], outputs := fun _ => none,
        sent := fun _ => 0, recorded := none },
    Reachable.init.run (show run step _ readThenCancelled = some _ from rfl), rfl, rfl, rfl, rfl⟩

end Rag3db.Weaver
