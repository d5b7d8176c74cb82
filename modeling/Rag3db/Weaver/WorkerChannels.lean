import Rag3db.Weaver.StreamDeadlock
import Rag3db.Weaver.StreamResume

open List Option

namespace Rag3db.Weaver

open StreamNode WorkerState

variable {V Q : Type}

theorem Hub.front_value (h : Hub V) (chans : List ChannelId) :
    (h.front chans).map (·.2.2) = (chans.map h.channels).findSome? (·.buf.head?) := by
  unfold Hub.front
  generalize 0 = k
  induction chans generalizing k with
  | nil => rfl
  | cons c chans ih =>
    rw [zipIdx_cons, map_cons, findSome?_cons, findSome?_cons]
    cases (h.channels c).buf.head? with
    | none => exact ih _
    | some v => rfl

theorem StreamNode.firstReady_value {h : String → Sent V} {taken : Edge → Nat} {es : List Edge} {b : Edge → List V}
    (hb : ∀ e ∈ es, b e = (arrived h e).drop (taken e)) :
    es.findSome? (fun e => (b e).head?) = (firstReady h taken es).bind fun e => (arrived h e)[taken e]? := by
  induction es with
  | nil => rfl
  | cons e es ih =>
    rw [findSome?_cons, hb e mem_cons_self, head?_drop, ih fun e he => hb e (mem_cons_of_mem _ he)]
    by_cases hlt : taken e < (arrived h e).length <;> simp [firstReady, hlt]

namespace StreamRun

variable (M : Folding V) (g : StreamGraph V Q) (capacity : Nat) (s : StreamRun V Q)

/-- The channel of an edge in a state of a run. An input that is read whole is
emptied at once. -/
def channel (e : Edge) : Channel V where
  label := s!"{e.fromNode}.{e.fromPort} → {e.toNode}.{e.toPort}"
  buf := if (s e.toNode).reads e.toPort then ((node g e.toNode).filter fun n => n.perElement e.toPort).elim []
    fun n => (arrived s.outs e).drop (n.drawn M g s.outs (s e.toNode) e) else []
  capacity := max capacity 1
  senders := if (s e.fromNode).sent.closed then 0 else 1
  receivers := if (s e.toNode).reads e.toPort then 1 else 0

/-- The hub that a state of a run stands for, with a channel for each edge. -/
def hub : Hub V :=
  { (Hub.new : Hub V) with
    channels := fun c => (g.edges[c]?).elim ⟨"", [], 1, 0, 0⟩ (channel M g capacity s)
    numChannels := g.edges.length }

variable {g} {e : Edge} {chans : List ChannelId} {es : List Edge} {n : StreamNode V Q} {port : String} {q : Q}

section

variable (hchans : chans.map (g.edges[·]?) = es.map some)

include hchans

theorem map_channels : chans.map (hub M g capacity s).channels = es.map (channel M g capacity s) := by
  have hmap := congrArg (map (·.elim ⟨"", [], 1, 0, 0⟩ (channel M g capacity s))) hchans
  rwa [List.map_map, List.map_map] at hmap

theorem any_channels (f : Channel V → Bool) :
    (chans.any fun c => f ((hub M g capacity s).channels c)) = es.any fun e => f (channel M g capacity s e) := by
  have hany := congrArg (·.any f) (map_channels M capacity s hchans)
  rwa [List.any_map, List.any_map] at hany

end

variable {M capacity s}

theorem isRead_channel : (channel M g capacity s e).isRead = (s e.toNode).reads e.toPort := by
  cases hr : (s e.toNode).reads e.toPort <;> simp [channel, Channel.isRead, hr]

theorem isClosed_channel : (channel M g capacity s e).isClosed = (s e.fromNode).sent.closed := by
  cases hc : (s e.fromNode).sent.closed <;> simp [channel, Channel.isClosed, hc]

theorem isFull_channel : ((channel M g capacity s e).isRead && (channel M g capacity s e).isFull) =
    full M g capacity s e := by
  rw [isRead_channel, full]
  cases hr : (s e.toNode).reads e.toPort with
  | false => rfl
  | true =>
    cases hn : node g e.toNode with
    | none => simp [Channel.isFull, channel, hn]
    | some n => cases hp : n.perElement e.toPort <;> simp [Channel.isFull, channel, hr, hn, Option.filter, hp]

/-- A thread waits to send exactly where the hub lets the send block, and hears
that nobody reads exactly where the hub says so. -/
theorem blocked_hub (hsend : n.sending g (s n.name) = some port) (v : V) (hchans : chans.map (g.edges[·]?) =
      (g.edges.filter fun e => e.fromNode = n.name ∧ e.fromPort = port).map some) :
    (blocked M g capacity s n ↔ (hub M g capacity s).Blocks (.send chans v)) ∧
      (alive g s n.name port = false ↔ (hub M g capacity s).offer chans v = .stopped .noReader) := by
  constructor
  · have hfull := any_channels M capacity s hchans fun ch => ch.isRead && ch.isFull
    simp only [isFull_channel] at hfull
    rw [Hub.blocks_send]
    simp only [← Bool.and_eq_true, ← List.any_eq_true, hfull]
    simp [blocked, hsend, hub, Hub.new, and_assoc]
  · have hread := any_channels M capacity s hchans (·.isRead)
    simp only [isRead_channel] at hread
    have hlive : alive g s n.name port = _ := Eq.trans (by simp [alive, Bool.and_assoc]) hread.symm
    unfold Hub.offer
    rw [hlive, show (hub M g capacity s).cancel = none from rfl]
    dsimp only
    split_ifs with he
    · simpa using he
    · split <;> simpa using he

/-- What a thread draws from its channels is what the hub hands out. -/
theorem recvAny_hub (hn : node g n.name = some n) (hphase : (s n.name).phase = .running q)
    (hchans : chans.map (g.edges[·]?) = (n.channels g (s n.name) port).map some) :
    (recvAny s.outs (s n.name).taken (n.channels g (s n.name) port)).map (·.map (·.2)) =
      match (hub M g capacity s).take chans with
      | .taken _ _ v _ => some (some v)
      | .ended => some none
      | _ => none := by
  have hbuf : ∀ e ∈ n.channels g (s n.name) port,
      (channel M g capacity s e).buf = (arrived s.outs e).drop ((s n.name).taken e) := by
    intro e he
    unfold StreamNode.channels at he
    split_ifs at he with hp
    · simp only [StreamGraph.incoming, mem_filter, decide_eq_true_eq] at he
      obtain ⟨-, hnode, rfl⟩ := he
      rw [Bool.and_eq_true] at hp
      have hr : (s e.toNode).reads e.toPort = true := by rw [reads, hnode, hphase]; exact hp.2
      rw [channel, if_pos hr, hnode, hn]
      simp [Option.filter, hp.1, drawn, hphase]
    · cases he
  have hopen := any_channels M capacity s hchans (!·.isClosed)
  have hfront := (hub M g capacity s).front_value chans
  rw [map_channels M capacity s hchans, findSome?_map, Function.comp_def, firstReady_value hbuf] at hfront
  simp only [isClosed_channel] at hopen
  unfold Hub.take recvAny
  rw [show (hub M g capacity s).cancel = none from rfl]
  dsimp only
  cases hf : firstReady s.outs (s n.name).taken (n.channels g (s n.name) port) with
  | none =>
    have hnone : (hub M g capacity s).front chans = none := by simpa [hf] using hfront
    simp only [hnone, all_eq_not_any_not, hopen]
    split_ifs <;> rfl
  | some e =>
    have hlt := find?_some (show find? _ _ = some e from hf)
    rw [hf, Option.bind_some, getElem?_eq_getElem (of_decide_eq_true hlt)] at hfront
    obtain ⟨p, hp, he⟩ := map_eq_some_iff.mp hfront
    simp [hp, he]

end StreamRun

end Rag3db.Weaver
