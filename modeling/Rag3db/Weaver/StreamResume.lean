import Rag3db.Weaver.WorkerNetwork

open List Option Function

namespace Rag3db.Weaver

open Library Library.Transition StreamNode WorkerState

namespace StreamNode

variable {V Q : Type} (g : StreamGraph V Q) (n : StreamNode V Q)

def top : String := n.within.getD n.name

/-- What was saved, one output after the other. -/
def replay (saved : String → List V) : List (String × V) :=
  (((n.outputs.map (·.name)).dedup.filter fun port => g.connected n.name port).insertionSort (· ≤ ·)).flatMap
    fun port => (saved port).map fun v => (port, v)

/-- How a thread starts when its node was saved: it sends what was saved; of a
sub-graph no thread is started. -/
def resumeWith (saved : String → List V) : WorkerState V Q :=
  match n.within with
  | none => { (.fresh : WorkerState V Q) with phase := .replaying (n.replay g saved) }
  | some _ => { (.fresh : WorkerState V Q) with phase := .ended .completed }

end StreamNode

/-- The threads of a run by the names of their nodes. -/
abbrev StreamRun (V Q : Type) := String → WorkerState V Q

abbrev StreamRun.outs {V Q : Type} (s : StreamRun V Q) : String → Sent V := fun name => (s name).sent

abbrev SavedStreams (V : Type) := String → Option (String → List V)

namespace StreamRun

variable {V Q : Type} (M : Folding V) (g : StreamGraph V Q) (capacity : Nat)

def node (name : String) : Option (StreamNode V Q) := g.nodes.find? fun n => n.name = name

def start (saved : SavedStreams V) : StreamRun V Q := fun name =>
  match node g name with
  | none => .fresh
  | some n =>
    match saved n.top with
    | none => .fresh
    | some r => n.resumeWith g r

def alive (s : StreamRun V Q) (name port : String) : Bool :=
  g.edges.any fun e => e.fromNode = name ∧ e.fromPort = port ∧ (s e.toNode).reads e.toPort

/-- There is no room in a channel that is read element by element. What comes on
another one is taken at once. -/
def full (s : StreamRun V Q) (e : Edge) : Bool :=
  (s e.toNode).reads e.toPort && (node g e.toNode).any fun n => n.perElement e.toPort &&
    max capacity 1 ≤ (arrived s.outs e).length - n.drawn M g s.outs (s e.toNode) e

/-- The thread of a node has to wait before it sends. -/
def blocked (s : StreamRun V Q) (n : StreamNode V Q) : Bool :=
  (n.sending g (s n.name)).any fun port =>
    g.edges.any fun e => e.fromNode = n.name ∧ e.fromPort = port ∧ full M g capacity s e

def step (s : StreamRun V Q) (name : String) : Option (StreamRun V Q) :=
  (node g name).bind fun n =>
    if blocked M g capacity s n then none
    else (n.step M g s.outs (alive g s name) (s name)).map (update s name)

/-- No thread goes on. -/
def Final (s : StreamRun V Q) : Prop := ∀ name, step M g capacity s name = none

/-- A node of the run has completed: its thread, or all those of its sub-graph. -/
def completed (s : StreamRun V Q) (name : String) : Bool :=
  (g.nodes.any fun n => n.top = name) && g.nodes.all fun n =>
    n.top ≠ name || match (s n.name).phase, n.within with
      | .ended .completed, _ => true
      | .ended (.skipped _), some _ => true
      | _, _ => false

/-- What is saved of a node: what its own thread has sent. The threads of a
sub-graph send by themselves, and nothing of it is saved. -/
def records (s : StreamRun V Q) (name : String) : String → List V :=
  match node g name with
  | some n => if n.within.isNone then (s name).recorded else fun _ => []
  | none => fun _ => []

/-- What the store can hold after runs that were broken off anywhere, each a
resumption of the one before. The nodes that `written` names had completed, and
their state had reached the store. -/
inductive Stored (step : StreamRun V Q → String → Option (StreamRun V Q)) : SavedStreams V → Prop
  | fresh : Stored step fun _ => none
  | broken {saved : SavedStreams V} {s : StreamRun V Q} (written : String → Bool) : Stored step saved →
      Reachable step (start g saved) s → (∀ name, written name → saved name = none ∧ completed g s name) →
      Stored step fun name => if written name then some (records g s name) else saved name

/-- Of what was saved of a node only the last output may be more than a channel holds. -/
def Fits (saved : SavedStreams V) : Prop :=
  ∀ n ∈ g.nodes, ∀ r, saved n.name = some r → ∀ p q, p < q → r q ≠ [] → (r p).length ≤ max capacity 1

def heard (s : StreamRun V Q) (name : String) : Bool :=
  match node g name with
  | none => true
  | some n =>
    match (s name).phase with
    | .running q =>
      match n.act q with
      | .emit port _ _ => !(n.isStream port && g.connected name port) || alive g s name port
      | _ => true
    | _ => true

/-- A step of a run where every element is put where somebody reads it. -/
abbrev heardStep := guarded (heard g) (step M g capacity)

end StreamRun

namespace StreamNode

variable {V Q : Type} {M : Folding V} {g : StreamGraph V Q} {h : String → Sent V} {n : StreamNode V Q}
  {x y : WorkerState V Q} {r : String → List V}

/-- A thread sends on the outputs of its node only. -/
structure Supported (g : StreamGraph V Q) (n : StreamNode V Q) (x : WorkerState V Q) : Prop where
  done : ∀ port, x.recorded port ≠ [] → n.sends g port
  left : ∀ p ∈ x.unsent, n.sends g p.1

theorem Supported.change (hs : Supported g n x) (hc : Change M g h n x y) : Supported g n y := by
  refine ⟨fun port hport => ?_, fun p hp => (hc.unsent p hp).elim id (hs.left p)⟩
  rcases hc.recorded port with heq | ⟨-, hsends | ⟨v, hv⟩, -⟩
  · exact hs.done port (heq ▸ hport)
  · exact hsends
  · exact hs.left _ hv

/-- A thread that sends again what was saved: it has sent some of it, and sends
the rest. -/
def Replaying (r : String → List V) (x : WorkerState V Q) : Prop :=
  (∃ rest, x.phase = .replaying rest ∧ rest.Pairwise (·.1 ≤ ·.1) ∧
    ∀ port, x.recorded port ++ (rest.filter fun p => p.1 = port).map (·.2) = r port) ∨
    x.phase = .ended .completed ∧ x.recorded = r

theorem filter_flatMap_pairs {ports : List String} (hnodup : ports.Nodup) (port : String) :
    ((ports.flatMap fun port => (r port).map fun v => (port, v)).filter fun p => p.1 = port).map (·.2) =
      if port ∈ ports then r port else [] := by
  induction ports with
  | nil => rfl
  | cons q ports ih =>
    obtain ⟨hq, hnodup⟩ := List.nodup_cons.mp hnodup
    rw [List.flatMap_cons, List.filter_append, List.map_append, ih hnodup]
    by_cases hqp : q = port
    · subst hqp
      simp [hq, List.filter_map]
    · simp [hqp, Ne.symm hqp, List.filter_map]

theorem Replaying.start (hn : n.within = none) (hr : ∀ port, r port ≠ [] → n.sends g port) :
    Replaying r (n.resumeWith g r) := by
  refine .inl ⟨n.replay g r, by simp [resumeWith, hn], ?_, fun port => ?_⟩
  · refine pairwise_flatMap.mpr ⟨fun port _ => pairwise_map.mpr (pairwise_of_forall fun _ _ => le_rfl),
      (pairwise_insertionSort _ _).imp fun hle p hp q hq => ?_⟩
    obtain ⟨v, -, rfl⟩ := mem_map.mp hp
    obtain ⟨w, -, rfl⟩ := mem_map.mp hq
    exact hle
  · have hrecorded : (n.resumeWith g r).recorded port = [] := by simp [resumeWith, hn, fresh]
    rw [hrecorded, replay, filter_flatMap_pairs ((perm_insertionSort _ _).nodup_iff.mpr ((nodup_dedup _).filter _))]
    split_ifs with hmem
    · rfl
    · by_contra hne
      obtain ⟨hout, hconnected⟩ := hr port (Ne.symm hne)
      exact hmem ((mem_insertionSort _).mpr (mem_filter.mpr ⟨mem_dedup.mpr hout, by simpa using hconnected⟩))

theorem Replaying.step {alive : String → Bool} (hs : Replaying r x) (hx : n.step M g h alive x = some y) :
    Replaying r y := by
  unfold StreamNode.step at hx
  rcases hs with ⟨rest, hphase, hsorted, hrest⟩ | ⟨hphase, -⟩
  · rw [hphase] at hx
    cases hx
    cases rest with
    | nil =>
      refine .inr ⟨rfl, funext fun port => ?_⟩
      show x.recorded port = r port
      simpa using hrest port
    | cons p rest =>
      refine .inl ⟨rest, rfl, (pairwise_cons.mp hsorted).2, fun port => ?_⟩
      rw [← hrest port]
      by_cases hp : p.1 = port
      · simp [sendNext, record, hp]
      · simp [sendNext, record, hp, update_of_ne (Ne.symm hp)]
  · rw [hphase] at hx
    cases hx

theorem Replaying.not_reads (hs : Replaying r x) (port : String) : ¬ x.reads port := by
  rcases hs with ⟨rest, hphase, -⟩ | ⟨hphase, -⟩ <;> simp [reads, hphase]

theorem Replaying.sent_le (hs : Replaying r x) : x.sent ≤ ⟨r, true⟩ := by
  rcases hs with ⟨rest, hphase, -, hrest⟩ | ⟨hphase, hrecorded⟩
  · refine ⟨fun port => ⟨_, hrest port⟩, fun hc => ?_⟩
    simp [sent, hphase] at hc
  · have hsent : x.sent = ⟨r, true⟩ := by simp [sent, hphase, hrecorded]
    rw [hsent]

end StreamNode

namespace StreamRun

variable {V Q : Type} {M : Folding V} {g : StreamGraph V Q} {name : String} {n : StreamNode V Q}
  {s s' : StreamRun V Q} {x y : WorkerState V Q}

theorem node_eq_some (h : node g name = some n) : n ∈ g.nodes ∧ n.name = name :=
  ⟨mem_of_find?_eq_some h, by simpa using find?_some h⟩

theorem node_name (hn : n ∈ g.nodes) : node g n.name = some n := by
  obtain ⟨m, hm⟩ : ∃ m, node g n.name = some m :=
    isSome_iff_exists.mp (find?_isSome.mpr ⟨n, hn, by simp⟩)
  rw [hm, inj_on_of_nodup_map g.nodup (node_eq_some hm).1 hn (node_eq_some hm).2]

theorem step_eq_some (hs : step M g capacity s name = some s') :
    ∃ n y, node g name = some n ∧ ¬ blocked M g capacity s n ∧
      n.step M g s.outs (alive g s name) (s name) = some y ∧ update s name y = s' := by
  obtain ⟨n, hn, hs⟩ := bind_eq_some_iff.mp hs
  obtain ⟨hfree, hs⟩ := ite_none_left_eq_some.mp hs
  obtain ⟨y, hy, hs⟩ := map_eq_some_iff.mp hs
  exact ⟨n, y, hn, hfree, hy, hs⟩

theorem blocked_iff : blocked M g capacity s n ↔ ∃ e ∈ g.edges, e.fromNode = n.name ∧
    n.sending g (s n.name) = some e.fromPort ∧ full M g capacity s e := by
  unfold blocked
  cases n.sending g (s n.name) with
  | none => simp
  | some port =>
    simp only [Option.any_some, List.any_eq_true, decide_eq_true_eq, Option.some.injEq, eq_comm (a := port)]

theorem step_of_ne {m : String} (hne : name ≠ m) (hs : step M g capacity s m = some s') : s' name = s name := by
  obtain ⟨n, y, -, -, -, rfl⟩ := step_eq_some hs
  exact update_of_ne hne ..

theorem not_reads_of_closed {port : String} (hx : x.sent.closed) : ¬ x.reads port := by
  unfold WorkerState.sent at hx
  dsimp only at hx
  split at hx <;> simp_all [WorkerState.reads]

theorem final_of_ended (h : ∀ n ∈ g.nodes, (s n.name).isEnded) : Final M g capacity s := by
  intro name
  by_contra hne
  obtain ⟨s', hs⟩ := ne_none_iff_exists'.mp hne
  obtain ⟨n, y, hn, -, hy, -⟩ := step_eq_some hs
  obtain ⟨hmem, rfl⟩ := node_eq_some hn
  have hended := h n hmem
  unfold isEnded at hended
  split at hended <;> simp_all [StreamNode.step]

/-- The threads of an ordered graph, each doing what it sees of the others. -/
def network (M : Folding V) (g : StreamGraph V Q) (hg : g.Ordered) : Network String (WorkerState V Q) (Sent V) where
  needs := g.needs
  next name h x := (node g name).bind fun n => n.step M g h (fun _ => true) x
  out := WorkerState.sent
  mono {name h h' x y} hle hx := by
    obtain ⟨n, hn, hx⟩ := bind_eq_some_iff.mp hx
    obtain ⟨hmem, hname⟩ := node_eq_some hn
    exact bind_eq_some_iff.mpr ⟨n, hn, StreamNode.step_mono (fun e he hto => hle _ ⟨e, he, rfl, hto.trans hname⟩)
      (hg.single n hmem) (hg.alone n hmem) hx⟩
  grow {name h x y} hx := by
    obtain ⟨n, -, hx⟩ := bind_eq_some_iff.mp hx
    refine ⟨(step_change hx).recorded_le, fun hclosed => ?_⟩
    unfold WorkerState.sent at hclosed
    dsimp only at hclosed
    split at hclosed <;> simp_all [StreamNode.step]

theorem exists_change (hg : g.Ordered) {h : String → Sent V} (hx : (network M g hg).next name h x = some y) :
    ∃ n, node g name = some n ∧ StreamNode.Change M g h n x y := by
  obtain ⟨n, hn, hx⟩ := bind_eq_some_iff.mp hx
  exact ⟨n, hn, step_change hx⟩

theorem halted (hg : g.Ordered) (hx : x.isEnded) : (network M g hg).Halted name x := by
  intro h
  unfold isEnded at hx
  split at hx
  · rename_i r hr
    exact bind_eq_none_iff.mpr fun n _ => by simp only [StreamNode.step, hr]
  · cases hx

theorem before_of_goes (hg : g.Ordered) {h : String → Sent V} (hgo : (network M g hg).Goes name h x y) :
    x.Before y := by
  have hgoes : (x.phase ≠ .waiting → y.phase ≠ .waiting ∧ y.inputs = x.inputs) ∧
      ∀ port, x.received port <+: y.received port := by
    induction hgo with
    | refl => exact ⟨fun hx => ⟨hx, rfl⟩, fun _ => prefix_rfl⟩
    | tail _ hstep ih =>
      obtain ⟨n, -, hc⟩ := exists_change hg hstep
      exact ⟨fun hx => ⟨hc.started, (hc.inputs (ih.1 hx).1).trans (ih.1 hx).2⟩,
        fun port => (ih.2 port).trans (hc.received port)⟩
  exact ⟨fun hx => (hgoes.1 hx).2, hgoes.2, fun hx => (halted hg hx).eq hgo⟩

theorem drawn_of_goes (hg : g.Ordered) {h : String → Sent V} (hn : node g name = some n)
    (hgo : (network M g hg).Goes name h x y) {e : Edge} (hy : y.reads e.toPort) :
    x.reads e.toPort ∧ n.drawn M g h x e ≤ n.drawn M g h y e := by
  induction hgo with
  | refl => exact ⟨hy, le_rfl⟩
  | tail _ hstep ih =>
    obtain ⟨m, hm, hc⟩ := exists_change hg hstep
    obtain rfl : n = m := some.inj (hn.symm.trans hm)
    obtain ⟨hx, hle⟩ := ih (hc.reads _ hy)
    exact ⟨hx, hle.trans (hc.drawn e hy)⟩

/-- While every element is put where somebody reads it, nobody notices who
reads. -/
theorem network_next (hg : g.Ordered) (hs : heardStep M g capacity s name = some s') :
    ∃ n y, node g name = some n ∧ ¬ blocked M g capacity s n ∧
      (network M g hg).next name s.outs (s name) = some y ∧ update s name y = s' := by
  obtain ⟨hheard, hs⟩ := guarded_eq_some.mp hs
  obtain ⟨n, y, hn, hfree, hy, hs⟩ := step_eq_some hs
  have hname := (node_eq_some hn).2
  refine ⟨n, y, hn, hfree, bind_eq_some_iff.mpr ⟨n, hn, ?_⟩, hs⟩
  rw [← hy]
  refine step_alive_congr fun q port v k hphase hact hstream hconnected => ?_
  have hor : !(n.isStream port && g.connected name port) || alive g s name port := by
    simpa [heard, hn, hphase, hact] using hheard
  simpa [hstream, hname ▸ hconnected] using hor.symm

theorem reachable_network (hg : g.Ordered) {init : StreamRun V Q}
    (hs : Reachable (heardStep M g capacity) init s) : Reachable (network M g hg).step init s :=
  hs.invariant .init fun _ a _ ih ha => by
    obtain ⟨n, y, -, -, hy, hs⟩ := network_next hg ha
    exact ih.step a (map_eq_some_iff.mpr ⟨y, hy, hs⟩)

theorem each_node {init : StreamRun V Q} {P : StreamNode V Q → WorkerState V Q → Prop}
    (hs : Reachable (heardStep M g capacity) init s) (hinit : ∀ n ∈ g.nodes, P n (init n.name))
    (hstep : ∀ n ∈ g.nodes, ∀ h alive x y, P n x → n.step M g h alive x = some y → P n y) :
    ∀ n ∈ g.nodes, P n (s n.name) := by
  refine hs.invariant (P := fun s => ∀ n ∈ g.nodes, P n (s n.name)) hinit fun s name s' ih ha n hn => ?_
  obtain ⟨m, y, hm, -, hy, rfl⟩ := step_eq_some (guarded_eq_some.mp ha).2
  obtain ⟨hmem, rfl⟩ := node_eq_some hm
  by_cases hne : n.name = m.name
  · obtain rfl : n = m := inj_on_of_nodup_map g.nodup hn hmem hne
    rw [update_self]
    exact hstep n hn _ _ _ _ (ih n hn) hy
  · rw [update_of_ne hne]
    exact ih n hn

section Final

variable (hg : g.Ordered) {a a' b : StreamRun V Q} (hle : ∀ m, (a m).sent ≤ (b m).sent)
include hle

omit hle in
theorem le_of_full {e : Edge} (hfull : full M g capacity b e) :
    max capacity 1 ≤ ((b e.fromNode).recorded e.fromPort).length := by
  obtain ⟨n, -, hn⟩ := (Option.any_eq_true _ _).mp (Bool.and_eq_true_iff.mp hfull).2
  exact (of_decide_eq_true (Bool.and_eq_true_iff.mp hn).2).trans (Nat.sub_le ..)

/-- A channel that is full was full before, if no more has been put on it. -/
theorem full_of_goes {e : Edge} (hfull : full M g capacity b e)
    (hsent : ((b e.fromNode).recorded e.fromPort).length ≤ ((a e.fromNode).recorded e.fromPort).length)
    (hgo : (network M g hg).Goes e.toNode b.outs (a e.toNode) (b e.toNode)) : full M g capacity a e := by
  obtain ⟨hreads, hany⟩ := Bool.and_eq_true_iff.mp hfull
  cases hn : node g e.toNode with
  | none =>
    rw [hn] at hany
    cases hany
  | some n =>
    rw [hn] at hany
    obtain ⟨hper, hcap⟩ := Bool.and_eq_true_iff.mp hany
    have hcap := of_decide_eq_true hcap
    obtain ⟨hreads', hdrawn⟩ := drawn_of_goes hg hn hgo hreads
    have hmono : n.drawn M g a.outs (a e.toNode) e ≤ n.drawn M g b.outs (a e.toNode) e :=
      drawn_mono (fun e' _ _ => hle e'.fromNode) (hg.single n (node_eq_some hn).1) ..
    have hcap' : max capacity 1 ≤ (arrived a.outs e).length - n.drawn M g a.outs (a e.toNode) e := by
      exact hcap.trans (tsub_le_tsub hsent (hmono.trans hdrawn))
    simp only [full, hn, hreads', Option.any_some, hper, hcap', decide_true, Bool.and_self]

variable (hb : Final M g capacity b) (hreads : ∀ m port, (b m).reads port → (network M g hg).Goes m b.outs (a m) (b m))
include hb hreads

omit hle hreads in
theorem blocked_of_final (hn : node g name = some n) {alive' : String → Bool}
    (hx : (n.step M g b.outs alive' (b name)).isSome) : blocked M g capacity b n := by
  by_contra hfree
  have hnone := hb name
  simp only [step, hn, Option.bind_some, if_neg hfree, Option.map_eq_none_iff] at hnone
  rw [isSome_step (alive g b name), hnone] at hx
  cases hx

/-- In a state where no thread goes on every thread is as far as in any other run
that sees no more. -/
theorem goes_of_step (hs : heardStep M g capacity a name = some a')
    (hgo : (network M g hg).Goes name b.outs (a name) (b name)) :
    (network M g hg).Goes name b.outs (a' name) (b name) := by
  obtain ⟨n, y, hn, hfree, hy, rfl⟩ := network_next hg hs
  have hy := (network M g hg).mono (fun m _ => hle m) hy
  obtain ⟨-, rfl⟩ := node_eq_some hn
  rw [update_self]
  rcases hgo.cases_head with heq | ⟨z, hz, hgo⟩
  · refine absurd ?_ hfree
    obtain ⟨m, hm, hy⟩ := bind_eq_some_iff.mp hy
    obtain rfl : n = m := some.inj (hn.symm.trans hm)
    obtain ⟨e, he, hfrom, hport, hfull⟩ := blocked_iff.mp (blocked_of_final hb hn (isSome_iff_exists.mpr ⟨y, heq ▸ hy⟩))
    refine blocked_iff.mpr ⟨e, he, hfrom, heq ▸ hport, full_of_goes hg (M := M) hle hfull ?_ ?_⟩
    · rw [hfrom, heq]
    · exact hreads _ _ (Bool.and_eq_true_iff.mp hfull).1
  · exact some.inj (hy.symm.trans hz) ▸ hgo

/-- A thread that waits to send something again has sent what another run has
sent of the node, if what it waits for is the last of its outputs. -/
theorem sent_le_replaying (hs : heardStep M g capacity a name = some a') {r : String → List V}
    (hr : Replaying r (b name)) (hle' : (a' name).sent ≤ ⟨r, true⟩)
    (hfits : ∀ p q, p < q → r q ≠ [] → (r p).length ≤ max capacity 1) : (a' name).sent ≤ (b name).sent := by
  obtain ⟨n, y, hn, hfree, hy, rfl⟩ := network_next hg hs
  obtain ⟨m, hm, hc⟩ := exists_change hg hy
  obtain rfl : n = m := some.inj (hn.symm.trans hm)
  obtain ⟨-, rfl⟩ := node_eq_some hn
  rw [update_self] at hle' ⊢
  rcases hr with ⟨rest, hphase, hsorted, hrest⟩ | ⟨hphase, hrecorded⟩
  · have hsome : (n.step M g b.outs (fun _ => true) (b n.name)).isSome := by
      simp [StreamNode.step, hphase]
    obtain ⟨e, he, hfrom, hport, hfull⟩ := blocked_iff.mp (blocked_of_final hb hn hsome)
    match rest with
    | [] => simp [sending, hphase] at hport
    | (port, v) :: rest =>
      obtain rfl : port = e.fromPort := by simpa [sending, hphase] using hport
      have hcap : max capacity 1 ≤ ((b n.name).recorded e.fromPort).length := hfrom ▸ le_of_full hfull
      have hlong : ((b n.name).recorded e.fromPort).length < (r e.fromPort).length := by
        rw [← hrest e.fromPort, length_append]
        simp
      have hothers : ∀ q, q ≠ e.fromPort → (b n.name).recorded q = r q := by
        intro q hq
        rw [← hrest q, self_eq_append_right, map_eq_nil_iff, filter_eq_nil_iff]
        intro p hp hpq
        obtain rfl : p.1 = q := of_decide_eq_true hpq
        have hle : e.fromPort ≤ p.1 := (mem_cons.mp hp).elim (fun h => h ▸ le_rfl) fun h =>
          (pairwise_cons.mp hsorted).1 p h
        refine absurd (hfits _ _ (lt_of_le_of_ne hle (Ne.symm hq)) fun hnil => ?_) (not_le.mpr (hcap.trans_lt hlong))
        have hrest := hrest p.1
        rw [hnil, append_eq_nil_iff, map_eq_nil_iff, filter_eq_nil_iff] at hrest
        exact hrest.2 p hp (decide_eq_true rfl)
      have hshort : (y.recorded e.fromPort).length ≤ ((b n.name).recorded e.fromPort).length := by
        have hpre := ((hle n.name).1 e.fromPort).length_le
        rcases hc.recorded e.fromPort with heq | ⟨hsending, -, w, heq⟩
        · exact heq ▸ hpre
        · rw [heq, length_append, length_singleton]
          refine Nat.lt_of_not_le fun hlen => hfree (blocked_iff.mpr ⟨e, he, hfrom, hsending, ?_⟩)
          exact full_of_goes hg (M := M) hle hfull (hfrom ▸ hlen) (hreads _ _ (Bool.and_eq_true_iff.mp hfull).1)
      refine ⟨fun q => ?_, fun hclosed => ?_⟩
      · by_cases hq : q = e.fromPort
        · subst hq
          exact prefix_of_prefix_length_le (hle'.1 _) ⟨_, hrest _⟩ hshort
        · show y.recorded q <+: (b n.name).recorded q
          exact hothers q hq ▸ hle'.1 q
      · have hy : r = y.recorded := congrArg Sent.elements (hle'.2 hclosed)
        exact absurd (hlong.trans_le (hy ▸ hshort)) (lt_irrefl _)
  · have hsent : (b n.name).sent = ⟨r, true⟩ := by simp [sent, hphase, hrecorded]
    exact hsent ▸ hle'

end Final

section Plain

variable (hplain : ∀ n ∈ g.nodes, n.within = none) {saved : SavedStreams V}
include hplain

theorem start_eq (hn : n ∈ g.nodes) : start g saved n.name = (saved n.name).elim .fresh (n.resumeWith g) := by
  have htop : n.top = n.name := by simp [top, hplain n hn]
  simp only [start, node_name hn, htop]
  cases saved n.name <;> rfl

/-- A node that was saved. -/
def Given (g : StreamGraph V Q) (saved : SavedStreams V) (name : String) : Prop :=
  ∃ n ∈ g.nodes, n.name = name ∧ ∃ r, saved n.name = some r

theorem start_of_not_given (hnew : ¬ Given g saved name) : start g saved name = .fresh := by
  cases hm : node g name with
  | none => simp only [start, hm]
  | some m =>
    obtain ⟨hmem, rfl⟩ := node_eq_some hm
    rw [start_eq hplain hmem, eq_none_iff_forall_ne_some.mpr fun r hr => hnew ⟨m, hmem, rfl, r, hr⟩]
    rfl

theorem start_none (name : String) : start g (fun _ => none) name = .fresh :=
  start_of_not_given hplain fun ⟨_, _, _, _, hr⟩ => nomatch hr

theorem supported_start (hn : n ∈ g.nodes) : n.Supported g (start g saved n.name) := by
  rw [start_eq hplain hn]
  cases saved n.name with
  | none => exact ⟨fun port h => (h rfl).elim, nofun⟩
  | some r =>
    refine ⟨fun port h => ?_, fun p hp => ?_⟩
    · simp [resumeWith, hplain n hn, fresh] at h
    · have hp : p ∈ n.replay g r := by simpa [resumeWith, hplain n hn, unsent] using hp
      obtain ⟨port, hport, hv⟩ := mem_flatMap.mp hp
      obtain ⟨v, -, rfl⟩ := mem_map.mp hv
      obtain ⟨hport, hconnected⟩ := mem_filter.mp ((mem_insertionSort _).mp hport)
      exact ⟨mem_dedup.mp hport, hconnected⟩

theorem phase_of_completed (hn : n ∈ g.nodes) (hc : completed g s n.name) : (s n.name).phase = .ended .completed := by
  have htop : n.top = n.name := by simp [top, hplain n hn]
  have hall := all_eq_true.mp (Bool.and_eq_true_iff.mp hc).2 n hn
  simp only [htop, ne_eq, hplain n hn] at hall
  split at hall
  · assumption
  · rename_i hnone
    cases hnone
  · cases hall

/-- What was saved of a node is all that it sends. -/
structure Right (M : Folding V) (g : StreamGraph V Q) (capacity : Nat) (n : StreamNode V Q) (r : String → List V) :
    Prop where
  sends : ∀ port, r port ≠ [] → n.sends g port
  sent_le : ∀ s, Reachable (heardStep M g capacity) (start g fun _ => none) s → (s n.name).sent ≤ ⟨r, true⟩
  sent : ∀ s, Reachable (heardStep M g capacity) (start g fun _ => none) s → Final M g capacity s →
    (s n.name).sent = ⟨r, true⟩

variable (hright : ∀ n ∈ g.nodes, ∀ r, saved n.name = some r → Right M g capacity n r)
include hright

omit hplain in
theorem fits_of_right (hone : ∀ n ∈ g.nodes, ∀ o ∈ n.outputs, ∀ o' ∈ n.outputs, o.name = o'.name) :
    Fits g capacity saved := by
  intro n hn r hr p q hlt hq
  have hp : r p = [] := by
    by_contra hne
    obtain ⟨o, ho, rfl⟩ := mem_map.mp ((hright n hn r hr).sends p hne).1
    obtain ⟨o', ho', rfl⟩ := mem_map.mp ((hright n hn r hr).sends q hq).1
    exact hlt.ne (hone n hn o ho o' ho')
  simp [hp]

variable (hs : Reachable (heardStep M g capacity) (start g saved) s)
include hs

theorem replaying (hn : n ∈ g.nodes) {r : String → List V} (hr : saved n.name = some r) : Replaying r (s n.name) := by
  refine each_node (P := fun n x => ∀ r, saved n.name = some r → Replaying r x) hs
    (fun n hn r hr => ?_) (fun n _ h alive x y hx hy r hr => (hx r hr).step hy) n hn r hr
  rw [start_eq hplain hn, hr]
  exact .start (hplain n hn) (hright n hn r hr).sends

variable (hg : g.Ordered) {u : StreamRun V Q} (hu : Reachable (heardStep M g capacity) (start g fun _ => none) u)
include hu

theorem exists_goes (hwf : WellFounded g.needs) (hnew : ¬ Given g saved name) :
    ∃ h, (network M g hg).Goes name h .fresh (u name) ∧ (network M g hg).Goes name h .fresh (s name) := by
  rw [← start_none hplain name]
  refine Network.exists_goes hwf (Given g saved)
    (fun name hname => (start_none hplain name).trans (start_of_not_given hplain hname).symm)
    (reachable_network hg hu) (reachable_network hg hs) ?_ hnew
  rintro _ ⟨m, hm, rfl, r, hr⟩
  exact ⟨⟨r, true⟩, (hright m hm r hr).sent_le u hu, (replaying hplain hright hs hm hr).sent_le⟩

/-- No resumed run goes further than a run from the start to its end. -/
theorem goes_of_final (hfinal : Final M g capacity u) (hnew : ¬ Given g saved name) :
    (network M g hg).Goes name u.outs (s name) (u name) := by
  have hsaved : ∀ name, Given g saved name → ∃ r, (u name).sent = ⟨r, true⟩ ∧
      ∀ t, Reachable (heardStep M g capacity) (start g saved) t → (t name).sent ≤ ⟨r, true⟩ := by
    rintro _ ⟨n, hn, rfl, r, hr⟩
    exact ⟨r, (hright n hn r hr).sent u hu hfinal, fun t ht => (replaying hplain hright ht hn hr).sent_le⟩
  induction hs generalizing name with
  | init =>
    rw [start_of_not_given hplain hnew, ← start_none hplain name]
    exact Network.goes_of_reachable (reachable_network hg hu) name
  | @step a a' m ha hstep ih =>
    by_cases hne : name = m
    · subst hne
      refine goes_of_step hg (fun j => ?_) hfinal (fun j port hj => ih fun hgiven => ?_) hstep (ih hnew)
      · by_cases hj : Given g saved j
        · obtain ⟨r, hr, hle⟩ := hsaved j hj
          exact hr ▸ hle a ha
        · exact (ih hj).out_le
      · obtain ⟨r, hr, -⟩ := hsaved j hgiven
        exact not_reads_of_closed (hr ▸ rfl) hj
    · exact step_of_ne hne (guarded_eq_some.mp hstep).2 ▸ ih hnew

/-- No run from the start goes further than a resumed run to its end. -/
theorem goes_of_resumed_final (hfits : Fits g capacity saved) (hfinal : Final M g capacity s)
    (hnew : ¬ Given g saved name) :
    (network M g hg).Goes name s.outs (u name) (s name) := by
  suffices hboth : (∀ name, ¬ Given g saved name → (network M g hg).Goes name s.outs (u name) (s name)) ∧
      ∀ name, Given g saved name → (u name).sent ≤ (s name).sent from hboth.1 name hnew
  clear hnew
  induction hu with
  | init =>
    refine ⟨fun name hname => ?_, fun name _ => ?_⟩
    · rw [start_none hplain name, ← start_of_not_given hplain hname]
      exact Network.goes_of_reachable (reachable_network hg hs) name
    · rw [start_none hplain name]
      exact ⟨fun _ => nil_prefix, nofun⟩
  | @step a a' m ha hstep ih =>
    have hle : ∀ j, (a j).sent ≤ (s j).sent := fun j => by
      by_cases hj : Given g saved j
      · exact ih.2 j hj
      · exact (ih.1 j hj).out_le
    have hreads : ∀ j port, (s j).reads port → (network M g hg).Goes j s.outs (a j) (s j) := by
      refine fun j port hj => ih.1 j ?_
      rintro ⟨n, hn, rfl, r, hr⟩
      exact (replaying hplain hright hs hn hr).not_reads port hj
    refine ⟨fun name hname => ?_, fun name hname => ?_⟩
    · by_cases hne : name = m
      · subst hne
        exact goes_of_step hg hle hfinal hreads hstep (ih.1 name hname)
      · exact step_of_ne hne (guarded_eq_some.mp hstep).2 ▸ ih.1 name hname
    · by_cases hne : name = m
      · subst hne
        obtain ⟨n, hn, rfl, r, hr⟩ := hname
        exact sent_le_replaying hg hle hfinal hreads hstep (replaying hplain hright hs hn hr)
          ((hright n hn r hr).sent_le _ (ha.step _ hstep)) (hfits n hn r hr)
      · exact step_of_ne hne (guarded_eq_some.mp hstep).2 ▸ ih.2 name hname

include hg

/-- A node that was not saved gets in a resumed run what it gets in a run from
the start, one of them maybe further; none is further than one that is at its end. -/
theorem resumed_agree (hwf : WellFounded g.needs) (hnew : ¬ Given g saved name) :
    ((s name).Before (u name) ∨ (u name).Before (s name)) ∧
      (Fits g capacity saved → Final M g capacity s → (u name).Before (s name)) ∧
      (Final M g capacity u → (s name).Before (u name)) := by
  obtain ⟨h, hgo, hgo'⟩ := exists_goes hplain hright hs hg hu hwf hnew
  refine ⟨(hgo'.total hgo).imp (before_of_goes hg) (before_of_goes hg), fun hfits hfinal => ?_, fun hfinal => ?_⟩
  · exact before_of_goes hg (goes_of_resumed_final hplain hright hs hg hu hfits hfinal hnew)
  · exact before_of_goes hg (goes_of_final hplain hright hs hg hu hfinal hnew)

omit hright hs hu

theorem right_of_stored (hwf : WellFounded g.needs) (hstored : Stored g (heardStep M g capacity) saved) :
    ∀ n ∈ g.nodes, ∀ r, saved n.name = some r → Right M g capacity n r := by
  induction hstored with
  | fresh => exact fun n _ r hr => nomatch hr
  | @broken saved t written _ ht hwritten ih =>
    intro n hn r hr
    by_cases hw : written n.name
    · obtain ⟨hnone, hc⟩ := hwritten n.name hw
      have hnew : ¬ Given g saved n.name := by
        rintro ⟨m, -, hm, r, hr⟩
        rw [hm, hnone] at hr
        cases hr
      have hphase := phase_of_completed hplain hn hc
      have hended : (t n.name).isEnded := by simp [isEnded, hphase]
      have hrecords : r = (t n.name).recorded := by
        simpa [hw, records, node_name hn, hplain n hn, eq_comm] using hr
      have hsent : (t n.name).sent = ⟨r, true⟩ := by simp [sent, hphase, hrecords]
      have hsupported := each_node ht (fun n hn => supported_start hplain hn)
        (fun _ _ _ _ _ _ h hx => h.change (step_change hx)) n hn
      refine ⟨fun port hport => hsupported.done port (hrecords ▸ hport), fun s hs => ?_, fun s hs hfinal => ?_⟩
      · obtain ⟨h, hgo, hgo'⟩ := exists_goes hplain ih ht hg hs hwf hnew
        rw [← hsent]
        rcases hgo.total hgo' with hle | hle
        · exact hle.out_le
        · rw [(halted hg hended).eq hle]
      · rw [(halted hg hended).eq (goes_of_final hplain ih ht hg hs hfinal hnew), hsent]
    · exact ih n hn r (by simpa [hw] using hr)

end Plain

end StreamRun

end Rag3db.Weaver
