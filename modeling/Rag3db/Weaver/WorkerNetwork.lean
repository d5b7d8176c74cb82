import Rag3db.Library.Network
import Rag3db.Weaver.CheckpointRuns

open List Option Function

namespace Rag3db.Weaver

/-- What a node does next in its own code. A send tells it whether somebody still
reads. -/
inductive NodeAct (V Q : Type)
  | next (port : String) (k : Option V → Q)
  | nextAny (k : Option (String × V) → Q)
  | closeInput (port : String) (q : Q)
  | emit (port : String) (v : V) (k : Bool → Q)
  | finish (r : Except String (Ports V))

structure StreamInput where
  name : String
  required : Bool
  perElement : Bool

structure StreamOutput where
  name : String
  required : Bool
  stream : Bool

/-- A node of a run with streams, with the values and elements that were put on
its inputs. One inside a sub-graph sends on the channels of the sub-graph's node
in the run, `within`. -/
structure StreamNode (V Q : Type) where
  name : String
  within : Option String
  inputs : List StreamInput
  outputs : List StreamOutput
  initial : Ports V
  initialStream : String → List V
  start : Ports V → Q
  act : Q → NodeAct V Q

/-- The nodes of a run, those of its sub-graphs included. -/
structure StreamGraph (V Q : Type) where
  nodes : List (StreamNode V Q)
  edges : List Edge
  nodup : (nodes.map (·.name)).Nodup

/-- How values merge, those of two producers and those of one stream. -/
structure Folding (V : Type) extends Merge V where
  mergeElements : V → V → Except String V

/-- What a node has put on its outputs, and whether it is done with them. -/
structure Sent (V : Type) where
  elements : String → List V
  closed : Bool

/-- How an input is at the start: the value of one that is read whole, the first
element of one that is waited for element by element, and whether it is missing. -/
structure InputStart (V : Type) where
  value : Except String (Option V)
  first : Option (Edge × V)
  missing : Bool

inductive StreamPhase (V Q : Type)
  | waiting
  | running (q : Q)
  | sending (rest : List (String × V))
  | replaying (rest : List (String × V))
  | ended (r : WorkerResult)

/-- The thread of a node: what it was given and has read, and what it has sent. -/
structure WorkerState (V Q : Type) where
  phase : StreamPhase V Q
  inputs : Ports V
  queue : String → List V
  taken : Edge → Nat
  received : String → List V
  closedInputs : List String
  values : Ports V
  recorded : String → List V
  counted : String → Nat

namespace WorkerState

variable {V Q : Type}

def fresh : WorkerState V Q where
  phase := .waiting
  inputs _ := none
  queue _ := []
  taken _ := 0
  received _ := []
  closedInputs := []
  values _ := none
  recorded _ := []
  counted _ := 0

/-- What the others see of a thread. One that failed cancels the run and leaves
its channels open. -/
def sent (x : WorkerState V Q) : Sent V where
  elements := x.recorded
  closed := match x.phase with
    | .ended .completed | .ended (.skipped _) => true
    | _ => false

/-- The thread still reads an input. One that replays reads none. -/
def reads (x : WorkerState V Q) (port : String) : Bool :=
  match x.phase with
  | .waiting | .running _ | .sending _ => !x.closedInputs.contains port
  | _ => false

def isEnded (x : WorkerState V Q) : Bool :=
  match x.phase with
  | .ended _ => true
  | _ => false

def unsent (x : WorkerState V Q) : List (String × V) :=
  match x.phase with
  | .sending rest | .replaying rest => rest
  | _ => []

/-- The thread `y` was given what `x` was given, and has read what `x` has read,
and maybe more. -/
structure Before (x y : WorkerState V Q) : Prop where
  inputs : x.phase ≠ .waiting → y.inputs = x.inputs
  received : ∀ port, x.received port <+: y.received port
  ended : x.isEnded → y = x

end WorkerState

open WorkerState

namespace Folding

variable {V : Type} (M : Folding V)

def plierFrom (ou : String) (a : V) (i : Nat) : List V → Except String V
  | [] => .ok a
  | b :: bs =>
    match M.mergeElements a b with
    | .ok c => plierFrom ou c (i + 1) bs
    | .error e =>
      .error (s!"{ou} : le flux ne se lit pas en une valeur, son élément {i} ne se fond pas au précédent ({e}) — " ++
        "lisez cette entrée élément par élément (PerElement), ou appelez un sous-graphe par élément (ForEachNode)")

def plier (ou : String) : List V → Except String (Option V)
  | [] => .ok none
  | a :: bs => (M.plierFrom ou a 2 bs).map some

/-- What the channels of one input give together. -/
def fondre (ou : String) : Option V → List (List V) → Except String (Option V)
  | merged, [] => .ok merged
  | merged, elements :: rest =>
    match M.plier ou elements with
    | .error e => .error e
    | .ok none => fondre ou merged rest
    | .ok (some v) =>
      match merged with
      | none => fondre ou (some v) rest
      | some a =>
        match M.merge a v with
        | .ok c => fondre ou (some c) rest
        | .error e => .error s!"{ou} : deux producteurs ne se fondent pas en une valeur ({e})"

end Folding

namespace StreamGraph

variable {V Q : Type} (g : StreamGraph V Q)

def incoming (name port : String) : List Edge := g.edges.filter fun e => e.toNode = name ∧ e.toPort = port

def connected (name port : String) : Bool := g.edges.any fun e => e.fromNode = name ∧ e.fromPort = port

def needs (m n : String) : Prop := ∃ e ∈ g.edges, e.fromNode = m ∧ e.toNode = n

end StreamGraph

namespace StreamNode

variable {V Q : Type} (M : Folding V) (g : StreamGraph V Q) (h : String → Sent V) (n : StreamNode V Q)

def arrived (h : String → Sent V) (e : Edge) : List V := (h e.fromNode).elements e.fromPort

def missingReason (p : StreamInput) : String :=
  let producers := ", ".intercalate ((g.incoming n.name p.name).map fun e => e.fromNode ++ "." ++ e.fromPort)
  s!"entrée requise « {p.name} » sans donnée : {producers} n'a rien émis (branche non prise)"

def perElement (port : String) : Bool := n.inputs.any fun p => p.name = port ∧ p.perElement

def firstReady (taken : Edge → Nat) (es : List Edge) : Option Edge :=
  es.find? fun e => taken e < (arrived h e).length

/-- The next element of channels: the edge it came on, none at their end. A
worker waits while there is neither. -/
def recvAny (taken : Edge → Nat) (es : List Edge) : Option (Option (Edge × V)) :=
  match firstReady h taken es with
  | some e => ((arrived h e)[taken e]?).map fun v => some (e, v)
  | none => if es.all fun e => (h e.fromNode).closed then some none else none

/-- An input at the start. Nothing is waited for if it may stay empty or has
elements already. -/
def startInput (p : StreamInput) : Option (InputStart V) :=
  let es := g.incoming n.name p.name
  if p.perElement then
    if p.required && (n.initialStream p.name).isEmpty then
      (recvAny h (fun _ => 0) es).map fun first =>
        ⟨.ok none, first, first.isNone && (n.initial p.name).isNone && !es.isEmpty⟩
    else some ⟨.ok none, none, false⟩
  else if es.all fun e => (h e.fromNode).closed then
    let value := (M.fondre s!"« {n.name} », entrée « {p.name} »" none (es.map (arrived h))).map
      (·.or (n.initial p.name))
    some ⟨value, none, p.required && !es.isEmpty && value matches .ok none⟩
  else none

/-- What the wait for the inputs has found so far. -/
def starts : List (StreamInput × InputStart V) :=
  n.inputs.filterMap fun p => (n.startInput M g h p).map fun s => (p, s)

def firstTaken (starts : List (StreamInput × InputStart V)) (e : Edge) : Nat :=
  if starts.any fun s => s.2.first.any fun first => first.1 = e then 1 else 0

def launch (starts : List (StreamInput × InputStart V)) (x : WorkerState V Q) : WorkerState V Q :=
  match starts.findSome? fun s =>
      match s.2.value with
      | .error e => some e
      | .ok _ => none with
  | some e => { x with phase := .ended (.failed e) }
  | none =>
    match starts.find? (·.2.missing) with
    | some s => { x with phase := .ended (.skipped (n.missingReason g s.1)) }
    | none =>
      let find (port : String) := starts.find? (·.1.name = port)
      let values : Ports V := fun port => (find port).bind fun s => s.2.value.toOption.join
      { x with
        phase := .running (n.start values)
        inputs := values
        queue := fun port => (find port).elim [] fun s =>
          if s.1.perElement then (n.initial port).toList ++ n.initialStream port ++ s.2.first.toList.map (·.2)
          else (values port).toList
        taken := firstTaken starts }

/-- How many elements of a channel its reader has taken. -/
def drawn (x : WorkerState V Q) (e : Edge) : Nat :=
  match x.phase with
  | .waiting => firstTaken (n.starts M g h) e
  | _ => x.taken e

def takeQueued (x : WorkerState V Q) (port : String) (rest : List V) (v : V) : WorkerState V Q :=
  { x with
    queue := update x.queue port rest
    received := update x.received port (x.received port ++ [v]) }

def takeFrom (x : WorkerState V Q) (e : Edge) (v : V) : WorkerState V Q :=
  { x with
    taken := update x.taken e (x.taken e + 1)
    received := update x.received e.toPort (x.received e.toPort ++ [v]) }

def channels (x : WorkerState V Q) (port : String) : List Edge :=
  if n.perElement port && !x.closedInputs.contains port then g.incoming n.name port else []

def next (x : WorkerState V Q) (port : String) (k : Option V → Q) : Option (WorkerState V Q) :=
  match x.queue port with
  | v :: rest => some { takeQueued x port rest v with phase := .running (k (some v)) }
  | [] =>
    (recvAny h x.taken (n.channels g x port)).map fun
      | some (e, v) => { takeFrom x e v with phase := .running (k (some v)) }
      | none => { x with phase := .running (k none) }

def streamPorts : List String := ((n.inputs.filter (·.perElement)).map (·.name)).mergeSort

def nextAny (x : WorkerState V Q) (k : Option (String × V) → Q) : Option (WorkerState V Q) :=
  match n.streamPorts.findSome? fun port =>
      match x.queue port with
      | v :: rest => some (port, v, rest)
      | [] => none with
  | some (port, v, rest) => some { takeQueued x port rest v with phase := .running (k (some (port, v))) }
  | none =>
    (recvAny h x.taken (n.streamPorts.flatMap (n.channels g x))).map fun
      | some (e, v) => { takeFrom x e v with phase := .running (k (some (e.toPort, v))) }
      | none => { x with phase := .running (k none) }

def isStream (port : String) : Bool := n.outputs.any fun p => p.name = port ∧ p.stream

/-- A send is kept for a resumption whether somebody reads it or not. -/
def record (x : WorkerState V Q) (port : String) (v : V) : WorkerState V Q :=
  { x with recorded := update x.recorded port (x.recorded port ++ [v]) }

def count (x : WorkerState V Q) (port : String) : WorkerState V Q :=
  { x with counted := update x.counted port (x.counted port + 1) }

def emit (alive : String → Bool) (x : WorkerState V Q) (port : String) (v : V) (k : Bool → Q) : WorkerState V Q :=
  if n.isStream port then
    if g.connected n.name port then
      if alive port then { count (record x port v) port with phase := .running (k true) }
      else { record x port v with phase := .running (k false) }
    else { count x port with phase := .running (k true) }
  else { x with values := update x.values port (some v), phase := .running (k true) }

def misuse (x : WorkerState V Q) (outputs : Ports V) : Option String :=
  match (n.outputs.filter fun p => p.stream && (outputs p.name).isSome).map (·.name) with
  | p :: ports => some (" ; ".intercalate ((p :: ports).map fun port =>
      s!"set_output sur « {port} », un port de flux : un flux s'émet élément par élément (emit)"))
  | [] =>
    match (n.outputs.filter fun p =>
      p.required && ((outputs p.name).or (x.values p.name)).isNone && x.counted p.name == 0).map (·.name) with
    | [] => none
    | missing =>
      let noms := ", ".intercalate missing
      some (s!"{n.name} : sortie requise non posée ({noms}) — une sortie requise doit émettre ; " ++
        "seule une sortie optionnelle peut finir vide")

def toSend (x : WorkerState V Q) (outputs : Ports V) : List (String × V) :=
  (n.outputs.filter fun p => g.connected n.name p.name).filterMap fun p =>
    ((outputs p.name).or (x.values p.name)).map fun v => (p.name, v)

def conclude (x : WorkerState V Q) : Except String (Ports V) → WorkerState V Q
  | .error e => { x with phase := .ended (.failed e) }
  | .ok outputs =>
    match n.misuse x outputs with
    | some e => { x with phase := .ended (.failed e) }
    | none => { x with phase := .sending (n.toSend g x outputs) }

/-- The port that the next step sends on. -/
def sending (x : WorkerState V Q) : Option String :=
  match x.phase with
  | .running q =>
    match n.act q with
    | .emit port _ _ => if n.isStream port && g.connected n.name port then some port else none
    | _ => none
  | .sending (p :: _) | .replaying (p :: _) => some p.1
  | _ => none

def sendNext (x : WorkerState V Q) (again : List (String × V) → StreamPhase V Q) : List (String × V) → WorkerState V Q
  | (port, v) :: rest => { record x port v with phase := again rest }
  | [] => { x with phase := .ended .completed }

def step (alive : String → Bool) (x : WorkerState V Q) : Option (WorkerState V Q) :=
  match x.phase with
  | .waiting =>
    if n.inputs.all fun p => (n.startInput M g h p).isSome then some (n.launch g (n.starts M g h) x) else none
  | .running q =>
    match n.act q with
    | .next port k => n.next g h x port k
    | .nextAny k => n.nextAny g h x k
    | .closeInput port q =>
      some { x with
        phase := .running q
        queue := update x.queue port []
        closedInputs := port :: x.closedInputs }
    | .emit port v k => some (n.emit g alive x port v k)
    | .finish r => some (n.conclude g x r)
  | .sending rest => some (sendNext x .sending rest)
  | .replaying rest => some (sendNext x .replaying rest)
  | .ended _ => none

end StreamNode

/-- What a node has sent can only go on, until it is closed. -/
instance {V : Type} : Preorder (Sent V) where
  le a b := (∀ port, a.elements port <+: b.elements port) ∧ (a.closed → b = a)
  le_refl a := ⟨fun _ => prefix_rfl, fun _ => rfl⟩
  le_trans a b c hab hbc := by
    refine ⟨fun port => (hab.1 port).trans (hbc.1 port), fun hc => ?_⟩
    have hb := hab.2 hc
    rw [← hb]
    exact hbc.2 (by rw [hb]; exact hc)

/-- Nodes whose reading does not depend on who is faster: no stream of theirs
has two producers, and they read one input at a time. -/
structure StreamGraph.Ordered {V Q : Type} (g : StreamGraph V Q) : Prop where
  single : ∀ n ∈ g.nodes, ∀ port, n.perElement port → (g.incoming n.name port).length ≤ 1
  alone : ∀ n ∈ g.nodes, ∀ q k, n.act q ≠ .nextAny k

namespace StreamNode

variable {V Q : Type} {M : Folding V} {g : StreamGraph V Q} {h h' : String → Sent V} {n : StreamNode V Q}
  {x y : WorkerState V Q} {port : String} {p : StreamInput}

section Mono

variable (hle : ∀ e ∈ g.edges, e.toNode = n.name → h e.fromNode ≤ h' e.fromNode)
include hle

variable {e : Edge}

theorem le_of_mem_incoming (he : e ∈ g.incoming n.name port) : h e.fromNode ≤ h' e.fromNode := by
  obtain ⟨he, hto⟩ := mem_filter.mp he
  exact hle e he (by simpa using (of_decide_eq_true hto).1)

theorem recvAny_mono {taken : Edge → Nat} {es : List Edge} {r : Option (Edge × V)}
    (hes : ∀ e ∈ es, e ∈ g.incoming n.name port) (hone : es.length ≤ 1) (hr : recvAny h taken es = some r) :
    recvAny h' taken es = some r := by
  match es, hone with
  | [], _ => exact hr
  | [e], _ =>
    have hle := le_of_mem_incoming hle (hes e mem_cons_self)
    by_cases hlt : taken e < (arrived h e).length
    · obtain ⟨t, ht⟩ := hle.1 e.fromPort
      have harrived : arrived h' e = arrived h e ++ t := ht.symm
      have hlt' : taken e < (arrived h' e).length := by
        rw [harrived, length_append]
        omega
      have hfirst : firstReady h taken [e] = some e := find?_cons_of_pos (by simpa using hlt)
      have hfirst' : firstReady h' taken [e] = some e := find?_cons_of_pos (by simpa using hlt')
      simp only [recvAny, hfirst] at hr
      simp only [recvAny, hfirst', harrived, getElem?_append_left hlt]
      exact hr
    · have hfirst : firstReady h taken [e] = none := by simp [firstReady, hlt]
      rw [recvAny, hfirst] at hr
      obtain ⟨hclosed, hr⟩ := ite_none_right_eq_some.mp hr
      have hsame := hle.2 (all_eq_true.mp hclosed e mem_cons_self)
      have hfirst' : firstReady h' taken [e] = none := by simpa [firstReady, arrived, hsame] using hlt
      rw [recvAny, hfirst', ← hr]
      exact if_pos (by simpa [hsame] using hclosed)

variable (hg : ∀ port, n.perElement port → (g.incoming n.name port).length ≤ 1)
include hg

theorem startInput_mono {s : InputStart V} (hp : p ∈ n.inputs) (hs : n.startInput M g h p = some s) :
    n.startInput M g h' p = some s := by
  unfold startInput at hs ⊢
  dsimp only at hs ⊢
  by_cases hper : p.perElement
  · rw [if_pos hper] at hs ⊢
    split_ifs at hs ⊢
    · obtain ⟨r, hr, rfl⟩ := map_eq_some_iff.mp hs
      have hone := hg p.name (any_eq_true.mpr ⟨p, hp, decide_eq_true ⟨rfl, hper⟩⟩)
      rw [recvAny_mono hle (fun e he => he) hone hr]
      rfl
    · exact hs
  · rw [if_neg hper] at hs ⊢
    obtain ⟨hclosed, hs⟩ := ite_none_right_eq_some.mp hs
    have hsame : ∀ e ∈ g.incoming n.name p.name, h' e.fromNode = h e.fromNode := fun e he =>
      (le_of_mem_incoming hle he).2 (all_eq_true.mp hclosed e he)
    have harrived : (g.incoming n.name p.name).map (arrived h') = (g.incoming n.name p.name).map (arrived h) :=
      map_congr_left fun e he => by rw [arrived, arrived, hsame e he]
    rw [harrived]
    exact ite_none_right_eq_some.mpr ⟨all_eq_true.mpr fun e he => hsame e he ▸ all_eq_true.mp hclosed e he, hs⟩

theorem mem_starts_mono {s : StreamInput × InputStart V} (hs : s ∈ n.starts M g h) : s ∈ n.starts M g h' := by
  obtain ⟨p, hp, hs⟩ := mem_filterMap.mp hs
  obtain ⟨i, hi, rfl⟩ := map_eq_some_iff.mp hs
  exact mem_filterMap.mpr ⟨p, hp, by rw [startInput_mono hle hg hp hi]; rfl⟩

theorem drawn_mono (x : WorkerState V Q) (e : Edge) : n.drawn M g h x e ≤ n.drawn M g h' x e := by
  unfold drawn
  split
  · unfold firstTaken
    by_cases hany : (n.starts M g h).any fun s => s.2.first.any fun first => first.1 = e
    · obtain ⟨s, hs, hfirst⟩ := any_eq_true.mp hany
      rw [if_pos hany, if_pos (any_eq_true.mpr ⟨s, mem_starts_mono hle hg hs, hfirst⟩)]
    · rw [if_neg hany]
      exact Nat.zero_le _
  · exact le_rfl

theorem next_mono {k : Option V → Q} (hx : n.next g h x port k = some y) : n.next g h' x port k = some y := by
  unfold next at hx ⊢
  split at hx
  · exact hx
  · obtain ⟨r, hr, hy⟩ := map_eq_some_iff.mp hx
    refine map_eq_some_iff.mpr ⟨r, ?_, hy⟩
    unfold channels at hr ⊢
    split_ifs at hr ⊢ with hper
    · exact recvAny_mono hle (fun e he => he) (hg port (Bool.and_eq_true_iff.mp hper).1) hr
    · exact hr

/-- What a thread does it also does when it sees more. -/
theorem step_mono {alive : String → Bool} (halone : ∀ q k, n.act q ≠ .nextAny k)
    (hx : n.step M g h alive x = some y) : n.step M g h' alive x = some y := by
  unfold step at hx ⊢
  cases hphase : x.phase with
  | waiting =>
    rw [hphase] at hx
    obtain ⟨hready, hx⟩ := ite_none_right_eq_some.mp hx
    have hsame : ∀ p ∈ n.inputs, n.startInput M g h' p = n.startInput M g h p := fun p hp => by
      obtain ⟨s, hs⟩ := isSome_iff_exists.mp (all_eq_true.mp hready p hp)
      rw [hs, startInput_mono hle hg hp hs]
    have hstarts : n.starts M g h' = n.starts M g h := filterMap_congr fun p hp => by rw [hsame p hp]
    rw [hstarts, ← hx]
    exact if_pos (all_eq_true.mpr fun p hp => hsame p hp ▸ all_eq_true.mp hready p hp)
  | running q =>
    rw [hphase] at hx
    dsimp only at hx ⊢
    cases hact : n.act q with
    | next port k =>
      rw [hact] at hx
      exact next_mono hle hg hx
    | nextAny k => exact (halone q k hact).elim
    | closeInput port q => rwa [hact] at hx
    | emit port v k => rwa [hact] at hx
    | finish r => rwa [hact] at hx
  | sending rest => rwa [hphase] at hx
  | replaying rest => rwa [hphase] at hx
  | ended r =>
    rw [hphase] at hx
    cases hx

end Mono

theorem recorded_record (x : WorkerState V Q) (port : String) (v : V) (q : String) :
    (record x port v).recorded q = x.recorded q ∨ port = q ∧ (record x port v).recorded q = x.recorded q ++ [v] := by
  by_cases hq : q = port
  · subst hq
    exact .inr ⟨rfl, by simp [record]⟩
  · exact .inl (by simp [record, update_of_ne hq])

theorem received_takeQueued (x : WorkerState V Q) (port : String) (rest : List V) (v : V) (q : String) :
    x.received q <+: (takeQueued x port rest v).received q := by
  by_cases hq : q = port
  · subst hq
    simp [takeQueued]
  · simp [takeQueued, update_of_ne hq]

theorem received_takeFrom (x : WorkerState V Q) (e : Edge) (v : V) (q : String) :
    x.received q <+: (takeFrom x e v).received q := by
  by_cases hq : q = e.toPort
  · subst hq
    simp [takeFrom]
  · simp [takeFrom, update_of_ne hq]

def sends (g : StreamGraph V Q) (n : StreamNode V Q) (port : String) : Prop :=
  port ∈ n.outputs.map (·.name) ∧ g.connected n.name port

theorem drawn_of_ne {e : Edge} (hx : x.phase ≠ .waiting) : n.drawn M g h x e = x.taken e := by
  unfold drawn
  split
  · contradiction
  · rfl

/-- What a step of a thread changes. -/
structure Change (M : Folding V) (g : StreamGraph V Q) (h : String → Sent V) (n : StreamNode V Q)
    (x y : WorkerState V Q) : Prop where
  recorded : ∀ q, y.recorded q = x.recorded q ∨
    n.sending g x = some q ∧ (n.sends g q ∨ ∃ v, (q, v) ∈ x.unsent) ∧ ∃ v, y.recorded q = x.recorded q ++ [v]
  unsent : ∀ p ∈ y.unsent, n.sends g p.1 ∨ p ∈ x.unsent
  received : ∀ q, x.received q <+: y.received q
  inputs : x.phase ≠ .waiting → y.inputs = x.inputs
  started : y.phase ≠ .waiting
  reads : ∀ q, y.reads q → x.reads q
  drawn : ∀ e : Edge, y.reads e.toPort → n.drawn M g h x e ≤ n.drawn M g h y e

theorem Change.of_running {q : Q} (hphase : x.phase = .running q) (hstarted : y.phase ≠ .waiting)
    (hrecorded : ∀ q, y.recorded q = x.recorded q ∨
      n.sending g x = some q ∧ n.sends g q ∧ ∃ v, y.recorded q = x.recorded q ++ [v])
    (hunsent : ∀ p ∈ y.unsent, n.sends g p.1) (hreceived : ∀ q, x.received q <+: y.received q)
    (hinputs : y.inputs = x.inputs) (hclosed : x.closedInputs ⊆ y.closedInputs)
    (htaken : ∀ e, x.taken e ≤ y.taken e) : Change M g h n x y where
  recorded q := (hrecorded q).imp_right fun ⟨hq, hs, hv⟩ => ⟨hq, .inl hs, hv⟩
  unsent p hp := .inl (hunsent p hp)
  received := hreceived
  inputs _ := hinputs
  started := hstarted
  reads q hq := by
    have hmem : q ∉ y.closedInputs := by
      unfold WorkerState.reads at hq
      split at hq <;> simp_all
    simpa [WorkerState.reads, hphase] using fun hq => hmem (hclosed hq)
  drawn e _ := by
    rw [drawn_of_ne (hphase ▸ nofun), drawn_of_ne hstarted]
    exact htaken e

theorem change_end (x : WorkerState V Q) (r : WorkerResult) : Change M g h n x { x with phase := .ended r } where
  recorded _ := .inl rfl
  unsent _ hp := nomatch hp
  received _ := prefix_rfl
  inputs _ := rfl
  started := nofun
  reads _ hq := nomatch hq
  drawn _ hq := nomatch hq

theorem change_launch (hphase : x.phase = .waiting) : Change M g h n x (n.launch g (n.starts M g h) x) := by
  unfold launch
  split
  · exact change_end x _
  · split
    · exact change_end x _
    · exact {
        recorded := fun _ => .inl rfl
        unsent := nofun
        received := fun _ => prefix_rfl
        inputs := fun hne => absurd hphase hne
        started := nofun
        reads := fun q hq => by simpa [WorkerState.reads, hphase] using hq
        drawn := fun e _ => by simp [StreamNode.drawn, hphase] }

section Running

variable {q : Q} (hphase : x.phase = .running q)
include hphase

theorem change_takeQueued (port : String) (rest : List V) (v : V) (q' : Q) :
    Change M g h n x { takeQueued x port rest v with phase := .running q' } :=
  .of_running hphase nofun (fun _ => .inl rfl) nofun (received_takeQueued x port rest v) rfl (Subset.refl _)
    fun _ => le_rfl

theorem change_takeFrom (e : Edge) (v : V) (q' : Q) :
    Change M g h n x { takeFrom x e v with phase := .running q' } := by
  refine .of_running hphase nofun (fun _ => .inl rfl) nofun (received_takeFrom x e v) rfl (Subset.refl _) fun e' => ?_
  by_cases he : e' = e
  · simp [takeFrom, he]
  · simp [takeFrom, update_of_ne he]

theorem change_go (q' : Q) : Change M g h n x { x with phase := .running q' } :=
  .of_running hphase nofun (fun _ => .inl rfl) nofun (fun _ => prefix_rfl) rfl (Subset.refl _) fun _ => le_rfl

theorem change_emit (alive : String → Bool) {port : String} {v : V} {k : Bool → Q}
    (hact : n.act q = .emit port v k) : Change M g h n x (n.emit g alive x port v k) := by
  have hport : n.isStream port → port ∈ n.outputs.map (·.name) := fun hstream => by
    obtain ⟨o, ho, hname⟩ := any_eq_true.mp hstream
    exact mem_map.mpr ⟨o, ho, (of_decide_eq_true hname).1⟩
  have hrecord : n.isStream port → g.connected n.name port → ∀ q, (record x port v).recorded q = x.recorded q ∨
      n.sending g x = some q ∧ n.sends g q ∧ ∃ w, (record x port v).recorded q = x.recorded q ++ [w] :=
    fun hstream hconnected q => (recorded_record x port v q).imp_right fun ⟨hq, hv⟩ =>
      ⟨by simp [sending, hphase, hact, hstream, hconnected, ← hq], hq ▸ ⟨hport hstream, hconnected⟩, v, hv⟩
  unfold emit
  split_ifs with hstream hconnected
  · refine .of_running hphase nofun ?_ nofun (fun _ => prefix_rfl) rfl (Subset.refl _) fun _ => le_rfl
    exact hrecord hstream hconnected
  · refine .of_running hphase nofun ?_ nofun (fun _ => prefix_rfl) rfl (Subset.refl _) fun _ => le_rfl
    exact hrecord hstream hconnected
  · exact .of_running hphase nofun (fun _ => .inl rfl) nofun (fun _ => prefix_rfl) rfl (Subset.refl _) fun _ => le_rfl
  · exact .of_running hphase nofun (fun _ => .inl rfl) nofun (fun _ => prefix_rfl) rfl (Subset.refl _) fun _ => le_rfl

theorem change_conclude (r : Except String (Ports V)) : Change M g h n x (n.conclude g x r) := by
  cases r with
  | error e => exact change_end x _
  | ok outputs =>
    unfold conclude
    dsimp only
    split
    · exact change_end x _
    · refine .of_running hphase nofun (fun _ => .inl rfl) (fun p hp => ?_) (fun _ => prefix_rfl) rfl (Subset.refl _)
        fun _ => le_rfl
      obtain ⟨o, ho, hv⟩ := mem_filterMap.mp hp
      obtain ⟨v, -, rfl⟩ := map_eq_some_iff.mp hv
      obtain ⟨ho, hconnected⟩ := mem_filter.mp ho
      exact ⟨mem_map_of_mem ho, hconnected⟩

end Running

theorem change_sendNext {again : List (String × V) → StreamPhase V Q} {rest : List (String × V)}
    (hagain : again = .sending ∨ again = .replaying) (hphase : x.phase = again rest) :
    Change M g h n x (sendNext x again rest) := by
  cases rest with
  | nil => exact change_end x _
  | cons p rest =>
    have hunsent : x.unsent = p :: rest ∧ n.sending g x = some p.1 ∧ x.phase ≠ .waiting ∧ again rest ≠ .waiting ∧
        ∀ q, (sendNext x again (p :: rest)).reads q → x.reads q := by
      rcases hagain with rfl | rfl <;> simp [WorkerState.unsent, sending, hphase, WorkerState.reads, sendNext, record]
    obtain ⟨hunsent, hsending, hne, hne', hreads⟩ := hunsent
    exact {
      recorded := fun q => (recorded_record x p.1 p.2 q).imp_right fun ⟨hq, hv⟩ =>
        ⟨hq ▸ hsending, .inr ⟨p.2, by simp [hunsent, ← hq]⟩, p.2, hv⟩
      unsent := fun q hq => .inr (by
        have hq : q ∈ rest := by rcases hagain with rfl | rfl <;> exact hq
        exact hunsent ▸ mem_cons_of_mem _ hq)
      received := fun _ => prefix_rfl
      inputs := fun _ => rfl
      started := hne'
      reads := hreads
      drawn := fun e _ => by
        rw [drawn_of_ne hne, drawn_of_ne hne']
        rfl }

theorem step_change {alive : String → Bool} (hx : n.step M g h alive x = some y) : Change M g h n x y := by
  unfold step at hx
  cases hphase : x.phase with (rw [hphase] at hx; dsimp only at hx)
  | waiting =>
    obtain ⟨-, hx⟩ := ite_none_right_eq_some.mp hx
    exact some.inj hx ▸ change_launch hphase
  | running q =>
    cases hact : n.act q with (rw [hact] at hx; dsimp only at hx)
    | next port k =>
      unfold next at hx
      split at hx
      · exact some.inj hx ▸ change_takeQueued hphase ..
      · obtain ⟨r, -, rfl⟩ := map_eq_some_iff.mp hx
        cases r with
        | none => exact change_go hphase _
        | some r => exact change_takeFrom hphase ..
    | nextAny k =>
      unfold nextAny at hx
      split at hx
      · exact some.inj hx ▸ change_takeQueued hphase ..
      · obtain ⟨r, -, rfl⟩ := map_eq_some_iff.mp hx
        cases r with
        | none => exact change_go hphase _
        | some r => exact change_takeFrom hphase ..
    | closeInput port q' =>
      refine some.inj hx ▸ .of_running hphase nofun (fun _ => .inl rfl) nofun (fun _ => prefix_rfl) rfl
        (subset_cons_self _ _) fun _ => le_rfl
    | emit port v k =>
      exact some.inj hx ▸ change_emit hphase alive hact
    | finish r =>
      exact some.inj hx ▸ change_conclude hphase r
  | sending rest =>
    exact some.inj hx ▸ change_sendNext (.inl rfl) hphase
  | replaying rest =>
    exact some.inj hx ▸ change_sendNext (.inr rfl) hphase
  | ended r =>
    cases hx

variable {alive : String → Bool}
theorem Change.recorded_le (hc : Change M g h n x y) (q : String) : x.recorded q <+: y.recorded q := by
  rcases hc.recorded q with heq | ⟨-, -, v, heq⟩
  · exact heq ▸ prefix_rfl
  · exact heq ▸ prefix_append ..

theorem isSome_step (alive' : String → Bool) : (n.step M g h alive x).isSome = (n.step M g h alive' x).isSome := by
  unfold step
  cases x.phase with
  | running q =>
    dsimp only
    cases n.act q <;> rfl
  | waiting | sending rest | replaying rest | ended r => rfl

/-- Who reads matters only to an element that is put on a stream. -/
theorem step_alive_congr {alive' : String → Bool}
    (ha : ∀ q port v k, x.phase = .running q → n.act q = .emit port v k → n.isStream port → g.connected n.name port →
      alive port = alive' port) : n.step M g h alive x = n.step M g h alive' x := by
  unfold step
  cases hphase : x.phase with
  | waiting | sending rest | replaying rest | ended r => rfl
  | running q =>
    dsimp only
    cases hact : n.act q with
    | next port k | nextAny k | closeInput port q | finish r => rfl
    | emit port v k =>
      dsimp only
      unfold emit
      by_cases hs : n.isStream port
      · by_cases hc : g.connected n.name port
        · rw [if_pos hs, if_pos hc, if_pos hs, if_pos hc, ha q port v k hphase hact hs hc]
        · rw [if_pos hs, if_neg hc, if_pos hs, if_neg hc]
      · rw [if_neg hs, if_neg hs]

end StreamNode

end Rag3db.Weaver
