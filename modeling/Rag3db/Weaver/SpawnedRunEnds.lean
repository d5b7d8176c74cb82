import Rag3db.Weaver.SpawnedRunHub

open List Option List.Subset

namespace Rag3db.Weaver

open Library.Transition FlowLaunch FlowThread Mounting Hub.Shrinks

variable {T : Type}

/-- The output has a place: a node of the graph, and one of its outputs where
that node is a sub-graph. -/
def FlowLaunch.Placed (l : FlowLaunch) : Prop := ∃ n ∈ l.nodes, n.name = l.output.1 ∧ n.Offers l.output.2

def FlowAction.Calm : FlowAction T → Prop
  | .thread _ .panic => False
  | _ => True

/-- The thread answers for the channel: it will release it, or stop the run. -/
def FlowThread.Answers (t : FlowThread) (c : ChannelId) : Prop :=
  (∃ port, (port, c) ∈ t.outputs) ∨ ∃ e, t.phase = .refused e

namespace SpawnedRun

def early (s : SpawnedRun T) : Bool :=
  match s.phase with
  | .launched | .attached => true
  | _ => false

def late (s : SpawnedRun T) : Bool :=
  match s.phase with
  | .joined | .closing | .closed | .done | .panicked => true
  | _ => false

/-- Why a worker may still be registered. -/
inductive Stays (s : SpawnedRun T) : WorkerId → Prop
  | external : s.phase ≠ .done → Stays s external
  | leaver : s.early → Stays s leaver
  | timer : s.timer ≠ .gone → Stays s FlowLaunch.timer
  | node {i : Nat} {t : FlowThread} : s.threads[i]? = some t → t.isEnded = false → Stays s t.worker

/-- Where the sender of the output is, why the workers are still there, and how
the threads hang together. -/
structure Accounted (l : FlowLaunch) (s : SpawnedRun T) : Prop where
  exists_ : l.outputChannel < s.sys.hub.numChannels
  single : (s.sys.hub.channels l.outputChannel).senders ≤ 1
  answered : s.sys.hub.cancel ≠ none ∨ (s.sys.hub.channels l.outputChannel).senders = 0 ∨ s.early ∨
    ∃ (i : Nat) (t : FlowThread), s.threads[i]? = some t ∧ t.Answers l.outputChannel
  offered : ∀ (i : Nat) (t : FlowThread), s.threads[i]? = some t →
    t.node.WellFormed ∧ ∀ port, (port, l.outputChannel) ∈ t.outputs → t.node.Offers port
  spent : ∀ (i : Nat) (t : FlowThread), s.threads[i]? = some t → t.phase = .finished ∨ t.isEnded → t.outputs = []
  staying : ∀ w, s.sys.hub.names w ≠ none → s.Stays w
  family : ∀ (i : Nat) (t : FlowThread) (k : Nat), s.threads[i]? = some t → t.parent = some k →
    k < i ∧ (t.isEnded ∨ ∃ t', s.threads[k]? = some t' ∧ t'.phase = .delegated)
  calm : ∀ (i : Nat) (t : FlowThread), s.threads[i]? = some t → t.phase ≠ .unwound ∧ t.hasPanicked = false
  rest : s.late → ∀ (i : Nat) (t : FlowThread), s.threads[i]? = some t → t.isEnded
  empty : s.early → s.threads = []

variable {l : FlowLaunch} {s s' : SpawnedRun T}

theorem early_congr (h : s'.phase = s.phase) : s'.early = s.early := by
  unfold early
  rw [h]

theorem late_congr (h : s'.phase = s.phase) : s'.late = s.late := by
  unfold late
  rw [h]

variable (h : s.Accounted l)

include h

theorem Accounted.quiet (hub : s.sys.hub.Shrinks s'.sys.hub) (hthreads : s'.threads = s.threads)
    (hearly : s'.early = s.early) (hrest : s'.late → ∀ (i : Nat) t, s.threads[i]? = some t → t.isEnded)
    (hdone : s'.phase = .done → s.phase = .done ∨ s'.sys.hub.names external = none)
    (hgone : s'.timer = .gone → s.timer = .gone ∨ s'.sys.hub.names FlowLaunch.timer = none) : s'.Accounted l where
  exists_ := hub.numChannels ▸ h.exists_
  single := (hub.senders _).trans h.single
  answered := by
    rw [hthreads, hearly]
    rcases h.answered with hc | hz | he | ha
    · exact .inl (hub.cancel hc)
    · exact .inr (.inl (Nat.le_zero.mp (hz ▸ hub.senders l.outputChannel)))
    · exact .inr (.inr (.inl he))
    · exact .inr (.inr (.inr ha))
  offered := hthreads ▸ h.offered
  spent := hthreads ▸ h.spent
  staying w hw := by
    cases h.staying w (hub.names w hw) with
    | external hp => exact .external fun hp' => (hdone hp').elim hp hw
    | leaver he => exact .leaver (hearly.trans he)
    | timer ht => exact .timer fun ht' => (hgone ht').elim ht hw
    | node hu hend => exact .node (hthreads ▸ hu) hend
  family := hthreads ▸ h.family
  calm := hthreads ▸ h.calm
  rest hl := hthreads ▸ hrest hl
  empty he := hthreads ▸ h.empty (hearly ▸ he)

variable {i : Nat} {t t' : FlowThread}

theorem Accounted.advance (hget : s.threads[i]? = some t) (hub : s.sys.hub.Shrinks s'.sys.hub)
    (hthreads : s'.threads = s.threads.set i t') (hphase : s'.phase = s.phase) (htimer : s'.timer = s.timer)
    (hsame : t'.node = t.node ∧ t'.worker = t.worker ∧ t'.parent = t.parent) (houtputs : t'.outputs ⊆ t.outputs)
    (hanswers : t.Answers l.outputChannel → t'.Answers l.outputChannel ∨ s'.sys.hub.cancel ≠ none ∨
      (s'.sys.hub.channels l.outputChannel).senders = 0 ∨
      ∃ (j : Nat) (u : FlowThread), j ≠ i ∧ s.threads[j]? = some u ∧ u.Answers l.outputChannel)
    (hspent : t'.phase = .finished ∨ t'.isEnded → t'.outputs = [])
    (hleft : t'.isEnded → s'.sys.hub.names t.worker = none) (hrunning : t.isEnded = false)
    (hchildren : t.phase = .delegated → t'.phase = .delegated ∨
      ∀ (j : Nat) u, s.threads[j]? = some u → u.parent = some i → u.isEnded)
    (hcalm : t'.phase ≠ .unwound ∧ t'.hasPanicked = false) : s'.Accounted l := by
  have hlt : i < s.threads.length := (List.getElem?_eq_some_iff.mp hget).1
  have hself : s'.threads[i]? = some t' := hthreads ▸ getElem?_set_self hlt
  have hother : ∀ {j}, j ≠ i → s'.threads[j]? = s.threads[j]? :=
    fun hj => hthreads ▸ getElem?_set_ne (Ne.symm hj)
  have hcases : ∀ {j u}, s'.threads[j]? = some u → j = i ∧ u = t' ∨ j ≠ i ∧ s.threads[j]? = some u := by
    intro j u hu
    by_cases hj : j = i
    · subst hj
      exact .inl ⟨rfl, some.inj (hu.symm.trans hself)⟩
    · exact .inr ⟨hj, hother hj ▸ hu⟩
  have hearly := early_congr hphase
  have hnotEarly : s.early = false := by
    by_contra he
    rw [h.empty (Bool.not_eq_false _ ▸ he)] at hget
    cases hget
  refine ⟨hub.numChannels ▸ h.exists_, (hub.senders _).trans h.single, ?_, ?_, ?_, ?_, ?_, ?_, ?_, ?_⟩
  · rcases h.answered with hc | hz | he | ⟨j, u, hu, ha⟩
    · exact .inl (hub.cancel hc)
    · exact .inr (.inl (Nat.le_zero.mp (hz ▸ hub.senders l.outputChannel)))
    · exact .inr (.inr (.inl (hearly ▸ he)))
    · by_cases hj : j = i
      · subst hj
        cases hu.symm.trans hget
        rcases hanswers ha with ha | hc | hz | ⟨k, v, hk, hv, ha⟩
        · exact .inr (.inr (.inr ⟨j, t', hself, ha⟩))
        · exact .inl hc
        · exact .inr (.inl hz)
        · exact .inr (.inr (.inr ⟨k, v, (hother hk).trans hv, ha⟩))
      · exact .inr (.inr (.inr ⟨j, u, (hother hj).trans hu, ha⟩))
  · intro j u hu
    rcases hcases hu with ⟨-, rfl⟩ | ⟨-, hu⟩
    · obtain ⟨hwf, hoff⟩ := h.offered i t hget
      rw [hsame.1]
      exact ⟨hwf, fun port hp => hoff port (houtputs hp)⟩
    · exact h.offered j u hu
  · intro j u hu hdone
    rcases hcases hu with ⟨-, rfl⟩ | ⟨-, hu⟩
    · exact hspent hdone
    · exact h.spent j u hu hdone
  · intro w hw
    cases h.staying w (hub.names w hw) with
    | external hp => exact .external (hphase ▸ hp)
    | leaver he => exact .leaver (hearly ▸ he)
    | timer ht => exact .timer (htimer ▸ ht)
    | @node j u hu hend =>
      by_cases hj : j = i
      · subst hj
        cases hu.symm.trans hget
        rw [← hsame.2.1]
        refine .node hself (Bool.eq_false_iff.mpr fun he => hw (hleft he))
      · exact .node ((hother hj).trans hu) hend
  · intro j u k hu hparent
    rcases hcases hu with ⟨rfl, rfl⟩ | ⟨hj, hu⟩
    · obtain ⟨hlt', hended | ⟨v, hv, hdel⟩⟩ := h.family j t k hget (hsame.2.2 ▸ hparent)
      · exact absurd hended (by simp [hrunning])
      · exact ⟨hlt', .inr ⟨v, (hother (Nat.ne_of_lt hlt')).trans hv, hdel⟩⟩
    · obtain ⟨hlt', hended | ⟨v, hv, hdel⟩⟩ := h.family j u k hu hparent
      · exact ⟨hlt', .inl hended⟩
      · by_cases hk : k = i
        · subst hk
          cases hv.symm.trans hget
          rcases hchildren hdel with hd | hended
          · exact ⟨hlt', .inr ⟨t', hself, hd⟩⟩
          · exact ⟨hlt', .inl (hended j u hu hparent)⟩
        · exact ⟨hlt', .inr ⟨v, (hother hk).trans hv, hdel⟩⟩
  · intro j u hu
    rcases hcases hu with ⟨-, rfl⟩ | ⟨-, hu⟩
    · exact hcalm
    · exact h.calm j u hu
  · intro hl j u hu
    exact absurd (h.rest (late_congr hphase ▸ hl) i t hget) (by simp [hrunning])
  · intro he
    rw [hearly, hnotEarly] at he
    cases he

theorem Accounted.all_ended (hjoin : s.joinable none) :
    ∀ (i : Nat) (t : FlowThread), s.threads[i]? = some t → t.isEnded := by
  intro i
  induction i using Nat.strong_induction_on with
  | _ i ih =>
    intro t ht
    cases hparent : t.parent with
    | none =>
      refine all_eq_true.mp hjoin t (mem_filter.mpr ⟨mem_of_getElem? ht, ?_⟩)
      exact decide_eq_true hparent
    | some k =>
      obtain ⟨hlt, hended | ⟨v, hv, hdel⟩⟩ := h.family i t k ht hparent
      · exact hended
      · -- the parent still waits, so it has not ended either
        have hend := ih k hlt v hv
        unfold isEnded at hend
        rw [hdel] at hend
        cases hend

omit h in
theorem joinable_some (hjoin : s.joinable (some i)) (j : Nat) (u : FlowThread) (hu : s.threads[j]? = some u)
    (hparent : u.parent = some i) : u.isEnded :=
  all_eq_true.mp hjoin u (mem_filter.mpr ⟨mem_of_getElem? hu, decide_eq_true hparent⟩)

theorem Accounted.not_panicked (parent : Option Nat) : s.anyPanicked parent = false := by
  refine Bool.eq_false_iff.mpr fun hany => ?_
  obtain ⟨t, ht, hp⟩ := any_eq_true.mp hany
  obtain ⟨i, hi⟩ := mem_iff_getElem?.mp (mem_filter.mp ht).1
  exact absurd hp (by simp [(h.calm i t hi).2])

section

variable (hget : s.threads[i]? = some t)

include hget

theorem Accounted.settle {exit : NodeExit}
    (hphase : t.phase = .working ∨ t.phase = .joined ∨ (∃ e, t.phase = .refused e) ∧
      (exit = .failed ∨ exit = .cancelled)) (hstep : s.settle i t exit = some s') : s'.Accounted l := by
  have hrunning : t.isEnded = false := by
    unfold isEnded
    rcases hphase with hp | hp | ⟨⟨e, hp⟩, -⟩ <;> rw [hp]
  have hnot : t.phase ≠ .delegated := by
    rcases hphase with hp | hp | ⟨⟨e, hp⟩, -⟩ <;> rw [hp] <;> nofun
  have hleaving : ∀ s₁ : SpawnedRun T, s.sys.hub.Shrinks s₁.sys.hub → s₁.threads = s.threads → s₁.phase = s.phase →
      s₁.timer = s.timer → (s₁.sys.hub.cancel ≠ none ∨ ∀ e, t.phase ≠ .refused e) →
      (s₁.put i { t with phase := .leaving }).Accounted l := by
    intro s₁ hub hthreads hrun htimer hstop
    refine h.advance hget hub (congrArg (List.set · i _) hthreads) hrun htimer ⟨rfl, rfl, rfl⟩ (refl _) ?_
      (fun hd => by rcases hd with hd | hd <;> cases hd) (fun he => nomatch he) hrunning
      (fun hd => absurd hd hnot) ⟨nofun, rfl⟩
    rintro (hp | ⟨e, he⟩)
    · exact .inl (.inl hp)
    · exact .inr (.inl (hstop.resolve_right fun hn => hn e he))
  have hquiet : (exit = .completed ∨ exit = .skipped) → ∀ e, t.phase ≠ .refused e := by
    rintro hexit e he
    rcases hphase with hp | hp | ⟨-, hx⟩
    · cases hp.symm.trans he
    · cases hp.symm.trans he
    · rcases hexit with rfl | rfl <;> rcases hx with hx | hx <;> cases hx
  cases exit with
  | completed =>
    obtain ⟨_, ⟨⟩⟩ := ite_none_right_eq_some.mp hstep
    exact hleaving s (.refl _) rfl rfl rfl (.inr (hquiet (.inl rfl)))
  | skipped =>
    cases hstep
    exact hleaving s (.refl _) rfl rfl rfl (.inr (hquiet (.inr rfl)))
  | cancelled =>
    obtain ⟨hc, ⟨⟩⟩ := ite_none_right_eq_some.mp hstep
    exact hleaving s (.refl _) rfl rfl rfl (.inl (isSome_iff_ne_none.mp hc))
  | failed =>
    obtain ⟨_, ⟨⟩⟩ := ite_none_right_eq_some.mp hstep
    exact hleaving (s.cancel _) (.setCancel _ _) rfl rfl rfl (.inl (Hub.cancel_setCancel _ _))

theorem Accounted.joinInner (hphase : t.phase = .delegated)
    (hjoin : s.joinable (some i)) : (s.put i { t with phase := .joined }).Accounted l := by
  refine h.advance hget (.refl _) rfl rfl rfl ⟨rfl, rfl, rfl⟩ (refl _) ?_
    (fun hd => by rcases hd with hd | hd <;> cases hd) (fun he => nomatch he) (by simp [isEnded, hphase])
    (fun _ => .inr (joinable_some hjoin)) ⟨nofun, rfl⟩
  rintro (hp | ⟨e, he⟩)
  · exact .inl (.inl hp)
  · cases hphase.symm.trans he

theorem Accounted.finish (hphase : t.phase = .leaving) :
    ((s.announce (t.outputs.foldl (fun h o => h.releaseSender o.2) s.sys.hub)).put i
      { t with outputs := [], phase := .finished }).Accounted l := by
  refine h.advance hget (releaseAll _ t.outputs) rfl rfl rfl ⟨rfl, rfl, rfl⟩ (nil_subset _) ?_
    (fun _ => rfl) (fun he => nomatch he) (by simp [isEnded, hphase])
    (fun hd => by cases hphase.symm.trans hd) ⟨nofun, rfl⟩
  rintro (⟨port, hp⟩ | ⟨e, he⟩)
  · exact .inr (.inr (.inl (Hub.senders_releaseAll hp h.single)))
  · cases hphase.symm.trans he

theorem Accounted.done (hphase : t.phase = .finished) :
    ((s.announce (s.sys.hub.workerDone t.worker)).put i { t with phase := .ended false }).Accounted l := by
  have hspent := h.spent i t hget (.inl hphase)
  refine h.advance hget (workerDone _ _) rfl rfl rfl ⟨rfl, rfl, rfl⟩ (refl _) ?_
    (fun _ => hspent) (fun _ => ?_) (by simp [isEnded, hphase]) (fun hd => by cases hphase.symm.trans hd) ⟨nofun, rfl⟩
  · rintro (⟨port, hp⟩ | ⟨e, he⟩)
    · rw [hspent] at hp
      cases hp
    · cases hphase.symm.trans he
  · exact (Hub.names_workerDone _ _ _).trans (if_pos rfl)

theorem Accounted.refuse (hphase : t.phase = .working) (e : String) :
    (s.put i { t with outputs := [], phase := .refused e }).Accounted l := by
  exact h.advance hget (.refl _) rfl rfl rfl ⟨rfl, rfl, rfl⟩ (nil_subset _) (fun _ => .inl (.inr ⟨e, rfl⟩))
    (fun _ => rfl) (fun he => nomatch he) (by simp [isEnded, hphase])
    (fun hd => by cases hphase.symm.trans hd) ⟨nofun, rfl⟩

end

omit h in
theorem mounted_hub (m : Mounting) (s : SpawnedRun T) (leaving : WorkerId)
    (hlt : l.outputChannel < s.sys.hub.numChannels) :
    l.outputChannel < (s.mount m leaving).sys.hub.numChannels ∧
      (s.mount m leaving).sys.hub.channels l.outputChannel = s.sys.hub.channels l.outputChannel ∧
      (s.sys.hub.cancel ≠ none → (s.mount m leaving).sys.hub.cancel ≠ none) ∧
      ∀ w, (s.mount m leaving).sys.hub.names w ≠ none → w ≠ leaving ∧ (s.sys.hub.names w ≠ none ∨
        ∃ (k : Nat) (t : FlowThread), (m.threads s.sys.hub)[k]? = some t ∧ t.worker = w ∧ t.isEnded = false) := by
  obtain ⟨-, -, hcancel, hnum, hch⟩ := m.channels_spec s.sys.hub
  obtain ⟨hch', hcancel', hnum', -⟩ := m.workers_spec (m.channels s.sys.hub)
  have hdone := workerDone (m.workers (m.channels s.sys.hub)) leaving
  have hchannels : (s.mount m leaving).sys.hub.channels = (m.channels s.sys.hub).channels :=
    (Hub.channels_detectDeadlock _).trans hch'
  refine ⟨?_, ?_, fun hc => hdone.cancel ?_, fun w hw => ?_⟩
  · exact hdone.numChannels ▸ hnum' ▸ hlt.trans_le hnum
  · rw [hchannels, hch _ hlt]
  · rw [hcancel', hcancel]
    exact hc
  · have hname : (s.mount m leaving).sys.hub.names w =
        if w = leaving then none else (m.workers (m.channels s.sys.hub)).names w := Hub.names_workerDone _ _ _
    by_cases hl : w = leaving
    · exact absurd (hname.trans (if_pos hl)) hw
    · rw [hname, if_neg hl] at hw
      exact ⟨hl, names_mounted hw⟩

variable {base new : List FlowThread} {j : Nat} {u : FlowThread}

omit h in
theorem get_append (h : (base ++ new)[j]? = some u) :
    base[j]? = some u ∨ ∃ k, j = base.length + k ∧ new[k]? = some u := by
  by_cases hj : j < base.length
  · exact .inl (getElem?_append_left hj ▸ h)
  · obtain ⟨k, rfl⟩ := Nat.exists_eq_add_of_le (Nat.le_of_not_lt hj)
    rw [getElem?_append_right (Nat.le_add_right _ _), Nat.add_sub_cancel_left] at h
    exact .inr ⟨k, rfl, h⟩

omit h in
theorem append_get {k : Nat} (h : new[k]? = some u) : (base ++ new)[base.length + k]? = some u := by
  rw [getElem?_append_right (Nat.le_add_right _ _), Nat.add_sub_cancel_left]
  exact h

omit h in
theorem get_append_left (h : base[j]? = some u) : (base ++ new)[j]? = some u := by
  rw [List.getElem?_append_left (List.getElem?_eq_some_iff.mp h).1]
  exact h

omit h in
theorem eq_of_name {nodes : List FlowNode} {n n' : FlowNode} (hnodup : (nodes.map FlowNode.name).Nodup)
    (hn : n ∈ nodes) (hn' : n' ∈ nodes) (hname : n.name = n'.name) : n = n' :=
  inj_on_of_nodup_map hnodup hn hn' hname

/-- New threads join the old ones, and `leaving` leaves. -/
theorem Accounted.mounted (m : Mounting) (leaving : WorkerId) (hub : s'.sys.hub = (s.mount m leaving).sys.hub)
    (hthreads : s'.threads = s.threads ++ m.threads s.sys.hub) (htimer : s'.timer = s.timer) (hphase : s'.phase ≠ .done)
    (hearly : s'.early = false) (hlate : s'.late = false) (hleaver : s.early → leaving = leaver)
    (hanswers : s.early → ∃ (k : Nat) (u : FlowThread), (m.threads s.sys.hub)[k]? = some u ∧ u.Answers l.outputChannel)
    (hnodes : ∀ n ∈ m.nodes, n.WellFormed ∧ ∀ port, ((n.name, port), l.outputChannel) ∈ m.outer → n.Offers port)
    (hparent : ∀ k, m.parent = some k → ∃ t, s.threads[k]? = some t ∧ t.phase = .delegated) : s'.Accounted l := by
  obtain ⟨hlt, hout, hcancel, hnames⟩ := mounted_hub m s leaving h.exists_
  rw [← hub] at hlt hout hcancel hnames
  have hold : ∀ {j : Nat} {u}, s.threads[j]? = some u → s'.threads[j]? = some u :=
    fun hu => hthreads ▸ get_append_left hu
  have hnew : ∀ {k : Nat} {u}, (m.threads s.sys.hub)[k]? = some u → s'.threads[s.threads.length + k]? = some u :=
    fun hu => hthreads ▸ append_get hu
  refine ⟨hlt, hout ▸ h.single, ?_, ?_, ?_, ?_, ?_, ?_, fun hl => ?_, fun he => ?_⟩
  · rcases h.answered with hc | hz | he | ⟨j, u, hu, ha⟩
    · exact .inl (hcancel hc)
    · exact .inr (.inl (hout ▸ hz))
    · obtain ⟨k, u, hu, ha⟩ := hanswers he
      exact .inr (.inr (.inr ⟨_, u, hnew hu, ha⟩))
    · exact .inr (.inr (.inr ⟨j, u, hold hu, ha⟩))
  · intro j u hu
    rcases get_append (hthreads ▸ hu) with hu | ⟨k, -, hu⟩
    · exact h.offered j u hu
    · obtain ⟨n, hn, rfl⟩ := get_threads hu
      obtain ⟨hwf, hoffers⟩ := hnodes n (mem_of_getElem? hn)
      exact ⟨hwf, fun port hp => hoffers port (outer_of_mem_outputs h.exists_ hp)⟩
  · intro j u hu hdone
    rcases get_append (hthreads ▸ hu) with hu | ⟨k, -, hu⟩
    · exact h.spent j u hu hdone
    · obtain ⟨n, hn, rfl⟩ := get_threads hu
      rcases hdone with hd | hd <;> cases hd
  · intro w hw
    obtain ⟨hne, hname | ⟨k, u, hu, rfl, hend⟩⟩ := hnames w hw
    · cases h.staying w hname with
      | external => exact .external hphase
      | leaver he => exact absurd (hleaver he).symm hne
      | timer ht => exact .timer (htimer ▸ ht)
      | node hu hend => exact .node (hold hu) hend
    · exact .node (hnew hu) hend
  · intro j u k hu hp
    rcases get_append (hthreads ▸ hu) with hu | ⟨k', rfl, hnew⟩
    · obtain ⟨hlt, hended | ⟨v, hv, hdel⟩⟩ := h.family j u k hu hp
      · exact ⟨hlt, .inl hended⟩
      · exact ⟨hlt, .inr ⟨v, hold hv, hdel⟩⟩
    · obtain ⟨n, hn, rfl⟩ := get_threads hnew
      obtain ⟨v, hv, hdel⟩ := hparent k hp
      have hk : k < s.threads.length := (List.getElem?_eq_some_iff.mp hv).1
      exact ⟨hk.trans_le (Nat.le_add_right _ _), .inr ⟨v, hold hv, hdel⟩⟩
  · intro j u hu
    rcases get_append (hthreads ▸ hu) with hu | ⟨k, -, hu⟩
    · exact h.calm j u hu
    · obtain ⟨n, hn, rfl⟩ := get_threads hu
      exact ⟨nofun, rfl⟩
  · rw [hlate] at hl
    cases hl
  · rw [hearly] at he
    cases he

theorem Accounted.execute (hplaced : l.Placed) :
    SpawnedRun.Accounted l { s.mount ⟨l.nodes, l.edges, [(l.output, l.outputChannel)], "#" ++ l.handle ++ "/", none,
      l.capacity⟩ leaver with phase := .executing } := by
  obtain ⟨n, hn, hname, hoffers⟩ := hplaced
  refine h.mounted _ leaver rfl rfl rfl nofun rfl rfl (fun _ => rfl) (fun _ => ?_) (fun n' hn' => ?_) nofun
  · obtain ⟨k, hk⟩ := mem_iff_getElem?.mp hn
    refine ⟨k, _, threads_get hk, .inl ⟨l.output.2, mem_outputs_of_outer _ ?_⟩⟩
    rw [hname]
    exact mem_singleton_self _
  · refine ⟨l.wellFormed n' hn', fun port hp => ?_⟩
    have hpair : (n'.name, port) = l.output := (Prod.mk.inj (mem_singleton.mp hp)).1
    have heq : n' = n := eq_of_name l.distinct hn' hn (by rw [hname, ← hpair])
    rw [← hpair] at hoffers
    exact heq ▸ hoffers

variable {exposed : List (String × String × String)} {c : ChannelId}

omit h in
theorem mem_delegated {outputs : List (String × ChannelId)} {inner : String × String} :
    (inner, c) ∈ (exposed.flatMap fun x => (outputs.filter fun o => o.1 = x.1).map fun o => (x.2, o.2)) ↔
      ∃ port, (port, inner) ∈ exposed ∧ (port, c) ∈ outputs := by
  constructor
  · intro h
    obtain ⟨⟨port, x⟩, hx, h⟩ := mem_flatMap.mp h
    obtain ⟨⟨port', c'⟩, ho, heq⟩ := mem_map.mp h
    obtain ⟨hmem, hport⟩ := mem_filter.mp ho
    cases heq
    have hsame : port' = port := of_decide_eq_true hport
    exact ⟨port, hx, hsame ▸ hmem⟩
  · rintro ⟨port, hx, ho⟩
    refine mem_flatMap.mpr ⟨(port, inner), hx, mem_map.mpr ⟨(port, c), ?_, rfl⟩⟩
    exact mem_filter.mpr ⟨ho, decide_eq_true rfl⟩

omit h in
theorem threads_mount_put {m : Mounting} (hidx : i < s.threads.length) (t : FlowThread) (w : WorkerId) :
    ((s.put i t').mount m w).threads = ((s.put i t).mount m w).threads.set i t' := by
  simp [mount, put, set_append_left, hidx]

/-- The thread waits for its sub-graph, the inner threads start, and then its outputs are theirs. -/
theorem Accounted.delegate {name : String} {inner : List FlowNode} {edges : List FlowEdge} {refusal : Option String}
    (hget : s.threads[i]? = some t) (hphase : t.phase = .working)
    (hnode : t.node = .sub name inner edges exposed refusal) (capacity : Nat) :
    ((s.put i { t with outputs := [], phase := .delegated }).mount
      ⟨inner, edges, exposed.flatMap fun x => (t.outputs.filter fun o => o.1 = x.1).map fun o => (x.2, o.2),
        t.workerName ++ "/", some i, capacity⟩ t.worker).Accounted l := by
  obtain ⟨hwf, hoffers⟩ := h.offered i t hget
  rw [hnode] at hwf hoffers
  obtain ⟨hinner, hdistinct, hexposed⟩ : (∀ n ∈ inner, n.WellFormed) ∧ (inner.map FlowNode.name).Nodup ∧
      ∀ x ∈ exposed, ∃ n ∈ inner, n.name = x.2.1 ∧ n.Offers x.2.2 := by
    cases hwf with
    | sub h₁ h₂ h₃ => exact ⟨h₁, h₂, h₃⟩
  have hidx : i < s.threads.length := (List.getElem?_eq_some_iff.mp hget).1
  have hrunning : t.isEnded = false := by
    unfold isEnded
    rw [hphase]
  have hnotEarly : s.early = false := by
    by_contra he
    rw [h.empty (Bool.not_eq_false _ ▸ he)] at hget
    cases hget
  have hnotLate : s.late = false := by
    by_contra he
    have hend := h.rest (Bool.not_eq_false _ ▸ he) i t hget
    rw [hrunning] at hend
    cases hend
  have hwaits : (s.put i { t with phase := .delegated }).Accounted l := by
    refine h.advance hget (.refl _) rfl rfl rfl ⟨rfl, rfl, rfl⟩ (refl _) ?_
      (fun hd => by rcases hd with hd | hd <;> cases hd)
      (fun he => nomatch he) hrunning (fun _ => .inl rfl) ⟨nofun, rfl⟩
    rintro (hp | ⟨e, he⟩)
    · exact .inl (.inl hp)
    · cases hphase.symm.trans he
  have hwaiting : (s.put i { t with phase := .delegated }).threads[i]? = some { t with phase := .delegated } :=
    getElem?_set_self hidx
  have hdone : s.phase ≠ .done := by
    intro hdone
    unfold late at hnotLate
    rw [hdone] at hnotLate
    cases hnotLate
  refine Accounted.advance (hwaits.mounted _ t.worker rfl rfl rfl hdone hnotEarly hnotLate
      (fun he => absurd (hnotEarly.symm.trans he) Bool.false_ne_true)
      (fun he => absurd (hnotEarly.symm.trans he) Bool.false_ne_true) (fun n hn => ⟨hinner n hn, fun port hp => ?_⟩) ?_)
    (get_append_left hwaiting) (.refl _) (threads_mount_put hidx _ _) rfl rfl ⟨rfl, rfl, rfl⟩ (nil_subset _) ?_
    (fun _ => rfl) (fun he => nomatch he) rfl (fun _ => .inl rfl) ⟨nofun, rfl⟩
  · obtain ⟨ext, hx, -⟩ := mem_delegated.mp hp
    obtain ⟨n', hn', hname, hoff⟩ := hexposed _ hx
    exact eq_of_name hdistinct hn' hn hname ▸ hoff
  · rintro k ⟨⟩
    exact ⟨_, hwaiting, rfl⟩
  · rintro (⟨port, hp⟩ | ⟨e, he⟩)
    · -- the port is exposed by an inner node, whose thread takes the channel over
      obtain ⟨x, hx⟩ := hoffers port hp
      obtain ⟨n, hn, hname, -⟩ := hexposed (port, x) hx
      obtain ⟨k, hk⟩ := mem_iff_getElem?.mp hn
      refine .inr (.inr (.inr ⟨_, _, ?_, append_get (threads_get hk), .inl ⟨x.2, mem_outputs_of_outer _ ?_⟩⟩))
      · exact (hidx.trans_le (by simp [put])).ne'
      · rw [hname]
        exact mem_delegated.mpr ⟨port, hx, hp⟩
    · cases he

theorem Accounted.shrink (hub : s.sys.hub.Shrinks s'.sys.hub) (hphase : s'.phase = s.phase)
    (htimer : s'.timer = s.timer) (hthreads : s'.threads = s.threads) : s'.Accounted l :=
  h.quiet hub hthreads (early_congr hphase) (fun hl => h.rest (late_congr hphase ▸ hl)) (fun hp => .inl (hphase ▸ hp))
    fun ht => .inl (htimer ▸ ht)

omit h in
theorem shrinks_close (s : SpawnedRun T) : s.sys.hub.Shrinks s.close.sys.hub ∧ s.close.phase = s.phase ∧
    s.close.timer = s.timer ∧ s.close.threads = s.threads := by
  unfold close
  split_ifs
  · exact ⟨.releaseSender _ _, rfl, rfl, rfl⟩
  · exact ⟨.refl _, rfl, rfl, rfl⟩

omit h in
theorem shrinks_stop (s : SpawnedRun T) : s.sys.hub.Shrinks s.stop.sys.hub ∧ s.stop.phase = s.phase ∧
    s.stop.timer = s.timer ∧ s.stop.threads = s.threads := by
  unfold stop
  dsimp only
  split_ifs
  · exact ⟨.setCancel _ _, rfl, rfl, rfl⟩
  · exact ⟨.refl _, rfl, rfl, rfl⟩

theorem Accounted.tick (hub : s.sys.hub.Shrinks s'.sys.hub) (hphase : s'.phase = s.phase)
    (hthreads : s'.threads = s.threads) (hgone : s'.timer = .gone → s'.sys.hub.names FlowLaunch.timer = none) :
    s'.Accounted l :=
  h.quiet hub hthreads (early_congr hphase) (fun hl => h.rest (late_congr hphase ▸ hl)) (fun hp => .inl (hphase ▸ hp))
    fun ht => .inr (hgone ht)

theorem Accounted.watch {a : TimerStep} (hstep : s.watch a = some s') : s'.Accounted l := by
  have hdone : ∀ hub : Hub T, (hub.workerDone FlowLaunch.timer).names FlowLaunch.timer = none :=
    fun hub => (Hub.names_workerDone _ _ _).trans (if_pos rfl)
  unfold SpawnedRun.watch at hstep
  cases a with dsimp only at hstep
  | timeout =>
    split at hstep <;> cases hstep
    obtain ⟨hub, hphase, -, hthreads⟩ := shrinks_close s
    exact h.tick hub hphase hthreads nofun
  | expire =>
    split at hstep <;> cases hstep
    obtain ⟨hub, hphase, -, hthreads⟩ := shrinks_stop s
    exact h.tick (hub.trans (.workerDone _ _)) hphase hthreads fun _ => hdone _
  | leave =>
    split at hstep <;> cases hstep <;> exact h.tick (.workerDone _ _) rfl rfl fun _ => hdone _

theorem Accounted.proceed {a : RunStep} (haccepted : l.refusal = none) (hplaced : l.Placed)
    (hstep : s.proceed l a = some s') : s'.Accounted l := by
  unfold SpawnedRun.proceed at hstep
  cases a with dsimp only at hstep
  | attach =>
    split at hstep <;> cases hstep
    rename_i hphase
    split_ifs
    · exact h.quiet (.setCancel _ _) rfl (by simp [early, hphase]) (fun hl => nomatch hl) nofun .inl
    · exact h.quiet (.refl _) rfl (by simp [early, hphase]) (fun hl => nomatch hl) nofun .inl
  | validate =>
    split at hstep
    · rw [haccepted] at hstep
      exact some.inj hstep ▸ h.execute hplaced
    · cases hstep
  | join =>
    split at hstep
    · rename_i hphase
      obtain ⟨hjoin, ⟨⟩⟩ := ite_none_right_eq_some.mp hstep
      rw [h.not_panicked none]
      exact h.quiet (.refl _) rfl (by simp [early, hphase]) (fun _ => h.all_ended hjoin) nofun .inl
    · cases hstep
  | detach =>
    split at hstep <;> cases hstep
    rename_i hphase
    exact h.quiet (.refl _) rfl (by simp [early, hphase]) (fun _ => h.rest (by simp [late, hphase])) nofun .inl
  | close =>
    split at hstep <;> cases hstep
    rename_i hphase
    obtain ⟨hub, -, htimer, hthreads⟩ := shrinks_close s
    exact h.quiet hub hthreads (by simp [early, hphase]) (fun _ => h.rest (by simp [late, hphase])) nofun
      fun ht => .inl (htimer ▸ ht)
  | leave =>
    split at hstep <;> cases hstep
    rename_i hphase
    exact h.quiet (.workerDone _ _) rfl (by simp [early, hphase]) (fun _ => h.rest (by simp [late, hphase]))
      (fun _ => .inr ((Hub.names_workerDone _ _ _).trans (if_pos rfl))) .inl

theorem Accounted.thread {a : ThreadStep} {capacity : Nat} (hget : s.threads[i]? = some t) (hcalm : a ≠ .panic)
    (hstep : s.advance capacity i t a = some s') : s'.Accounted l := by
  have hnotUnwound := (h.calm i t hget).1
  unfold SpawnedRun.advance at hstep
  cases a with dsimp only at hstep
  | delegate =>
    split at hstep
    · rename_i hphase
      unfold SpawnedRun.delegate at hstep
      split at hstep
      · cases hstep
      · rename_i name inner edges exposed refusal hnode
        split at hstep
        · exact some.inj hstep ▸ h.refuse hget hphase _
        · exact some.inj hstep ▸ h.delegate hget hphase hnode capacity
    · cases hstep
  | joinInner =>
    split at hstep
    · rename_i hphase
      obtain ⟨hjoin, hstep⟩ := ite_none_right_eq_some.mp hstep
      rw [h.not_panicked] at hstep
      exact some.inj hstep ▸ h.joinInner hget hphase hjoin
    · cases hstep
  | settle exit =>
    split at hstep
    · rename_i hphase
      exact h.settle hget (.inl hphase) hstep
    · rename_i hphase
      exact h.settle hget (.inr (.inl hphase)) hstep
    · rename_i e hphase
      split at hstep
      · exact h.settle hget (.inr (.inr ⟨⟨e, hphase⟩, .inl rfl⟩)) hstep
      · exact h.settle hget (.inr (.inr ⟨⟨e, hphase⟩, .inr rfl⟩)) hstep
      · cases hstep
    · cases hstep
  | panic => exact absurd rfl hcalm
  | finish =>
    split at hstep <;> cases hstep
    rename_i hphase
    exact h.finish hget hphase
  | done =>
    split at hstep
    · rename_i hphase
      exact some.inj hstep ▸ h.done hget hphase
    · rename_i hphase
      exact absurd hphase hnotUnwound
    · cases hstep

theorem Accounted.step {a : FlowAction T} (haccepted : l.refusal = none) (hplaced : l.Placed) (hcalm : a.Calm)
    (hstep : s.step l a = some s') : s'.Accounted l := by
  cases a with
  | io a =>
    obtain ⟨-, hstep⟩ := ite_none_right_eq_some.mp hstep
    obtain ⟨sys, hsys, rfl⟩ := map_eq_some_iff.mp hstep
    exact h.shrink (System.Loses.step hsys) rfl rfl rfl
  | stop =>
    obtain ⟨hub, hphase, htimer, hthreads⟩ := shrinks_stop s
    exact some.inj hstep ▸ h.shrink hub hphase htimer hthreads
  | closeInput =>
    obtain ⟨hub, hphase, htimer, hthreads⟩ := shrinks_close s
    exact some.inj hstep ▸ h.shrink hub hphase htimer hthreads
  | timer a => exact h.watch hstep
  | run a => exact h.proceed haccepted hplaced hstep
  | thread i a =>
    obtain ⟨t, hget, hstep⟩ := bind_eq_some_iff.mp hstep
    refine h.thread hget ?_ hstep
    rintro rfl
    exact hcalm

/-- When the run is over, the output has ended or the run was stopped, and
nobody is registered any more: a reader does not wait. -/
structure Released (l : FlowLaunch) (s : SpawnedRun T) : Prop where
  output : (s.sys.hub.channels l.outputChannel).senders = 0 ∨ s.sys.hub.cancel ≠ none
  workers : ∀ w, s.sys.hub.names w = none
  served : s.sys.hub.take [l.outputChannel] ≠ .empty

omit h in
theorem take_ne_empty {hub : Hub T} (h : (hub.channels c).senders = 0 ∨ hub.cancel ≠ none) : hub.take [c] ≠ .empty := by
  unfold Hub.take
  cases hcancel : hub.cancel with
  | some cause => nofun
  | none =>
    have hzero := h.resolve_right fun hn => hn hcancel
    cases hub.front [c] with
    | some p => nofun
    | none => simp [Channel.isClosed, hzero]

theorem Accounted.released (hdone : s.phase = .done) (htimer : s.timer = .gone) : s.Released l := by
  have hended := h.rest (by simp [late, hdone])
  have hearly : s.early = false := by simp [early, hdone]
  have houtput : (s.sys.hub.channels l.outputChannel).senders = 0 ∨ s.sys.hub.cancel ≠ none := by
    rcases h.answered with hc | hz | he | ⟨i, t, hget, ⟨port, hp⟩ | ⟨e, he⟩⟩
    · exact .inr hc
    · exact .inl hz
    · rw [hearly] at he
      cases he
    · rw [h.spent i t hget (.inr (hended i t hget))] at hp
      cases hp
    · have hend := hended i t hget
      unfold isEnded at hend
      rw [he] at hend
      cases hend
  refine ⟨houtput, fun w => ?_, take_ne_empty houtput⟩
  by_contra hw
  cases h.staying w hw with
  | external hp => exact hp hdone
  | leaver he =>
    rw [hearly] at he
    cases he
  | timer ht => exact ht htimer
  | node hu hend => exact absurd (hended _ _ hu) (by simp [hend])

omit h

theorem hub_spec (l : FlowLaunch) :
    l.outputChannel < (l.hub (T := T)).numChannels ∧ ((l.hub (T := T)).channels l.outputChannel).senders = 1 ∧
      ∀ w, (l.hub (T := T)).names w ≠ none →
        w = FlowLaunch.external ∨ w = FlowLaunch.leaver ∨ w = FlowLaunch.timer ∧ l.hasTimer := by
  have hnames : ∀ w, (l.hub (T := T)).names w ≠ none →
      w = FlowLaunch.external ∨ w = FlowLaunch.leaver ∨ w = FlowLaunch.timer ∧ l.hasTimer := by
    intro w hw
    by_contra hnot
    simp only [not_or] at hnot
    obtain ⟨h₀, h₁, h₂⟩ := hnot
    refine hw ?_
    unfold FlowLaunch.hub
    cases hin : l.input <;> cases ht : l.hasTimer <;>
      simp [Hub.channel, Hub.worker, Hub.new, FlowLaunch.external, FlowLaunch.leaver,
        FlowLaunch.timer, ht] at h₀ h₁ h₂ ⊢ <;> simp [h₀, h₁, h₂]
  refine ⟨?_, ?_, hnames⟩
  · unfold FlowLaunch.hub FlowLaunch.outputChannel
    cases l.input <;> cases l.hasTimer <;> simp [Hub.channel, Hub.worker]
  · unfold FlowLaunch.hub FlowLaunch.outputChannel
    cases l.input <;> cases l.hasTimer <;> simp [Hub.channel, Hub.worker, Hub.new]

theorem Accounted.start (l : FlowLaunch) : SpawnedRun.Accounted (T := T) l l.start := by
  obtain ⟨hlt, hone, hnames⟩ := hub_spec l
  refine ⟨hlt, hone.le, .inr (.inr (.inl rfl)), (fun _ _ hu => nomatch hu), (fun _ _ hu => nomatch hu), fun w hw => ?_,
    (fun _ _ _ hu => nomatch hu), (fun _ _ hu => nomatch hu), (fun hl => nomatch hl), fun _ => rfl⟩
  rcases hnames w hw with rfl | rfl | ⟨rfl, htimer⟩
  · exact .external nofun
  · exact .leaver rfl
  · refine .timer ?_
    unfold FlowLaunch.start
    rw [if_pos htimer]
    nofun

/-- However the run of an accepted graph ends, by the end of its nodes, a
failure, a cancellation, a deadlock or its time limit, once its thread and its
timer are over everything is released. -/
theorem run_releases (haccepted : l.refusal = none) (hplaced : l.Placed)
    (h : ReachableUnder (fun _ a => a.Calm) (step (T := T) · l) l.start s) (hdone : s.phase = .done)
    (htimer : s.timer = .gone) : s.Released l :=
  (h.invariant (Q := Accounted l) (.start l)
    fun _ _ _ hs hcalm hstep => hs.step haccepted hplaced hcalm hstep).released hdone htimer

def nestedNodes : List FlowNode := [.sub "outer" [.leaf "inner"] [] [("replies", "inner", "out")] none]

theorem nestedNodes_wellFormed (n : FlowNode) (hn : n ∈ nestedNodes) : n.WellFormed := by
  cases mem_singleton.mp hn
  refine .sub (fun m hm => ?_) (nodup_singleton _) fun x hx => ?_
  · cases mem_singleton.mp hm
    exact .leaf "inner"
  · cases mem_singleton.mp hx
    exact ⟨.leaf "inner", mem_singleton_self _, rfl, trivial⟩

def nestedLaunch : FlowLaunch where
  handle := "fond"
  nodes := nestedNodes
  edges := []
  input := none
  output := ("outer", "replies")
  capacity := 64
  refusal := none
  timed := false
  wellFormed := nestedNodes_wellFormed
  distinct := nodup_singleton _

/-- The same graph, with something that its validation refuses. -/
def refusedLaunch : FlowLaunch :=
  { nestedLaunch with refusal := some "required input 'in' on node 'outer' is not connected" }

def nestedRun : List (FlowAction Nat) :=
  [.run .attach, .run .validate, .thread 0 .delegate, .thread 1 (.settle .completed), .thread 1 .finish,
    .thread 1 .done, .thread 0 .joinInner, .thread 0 (.settle .completed), .thread 0 .finish, .thread 0 .done,
    .run .join, .run .detach, .run .close, .run .leave]

theorem run_releases_nested : ∃ s : SpawnedRun Nat,
    run (step · nestedLaunch) nestedLaunch.start nestedRun = some s ∧ s.sys.hub.cancel = none ∧
      s.Released nestedLaunch := by
  have hrun : run (step · nestedLaunch) (nestedLaunch.start) nestedRun = some _ := rfl
  have hallowed : Allowed (fun _ a => a.Calm) (step · nestedLaunch) nestedLaunch.start nestedRun :=
    .intro trivial (.intro trivial (.intro trivial (.intro trivial (.intro trivial (.intro trivial (.intro trivial
      (.intro trivial (.intro trivial (.intro trivial (.intro trivial (.intro trivial (.intro trivial
        (.intro trivial trivial)))))))))))))
  have hplaced : nestedLaunch.Placed :=
    ⟨_, mem_singleton_self _, rfl, _, mem_singleton_self _⟩
  exact ⟨_, hrun, rfl, run_releases rfl hplaced (ReachableUnder.init.run hallowed hrun) rfl rfl⟩

/-- A graph that is refused: its run ends, but its output has a sender, its
launcher stays registered and a reader waits. -/
theorem refused_run_keeps_reader : ∃ s : SpawnedRun Nat,
    Reachable (step · refusedLaunch) refusedLaunch.start s ∧ s.phase = .done ∧ s.timer = .gone ∧
      (s.sys.hub.channels refusedLaunch.outputChannel).senders = 1 ∧ s.sys.hub.cancel = none ∧
      (s.sys.hub.names leaver).isSome ∧ s.sys.hub.take [refusedLaunch.outputChannel] = .empty := by
  have hrun : run (step · refusedLaunch) (refusedLaunch.start (T := Nat))
      [.run .attach, .run .validate, .run .detach, .run .close, .run .leave] = some _ := rfl
  exact ⟨_, Reachable.init.run hrun, rfl, rfl, rfl, rfl, rfl, rfl⟩

end SpawnedRun

end Rag3db.Weaver
