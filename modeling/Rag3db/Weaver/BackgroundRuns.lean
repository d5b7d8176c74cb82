import Rag3db.Weaver.BackgroundRegistry

open List Option AList

namespace Rag3db.Weaver

open Library.Transition

namespace Background

def view (s : Background) (i : Nat) : Option (Spawn × LaunchPhase) :=
  s.launches[i]?.map fun l => (l.spec, l.phase)

def lives (s : Background) (tool : String) (i : Nat) : Bool :=
  (s.view i).any fun v => v.1.tool = tool && v.2.living

def livingOf (s : Background) (tool : String) : Nat :=
  ((List.range s.launches.length).filter (s.lives tool)).length

def LivesUnder (s : Background) (i : Nat) (h : String) : Prop :=
  ∃ spec, s.view i = some (spec, .registered h) ∨ s.view i = some (spec, .running h)

/-- What the registry is for. The limit of a tool is the one that all launches
of the tool give. -/
structure Orderly (runId : Nat → String) (s : Background) : Prop where
  distinct : ∀ i j h, s.LivesUnder i h → s.LivesUnder j h → i = j
  present : ∀ i h, s.LivesUnder i h → s.entries.lookup h = some i
  reached : ∀ i h cause, s.LivesUnder i h →
    ∃ s' l, s.cancel runId h cause none = .ok s' ∧ s'.launches[i]? = some l ∧ l.cancelled
  bounded : ∀ tool max, (∀ i v, s.view i = some v → v.1.tool = tool → v.1.maxAlive = some max) → s.livingOf tool ≤ max

/-- A launch begins when no other is between the test of its limit and its
entry, and a numbered handle is not taken. -/
def OneByOne (s : Background) : BackgroundAction → Prop
  | .launch _ => ∀ i v, s.view i = some v → ¬ v.2.launching
  | .name i => ∀ spec, s.view i = some (spec, .admitted) → bare (requested spec) ∈ s.entries →
      (s.freeHandle (requested spec)).1 ∉ s.entries
  | _ => True

/-- Every launch that has got so far has its entry, and the one under way has
room and a handle nobody has. -/
structure Registered (s : Background) : Prop where
  owned : ∀ i v h, s.view i = some v → v.2.entered = some h → bare h = h ∧ s.entries.lookup h = some i
  fresh : ∀ i spec h, s.view i = some (spec, .named h) → bare h = h ∧ h ∉ s.entries
  alone : ∀ i j v w, s.view i = some v → s.view j = some w → v.2.launching → w.2.launching → i = j
  room : ∀ i v max, s.view i = some v → v.2.launching → v.1.maxAlive = some max → s.livingOf v.1.tool < max
  bounded : ∀ tool max, (∀ i v, s.view i = some v → v.1.tool = tool → v.1.maxAlive = some max) → s.livingOf tool ≤ max

variable {s s' : Background} {i j : Nat} {l l' : Launch} {tool : String}

theorem bare_bare (h : String) : bare (bare h) = bare h := by
  unfold bare
  rw [String.toList_ofList, dropWhile_idempotent]

theorem bare_numbered (base number : String) : bare (bare base ++ "-" ++ number) = bare base ++ "-" ++ number := by
  have hbase := congrArg String.toList (bare_bare base)
  unfold bare at hbase ⊢
  rw [String.toList_ofList] at hbase
  refine String.toList_injective ?_
  rw [String.toList_ofList, String.toList_append, String.toList_append, append_assoc, dropWhile_append, hbase]
  cases hempty : (String.ofList (base.toList.dropWhile (· = '#'))).toList with
  | nil => rfl
  | cons c cs => rfl

/-- The chosen handle is bare, and it is free unless it is a numbered one. -/
theorem freeHandle_spec (s : Background) (handle : String) : bare (s.freeHandle handle).1 = (s.freeHandle handle).1 ∧
      (bare handle ∉ s.entries → (s.freeHandle handle).1 ∉ s.entries) := by
  unfold freeHandle
  dsimp only
  split_ifs with htaken
  · exact ⟨bare_numbered handle _, fun h => absurd htaken h⟩
  · exact ⟨bare_bare handle, fun h => h⟩

theorem view_of_get (h : s.launches[i]? = some l) : s.view i = some (l.spec, l.phase) := by
  rw [view, h]
  rfl

theorem view_put (h : s.launches[i]? = some l) (l' : Launch) : (s.put i l').view i = some (l'.spec, l'.phase) := by
  have hlt : i < s.launches.length := (List.getElem?_eq_some_iff.mp h).1
  have hget : (s.put i l').launches[i]? = some l' := getElem?_set_self hlt
  exact view_of_get hget

theorem view_put_of_ne (h : j ≠ i) (l' : Launch) : (s.put i l').view j = s.view j := by
  have hget : (s.put i l').launches[j]? = s.launches[j]? := getElem?_set_ne (Ne.symm h)
  rw [view, hget]
  rfl

theorem lives_iff : s.lives tool i ↔ ∃ v, s.view i = some v ∧ v.1.tool = tool ∧ v.2.living := by
  unfold lives
  rw [Option.any_eq_true]
  simp

theorem mem_living : i ∈ (List.range s.launches.length).filter (s.lives tool) ↔ s.lives tool i := by
  refine ⟨fun h => (mem_filter.mp h).2, fun h => mem_filter.mpr ⟨?_, h⟩⟩
  obtain ⟨v, hv, -⟩ := lives_iff.mp h
  obtain ⟨l, hl, -⟩ := map_eq_some_iff.mp hv
  exact List.mem_range.mpr (List.getElem?_eq_some_iff.mp hl).1

theorem nodup_living : ((List.range s.launches.length).filter (s.lives tool)).Nodup :=
  nodup_range.filter _

theorem livingOf_le (h : ∀ j, s'.lives tool j → s.lives tool j) : s'.livingOf tool ≤ s.livingOf tool :=
  (subperm_of_subset nodup_living fun _ hj => mem_living.mpr (h _ (mem_living.mp hj))).length_le

theorem livingOf_le_succ (h : ∀ j, s'.lives tool j → j = i ∨ s.lives tool j) :
    s'.livingOf tool ≤ s.livingOf tool + 1 := by
  have hsub : (List.range s'.launches.length).filter (s'.lives tool) ⊆
      i :: (List.range s.launches.length).filter (s.lives tool) := by
    intro j hj
    rcases h j (mem_living.mp hj) with rfl | hj
    · exact mem_cons_self
    · exact mem_cons_of_mem _ (mem_living.mpr hj)
  exact (subperm_of_subset nodup_living hsub).length_le

theorem Registered.livingOf_le_aliveOf (h : s.Registered) (tool : String) : s.livingOf tool ≤ s.aliveOf tool := by
  have hsub : (List.range s.launches.length).filter (s.lives tool) ⊆ (s.entries.entries.filter fun e =>
        (s.launches[e.2]?).any fun l => l.spec.tool = tool && l.phase.isAlive).map (·.2) := by
    intro i hi
    obtain ⟨v, hv, htool, hliving⟩ := lives_iff.mp (mem_living.mp hi)
    obtain ⟨l, hl, rfl⟩ := map_eq_some_iff.mp hv
    obtain ⟨handle, halive, hentered⟩ : ∃ handle, l.phase.isAlive ∧ l.phase.entered = some handle := by
      cases hp : l.phase <;> rw [hp] at hliving <;> cases hliving <;> exact ⟨_, rfl, rfl⟩
    have hentry := mem_lookup_iff.mp (h.owned i _ handle hv hentered).2
    refine mem_map.mpr ⟨⟨handle, i⟩, mem_filter.mpr ⟨hentry, ?_⟩, rfl⟩
    dsimp only at htool
    simp [hl, halive, htool]
  have hlen := (subperm_of_subset nodup_living hsub).length_le
  rw [length_map] at hlen
  exact hlen

theorem Registered.of_view (h : s.Registered) (hview : ∀ j, s'.view j = s.view j) (hentries : s'.entries = s.entries) :
    s'.Registered := by
  have hle : ∀ tool, s'.livingOf tool ≤ s.livingOf tool := by
    refine fun tool => livingOf_le fun j hj => ?_
    unfold lives at hj ⊢
    rw [← hview]
    exact hj
  refine ⟨?_, ?_, ?_, ?_, ?_⟩
  · intro j v handle hv hentered
    rw [hentries]
    exact h.owned j v handle (hview j ▸ hv) hentered
  · intro j spec handle hv
    rw [hentries]
    exact h.fresh j spec handle (hview j ▸ hv)
  · exact fun j k v w hv hw => h.alone j k v w (hview j ▸ hv) (hview k ▸ hw)
  · exact fun j v max hv hl hmax => (hle _).trans_lt (h.room j v max (hview j ▸ hv) hl hmax)
  · exact fun tool max hall => (hle tool).trans (h.bounded tool max fun j v hv => hall j v (hview j ▸ hv))

/-- Of the launches, only this one differs between two states. -/
structure Moved (s s' : Background) (i : Nat) (l l' : Launch) : Prop where
  get : s.launches[i]? = some l
  put : s'.launches = (s.put i l').launches
  spec : l'.spec = l.spec

namespace Moved

variable (m : Moved s s' i l l')
include m

theorem self : s'.view i = some (l'.spec, l'.phase) := by
  have hv := view_put m.get l'
  unfold view at hv ⊢
  rw [m.put]
  exact hv

theorem other (hj : j ≠ i) : s'.view j = s.view j := by
  have hv : (s.put i l').view j = s.view j := view_put_of_ne hj l'
  rw [← hv]
  unfold view
  rw [m.put]

theorem cases {v : Spawn × LaunchPhase} (hv : s'.view j = some v) :
    j = i ∧ v = (l'.spec, l'.phase) ∨ j ≠ i ∧ s.view j = some v := by
  by_cases hj : j = i
  · subst hj
    exact .inl ⟨rfl, some.inj (hv.symm.trans m.self)⟩
  · exact .inr ⟨hj, m.other hj ▸ hv⟩

theorem limits {max : Nat} (hall : ∀ j v, s'.view j = some v → v.1.tool = tool → v.1.maxAlive = some max)
    (j : Nat) (v : Spawn × LaunchPhase) (hv : s.view j = some v) (htool : v.1.tool = tool) :
    v.1.maxAlive = some max := by
  by_cases hj : j = i
  · subst hj
    cases hv.symm.trans (view_of_get m.get)
    have hlimit := hall j _ m.self
    rw [m.spec] at hlimit
    exact hlimit htool
  · exact hall j v ((m.other hj).trans hv) htool

theorem livingOf_le (hliving : l'.phase.living → l.phase.living) (tool : String) :
    s'.livingOf tool ≤ s.livingOf tool := by
  refine Background.livingOf_le fun j hj => ?_
  obtain ⟨v, hv, htool, hlive⟩ := lives_iff.mp hj
  rcases m.cases hv with ⟨rfl, rfl⟩ | ⟨-, hv⟩
  · exact lives_iff.mpr ⟨_, view_of_get m.get, m.spec ▸ htool, hliving hlive⟩
  · exact lives_iff.mpr ⟨v, hv, htool, hlive⟩

end Moved

variable (h : s.Registered)

include h

/-- A run that is launched goes on: it stays under its handle, or its entry is removed. -/
theorem Registered.goOn (m : Moved s s' i l l') (hnew : l'.phase.launching = false)
    (hliving : l'.phase.living → l.phase.living)
    (hentries : ∀ handle j, j ≠ i → s.entries.lookup handle = some j → s'.entries.lookup handle = some j)
    (hsub : ∀ handle, handle ∈ s'.entries → handle ∈ s.entries)
    (hown : ∀ handle, l'.phase.entered = some handle →
      l.phase.entered = some handle ∧ s'.entries.lookup handle = s.entries.lookup handle) : s'.Registered := by
  have hle := m.livingOf_le hliving
  refine ⟨?_, ?_, ?_, ?_, fun tool max hall => (hle tool).trans (h.bounded tool max (m.limits hall))⟩
  · intro j v handle hv hentered
    rcases m.cases hv with ⟨rfl, rfl⟩ | ⟨hj, hv⟩
    · obtain ⟨hwas, hsame⟩ := hown handle hentered
      rw [hsame]
      exact h.owned j _ handle (view_of_get m.get) hwas
    · obtain ⟨hbare, hlookup⟩ := h.owned j v handle hv hentered
      exact ⟨hbare, hentries handle j hj hlookup⟩
  · intro j spec handle hv
    rcases m.cases hv with ⟨rfl, heq⟩ | ⟨-, hv⟩
    · rw [← (Prod.mk.inj heq).2] at hnew
      cases hnew
    · obtain ⟨hbare, hfree⟩ := h.fresh j spec handle hv
      exact ⟨hbare, fun hmem => hfree (hsub handle hmem)⟩
  · intro j k v w hv hw hjl hkl
    rcases m.cases hv with ⟨rfl, rfl⟩ | ⟨-, hv⟩
    · exact absurd hjl (by simp [hnew])
    · rcases m.cases hw with ⟨rfl, rfl⟩ | ⟨-, hw⟩
      · exact absurd hkl (by simp [hnew])
      · exact h.alone j k v w hv hw hjl hkl
  · intro j v max hv hl hmax
    rcases m.cases hv with ⟨rfl, rfl⟩ | ⟨-, hv⟩
    · exact absurd hl (by simp [hnew])
    · exact (hle _).trans_lt (h.room j v max hv hl hmax)

omit h in
theorem view_launch (spec : Spawn) (j : Nat) : (s.launch spec).view j = s.view j ∨
      j = s.launches.length ∧ s.view j = none ∧ ∃ phase, (s.launch spec).view j = some (spec, phase) ∧
        phase.living = false ∧ phase.entered = none ∧ (∀ h, phase ≠ .named h) ∧
        (phase.launching → ∀ max, spec.maxAlive = some max → s.aliveOf spec.tool < max) := by
  by_cases hj : j = s.launches.length
  · subst hj
    refine .inr ⟨rfl, by simp [view], ?_⟩
    unfold launch view
    dsimp only
    rw [getElem?_concat_length]
    refine ⟨_, rfl, ?_⟩
    cases hmax : spec.maxAlive with
    | none => exact ⟨rfl, rfl, nofun, fun _ _ h => nomatch h⟩
    | some max =>
      dsimp only
      split_ifs with hfull
      · exact ⟨rfl, rfl, nofun, fun h => nomatch h⟩
      · refine ⟨rfl, rfl, nofun, fun _ m hm => ?_⟩
        cases hm
        exact Nat.lt_of_not_le hfull
  · refine .inl ?_
    unfold view launch
    dsimp only
    by_cases hlt : j < s.launches.length
    · rw [getElem?_append_left hlt]
    · rw [getElem?_eq_none (by simp; omega), getElem?_eq_none (by omega)]

theorem Registered.launch (spec : Spawn) (hone : ∀ i v, s.view i = some v → ¬ v.2.launching) :
    (s.launch spec).Registered := by
  have hle : ∀ tool, (s.launch spec).livingOf tool ≤ s.livingOf tool := by
    refine fun tool => livingOf_le fun j hj => ?_
    obtain ⟨v, hv, htool, hlive⟩ := lives_iff.mp hj
    rcases view_launch spec j with hsame | ⟨-, -, phase, hnew, hdead, -⟩
    · exact lives_iff.mpr ⟨v, hsame ▸ hv, htool, hlive⟩
    · cases hv.symm.trans hnew
      exact absurd hlive (by simp [hdead])
  refine ⟨?_, ?_, ?_, ?_, ?_⟩
  · intro j v handle hv hentered
    rcases view_launch spec j with hsame | ⟨-, -, phase, hnew, -, hnone, -⟩
    · exact h.owned j v handle (hsame ▸ hv) hentered
    · cases hv.symm.trans hnew
      cases hnone.symm.trans hentered
  · intro j sp handle hv
    rcases view_launch spec j with hsame | ⟨-, -, phase, hnew, -, -, hname, -⟩
    · exact h.fresh j sp handle (hsame ▸ hv)
    · cases hv.symm.trans hnew
      exact absurd rfl (hname handle)
  · intro j k v w hv hw hjl hkl
    have hlast : ∀ j v, (s.launch spec).view j = some v → v.2.launching → j = s.launches.length := by
      intro j v hv hl
      rcases view_launch spec j with hsame | ⟨hj, -⟩
      · exact absurd hl (hone j v (hsame ▸ hv))
      · exact hj
    exact (hlast j v hv hjl).trans (hlast k w hw hkl).symm
  · intro j v max hv hl hmax
    rcases view_launch spec j with hsame | ⟨-, -, phase, hnew, -, -, -, hroom⟩
    · exact absurd hl (hone j v (hsame ▸ hv))
    · cases hv.symm.trans hnew
      exact ((hle _).trans (h.livingOf_le_aliveOf _)).trans_lt (hroom hl max hmax)
  · intro tool max hall
    refine (hle tool).trans (h.bounded tool max fun j v hv => hall j v ?_)
    rcases view_launch spec j with hsame | ⟨-, hnone, -⟩
    · exact hsame.trans hv
    · cases hnone.symm.trans hv

variable (hget : s.launches[i]? = some l) {runId : Nat → String}

include hget

theorem Registered.name (hphase : l.phase = .admitted)
    (hone : bare (requested l.spec) ∈ s.entries → (s.freeHandle (requested l.spec)).1 ∉ s.entries) :
    (s.name i l).Registered := by
  have m : Moved s (s.name i l) i l { l with phase := .named (s.freeHandle (requested l.spec)).1 } := ⟨hget, rfl, rfl⟩
  obtain ⟨hbare, hfree⟩ := freeHandle_spec s (requested l.spec)
  have hlaunching : (l.spec, l.phase).2.launching := by
    rw [hphase]
    rfl
  have hle := m.livingOf_le fun hl => absurd hl Bool.false_ne_true
  refine ⟨?_, ?_, ?_, ?_, fun tool max hall => (hle tool).trans (h.bounded tool max (m.limits hall))⟩
  · intro j v handle hv hentered
    rcases m.cases hv with ⟨rfl, rfl⟩ | ⟨-, hv⟩
    · cases hentered
    · exact h.owned j v handle hv hentered
  · intro j spec handle hv
    rcases m.cases hv with ⟨rfl, heq⟩ | ⟨-, hv⟩
    · cases heq
      by_cases htaken : bare (requested l.spec) ∈ s.entries
      · exact ⟨hbare, hone htaken⟩
      · exact ⟨hbare, hfree htaken⟩
    · exact h.fresh j spec handle hv
  · intro j k v w hv hw hjl hkl
    have hwas : ∀ j v, (s.name i l).view j = some v → v.2.launching → j = i := by
      intro j v hv hl
      rcases m.cases hv with ⟨rfl, -⟩ | ⟨-, hv⟩
      · rfl
      · exact h.alone j i v _ hv (view_of_get hget) hl hlaunching
    exact (hwas j v hv hjl).trans (hwas k w hw hkl).symm
  · intro j v max hv hl hmax
    rcases m.cases hv with ⟨rfl, rfl⟩ | ⟨-, hv⟩
    · exact (hle _).trans_lt (h.room j (l.spec, l.phase) max (view_of_get hget) hlaunching hmax)
    · exact (hle _).trans_lt (h.room j v max hv hl hmax)

theorem Registered.refuse (e : String) : (s.put i { l with phase := .refused e }).Registered :=
  h.goOn ⟨hget, rfl, rfl⟩ rfl (fun hl => absurd hl Bool.false_ne_true) (fun _ _ _ hl => hl) (fun _ hm => hm)
    fun _ he => nomatch he

theorem Registered.register {handle : String} (hphase : l.phase = .named handle) :
    (s.register i l handle).Registered := by
  have hview := view_of_get hget
  rw [hphase] at hview
  obtain ⟨hbare, hfree⟩ := h.fresh i l.spec handle hview
  -- the launch under way is the only one, so nobody else counts on the room
  have halone : ∀ j v, j ≠ i → s.view j = some v → ¬ v.2.launching :=
    fun j v hj hv hl => hj (h.alone j i v _ hv hview hl rfl)
  unfold Background.register
  cases l.spec.target with
  | error e => exact h.refuse hget e
  | ok u =>
    rw [hbare]
    generalize hs' : ({ s.put i { l with phase := .registered handle } with
      entries := s.entries.insert handle i } : Background) = s'
    have m : Moved s s' i l { l with phase := .registered handle } := ⟨hget, hs' ▸ rfl, rfl⟩
    have hself : s'.entries.lookup handle = some i := hs' ▸ lookup_insert _
    have hne : ∀ k, k ≠ handle → s'.entries.lookup k = s.entries.lookup k :=
      fun k hk => hs' ▸ lookup_insert_ne hk
    refine ⟨?_, ?_, ?_, ?_, ?_⟩
    · intro j v k hv hentered
      rcases m.cases hv with ⟨rfl, rfl⟩ | ⟨-, hv⟩
      · cases hentered
        exact ⟨hbare, hself⟩
      · obtain ⟨hk, hlookup⟩ := h.owned j v k hv hentered
        have hkne : k ≠ handle := by
          rintro rfl
          exact hfree (lookup_isSome.mp (isSome_iff_exists.mpr ⟨j, hlookup⟩))
        exact ⟨hk, (hne k hkne).trans hlookup⟩
    · intro j spec k hv
      rcases m.cases hv with ⟨-, heq⟩ | ⟨hj, hv⟩
      · cases heq
      · exact absurd rfl (halone j _ hj hv)
    · intro j k v w hv hw hjl hkl
      rcases m.cases hv with ⟨-, rfl⟩ | ⟨hj, hv⟩
      · cases hjl
      · exact absurd hjl (halone j v hj hv)
    · intro j v max hv hl hmax
      rcases m.cases hv with ⟨-, rfl⟩ | ⟨hj, hv⟩
      · cases hl
      · exact absurd hl (halone j v hj hv)
    · intro tool max hall
      have hold := m.limits hall
      by_cases htool : l.spec.tool = tool
      · have hroom := h.room i _ max hview rfl (hold i _ hview htool)
        rw [htool] at hroom
        refine (livingOf_le_succ (i := i) fun j hj => ?_).trans hroom
        obtain ⟨v, hv, ht, hlive⟩ := lives_iff.mp hj
        rcases m.cases hv with ⟨rfl, -⟩ | ⟨-, hv⟩
        · exact .inl rfl
        · exact .inr (lives_iff.mpr ⟨v, hv, ht, hlive⟩)
      · refine le_trans (livingOf_le fun j hj => ?_) (h.bounded tool max hold)
        obtain ⟨v, hv, ht, hlive⟩ := lives_iff.mp hj
        rcases m.cases hv with ⟨-, rfl⟩ | ⟨-, hv⟩
        · exact absurd ht htool
        · exact lives_iff.mpr ⟨v, hv, ht, hlive⟩

theorem Registered.note (hspec : l'.spec = l.spec) (hphase : l'.phase = l.phase) : (s.put i l').Registered := by
  refine h.of_view (fun j => ?_) rfl
  by_cases hj : j = i
  · subst hj
    rw [view_put hget, view_of_get hget, hspec, hphase]
  · exact view_put_of_ne hj l'

omit hget

theorem Registered.orSelf {r : Except String Background} (hr : ∀ s', r = .ok s' → s'.Registered) :
    (s.orSelf r).Registered := by
  cases r with
  | ok s' => exact hr s' rfl
  | error e => exact h

omit h in
theorem cancel_ok {who cause : String} {asker : Option String} (hcancel : s.cancel runId who cause asker = .ok s') :
    ∃ i l by', s.launches[i]? = some l ∧ s' = s.stop i l cause by' := by
  unfold cancel at hcancel
  split at hcancel
  · cases hcancel
  · split at hcancel
    · cases hcancel
    · rename_i l hl
      dsimp only at hcancel
      split at hcancel
      · cases hcancel
      · split_ifs at hcancel
        exact ⟨_, l, _, hl, (Except.ok.inj hcancel).symm⟩

theorem Registered.step {a : BackgroundAction} (hone : s.OneByOne a)
    (hstep : s.step runId a = some s') : s'.Registered := by
  cases a with try (replace hstep := bind_eq_some_iff.mp hstep; obtain ⟨l, hget, hstep⟩ := hstep)
  | launch spec => exact some.inj hstep ▸ h.launch spec hone
  | name i =>
    split at hstep
    · rename_i hphase
      refine some.inj hstep ▸ h.name hget hphase (hone l.spec ?_)
      rw [view_of_get hget, hphase]
    · cases hstep
  | register i =>
    split at hstep
    · rename_i handle hphase
      exact some.inj hstep ▸ h.register hget hphase
    · cases hstep
  | start i refusal =>
    split at hstep
    · rename_i handle hphase
      refine some.inj hstep ▸ h.goOn ⟨hget, rfl, rfl⟩ ?_ ?_ (fun _ _ _ hl => hl) (fun _ hm => hm) ?_
      · cases refusal <;> rfl
      · rw [hphase]
        exact fun _ => rfl
      · intro k hk
        rw [hphase]
        refine ⟨?_, rfl⟩
        cases refusal <;> exact hk
    · cases hstep
  | finish i =>
    split at hstep
    · rename_i handle hphase
      refine some.inj hstep ▸ h.goOn ⟨hget, rfl, rfl⟩ rfl (fun hl => nomatch hl) (fun _ _ _ hl => hl)
        (fun _ hm => hm) fun k hk => ?_
      rw [hphase]
      exact ⟨hk, rfl⟩
    · cases hstep
  | remove i =>
    split at hstep
    · rename_i handle hphase
      have hview := view_of_get hget
      rw [hphase] at hview
      obtain ⟨hbare, hown⟩ := h.owned i _ handle hview rfl
      have hne : ∀ k, k ≠ handle → (s.entries.erase handle).lookup k = s.entries.lookup k :=
        fun k hk => lookup_erase_ne hk
      rw [hbare] at hstep
      refine some.inj hstep ▸ h.goOn ⟨hget, rfl, rfl⟩ rfl (fun hl => nomatch hl) ?_ ?_ (fun k hk => nomatch hk)
      · intro k j hj hk
        have hk' : k ≠ handle := by
          rintro rfl
          exact hj (some.inj (hk.symm.trans hown))
        exact (hne k hk').trans hk
      · exact fun k hk => (mem_erase.mp hk).2
    · cases hstep
  | cancel who cause asker =>
    refine some.inj hstep ▸ h.orSelf fun s' hs' => ?_
    obtain ⟨i, l, _, hget, rfl⟩ := cancel_ok hs'
    exact h.note hget rfl rfl
  | cancelOnBehalf who name =>
    refine some.inj hstep ▸ h.orSelf fun s' hs' => ?_
    unfold cancelOnBehalf at hs'
    split at hs'
    · cases hs'
    · split at hs'
      · cases hs'
      · rename_i l hget
        split_ifs at hs'
        exact Except.ok.inj hs' ▸ h.note hget rfl rfl
  | cancelByParent handle =>
    refine some.inj hstep ▸ h.orSelf fun s' hs' => ?_
    unfold cancelByParent at hs'
    split at hs'
    · cases hs'
    · split at hs'
      · cases hs'
      · rename_i l hget
        split_ifs at hs'
        · exact Except.ok.inj hs' ▸ h.note hget rfl rfl
        · exact Except.ok.inj hs' ▸ h
  | noteCause handle cause who =>
    refine some.inj hstep ▸ ?_
    unfold noteCause
    split
    · exact h
    · split
      · exact h
      · rename_i l hget
        exact h.note hget rfl rfl

omit h

theorem Registered.start : (Background.mk ∅ 1 []).Registered where
  owned _ _ _ hv := nomatch hv
  fresh _ _ _ hv := nomatch hv
  alone _ _ _ _ hv := nomatch hv
  room _ _ _ hv := nomatch hv
  bounded _ max _ := Nat.zero_le max

theorem LivesUnder.entered {h : String} (hlives : s.LivesUnder i h) :
    ∃ l, s.launches[i]? = some l ∧ l.phase.isAlive ∧ s.view i = some (l.spec, l.phase) ∧ l.phase.entered = some h := by
  obtain ⟨spec, hv | hv⟩ := hlives <;> obtain ⟨l, hl, heq⟩ := map_eq_some_iff.mp hv <;>
    · have hphase := (Prod.mk.inj heq).2
      refine ⟨l, hl, ?_, view_of_get hl, ?_⟩ <;> rw [hphase] <;> rfl

theorem Registered.present {h : String} (hreg : s.Registered) (hlives : s.LivesUnder i h) :
    bare h = h ∧ s.entries.lookup h = some i := by
  obtain ⟨l, -, -, hv, hentered⟩ := hlives.entered
  exact hreg.owned i _ h hv hentered

theorem Registered.reached {h : String} (hreg : s.Registered) (runId : Nat → String) (cause : String)
    (hlives : s.LivesUnder i h) :
    ∃ s' l, s.cancel runId h cause none = .ok s' ∧ s'.launches[i]? = some l ∧ l.cancelled := by
  obtain ⟨hbare, hlookup⟩ := hreg.present hlives
  obtain ⟨l, hget, halive, -, -⟩ := hlives.entered
  have hfind : s.find runId h = some (h, i) := by
    unfold find
    rw [hbare, hlookup]
  have hcancel : s.cancel runId h cause none = .ok (s.stop i l cause "host") := by
    unfold cancel
    rw [hfind]
    dsimp only
    rw [hget]
    exact if_pos halive
  exact ⟨_, _, hcancel, List.getElem?_set_self (List.getElem?_eq_some_iff.mp hget).1, rfl⟩

/-- However launches, ends and cancellations interleave, as long as launches are
made one at a time and no numbered handle is taken, no two living runs share a
handle, each is found under its own, and the limits hold. -/
theorem launches_orderly {runId : Nat → String}
    (h : ReachableUnder OneByOne (step · runId) ⟨∅, 1, []⟩ s) : s.Orderly runId := by
  have hreg : s.Registered := h.invariant .start fun _ _ _ hr hone hstep => hr.step hone hstep
  refine ⟨?_, fun i h hl => (hreg.present hl).2, fun i h cause hl => hreg.reached runId cause hl, hreg.bounded⟩
  intro i j handle hi hj
  exact some.inj ((hreg.present hi).2.symm.trans (hreg.present hj).2)

def tailSpec : Spawn where
  tool := "tail"
  maxAlive := some 2

def twoInTurn : List BackgroundAction :=
  [.launch tailSpec, .name 0, .register 0, .start 0 none, .launch tailSpec, .name 1, .register 1]

/-- The same launches, but both look for a handle before either has its entry. -/
def twoAtOnce : List BackgroundAction :=
  [.launch { tailSpec with maxAlive := some 1 }, .launch { tailSpec with maxAlive := some 1 }, .name 0, .name 1,
    .register 0, .register 1]

theorem launches_orderly_two : ∃ s, run (step · toString) ⟨∅, 1, []⟩ twoInTurn = some s ∧
    s.LivesUnder 0 "tail" ∧ s.LivesUnder 1 "tail-1" ∧ s.Orderly toString := by
  have hrun : run (step · toString) ⟨∅, 1, []⟩ twoInTurn = some _ := rfl
  have hfirst : (mk ∅ 1 []).OneByOne (.launch tailSpec) := fun i v hv => nomatch hv
  have hallowed : Allowed OneByOne (step · toString) ⟨∅, 1, []⟩ twoInTurn := by
    refine .intro hfirst (.intro (fun _ _ h => absurd h (notMem_empty _)) (.intro trivial (.intro trivial
      (.intro ?_ (.intro ?_ (.intro trivial trivial))))))
    · rintro (_ | i) v hv
      · cases hv
        exact Bool.false_ne_true
      · cases hv
    · intro spec hv _
      cases hv
      decide
  refine ⟨_, hrun, ⟨tailSpec, .inr rfl⟩, ⟨tailSpec, .inl rfl⟩, launches_orderly (ReachableUnder.init.run hallowed hrun)⟩

theorem handle_shared : ∃ s, Reachable (step · toString) ⟨∅, 1, []⟩ s ∧
    s.LivesUnder 0 "tail" ∧ s.LivesUnder 1 "tail" ∧ s.entries.lookup "tail" = some 1 ∧ s.livingOf "tail" = 2 ∧
      ¬ s.Orderly toString := by
  have hrun : run (step · toString) ⟨∅, 1, []⟩ twoAtOnce = some _ := rfl
  refine ⟨_, Reachable.init.run hrun, ⟨_, .inl rfl⟩, ⟨_, .inl rfl⟩, rfl, rfl, fun h => ?_⟩
  cases h.distinct 0 1 "tail" ⟨_, .inl rfl⟩ ⟨_, .inl rfl⟩

end Background

end Rag3db.Weaver
