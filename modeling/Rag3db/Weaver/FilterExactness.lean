import Rag3db.Weaver.FilterMeaning

open List

namespace Rag3db.Weaver

open Weaver.Language Library.Fallible

namespace Truth

def rank : Truth → ℕ
  | some false => 0
  | none => 1
  | some true => 2

theorem rank_injective : Function.Injective rank := by
  intro v w h
  rcases v with _ | _ | _ <;> rcases w with _ | _ | _ <;> first | rfl | simp [rank] at h

theorem rank_and (v w : Truth) : rank (v.and w) = min (rank v) (rank w) := by
  rcases v with _ | _ | _ <;> rcases w with _ | _ | _ <;> rfl

theorem rank_or (v w : Truth) : rank (v.or w) = max (rank v) (rank w) := by
  rcases v with _ | _ | _ <;> rcases w with _ | _ | _ <;> rfl

variable {vs : List Truth} {v : Truth}

theorem rank_all_le (h : v ∈ vs) : rank (all vs) ≤ rank v := by
  induction vs with
  | nil => simp at h
  | cons w vs ih =>
    rw [show all (w :: vs) = w.and (all vs) from rfl, rank_and]
    rcases mem_cons.1 h with rfl | h
    · exact min_le_left _ _
    · exact (min_le_right _ _).trans (ih h)

theorem rank_le_any (h : v ∈ vs) : rank v ≤ rank (any vs) := by
  induction vs with
  | nil => simp at h
  | cons w vs ih =>
    rw [show any (w :: vs) = w.or (any vs) from rfl, rank_or]
    rcases mem_cons.1 h with rfl | h
    · exact le_max_left _ _
    · exact (ih h).trans (le_max_right _ _)

theorem rank_le_two (v : Truth) : rank v ≤ 2 := by rcases v with _ | _ | _ <;> simp [rank]

theorem eq_of_forall (hne : vs ≠ []) (h : ∀ w ∈ vs, w = v) : all vs = v ∧ any vs = v := by
  induction vs with
  | nil => exact absurd rfl hne
  | cons w vs ih =>
    obtain rfl := h w mem_cons_self
    cases vs with
    | nil => exact ⟨and_true w, or_false w⟩
    | cons u vs =>
      obtain ⟨hall, hany⟩ := ih (by simp) fun x hx => h x (mem_cons_of_mem w hx)
      refine ⟨(congrArg w.and hall).trans ?_, (congrArg w.or hany).trans ?_⟩ <;>
        rcases w with _ | _ | _ <;> rfl

theorem any_eq_true_iff : any vs = some true ↔ some true ∈ vs := by
  constructor
  · intro h
    induction vs with
    | nil => simp [any] at h
    | cons w vs ih =>
      rw [show any (w :: vs) = w.or (any vs) from rfl] at h
      by_cases hw : w = some true
      · exact hw ▸ mem_cons_self
      · rcases w with _ | _ | _ <;> rcases hv : any vs with _ | _ | _ <;> simp_all [or]
  · intro h
    have := rank_le_any h
    refine rank_injective (le_antisymm ?_ this)
    exact rank_le_two _

/-- A conjunction and a disjunction over more values agree only if all values agree. -/
theorem all_eq_any_iff {ws : List Truth} (hne : vs ≠ []) (hsub : ∀ v ∈ vs, v ∈ ws)
    (hrest : ∀ w ∈ ws, w ∉ vs → w = some true) : all vs = any ws ↔ ∃ v, ∀ w ∈ ws, w = v := by
  constructor
  · intro h
    refine ⟨all vs, fun w hw => rank_injective (le_antisymm (h ▸ rank_le_any hw) ?_)⟩
    by_cases hv : w ∈ vs
    · exact rank_all_le hv
    · rw [hrest w hw hv]
      exact rank_le_two _
  · rintro ⟨v, hv⟩
    have hws : ws ≠ [] := by
      obtain ⟨u, us, rfl⟩ := exists_cons_of_ne_nil hne
      exact ne_nil_of_mem (hsub u mem_cons_self)
    rw [(eq_of_forall hne fun w hw => hv w (hsub w hw)).1, (eq_of_forall hws hv).2]

theorem not_injective : Function.Injective Truth.not := by
  intro v w h
  rcases v with _ | _ | _ <;> rcases w with _ | _ | _ <;> first | rfl | simp [Truth.not] at h

end Truth

namespace Language

variable (lang : Language)

mutual

/-- What a filter tree says of an object: `must` of all members, `should` of one, `mustNot` of none, a
group without members putting no constraint. -/
def meaning : FilterCondition → Value → Truth
  | .field key value, x => lang.valueMeaning Nat.cast (lang.get x [fieldOf key]) value
  | .path path value, x => lang.valueMeaning Nat.cast (lang.get x path) value
  | .nested path c, x => some ((lang.elements (lang.get x path)).any fun e => meaning c e == some true)
  | .must cs, x => Truth.all (meanings cs x)
  | .should cs, x => if cs.isEmpty then some true else Truth.any (meanings cs x)
  | .mustNot cs, x => (Truth.any (meanings cs x)).not

def meanings : List FilterCondition → Value → List Truth
  | [], _ => []
  | c :: cs, x => meaning c x :: meanings cs x

end

mutual

/-- The conditions of a tree at every depth, with the object each is asked of. -/
def parts : FilterCondition → Value → List (FilterCondition × Value)
  | .field key value, x => [(.field key value, x)]
  | .path path value, x => [(.path path value, x)]
  | .nested path c, x =>
    (.nested path c, x) :: (lang.elements (lang.get x path)).flatMap fun e => parts c e
  | .must cs, x => (.must cs, x) :: partsOf cs x
  | .should cs, x => (.should cs, x) :: partsOf cs x
  | .mustNot cs, x => (.mustNot cs, x) :: partsOf cs x

def partsOf : List FilterCondition → Value → List (FilterCondition × Value)
  | [], _ => []
  | c :: cs, x => parts c x ++ partsOf cs x

end

/-- The members of the group are such that dropping the free ones and joining the others by `AND` under a
`NOT` does no harm: a `should` with a free member has another member that holds, and the members of a
`mustNot`, one of which puts a constraint, all have the same truth. -/
def Fair : FilterCondition → Value → Prop
  | .should cs, x => (∃ c ∈ cs, c.free = false) → (∃ c ∈ cs, c.free = true) →
      ∃ c ∈ cs, c.free = false ∧ lang.meaning c x = some true
  | .mustNot cs, x => cs = [] ∨ (∃ c ∈ cs, c.free = false) ∧ ∃ v, ∀ c ∈ cs, lang.meaning c x = v
  | _, _ => True

variable {lang}

theorem meanings_eq (cs : List FilterCondition) (x : Value) :
    lang.meanings cs x = cs.map fun c => lang.meaning c x := by
  induction cs with
  | nil => rfl
  | cons c cs ih => rw [meanings, ih, map_cons]

theorem partsOf_eq (cs : List FilterCondition) (x : Value) :
    lang.partsOf cs x = cs.flatMap fun c => lang.parts c x := by
  induction cs with
  | nil => rfl
  | cons c cs ih => rw [partsOf, ih, flatMap_cons]

theorem self_mem_parts (c : FilterCondition) (x : Value) : (c, x) ∈ lang.parts c x := by
  cases c <;> simp [parts]

theorem valueMeaning_of_bounded {value : FilterValue} (h : value.bounded = true) (x : Value) :
    lang.valueMeaning asI64 x value = lang.valueMeaning Nat.cast x value := by
  have hcast : ∀ (t : Test) (k : Option ℕ), k.all (· < 2 ^ 63) = true →
      (k.map fun n => lang.truth t x (.int (asI64 n))) = k.map fun n : ℕ => lang.truth t x (.int n) := by
    intro t k hk
    cases k with
    | none => rfl
    | some k => rw [Option.map_some, asI64, if_pos (of_decide_eq_true hk), Option.map_some]
  have hop : ∀ op : FilterOp, op.bounded = true → lang.opMeaning asI64 x op = lang.opMeaning Nat.cast x op := by
    intro op hop
    cases op with
    | valuesCount min max =>
      rw [FilterOp.bounded, Bool.and_eq_true] at hop
      rw [opMeaning, opMeaning, hcast _ min hop.1, hcast _ max hop.2]
    | _ => rfl
  cases value with
  | ops operators =>
    refine congrArg Truth.all (map_congr_left fun op hmem => hop op ?_)
    exact all_eq_true.1 h op hmem
  | list _ | direct _ => rfl

theorem compiled_of_free {c : FilterCondition} (h : c.free = true) (x : Value) : lang.compiled c x = some true := by
  have hvalue : ∀ (value : FilterValue) (y : Value), value.free = true →
      lang.valueMeaning asI64 y value = some true := by
    intro value y hv
    cases value with
    | ops operators =>
      have hnil : (operators.filter fun op => !op.free) = [] := by
        rw [List.filter_eq_nil_iff]
        intro op hop
        simp [all_eq_true.1 hv op hop]
      rw [valueMeaning, ← all_filter_free, hnil]
      rfl
    | list _ | direct _ => simp [FilterValue.free] at hv
  have hkept : ∀ cs, allFree cs = true → lang.kept cs x = [] := by
    intro cs hcs
    rw [allFree_eq, all_eq_true] at hcs
    rw [kept_eq, List.map_eq_nil_iff, List.filter_eq_nil_iff]
    exact fun c hc => by simp [hcs c hc]
  cases c with
  | field key value | path path value => exact hvalue value _ h
  | nested path c => simp [FilterCondition.free] at h
  | must cs => rw [compiled, hkept cs h]; rfl
  | should cs | mustNot cs => rw [compiled, show allFree cs = true from h]; rfl

section node

variable {cs : List FilterCondition} {x : Value} (h : ∀ c ∈ cs, lang.compiled c x = lang.meaning c x)

include h

theorem meaning_of_free {c : FilterCondition} (hc : c ∈ cs) (hfree : c.free = true) : lang.meaning c x = some true := by
  rw [← h c hc, compiled_of_free hfree]

theorem kept_eq_meaning : lang.kept cs x = (cs.filter fun c => !c.free).map fun c => lang.meaning c x := by
  rw [kept_eq]
  exact map_congr_left fun c hc => h c (mem_filter.1 hc).1

theorem compiled_must : lang.compiled (.must cs) x = lang.meaning (.must cs) x := by
  rw [compiled, meaning, kept_eq_meaning h, meanings_eq]
  exact Truth.all_map_filter _ _ cs fun c hc hfree => meaning_of_free h hc (by simpa using hfree)

theorem compiled_should_iff :
    lang.compiled (.should cs) x = lang.meaning (.should cs) x ↔ lang.Fair (.should cs) x := by
  unfold Fair
  by_cases hall : allFree cs = true
  · have hfree : ∀ c ∈ cs, c.free = true := by simpa [allFree_eq] using hall
    refine iff_of_true ?_ fun ⟨c, hc, hcf⟩ => by simp [hfree c hc] at hcf
    rw [compiled, if_pos hall]
    cases cs with
    | nil => rfl
    | cons c cs =>
      refine (Truth.any_eq_true_iff.2 ?_).symm
      rw [meanings, meaning_of_free h mem_cons_self (hfree c mem_cons_self)]
      exact mem_cons_self
  · have hne : cs.isEmpty = false := by
      cases cs with
      | nil => exact absurd rfl hall
      | cons => rfl
    have hc : ∃ c ∈ cs, c.free = false := by simpa [allFree_eq] using hall
    rw [compiled, meaning, if_neg hall, if_neg (by simp [hne]), kept_eq_meaning h, meanings_eq]
    by_cases hfree : ∃ c ∈ cs, c.free = true
    · have htrue : Truth.any (cs.map fun c => lang.meaning c x) = some true := by
        obtain ⟨c, hc, hcf⟩ := hfree
        exact Truth.any_eq_true_iff.2 (mem_map.2 ⟨c, hc, meaning_of_free h hc hcf⟩)
      rw [htrue, Truth.any_eq_true_iff]
      simp only [hc, hfree, true_implies, mem_map, mem_filter, Bool.not_eq_true', and_assoc]
    · have hfilter : (cs.filter fun c => !c.free) = cs := filter_eq_self.2 fun c hc => by
          simp only [not_exists, not_and] at hfree
          simp [hfree c hc]
      exact iff_of_true (by rw [hfilter]) fun _ hex => absurd hex hfree

theorem compiled_mustNot_iff :
    lang.compiled (.mustNot cs) x = lang.meaning (.mustNot cs) x ↔ lang.Fair (.mustNot cs) x := by
  unfold Fair
  by_cases hall : allFree cs = true
  · have hfree : ∀ c ∈ cs, c.free = true := by simpa [allFree_eq] using hall
    rw [compiled, meaning, if_pos hall]
    cases cs with
    | nil => exact iff_of_true rfl (Or.inl rfl)
    | cons c cs =>
      have htrue : Truth.any (lang.meanings (c :: cs) x) = some true := by
        refine Truth.any_eq_true_iff.2 ?_
        rw [meanings, meaning_of_free h mem_cons_self (hfree c mem_cons_self)]
        exact mem_cons_self
      refine iff_of_false (by rw [htrue]; decide) ?_
      rintro (h0 | ⟨⟨d, hd, hdf⟩, -⟩)
      · simp at h0
      · simp [hfree d hd] at hdf
  · have hc : ∃ c ∈ cs, c.free = false := by simpa [allFree_eq] using hall
    have hne : cs ≠ [] := by
      rintro rfl
      exact hall rfl
    rw [compiled, meaning, if_neg hall, Truth.not_injective.eq_iff, kept_eq_meaning h, meanings_eq,
      Truth.all_eq_any_iff]
    · simp only [hne, hc, false_or, true_and, mem_map, forall_exists_index, and_imp, forall_apply_eq_imp_iff₂]
    · obtain ⟨c, hc, hcf⟩ := hc
      exact ne_nil_of_mem (mem_map.2 ⟨c, mem_filter.2 ⟨hc, by simp [hcf]⟩, rfl⟩)
    · intro v hv
      obtain ⟨c, hc, rfl⟩ := mem_map.1 hv
      exact mem_map.2 ⟨c, (mem_filter.1 hc).1, rfl⟩
    · intro w hw hnot
      obtain ⟨c, hc, rfl⟩ := mem_map.1 hw
      cases hcf : c.free with
      | true => exact meaning_of_free h hc hcf
      | false => exact absurd (mem_map.2 ⟨c, mem_filter.2 ⟨hc, by simp [hcf]⟩, rfl⟩) hnot

end node

variable {cs : List FilterCondition} {x : Value}

theorem forall_partsOf {P : FilterCondition × Value → Prop} : (∀ q ∈ lang.partsOf cs x, P q)
    ↔ ∀ c ∈ cs, ∀ q ∈ lang.parts c x, P q := by
  rw [partsOf_eq]
  exact ⟨fun h c hc q hq => h q (mem_flatMap.2 ⟨c, hc, hq⟩), fun h q hq => by
    obtain ⟨c, hc, hq⟩ := mem_flatMap.1 hq
    exact h c hc q hq⟩

/-- A group is compiled as it is meant, with all its parts, exactly if it is fair with all its parts. -/
theorem exact_group_iff {group : FilterCondition}
    (ih : ∀ c ∈ cs, c.bounded = true → ((∀ q ∈ lang.parts c x, lang.compiled q.1 q.2 = lang.meaning q.1 q.2) ↔
      ∀ q ∈ lang.parts c x, lang.Fair q.1 q.2)) (hb : allBounded cs = true)
    (hparts : lang.parts group x = (group, x) :: lang.partsOf cs x)
    (hnode : (∀ c ∈ cs, lang.compiled c x = lang.meaning c x) →
      (lang.compiled group x = lang.meaning group x ↔ lang.Fair group x)) :
    (∀ q ∈ lang.parts group x, lang.compiled q.1 q.2 = lang.meaning q.1 q.2) ↔
      ∀ q ∈ lang.parts group x, lang.Fair q.1 q.2 := by
  rw [allBounded_eq, all_eq_true] at hb
  rw [hparts, forall_mem_cons, forall_mem_cons, forall_partsOf, forall_partsOf,
    ← forall₂_congr fun c hc => ih c hc (hb c hc)]
  exact and_congr_left fun hmembers => hnode fun c hc => hmembers c hc (c, x) (self_mem_parts c x)

theorem exact_iff (c : FilterCondition) (x : Value) (hb : c.bounded = true) :
    (∀ q ∈ lang.parts c x, lang.compiled q.1 q.2 = lang.meaning q.1 q.2) ↔ ∀ q ∈ lang.parts c x, lang.Fair q.1 q.2 := by
  induction c using FilterCondition.induction generalizing x with
  | field key value | path path value =>
    refine iff_of_true ?_ (by simp [parts, Fair])
    simpa [parts, compiled, meaning] using valueMeaning_of_bounded hb _
  | nested path c ih =>
    rw [parts, forall_mem_cons, forall_mem_cons]
    have hflat : ∀ P : FilterCondition × Value → Prop,
        (∀ q ∈ (lang.elements (lang.get x path)).flatMap fun e => lang.parts c e, P q) ↔
          ∀ e ∈ lang.elements (lang.get x path), ∀ q ∈ lang.parts c e, P q := by
      intro P
      simp only [mem_flatMap, forall_exists_index, and_imp]
      exact forall_comm.trans (forall_congr' fun e => forall_comm)
    rw [hflat, hflat, ← forall₂_congr fun e _ => ih e hb]
    refine and_congr_left fun helements => iff_of_true ?_ trivial
    simp only [compiled, meaning, Option.some.injEq]
    rw [Bool.eq_iff_iff, any_eq_true, any_eq_true]
    refine exists_congr fun e => and_congr_right fun he => ?_
    rw [helements e he (c, e) (self_mem_parts c e)]
  | must cs ih =>
    exact exact_group_iff (fun c hc => ih c hc x) hb rfl fun h => iff_of_true (compiled_must h) trivial
  | should cs ih => exact exact_group_iff (fun c hc => ih c hc x) hb rfl compiled_should_iff
  | mustNot cs ih => exact exact_group_iff (fun c hc => ih c hc x) hb rfl compiled_mustNot_iff

end Language

namespace FilterParser

open Dialect

variable {p : FilterParser} {d : Dialect} {owner : String} {path : List String} {s : ParserState}

theorem buildOpClause_eq_none {op : FilterOp} : (d.buildOpClause owner path op s).1 = none ↔ op.free = true := by
  cases op with
  | valuesCount min max => cases min <;> cases max <;> simp [buildOpClause, FilterOp.free]
  | hasAny | hasAll | hasNone =>
    unfold buildOpClause
    dsimp only
    split <;> simp [FilterOp.free]
  | _ => simp [buildOpClause, FilterOp.free]

theorem exists_emptyPredicate {value : FilterValue} :
    (∃ r, emptyPredicate (d.buildClause owner path value s) = .ok r) ↔ value.free = false := by
  have hnil : ∀ operators s, (d.buildOpClauses owner path operators s).1 = [] ↔ operators.all FilterOp.free = true := by
    intro operators
    induction operators with
    | nil => simp [buildOpClauses]
    | cons op operators ih => simp [buildOpClauses, ih, buildOpClause_eq_none]
  cases value with
  | direct v =>
    unfold buildClause
    dsimp only
    split <;> exact iff_of_true ⟨_, rfl⟩ rfl
  | list items => exact iff_of_true ⟨_, rfl⟩ rfl
  | ops operators =>
    rw [FilterValue.free, ← Bool.not_eq_true, ← hnil operators s]
    unfold buildClause
    rcases hr : d.buildOpClauses owner path operators s with ⟨_ | _, _⟩ <;> simp [emptyPredicate, hr]

theorem exists_bind {α β ε : Type} {x : Except ε α} {f : α → Except ε β} {a : α} (ha : x = .ok a)
    (hb : ∃ b, f a = .ok b) : ∃ b, (x >>= f) = .ok b := by
  rw [ha]
  exact hb

theorem exists_structuredGroup {combine : List Clause → Clause}
    {members : Except FilterError (List Clause × ParserState)}
    (hne : cs ≠ []) (h : ∃ rs, members = .ok rs) : ∃ r, structuredGroup combine cs members = .ok r := by
  obtain ⟨rs, rfl⟩ := h
  exact ⟨_, if_neg (by simpa using hne)⟩

variable {c : FilterCondition} {depth depth' : ℕ} {r : Clause × ParserState} {rs : List Clause × ParserState}

def Structured (p : FilterParser) (depth : ℕ) (c : FilterCondition) : Prop :=
  ∀ owner s, ∃ r, p.structuredClause c owner depth s = .ok r

theorem exists_of_mem_structured (h : p.structuredClauses cs owner depth s = .ok rs) (hc : c ∈ cs) :
    ∃ s r, p.structuredClause c owner depth s = .ok r := by
  induction cs generalizing s rs with
  | nil => cases hc
  | cons c' cs ih =>
    obtain ⟨r1, h1, h⟩ := bind_eq_ok h
    obtain ⟨r2, h2, -⟩ := bind_eq_ok h
    rcases mem_cons.1 hc with rfl | hc
    · exact ⟨s, r1, h1⟩
    · exact ih h2 hc

theorem structured_clauses (h : ∀ c ∈ cs, p.Structured depth c) (owner : String) (s : ParserState) :
    ∃ rs, p.structuredClauses cs owner depth s = .ok rs := by
  induction cs generalizing s with
  | nil => exact ⟨_, rfl⟩
  | cons c cs ih =>
    obtain ⟨r1, h1⟩ := h c mem_cons_self owner s
    obtain ⟨r2, h2⟩ := ih (fun c hc => h c (mem_cons_of_mem _ hc)) r1.2
    exact exists_bind h1 (exists_bind h2 ⟨_, rfl⟩)

/-- Where a structured clause is built does not matter, as long as it is not deeper. -/
theorem structured_of_eq_ok (h : p.structuredClause c owner depth s = .ok r) (hle : depth' ≤ depth) :
    p.Structured depth' c := by
  intro owner' s'
  induction c using FilterCondition.induction generalizing owner owner' depth depth' s s' r with (
      unfold structuredClause at h ⊢
      split_ifs at h with hfields hdepth
      rw [if_neg (not_not.2 hfields), if_neg (by omega)])
  | field key value | path path value =>
    obtain ⟨_, hvalid, h⟩ := bind_eq_ok h
    exact exists_bind hvalid (exists_emptyPredicate.2 (exists_emptyPredicate.1 ⟨r, h⟩))
  | nested path c ih =>
    obtain ⟨_, hvalid, h⟩ := bind_eq_ok h
    obtain ⟨r1, h1, -⟩ := bind_eq_ok h
    obtain ⟨r2, h2⟩ := ih h1 (Nat.succ_le_succ hle) _ s'
    exact exists_bind hvalid (exists_bind h2 ⟨_, rfl⟩)
  | must cs ih | should cs ih | mustNot cs ih =>
    obtain ⟨hne, r1, h1, -⟩ := structuredGroup_eq_ok h
    refine exists_structuredGroup hne (structured_clauses (fun c hc owner s => ?_) owner' s')
    obtain ⟨s1, r1, h1⟩ := exists_of_mem_structured h1 hc
    exact ih c hc h1 (Nat.succ_le_succ hle) owner s

/-- The condition is about its own entity, and a clause is built for it. -/
structure Built (p : FilterParser) (c : FilterCondition) : Prop where
  own : p.ownKeys c = true
  ok : ∀ s, s.Numbered → p.Homed s → ∃ r, p.buildConditionClause c s = .ok r

theorem allOwn_eq (cs : List FilterCondition) : p.allOwn cs = cs.all p.ownKeys := by
  induction cs with
  | nil => rfl
  | cons c cs ih => rw [allOwn, ih, all_cons]

section

variable (lang : Language)
include lang

theorem exists_of_mem_built (hs : s.Numbered) (hh : p.Homed s) (hown : p.allOwn cs = true)
    (h : p.buildConditionClauses cs s = .ok rs) (hc : c ∈ cs) :
    ∃ s r, s.Numbered ∧ p.Homed s ∧ p.ownKeys c = true ∧ p.buildConditionClause c s = .ok r := by
  induction cs generalizing s rs with
  | nil => cases hc
  | cons c' cs ih =>
    obtain ⟨r1, h1, h⟩ := bind_eq_ok h
    obtain ⟨r2, h2, -⟩ := bind_eq_ok h
    rw [allOwn, Bool.and_eq_true] at hown
    have hgrow := (says_buildConditionClause lang c' s r1 hs hh hown.1 h1).1
    rcases mem_cons.1 hc with rfl | hc
    · exact ⟨s, r1, hs, hh, hown.1, h1⟩
    · exact ih (hgrow.numbered hs) (hgrow.homed hh) hown.2 h2 hc

theorem built_clauses (h : ∀ c ∈ cs, p.Built c) (hs : s.Numbered) (hh : p.Homed s) :
    ∃ rs, p.buildConditionClauses cs s = .ok rs := by
  induction cs generalizing s with
  | nil => exact ⟨_, rfl⟩
  | cons c cs ih =>
    have hc := h c mem_cons_self
    obtain ⟨r1, h1⟩ := hc.ok s hs hh
    have hgrow := (says_buildConditionClause lang c s r1 hs hh hc.own h1).1
    obtain ⟨r2, h2⟩ := ih (fun c hc => h c (mem_cons_of_mem _ hc)) (hgrow.numbered hs) (hgrow.homed hh)
    exact exists_bind h1 (exists_bind h2 ⟨_, rfl⟩)

variable {join : List FilterCondition → FilterCondition} (hjoin : join = .must ∨ join = .should ∨ join = .mustNot)
include hjoin

theorem built_group (h : ∀ c ∈ cs, p.Built c) : p.Built (join cs) := by
  have hown : p.allOwn cs = true := by
    rw [allOwn_eq, all_eq_true]
    exact fun c hc => (h c hc).own
  rcases hjoin with rfl | rfl | rfl <;> exact ⟨hown, fun s hs hh => by
    obtain ⟨rs, hrs⟩ := built_clauses lang h hs hh
    exact ⟨_, by rw [buildConditionClause, hrs]; rfl⟩⟩

variable {lang} {q : FilterCondition × Value}

theorem built_parts_group (h : ∀ c ∈ cs, ∀ q ∈ lang.parts c x, p.Built q.1) (hq : q ∈ lang.parts (join cs) x) :
    p.Built q.1 := by
  have hq : q = (join cs, x) ∨ q ∈ lang.partsOf cs x := by
    rcases hjoin with rfl | rfl | rfl <;> exact mem_cons.1 hq
  rcases hq with rfl | hq
  · exact built_group lang hjoin fun c hc => h c hc (c, x) (self_mem_parts c x)
  · exact forall_partsOf.2 h q hq

end

variable {lang : Language} {q : FilterCondition × Value}

section parts

variable (hentity : isValidIdentifier p.resultEntity = true)
include hentity

theorem built_field {key : String} {value : FilterValue} (hown : p.ownKeys (.field key value) = true)
    (hfield : isValidIdentifier (fieldOf key) = true) : p.Built (.field key value) := by
  refine ⟨hown, fun s _ hh => ?_⟩
  have halias : p.aliasOf p.resultEntity s = .ok (p.resultAlias, s) := by
    unfold aliasOf
    rw [show (s.aliases.find? fun a => a.1 = p.resultEntity) = some (p.resultEntity, p.resultAlias) from hh]
  rw [buildConditionClause, p.resolveKey_own (by simpa [ownKeys] using hown)]
  exact exists_bind (if_pos hentity) (exists_bind (if_pos hfield) (exists_bind halias ⟨_, rfl⟩))

theorem built_structured_parts (h : p.structuredClause c owner depth s = .ok r) (hq : q ∈ lang.parts c x) :
    p.Built q.1 := by
  have hself := structured_of_eq_ok h (Nat.zero_le _) p.resultAlias
  induction c using FilterCondition.induction generalizing owner depth s r x q with
  | field key value =>
    rw [mem_singleton.1 hq]
    unfold structuredClause at h
    split_ifs at h
    obtain ⟨_, hvalid, -⟩ := bind_eq_ok h
    have hvalid := validateIdentifier_eq_ok hvalid
    have hkey := splitOnce_of_valid hvalid
    exact built_field hentity (by simp [ownKeys, resolveKey, hkey]) (by simpa [fieldOf, hkey] using hvalid)
  | path path value =>
    rw [mem_singleton.1 hq]
    exact ⟨rfl, fun s _ _ => hself s⟩
  | nested path c ih =>
    rcases mem_cons.1 hq with rfl | hq
    · exact ⟨rfl, fun s _ _ => hself s⟩
    · obtain ⟨e, -, hq⟩ := mem_flatMap.1 hq
      unfold structuredClause at h
      split_ifs at h
      obtain ⟨_, -, h⟩ := bind_eq_ok h
      obtain ⟨r1, h1, -⟩ := bind_eq_ok h
      exact ih h1 hq (structured_of_eq_ok h1 (Nat.zero_le _) _)
  | must cs ih | should cs ih | mustNot cs ih =>
    unfold structuredClause at h
    split_ifs at h
    obtain ⟨-, rs, hrs, -⟩ := structuredGroup_eq_ok h
    refine built_parts_group (by simp) (fun c hc q hq => ?_) hq
    obtain ⟨s, r, h⟩ := exists_of_mem_structured hrs hc
    exact ih c hc h hq (structured_of_eq_ok h (Nat.zero_le _) _)

theorem built_parts (hs : s.Numbered) (hh : p.Homed s) (hown : p.ownKeys c = true)
    (h : p.buildConditionClause c s = .ok r) (hq : q ∈ lang.parts c x) : p.Built q.1 := by
  induction c using FilterCondition.induction generalizing s r q with
  | field key value =>
    rw [mem_singleton.1 hq]
    rw [buildConditionClause, p.resolveKey_own (by simpa [ownKeys] using hown)] at h
    obtain ⟨_, -, h⟩ := bind_eq_ok h
    obtain ⟨_, hfield, -⟩ := bind_eq_ok h
    exact built_field hentity hown (validateIdentifier_eq_ok hfield)
  | path path value | nested path c ih => exact built_structured_parts hentity h hq
  | must cs ih | should cs ih | mustNot cs ih =>
    obtain ⟨rs, hrs, -⟩ := map_eq_ok h
    refine built_parts_group (by simp) (fun c hc q hq => ?_) hq
    obtain ⟨s, r, hs, hh, hown, h⟩ := exists_of_mem_built lang hs hh hown hrs hc
    exact ih c hc hs hh hown h hq

end parts

def WhereIs (p : FilterParser) (lang : Language) (parsed : ParsedFilter) (x : Value) (v : Truth) : Prop :=
  if parsed.whereClause.isEmpty then v = some true
  else ∀ scope : String → Value, scope p.resultAlias = x → lang.Evaluates parsed.params scope parsed.whereClause v

variable {parsed : ParsedFilter}

theorem WhereIs.unique {v w : Truth} (hv : p.WhereIs lang parsed x v) (hw : p.WhereIs lang parsed x w) : v = w := by
  unfold WhereIs at hv hw
  split_ifs at hv hw
  · exact hv.trans hw.symm
  · exact (hv (fun _ => x) rfl).unique (hw (fun _ => x) rfl)

def initial (p : FilterParser) : ParserState := { aliases := [(p.resultEntity, p.resultAlias)] }

theorem homed_initial : p.Homed p.initial := by simp [Homed, initial]

theorem parseCondition_eq_ok (h : p.parseCondition c = .ok parsed) :
    isValidIdentifier p.resultEntity = true ∧ ∃ r, p.buildConditionClause c p.initial = .ok r ∧
      parsed.whereClause = r.1 ∧ parsed.params = r.2.params := by
  obtain ⟨u, hu, h⟩ := bind_eq_ok h
  obtain ⟨r, hr, h⟩ := bind_eq_ok h
  rw [Except.ok.injEq] at h
  subst h
  exact ⟨validateIdentifier_eq_ok hu, r, hr, rfl, rfl⟩

/-- The WHERE clause of a parsed condition has the value the condition compiles to. -/
theorem parseCondition_whereIs (lang : Language)
    (hown : p.ownKeys c = true) (h : p.parseCondition c = .ok parsed) (x : Value) :
    p.WhereIs lang parsed x (lang.compiled c x) := by
  obtain ⟨-, r, hr, hclause, hparams⟩ := parseCondition_eq_ok h
  have hmeans := says_buildConditionClause lang c p.initial r rfl homed_initial hown hr
  unfold WhereIs
  rw [hclause, hparams]
  cases hfree : c.free with
  | true =>
    rw [hmeans.2.1 hfree, compiled_of_free hfree]
    rfl
  | false =>
    have hclause := (hmeans.2.2 hfree).2 r.2.params
    have hne : r.1.isEmpty = false := by
      simpa using (hclause (fun _ => .null) prefix_rfl).ne_nil
    rw [hne]
    intro scope hscope
    have hvalue := (hclause scope prefix_rfl).conjunction.evaluates
    simpa only [hscope] using hvalue

theorem parseCondition_parts (hown : p.ownKeys c = true) (h : p.parseCondition c = .ok parsed)
    (hq : q ∈ lang.parts c x) :
    p.ownKeys q.1 = true ∧ ∃ parsed', p.parseCondition q.1 = .ok parsed' := by
  obtain ⟨hentity, r, hr, -, -⟩ := parseCondition_eq_ok h
  have hbuilt := built_parts (s := p.initial) hentity rfl homed_initial hown hr hq
  obtain ⟨r', hr'⟩ := hbuilt.ok p.initial rfl homed_initial
  exact ⟨hbuilt.own, exists_bind (if_pos hentity) (exists_bind hr' ⟨_, rfl⟩)⟩

/-- For a parsed tree and a row: the WHERE clause of every condition in the tree has the truth of the
condition, exactly if every `should` and `mustNot` in the tree is fair on the row. A number of values
that does not fit the query's integers is excluded. -/
theorem where_exact_iff (p : FilterParser) (lang : Language) (c : FilterCondition) (x : Value)
    (hown : p.ownKeys c = true) (hb : c.bounded = true) (parsed : ParsedFilter) (h : p.parseCondition c = .ok parsed) :
    (∀ q ∈ lang.parts c x, ∃ parsed', p.parseCondition q.1 = .ok parsed' ∧
        p.WhereIs lang parsed' q.2 (lang.meaning q.1 q.2)) ↔
      ∀ q ∈ lang.parts c x, lang.Fair q.1 q.2 := by
  rw [← exact_iff c x hb]
  refine forall₂_congr fun q hq => ?_
  obtain ⟨hownq, parsed', hparsed'⟩ := parseCondition_parts hown h hq
  have hvalue := parseCondition_whereIs lang hownq hparsed' q.2
  constructor
  · rintro ⟨parsed'', hparsed'', hmeaning⟩
    rw [hparsed', Except.ok.injEq] at hparsed''
    exact hvalue.unique (hparsed'' ▸ hmeaning)
  · intro hq'
    exact ⟨parsed', hparsed', hq' ▸ hvalue⟩

end FilterParser

def integerLanguage : Language where
  member x name :=
    match x with
    | .map fields => ((fields.find? fun f => f.1 = name).map Prod.snd).getD .null
    | _ => .null
  elements x :=
    match x with
    | .list items => items
    | _ => []
  truth t x v :=
    let equal : Value → Value → Truth := fun a b =>
      match a, b with
      | .int a, .int b => some (a = b)
      | _, _ => none
    let contains : Value → Value → Truth := fun a b =>
      match a with
      | .list items => Truth.any (items.map (equal b))
      | _ => none
    match t, v with
    | .compare .eq, v => equal x v
    | .listContains, v => contains x v
    | .listAny, .list items => Truth.any (items.map (contains x))
    | .listAll, .list items => Truth.all (items.map (contains x))
    | _, _ => none
  listAny _ _ := rfl
  listAll _ _ := rfl

def cardFilter : FilterParser where
  dialect := ⟨"rag3db", true, true⟩
  relations := []
  resultEntity := "Card"
  resultAlias := "n"

/-- A row of which one of two excluded conditions holds is selected. -/
theorem excluded_row_selected :
    let c : FilterCondition :=
      .mustNot [.field "owned" (.direct (.int 1)), .field "rarity" (.direct (.int 2))]
    let row : Value := .map [("owned", .int 1), ("rarity", .int 3)]
    ∃ parsed, cardFilter.parseCondition c = .ok parsed ∧ cardFilter.WhereIs integerLanguage parsed row (some true) ∧
      integerLanguage.meaning c row = some false := by
  intro c row
  exact ⟨_, rfl, FilterParser.parseCondition_whereIs integerLanguage (c := c) (by decide) rfl row, by decide⟩

theorem where_exact_excluded :
    let c : FilterCondition :=
      .must [.field "owned" (.direct (.int 1)), .mustNot [.field "rarity" (.direct (.int 2))]]
    let row : Value := .map [("owned", .int 1), ("rarity", .int 3)]
    ∃ parsed, cardFilter.ownKeys c = true ∧ c.bounded = true ∧ cardFilter.parseCondition c = .ok parsed ∧
      ((∀ q ∈ integerLanguage.parts c row, ∃ parsed', cardFilter.parseCondition q.1 = .ok parsed' ∧
        cardFilter.WhereIs integerLanguage parsed' q.2 (integerLanguage.meaning q.1 q.2)) ↔
      ∀ q ∈ integerLanguage.parts c row, integerLanguage.Fair q.1 q.2) := by
  intro c row
  exact ⟨_, by decide, by decide, rfl,
    FilterParser.where_exact_iff cardFilter integerLanguage c row (by decide) (by decide) _ rfl⟩

end Rag3db.Weaver
