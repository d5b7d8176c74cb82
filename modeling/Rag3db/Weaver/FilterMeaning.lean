import Rag3db.Library.Fallible
import Rag3db.Weaver.FilterReading

open List Except Function

namespace Rag3db.Weaver

open FilterParser Library.Fallible FilterCondition Truth

variable {lang : Language} {r : Clause × ParserState} {combine : List Clause → Clause} {key : String}

theorem structuredGroup_eq_ok {cs : List FilterCondition}
    {members : Except FilterError (List Clause × ParserState)} (h : structuredGroup combine cs members = .ok r) :
    cs ≠ [] ∧ ∃ r', members = .ok r' ∧ (combine r'.1, r'.2) = r := by
  unfold structuredGroup at h
  split_ifs at h with hcs
  exact ⟨by simpa using hcs, map_eq_ok h⟩

theorem emptyPredicate_eq_ok {r : Option Clause × ParserState} {r' : Clause × ParserState}
    (h : emptyPredicate r = .ok r') : r = (some r'.1, r'.2) := by
  obtain ⟨_ | clause, s⟩ := r
  · simp [emptyPredicate] at h
  · simp only [emptyPredicate, ok.injEq] at h
    rw [← h]

namespace Language

theorem atom_anyOf {params : List (ℕ × Value)} {scope : String → Value} (element owner : String)
    (path : List String) {predicate : Clause} {v : Value → Truth}
    (h : ∀ x, lang.Evaluates params (update scope element x) predicate (v x)) :
    lang.Atom params scope [.anyOf element owner path predicate]
      (some ((lang.elements (lang.get (scope owner) path)).any fun x => v x == some true)) := by
  have hmap : ∀ xs : List Value, ∃ bound, ∀ fuel ≥ bound,
      (xs.mapM fun x => whole (lang.readOr params fuel (update scope element x) predicate)) = some (xs.map v) := by
    intro xs
    induction xs with
    | nil => exact ⟨0, fun _ _ => rfl⟩
    | cons x xs ih =>
      obtain ⟨b1, h1⟩ := ih
      obtain ⟨b2, h2⟩ := h x
      refine ⟨b1 + b2, fun fuel hfuel => ?_⟩
      rw [mapM_cons, h1 fuel (by omega), h2 fuel (by omega)]
      rfl
  obtain ⟨bound, hb⟩ := hmap (lang.elements (lang.get (scope owner) path))
  refine of_succ bound fun fuel hfuel rest => ?_
  simp only [cons_append, readUnit, hb fuel hfuel, Option.map_some, any_map]
  rfl

end Language

/-- An identifier has no dot, so as a key it names a field of the object itself. -/
theorem splitOnce_of_valid (h : isValidIdentifier key = true) : splitOnce key = none := by
  have hdot : ∀ c ∈ key.toList, decide (c ≠ '.') = true := by
    intro c hc
    unfold isValidIdentifier at h
    have halnum : ∀ c : Char, (c.isAlphanum || decide (c = '_')) = true → c ≠ '.' := by
      rintro c hc rfl
      exact absurd hc (by decide)
    have halpha : ∀ c : Char, (c.isAlpha || decide (c = '_')) = true → c ≠ '.' := by
      rintro c hc rfl
      exact absurd hc (by decide)
    split at h
    · rename_i c' cs heq
      rw [heq] at hc
      rw [Bool.and_eq_true, all_eq_true] at h
      rcases mem_cons.1 hc with rfl | hc
      · simpa using halpha _ h.1
      · simpa using halnum _ (h.2 _ hc)
    · simp at h
  unfold splitOnce
  rw [span_eq_takeWhile_dropWhile, dropWhile_eq_nil_iff.2 hdot]

theorem validateIdentifier_eq_ok {name kind : String} {u : Unit}
    (h : validateIdentifier name kind = .ok u) : isValidIdentifier name = true := by
  unfold validateIdentifier at h
  split_ifs at h with hv
  exact hv

namespace Language

variable {cs : List FilterCondition}

theorem kept_of_constrained (h : ∀ c ∈ cs, c.free = false) (x : Value) :
    lang.kept cs x = cs.map fun c => lang.compiled c x := by
  rw [kept_eq, filter_eq_self.2 fun c hc => by simp [h c hc]]

theorem allFree_of_constrained (hne : cs ≠ []) (h : ∀ c ∈ cs, c.free = false) : allFree cs = false := by
  obtain ⟨c, cs, rfl⟩ := exists_cons_of_ne_nil hne
  rw [allFree, h c mem_cons_self, Bool.false_and]

variable (lang) (p : FilterParser)

/-- The clause of a structured condition constrains its object, and says what the condition compiles to. -/
def SaysStructured (c : FilterCondition) : Prop :=
  ∀ owner depth s r, s.Numbered → p.structuredClause c owner depth s = .ok r →
    c.free = false ∧ lang.Says s r fun scope => lang.compiled c (scope owner)

variable {lang p} {owner : String} {depth : ℕ}

theorem saysAll_structuredClauses (hcs : ∀ c ∈ cs, lang.SaysStructured p c) {s : ParserState}
    {r : List Clause × ParserState} (hs : s.Numbered)
    (h : p.structuredClauses cs owner depth s = .ok r) :
    (∀ c ∈ cs, c.free = false) ∧ lang.SaysAll s r fun scope => cs.map fun c => lang.compiled c (scope owner) := by
  induction cs generalizing s r with
  | nil =>
    rw [structuredClauses, ok.injEq] at h
    subst h
    exact ⟨by simp, saysAll_nil⟩
  | cons c cs ih =>
    obtain ⟨r1, h1, h⟩ := bind_eq_ok h
    obtain ⟨r2, h2, h⟩ := bind_eq_ok h
    obtain ⟨hfree, hmeans⟩ := hcs c mem_cons_self owner depth s r1 hs h1
    obtain ⟨hfrees, hall⟩ := ih (fun c hc => hcs c (mem_cons_of_mem _ hc)) (hmeans.1.numbered hs) h2
    rw [ok.injEq] at h
    subst h
    refine ⟨fun c' hc' => ?_, SaysAll.cons hmeans hall⟩
    rcases mem_cons.1 hc' with rfl | hc'
    · exact hfree
    · exact hfrees c' hc'

theorem says_emptyPredicate (lang : Language) {value : FilterValue}
    {path : List String} {s : ParserState} (hs : s.Numbered)
    (h : emptyPredicate (p.dialect.buildClause owner path value s) = .ok r) :
    value.free = false ∧ lang.Says s r fun scope => lang.valueMeaning asI64 (lang.get (scope owner) path) value := by
  have hr := emptyPredicate_eq_ok h
  obtain ⟨hfree, hmeans⟩ := says_buildClause hs owner path lang p.dialect value
  cases hv : value.free with
  | true =>
    have := (hfree hv).1
    rw [hr] at this
    simp at this
  | false =>
    obtain ⟨clause, hclause, hmeans⟩ := hmeans hv
    rw [hr, Option.some.injEq] at hclause
    rw [hr, ← hclause] at hmeans
    exact ⟨rfl, hmeans⟩

theorem says_structuredGroup {f : List Truth → Truth} {s : ParserState}
    (hcs : ∀ c ∈ cs, lang.SaysStructured p c) (hs : s.Numbered)
    (h : structuredGroup combine cs (p.structuredClauses cs owner depth s) = .ok r)
    (hjoin : ∀ {r vs}, lang.SaysAll s r vs → r.1 ≠ [] → lang.Says s (combine r.1, r.2) fun scope => f (vs scope)) :
    allFree cs = false ∧ lang.Says s r fun scope => f (lang.kept cs (scope owner)) := by
  obtain ⟨hne, r', hr', rfl⟩ := structuredGroup_eq_ok h
  obtain ⟨hfree, hall⟩ := saysAll_structuredClauses hcs hs hr'
  have hne' : r'.1 ≠ [] := fun h0 => hne (by simpa using (hall.eq_nil_iff fun _ => .null).1 h0)
  refine ⟨allFree_of_constrained hne hfree, (hjoin hall hne').of_eq fun scope => ?_⟩
  rw [kept_of_constrained hfree]

theorem says_structuredClause (c : FilterCondition) : lang.SaysStructured p c := by
  induction c using induction with (intro owner depth s r hs h; unfold structuredClause at h; split_ifs at h)
  | field key value =>
    obtain ⟨_, hvalid, h⟩ := bind_eq_ok h
    obtain ⟨hfree, hmeans⟩ := says_emptyPredicate lang hs h
    refine ⟨hfree, ?_⟩
    rw [show key = fieldOf key by
      rw [fieldOf, splitOnce_of_valid (validateIdentifier_eq_ok hvalid)]; rfl] at hmeans
    exact hmeans
  | path path value =>
    obtain ⟨_, -, h⟩ := bind_eq_ok h
    exact says_emptyPredicate lang hs h
  | nested path c ih =>
    obtain ⟨_, -, h⟩ := bind_eq_ok h
    obtain ⟨r1, h1, h⟩ := bind_eq_ok h
    obtain ⟨-, hmeans⟩ := ih _ _ s r1 hs h1
    rw [ok.injEq] at h
    subst h
    refine ⟨rfl, hmeans.1, fun params scope hp => (atom_anyOf _ owner path fun x => ?_).pieces⟩
    have hx := (hmeans.2 params (update scope ("nested_" ++ toString depth) x) hp).conjunction
    simp only [update_self] at hx
    exact hx.evaluates
  | must cs ih =>
    exact says_structuredGroup ih hs h SaysAll.parenAnd
  | should cs ih =>
    obtain ⟨hfree, hsays⟩ := says_structuredGroup ih hs h SaysAll.parenOr
    exact ⟨hfree, hsays.of_eq fun scope => by rw [compiled, hfree]; rfl⟩
  | mustNot cs ih =>
    obtain ⟨hfree, hsays⟩ := says_structuredGroup (f := fun vs => (Truth.all vs).not) ih hs h SaysAll.notAnd
    exact ⟨hfree, hsays.of_eq fun scope => by rw [compiled, hfree]; rfl⟩

section combine

variable {s s' : ParserState} {clauses : List Clause} {vs : (String → Value) → List Truth}
  (h : lang.SaysAll s (clauses.filter fun c => !c.isEmpty, s') vs)

include h

theorem says_single {c : Clause} (hc : (clauses.filter fun c => !c.isEmpty) = [c])
    {join : List Truth → Truth} (hjoin : ∀ v, join [v] = v) :
    lang.Says s (c, s') fun scope => join (vs scope) := by
  rw [hc] at h
  refine ⟨h.1, fun params scope hp => ?_⟩
  obtain ⟨cs, hfst, hsnd, hpieces⟩ := h.2 params scope hp
  obtain ⟨c', rfl⟩ : ∃ c', cs = [c'] := length_eq_one_iff.1 (by simpa using congrArg List.length hfst)
  obtain rfl : c'.1 = c := by simpa using hfst
  have hv : join (vs scope) = c'.2 := by rw [← hsnd, map_cons, map_nil, hjoin]
  simpa only [hv] using hpieces c' mem_cons_self

variable (hne : (clauses.filter fun c => !c.isEmpty) ≠ [])

include hne

theorem says_combineMust : lang.Says s (combineMust clauses, s') fun scope => all (vs scope) := by
  unfold combineMust
  split
  · exact absurd ‹_› hne
  · exact says_single h ‹_› fun v => and_true v
  · exact h.parenAnd hne

theorem says_combineShould : lang.Says s (combineShould clauses, s') fun scope => any (vs scope) := by
  unfold combineShould
  split
  · exact absurd ‹_› hne
  · exact says_single h ‹_› fun v => or_false v
  · exact h.parenOr hne

theorem says_combineMustNot : lang.Says s (combineMustNot clauses, s') fun scope => (Truth.all (vs scope)).not := by
  unfold combineMustNot
  split
  · exact absurd ‹_› hne
  · exact h.notAnd hne

end combine

end Language

namespace FilterParser

variable (p : FilterParser)

mutual

def ownKeys : FilterCondition → Bool
  | .field key _ => (p.resolveKey key).1 = p.resultEntity
  | .path _ _ => true
  | .nested _ _ => true
  | .must cs => allOwn cs
  | .should cs => allOwn cs
  | .mustNot cs => allOwn cs

def allOwn : List FilterCondition → Bool
  | [] => true
  | c :: cs => ownKeys c && allOwn cs

end

def Homed (s : ParserState) : Prop :=
  (s.aliases.find? fun a => a.1 = p.resultEntity) = some (p.resultEntity, p.resultAlias)

theorem resolveKey_own (h : (p.resolveKey key).1 = p.resultEntity) :
    p.resolveKey key = (p.resultEntity, fieldOf key) := by
  unfold resolveKey at h ⊢
  unfold fieldOf
  cases hk : splitOnce key with
  | none => rfl
  | some r =>
    rw [hk] at h
    exact Prod.ext h rfl

end FilterParser

theorem ParserState.Grows.homed {p : FilterParser} {s s' : ParserState} (h : s.Grows s') (hs : p.Homed s) :
    p.Homed s' := by
  unfold Homed
  rw [h.aliases]
  exact hs

namespace Language

variable (lang) (p : FilterParser)

/-- The clause of a condition is empty if the condition is free, and else says what it compiles to. -/
def SaysCondition (c : FilterCondition) : Prop :=
  ∀ s r, s.Numbered → p.Homed s → p.ownKeys c = true → p.buildConditionClause c s = .ok r →
    s.Grows r.2 ∧ (c.free = true → r.1 = []) ∧
      (c.free = false → lang.Says s r fun scope => lang.compiled c (scope p.resultAlias))

variable {lang p} {cs : List FilterCondition} {s : ParserState}

theorem saysAll_buildConditionClauses (hcs : ∀ c ∈ cs, lang.SaysCondition p c)
    {r : List Clause × ParserState} (hs : s.Numbered) (hh : p.Homed s)
    (hown : p.allOwn cs = true) (h : p.buildConditionClauses cs s = .ok r) :
    lang.SaysAll s (r.1.filter fun c => !c.isEmpty, r.2) fun scope => lang.kept cs (scope p.resultAlias) := by
  induction cs generalizing s r with
  | nil =>
    rw [buildConditionClauses, ok.injEq] at h
    subst h
    exact saysAll_nil
  | cons c cs ih =>
    obtain ⟨r1, h1, h⟩ := bind_eq_ok h
    obtain ⟨r2, h2, h⟩ := bind_eq_ok h
    rw [allOwn, Bool.and_eq_true] at hown
    obtain ⟨hgrow, hfree, hmeans⟩ := hcs c mem_cons_self s r1 hs hh hown.1 h1
    have hall := ih (fun c hc => hcs c (mem_cons_of_mem _ hc)) (hgrow.numbered hs) (hgrow.homed hh) hown.2 h2
    rw [ok.injEq] at h
    subst h
    cases hc : c.free with
    | true =>
      simp only [hfree hc]
      have hkept : ∀ x, lang.kept (c :: cs) x = lang.kept cs x := fun x => by rw [kept, hc]; rfl
      simp only [hkept]
      exact ⟨hgrow.trans hall.1, hall.2⟩
    | false =>
      have hmeans := hmeans hc
      have hne : r1.1 ≠ [] := (hmeans.2 r1.2.params (fun _ => .null) prefix_rfl).ne_nil
      have hcons := SaysAll.cons hmeans hall
      simp only [kept, hc]
      simpa [hne] using hcons

theorem filter_eq_nil_iff {s' : ParserState} {clauses : List Clause}
    {a : String} (h : lang.SaysAll s (clauses, s') fun scope => lang.kept cs (scope a)) :
    clauses = [] ↔ allFree cs = true := by
  have hnil := h.eq_nil_iff fun _ => .null
  rw [hnil, kept_eq, allFree_eq]
  simp

theorem says_buildConditionClause (lang : Language) (c : FilterCondition) : lang.SaysCondition p c := by
  induction c using induction with intro s r hs hh hown h
  | field key value =>
    have hkey := p.resolveKey_own (by simpa [ownKeys] using hown)
    rw [buildConditionClause, hkey] at h
    obtain ⟨_, -, h⟩ := bind_eq_ok h
    obtain ⟨_, -, h⟩ := bind_eq_ok h
    obtain ⟨a, ha, h⟩ := bind_eq_ok h
    obtain rfl : a = (p.resultAlias, s) := by
      unfold aliasOf at ha
      rw [show (s.aliases.find? fun a => a.1 = p.resultEntity) = some (p.resultEntity, p.resultAlias) from hh,
        ok.injEq] at ha
      exact ha.symm
    obtain ⟨hfree, hmeans⟩ := says_buildClause hs p.resultAlias [fieldOf key] lang p.dialect value
    simp only [ok.injEq] at h
    subst h
    cases hv : value.free with
    | true =>
      have := hfree hv
      exact ⟨this.2, fun _ => by simp [this.1], fun h => by simp [free, hv] at h⟩
    | false =>
      obtain ⟨clause, hclause, hmeans⟩ := hmeans hv
      refine ⟨hmeans.1, fun h => by simp [free, hv] at h, fun _ => ?_⟩
      simp only [hclause]
      exact hmeans
  | path path value | nested path c ih =>
    obtain ⟨hfree, hmeans⟩ := says_structuredClause _ _ _ s r hs h
    exact ⟨hmeans.1, fun h => by simp [hfree] at h, fun _ => hmeans⟩
  | must cs ih =>
    obtain ⟨r', h', rfl⟩ := map_eq_ok h
    have hall := saysAll_buildConditionClauses ih hs hh hown h'
    have hnil := filter_eq_nil_iff hall
    refine ⟨hall.1, fun hfree => by simp [combineMust, hnil.2 hfree], fun hfree => ?_⟩
    exact says_combineMust hall fun h0 => by simp [free, hnil.1 h0] at hfree
  | should cs ih =>
    obtain ⟨r', h', rfl⟩ := map_eq_ok h
    have hall := saysAll_buildConditionClauses ih hs hh hown h'
    have hnil := filter_eq_nil_iff hall
    refine ⟨hall.1, fun hfree => by simp [combineShould, hnil.2 hfree], fun hfree => ?_⟩
    have hfree : allFree cs = false := hfree
    refine (says_combineShould hall fun h0 => by simp [hnil.1 h0] at hfree).of_eq fun scope => ?_
    simp [compiled, hfree]
  | mustNot cs ih =>
    obtain ⟨r', h', rfl⟩ := map_eq_ok h
    have hall := saysAll_buildConditionClauses ih hs hh hown h'
    have hnil := filter_eq_nil_iff hall
    refine ⟨hall.1, fun hfree => by simp [combineMustNot, hnil.2 hfree], fun hfree => ?_⟩
    have hfree : allFree cs = false := hfree
    refine (says_combineMustNot hall fun h0 => by simp [hnil.1 h0] at hfree).of_eq fun scope => ?_
    simp [compiled, hfree]

end Language

end Rag3db.Weaver
