import Rag3db.Weaver.FilterClause

open List

namespace Rag3db.Weaver

open Truth Dialect

theorem FilterCondition.induction {P : FilterCondition → Prop} (field : ∀ key value, P (.field key value))
    (path : ∀ path value, P (.path path value)) (nested : ∀ path c, P c → P (.nested path c))
    (must : ∀ cs, (∀ c ∈ cs, P c) → P (.must cs)) (should : ∀ cs, (∀ c ∈ cs, P c) → P (.should cs))
    (mustNot : ∀ cs, (∀ c ∈ cs, P c) → P (.mustNot cs)) (c : FilterCondition) : P c :=
  @FilterCondition.rec P (fun cs => ∀ c ∈ cs, P c) field path nested must should mustNot
    (fun _ h => absurd h not_mem_nil)
    (fun _ _ hc hcs _ h => (mem_cons.1 h).elim (fun e => e ▸ hc) (hcs _)) c

def FilterOp.free : FilterOp → Bool
  | .valuesCount none none => true
  | _ => false

def FilterValue.free : FilterValue → Bool
  | .ops operators => operators.all FilterOp.free
  | _ => false

mutual

/-- The condition puts no constraint: it has no operator and no member that puts one. -/
def FilterCondition.free : FilterCondition → Bool
  | .field _ value => value.free
  | .path _ value => value.free
  | .nested _ _ => false
  | .must cs => allFree cs
  | .should cs => allFree cs
  | .mustNot cs => allFree cs

def allFree : List FilterCondition → Bool
  | [] => true
  | c :: cs => c.free && allFree cs

end

theorem allFree_eq (cs : List FilterCondition) : allFree cs = cs.all FilterCondition.free := by
  induction cs with
  | nil => rfl
  | cons c cs ih => rw [allFree, ih, all_cons]

def FilterOp.bounded : FilterOp → Bool
  | .valuesCount min max => min.all (· < 2 ^ 63) && max.all (· < 2 ^ 63)
  | _ => true

def FilterValue.bounded : FilterValue → Bool
  | .ops operators => operators.all FilterOp.bounded
  | _ => true

mutual

/-- The numbers of values that the condition asks for are below `2 ^ 63`. -/
def FilterCondition.bounded : FilterCondition → Bool
  | .field _ value => value.bounded
  | .path _ value => value.bounded
  | .nested _ c => c.bounded
  | .must cs => allBounded cs
  | .should cs => allBounded cs
  | .mustNot cs => allBounded cs

def allBounded : List FilterCondition → Bool
  | [] => true
  | c :: cs => c.bounded && allBounded cs

end

theorem allBounded_eq (cs : List FilterCondition) : allBounded cs = cs.all FilterCondition.bounded := by
  induction cs with
  | nil => rfl
  | cons c cs ih => rw [allBounded, ih, all_cons]

def fieldOf (key : String) : String := ((splitOnce key).map Prod.snd).getD key

namespace Language

variable (lang : Language) (bound : ℕ → ℤ)

/-- What an operator asks of a value; `bound` is what a number of values is compared as. -/
def opMeaning (x : Value) : FilterOp → Truth
  | .eq v => lang.truth (.compare .eq) x v
  | .neq v => lang.truth (.compare .neq) x v
  | .lt v => lang.truth (.compare .lt) x v
  | .lte v => lang.truth (.compare .lte) x v
  | .gt v => lang.truth (.compare .gt) x v
  | .gte v => lang.truth (.compare .gte) x v
  | .isIn items => lang.truth .inList x (.list items)
  | .hasAny items => any (items.map (lang.truth .listContains x))
  | .hasAll items => all (items.map (lang.truth .listContains x))
  | .hasNone items => (Truth.any (items.map (lang.truth .listContains x))).not
  | .isNull => lang.truth .isNull x .null
  | .isNotNull => lang.truth .isNotNull x .null
  | .isEmpty => lang.truth .sizeIsZero x .null
  | .isNotEmpty => lang.truth .sizeIsPositive x .null
  | .between lo hi => (lang.truth (.compare .gte) x lo).and (lang.truth (.compare .lte) x hi)
  | .notIn items => (lang.truth .inList x (.list items)).not
  | .startsWith text => lang.truth .startsWith x (.string text)
  | .contains text => lang.truth .contains x (.string text)
  | .valuesCount min max =>
    all ((min.map fun k => lang.truth .sizeAtLeast x (.int (bound k))).toList ++
      (max.map fun k => lang.truth .sizeAtMost x (.int (bound k))).toList)

def valueMeaning (x : Value) : FilterValue → Truth
  | .direct v => if v.isNull then lang.truth .isNull x .null else lang.truth (.compare .eq) x v
  | .list items => lang.truth .inList x (.list items)
  | .ops ops => all (ops.map (lang.opMeaning bound x))

mutual

/-- The value of the compiled clause on an object, of which the free members have been dropped. -/
def compiled : FilterCondition → Value → Truth
  | .field key value, x => lang.valueMeaning asI64 (lang.get x [fieldOf key]) value
  | .path path value, x => lang.valueMeaning asI64 (lang.get x path) value
  | .nested path c, x => some ((lang.elements (lang.get x path)).any fun e => compiled c e == some true)
  | .must cs, x => all (kept cs x)
  | .should cs, x => if allFree cs then some true else any (kept cs x)
  | .mustNot cs, x => if allFree cs then some true else (Truth.all (kept cs x)).not

def kept : List FilterCondition → Value → List Truth
  | [], _ => []
  | c :: cs, x => if c.free then kept cs x else compiled c x :: kept cs x

end

theorem kept_eq (cs : List FilterCondition) (x : Value) :
    lang.kept cs x = (cs.filter fun c => !c.free).map fun c => lang.compiled c x := by
  induction cs with
  | nil => rfl
  | cons c cs ih =>
    rw [kept, ih, filter_cons]
    cases c.free <;> simp

end Language

namespace ParserState

def Numbered (s : ParserState) : Prop := s.params.map Prod.fst = List.range s.paramCounter

/-- Parameters were only added, and no other entity was joined. -/
structure Grows (s s' : ParserState) : Prop where
  numbered : s.Numbered → s'.Numbered
  params : s.params <+: s'.params
  aliases : s'.aliases = s.aliases

theorem Grows.refl (s : ParserState) : s.Grows s := ⟨id, prefix_rfl, rfl⟩

theorem Grows.trans {s s' s'' : ParserState} (h : s.Grows s') (h' : s'.Grows s'') : s.Grows s'' :=
  ⟨h'.numbered ∘ h.numbered, h.params.trans h'.params, h'.aliases.trans h.aliases⟩

theorem grows_push (s : ParserState) (v : Value) : s.Grows (s.push v) := by
  refine ⟨fun h => ?_, prefix_append _ _, rfl⟩
  simp only [Numbered, push, map_append, map_cons, map_nil, range_succ]
  rw [show s.params.map Prod.fst = List.range s.paramCounter from h]

theorem paramOf_push {s : ParserState} (h : s.Numbered) {v : Value} {params : List (ℕ × Value)}
    (hp : (s.push v).params <+: params) : Language.paramOf params s.paramCounter = v := by
  obtain ⟨later, rfl⟩ := hp
  have hnone : (s.params.find? fun p => p.1 = s.paramCounter) = none := by
    refine find?_eq_none.2 fun p hp => ?_
    have : p.1 ∈ List.range s.paramCounter := h ▸ mem_map_of_mem hp
    have := mem_range.1 this
    simp only [decide_eq_true_eq]
    omega
  simp [Language.paramOf, push, hnone]

end ParserState

namespace Language

variable {lang : Language} {params : List (ℕ × Value)} {scope : String → Value}

theorem Pieces.ne_nil {clause : Clause} {v : Truth} (h : lang.Pieces params scope clause v) : clause ≠ [] := by
  rintro rfl
  obtain ⟨bound, h⟩ := h.conjunction
  have h := h (bound + 2) (by omega) [] (by simp)
  simp [readAnd, readUnit] at h

theorem atom_oneParam {s : ParserState} (hs : s.Numbered) (owner : String) (path : List String) (t : Test)
    {v : Value} (hp : (s.push v).params <+: params) :
    lang.Atom params scope [.test owner path t (some s.paramCounter)]
      (lang.truth t (lang.get (scope owner) path) v) := by
  have h : lang.Atom params scope [.test owner path t (some s.paramCounter)]
      (lang.truth t (lang.get (scope owner) path) (paramOf params s.paramCounter)) :=
    atom_test owner path t (some s.paramCounter)
  rwa [ParserState.paramOf_push hs hp] at h

/-- The parser has gone from `s` to the state of `r`, and the clause it gives says `v` of the object of
every scope. -/
def Says (lang : Language) (s : ParserState) (r : Clause × ParserState) (v : (String → Value) → Truth) : Prop :=
  s.Grows r.2 ∧ ∀ params scope, r.2.params <+: params → lang.Pieces params scope r.1 (v scope)

theorem Says.of_eq {s : ParserState} {r : Clause × ParserState} {v w : (String → Value) → Truth}
    (h : lang.Says s r v) (hvw : ∀ scope, v scope = w scope) : lang.Says s r w :=
  (funext hvw : v = w) ▸ h

variable {s : ParserState} (hs : s.Numbered) (owner : String) (path : List String)

include hs

theorem says_oneParam (t : Test) (v : Value) : lang.Says s (oneParam owner path t v s)
      fun scope => lang.truth t (lang.get (scope owner) path) v :=
  ⟨s.grows_push v, fun _ _ hp => (atom_oneParam hs owner path t hp).pieces⟩

theorem says_negated (t : Test) (v : Value) :
    lang.Says s (.not :: .openParen :: (oneParam owner path t v s).1 ++ [.closeParen], (oneParam owner path t v s).2)
      fun scope => (lang.truth t (lang.get (scope owner) path) v).not :=
  ⟨s.grows_push v, fun _ _ hp =>
    (atom_parenthesis (atom_oneParam hs owner path t hp).conjunction.disjunction).negate.pieces⟩

theorem says_pair (t t' : Test) (v v' : Value) : lang.Says s ((oneParam owner path t v s).1 ++
        .and :: (oneParam owner path t' v' (oneParam owner path t v s).2).1,
        (oneParam owner path t' v' (oneParam owner path t v s).2).2)
      fun scope => (lang.truth t (lang.get (scope owner) path) v).and
        (lang.truth t' (lang.get (scope owner) path) v') := by
  have hgrow := s.grows_push v
  refine ⟨hgrow.trans ((s.push v).grows_push v'), fun params scope hp => ?_⟩
  exact (atom_oneParam hs owner path t (((s.push v).grows_push v').params.trans hp)).pieces.pair
    (atom_oneParam (hgrow.numbered hs) owner path t' hp).pieces

theorem units_scalarTests (lang : Language) (items : List Value) : s.Grows (scalarTests owner path items s).2 ∧
      ∀ params scope, (scalarTests owner path items s).2.params <+: params →
        ∃ units : List (Clause × Truth), units.map Prod.fst = (scalarTests owner path items s).1 ∧
          units.map Prod.snd = items.map (lang.truth .listContains (lang.get (scope owner) path)) ∧
          ∀ u ∈ units, lang.Atom params scope u.1 u.2 := by
  induction items generalizing s with
  | nil => exact ⟨.refl s, fun _ _ _ => ⟨[], rfl, rfl, by simp⟩⟩
  | cons v items ih =>
    have hgrow := s.grows_push v
    obtain ⟨hrest, hunits⟩ := ih (hgrow.numbered hs)
    refine ⟨hgrow.trans hrest, fun params scope hp => ?_⟩
    obtain ⟨units, hfst, hsnd, hunit⟩ := hunits params scope hp
    have hfirst : lang.Atom params scope _ _ :=
      atom_oneParam hs owner path .listContains (hrest.params.trans hp)
    refine ⟨(_, _) :: units, congrArg (List.cons _) hfst, congrArg (List.cons _) hsnd, ?_⟩
    intro u hu
    rcases mem_cons.1 hu with rfl | hu
    · exact hfirst
    · exact hunit u hu

theorem says_scalarListOp (items : List Value) {empty negated : Bool} {connective : Token} {f : List Truth → Truth}
    (hnil : f [] = some empty)
    (hcons : ∀ {params scope} {units : List (Clause × Truth)}, units ≠ [] →
      (∀ u ∈ units, lang.Atom params scope u.1 u.2) →
      let clause := .openParen :: joinClauses connective (units.map Prod.fst) ++ [.closeParen]
      lang.Pieces params scope (if negated then .not :: clause else clause) (f (units.map Prod.snd))) :
    lang.Says s (scalarListOp owner path empty connective negated items s)
      fun scope => f (items.map (lang.truth .listContains (lang.get (scope owner) path))) := by
  cases items with
  | nil => exact ⟨.refl s, fun _ _ _ => show lang.Pieces _ _ _ (f []) from hnil ▸ (atom_const empty).pieces⟩
  | cons v items =>
    obtain ⟨hgrow, hunits⟩ := units_scalarTests hs owner path lang (v :: items)
    refine ⟨hgrow, fun params scope hp => ?_⟩
    obtain ⟨units, hfst, hsnd, hunit⟩ := hunits params scope hp
    have h := hcons (fun h => by simp [h] at hsnd) hunit
    rwa [hfst, hsnd] at h

theorem says_buildOpClause (lang : Language) (d : Dialect) (op : FilterOp) :
    let r := d.buildOpClause owner path op s
    (op.free = true → r = (none, s)) ∧ (op.free = false → ∃ clause, r.1 = some clause ∧ lang.Says s (clause, r.2)
        fun scope => lang.opMeaning asI64 (lang.get (scope owner) path) op) := by
  cases op with
  | hasAny items =>
    refine ⟨nofun, fun _ => ?_⟩
    unfold buildOpClause
    dsimp only
    split
    · exact ⟨_, rfl, says_scalarListOp hs owner path items rfl fun hne h =>
        (atom_parenthesis (readOr_join hne fun u hu => (h u hu).conjunction)).pieces⟩
    · exact ⟨_, rfl, (says_oneParam hs owner path .listAny (.list items)).of_eq fun _ => lang.listAny _ _⟩
  | hasAll items =>
    refine ⟨nofun, fun _ => ?_⟩
    unfold buildOpClause
    dsimp only
    split
    · exact ⟨_, rfl, says_scalarListOp hs owner path items rfl fun hne h =>
        (atom_parenthesis (Pieces.join hne fun u hu => (h u hu).pieces).conjunction.disjunction).pieces⟩
    · exact ⟨_, rfl, (says_oneParam hs owner path .listAll (.list items)).of_eq fun _ => lang.listAll _ _⟩
  | hasNone items =>
    refine ⟨nofun, fun _ => ?_⟩
    unfold buildOpClause
    dsimp only
    split
    · exact ⟨_, rfl, says_scalarListOp (f := fun l => (Truth.any l).not) hs owner path items rfl fun hne h =>
        (atom_parenthesis (readOr_join hne fun u hu => (h u hu).conjunction)).negate.pieces⟩
    · exact ⟨_, rfl, (says_negated hs owner path .listAny (.list items)).of_eq
        fun _ => congrArg Truth.not (lang.listAny _ _)⟩
  | notIn items => exact ⟨nofun, fun _ => ⟨_, rfl, says_negated hs owner path .inList (.list items)⟩⟩
  | between lo hi => exact ⟨nofun, fun _ => ⟨_, rfl, says_pair hs owner path _ _ lo hi⟩⟩
  | valuesCount min max =>
    cases min <;> cases max
    · exact ⟨fun _ => rfl, nofun⟩
    · exact ⟨nofun, fun _ => ⟨_, rfl, (says_oneParam hs owner path _ _).of_eq fun _ => (Truth.and_true _).symm⟩⟩
    · exact ⟨nofun, fun _ => ⟨_, rfl, (says_oneParam hs owner path _ _).of_eq fun _ => (Truth.and_true _).symm⟩⟩
    · exact ⟨nofun, fun _ => ⟨_, rfl, (says_pair hs owner path _ _ _ _).of_eq
        fun _ => congrArg (Truth.and _) (Truth.and_true _).symm⟩⟩
  | isNull | isNotNull | isEmpty | isNotEmpty =>
    exact ⟨nofun, fun _ => ⟨_, rfl, .refl s, fun _ _ _ => (atom_test owner path _ none).pieces⟩⟩
  | eq v | neq v | lt v | lte v | gt v | gte v =>
    exact ⟨nofun, fun _ => ⟨_, rfl, says_oneParam hs owner path _ v⟩⟩
  | isIn items | startsWith text | contains text =>
    exact ⟨nofun, fun _ => ⟨_, rfl, says_oneParam hs owner path _ _⟩⟩

def SaysAll (lang : Language) (s : ParserState) (r : List Clause × ParserState)
    (vs : (String → Value) → List Truth) : Prop :=
  s.Grows r.2 ∧ ∀ params scope, r.2.params <+: params →
    ∃ cs : List (Clause × Truth), cs.map Prod.fst = r.1 ∧ cs.map Prod.snd = vs scope ∧
      ∀ c ∈ cs, lang.Pieces params scope c.1 c.2

omit hs in
theorem saysAll_nil : lang.SaysAll s ([], s) fun _ => [] :=
  ⟨.refl s, fun _ _ _ => ⟨[], rfl, rfl, by simp⟩⟩

omit hs in
theorem SaysAll.cons {s1 s2 : ParserState} {clause : Clause} {clauses : List Clause}
    {v : (String → Value) → Truth} {vs : (String → Value) → List Truth}
    (h : lang.Says s (clause, s1) v) (hs : lang.SaysAll s1 (clauses, s2) vs) :
    lang.SaysAll s (clause :: clauses, s2) fun scope => v scope :: vs scope := by
  refine ⟨h.1.trans hs.1, fun params scope hp => ?_⟩
  obtain ⟨cs, hfst, hsnd, hpieces⟩ := hs.2 params scope hp
  refine ⟨(clause, v scope) :: cs, congrArg (List.cons clause) hfst, congrArg (List.cons (v scope)) hsnd, ?_⟩
  intro c hc
  rcases mem_cons.1 hc with rfl | hc
  · exact h.2 params scope (hs.1.params.trans hp)
  · exact hpieces c hc

omit hs in
theorem SaysAll.eq_nil_iff {r : List Clause × ParserState} {vs : (String → Value) → List Truth}
    (h : lang.SaysAll s r vs) (scope : String → Value) : r.1 = [] ↔ vs scope = [] := by
  obtain ⟨cs, hfst, hsnd, -⟩ := h.2 r.2.params scope prefix_rfl
  rw [← hfst, ← hsnd]
  simp

section combine

omit hs

variable {r : List Clause × ParserState} {vs : (String → Value) → List Truth} (h : lang.SaysAll s r vs) (hne : r.1 ≠ [])

include h hne

theorem SaysAll.joinAnd : lang.Says s (joinClauses .and r.1, r.2) fun scope => all (vs scope) := by
  refine ⟨h.1, fun params scope hp => ?_⟩
  obtain ⟨cs, hfst, hsnd, hpieces⟩ := h.2 params scope hp
  have hjoin := Pieces.join (fun h => hne (by rw [← hfst, h]; rfl)) hpieces
  rwa [hfst, hsnd] at hjoin

theorem SaysAll.parenAnd : lang.Says s (.openParen :: joinClauses .and r.1 ++ [.closeParen], r.2)
      fun scope => all (vs scope) :=
  ⟨h.1, fun params scope hp =>
    (atom_parenthesis ((h.joinAnd hne).2 params scope hp).conjunction.disjunction).pieces⟩

theorem SaysAll.notAnd : lang.Says s (.not :: .openParen :: joinClauses .and r.1 ++ [.closeParen], r.2)
      fun scope => (Truth.all (vs scope)).not :=
  ⟨h.1, fun params scope hp =>
    (atom_parenthesis ((h.joinAnd hne).2 params scope hp).conjunction.disjunction).negate.pieces⟩

theorem SaysAll.parenOr : lang.Says s (.openParen :: joinClauses .or r.1 ++ [.closeParen], r.2)
      fun scope => any (vs scope) := by
  refine ⟨h.1, fun params scope hp => ?_⟩
  obtain ⟨cs, hfst, hsnd, hpieces⟩ := h.2 params scope hp
  have hjoin := readOr_join (fun h => hne (by rw [← hfst, h]; rfl)) fun c hc => (hpieces c hc).conjunction
  rw [hfst, hsnd] at hjoin
  exact (atom_parenthesis hjoin).pieces

end combine

theorem saysAll_buildOpClauses (lang : Language) (d : Dialect) (operators : List FilterOp) :
    lang.SaysAll s (d.buildOpClauses owner path operators s) fun scope =>
      (operators.filter fun op => !op.free).map (lang.opMeaning asI64 (lang.get (scope owner) path)) := by
  induction operators generalizing s with
  | nil => exact saysAll_nil
  | cons op operators ih =>
    obtain ⟨hfree, hmeans⟩ := says_buildOpClause hs owner path lang d op
    unfold buildOpClauses
    cases hop : op.free with
    | true =>
      rw [hfree hop]
      simpa [hop] using ih hs
    | false =>
      obtain ⟨clause, hclause, hmeans⟩ := hmeans hop
      have hrest := SaysAll.cons hmeans (ih (hmeans.1.numbered hs))
      simpa [hop, hclause] using hrest

omit hs in
theorem all_filter_free (x : Value) (operators : List FilterOp) :
    Truth.all ((operators.filter fun op => !op.free).map (lang.opMeaning asI64 x)) =
      Truth.all (operators.map (lang.opMeaning asI64 x)) := by
  refine all_map_filter _ _ operators fun op _ hop => ?_
  rw [Bool.not_eq_false'] at hop
  unfold FilterOp.free at hop
  split at hop
  · rfl
  · simp at hop

theorem says_buildClause (lang : Language) (d : Dialect) (value : FilterValue) :
    let r := d.buildClause owner path value s
    (value.free = true → r.1 = none ∧ s.Grows r.2) ∧
      (value.free = false → ∃ clause, r.1 = some clause ∧ lang.Says s (clause, r.2)
        fun scope => lang.valueMeaning asI64 (lang.get (scope owner) path) value) := by
  cases value with
  | direct v =>
    refine ⟨nofun, fun _ => ?_⟩
    unfold buildClause valueMeaning
    dsimp only
    split
    · exact ⟨_, rfl, .refl s, fun _ _ _ => (atom_test owner path _ none).pieces⟩
    · exact ⟨_, rfl, says_oneParam hs owner path _ v⟩
  | list items => exact ⟨nofun, fun _ => ⟨_, rfl, says_oneParam hs owner path _ _⟩⟩
  | ops operators =>
    have hall := saysAll_buildOpClauses hs owner path lang d operators
    have hnil : (d.buildOpClauses owner path operators s).1 = [] ↔ operators.all FilterOp.free = true := by
      rw [hall.eq_nil_iff fun _ => .null]
      simp
    unfold buildClause FilterValue.free valueMeaning
    dsimp only
    refine ⟨fun hfree => ⟨by simp [hnil.2 hfree], hall.1⟩, fun hfree => ?_⟩
    have hne : (d.buildOpClauses owner path operators s).1 ≠ [] := by
      rw [Ne, hnil, hfree]
      simp
    refine ⟨_, by rw [if_neg (by simpa using hne)], ?_⟩
    exact (hall.joinAnd hne).of_eq fun scope => all_filter_free _ operators

end Language

end Rag3db.Weaver
