import Rag3db.Weaver.Filter

open List

namespace Rag3db.Weaver

/-- True, false, or unknown as soon as a null is compared. -/
abbrev Truth := Option Bool

namespace Truth

def not : Truth → Truth := Option.map Bool.not

def and : Truth → Truth → Truth
  | some false, _ => some false
  | _, some false => some false
  | some true, some true => some true
  | _, _ => none

def or : Truth → Truth → Truth
  | some true, _ => some true
  | _, some true => some true
  | some false, some false => some false
  | _, _ => none

def all (vs : List Truth) : Truth := vs.foldr and (some true)

def any (vs : List Truth) : Truth := vs.foldr or (some false)

theorem and_true (v : Truth) : v.and (some true) = v := by rcases v with _ | _ | _ <;> rfl

theorem true_and (v : Truth) : and (some true) v = v := by rcases v with _ | _ | _ <;> rfl

theorem or_false (v : Truth) : v.or (some false) = v := by rcases v with _ | _ | _ <;> rfl

theorem and_assoc (a b c : Truth) : (a.and b).and c = a.and (b.and c) := by
  rcases a with _ | _ | _ <;> rcases b with _ | _ | _ <;> rcases c with _ | _ | _ <;> rfl

theorem all_append (vs ws : List Truth) : all (vs ++ ws) = (all vs).and (all ws) := by
  induction vs with
  | nil => exact (true_and (all ws)).symm
  | cons v vs ih =>
    have ih' : (vs ++ ws).foldr and (some true) = (all vs).and (all ws) := ih
    simp only [all, cons_append, foldr_cons] at ih' ⊢
    rw [ih', and_assoc]

theorem all_map_filter {α : Type} (keep : α → Bool) (value : α → Truth) (l : List α)
    (h : ∀ a ∈ l, keep a = false → value a = some true) :
    all ((l.filter keep).map value) = all (l.map value) := by
  induction l with
  | nil => rfl
  | cons a l ih =>
    have ih := ih fun b hb => h b (mem_cons_of_mem a hb)
    cases ha : keep a with
    | true =>
      rw [filter_cons_of_pos ha]
      exact congrArg (and _) ih
    | false =>
      rw [filter_cons_of_neg (by simp [ha]), ih, map_cons, h a mem_cons_self ha]
      exact (true_and _).symm

end Truth

/-- The query language: how a field is reached, what a list holds and what a predicate says of a field
and an argument. The list functions are those of their names. -/
structure Language where
  member : Value → String → Value
  elements : Value → List Value
  truth : Test → Value → Value → Truth
  listAny : ∀ x items, truth .listAny x (.list items) = Truth.any (items.map (truth .listContains x))
  listAll : ∀ x items, truth .listAll x (.list items) = Truth.all (items.map (truth .listContains x))

namespace Language

variable (lang : Language)

def get (x : Value) (path : List String) : Value := path.foldl lang.member x

def paramOf (params : List (ℕ × Value)) (k : ℕ) : Value :=
  ((params.find? fun p => p.1 = k).map Prod.snd).getD .null

def whole : Option (Truth × Clause) → Option Truth
  | some (v, []) => some v
  | _ => none

mutual

def readUnit (params : List (ℕ × Value)) : ℕ → (String → Value) → Clause → Option (Truth × Clause)
  | 0, _, _ => none
  | _ + 1, _, [] => none
  | fuel + 1, scope, token :: rest =>
    match token with
    | .not => (readUnit params fuel scope rest).map fun r => (r.1.not, r.2)
    | .openParen =>
      match readOr params fuel scope rest with
      | some (v, .closeParen :: rest) => some (v, rest)
      | _ => none
    | .const b => some (some b, rest)
    | .test owner path t param =>
      some (lang.truth t (lang.get (scope owner) path) ((param.map (paramOf params)).getD .null), rest)
    | .anyOf element owner path predicate =>
      ((lang.elements (lang.get (scope owner) path)).mapM fun x =>
        whole (readOr params fuel (Function.update scope element x) predicate)).map
          fun (vs : List Truth) => (some (vs.any (· == some true)), rest)
    | _ => none

def readAnd (params : List (ℕ × Value)) : ℕ → (String → Value) → Clause → Option (Truth × Clause)
  | 0, _, _ => none
  | fuel + 1, scope, clause =>
    match readUnit params fuel scope clause with
    | some (v, .and :: rest) => (readAnd params fuel scope rest).map fun r => (v.and r.1, r.2)
    | r => r

def readOr (params : List (ℕ × Value)) : ℕ → (String → Value) → Clause → Option (Truth × Clause)
  | 0, _, _ => none
  | fuel + 1, scope, clause =>
    match readAnd params fuel scope clause with
    | some (v, .or :: rest) => (readOr params fuel scope rest).map fun r => (v.or r.1, r.2)
    | r => r

end

/-- The clause has a value: reading it to its end gives `v`, whatever fuel beyond some bound is used. -/
def Evaluates (params : List (ℕ × Value)) (scope : String → Value) (clause : Clause) (v : Truth) : Prop :=
  ∃ bound, ∀ fuel ≥ bound, lang.readOr params fuel scope clause = some (v, [])

def Atom (params : List (ℕ × Value)) (scope : String → Value) (clause : Clause) (v : Truth) : Prop :=
  ∃ bound, ∀ fuel ≥ bound, ∀ rest, lang.readUnit params fuel scope (clause ++ rest) = some (v, rest)

def Conjunction (params : List (ℕ × Value)) (scope : String → Value) (clause : Clause) (v : Truth) : Prop :=
  ∃ bound, ∀ fuel ≥ bound, ∀ rest, rest.head? ≠ some .and →
    lang.readAnd params fuel scope (clause ++ rest) = some (v, rest)

def Disjunction (params : List (ℕ × Value)) (scope : String → Value) (clause : Clause) (v : Truth) : Prop :=
  ∃ bound, ∀ fuel ≥ bound, ∀ rest, rest.head? ≠ some .and → rest.head? ≠ some .or →
    lang.readOr params fuel scope (clause ++ rest) = some (v, rest)

theorem of_succ {P : ℕ → Prop} (bound : ℕ) (h : ∀ fuel ≥ bound, P (fuel + 1)) : ∃ bound, ∀ fuel ≥ bound, P fuel := by
  refine ⟨bound + 1, fun fuel hfuel => ?_⟩
  obtain ⟨fuel, rfl⟩ : ∃ k, fuel = k + 1 := ⟨fuel - 1, by omega⟩
  exact h fuel (by omega)

variable {lang} {params : List (ℕ × Value)} {scope : String → Value} {clause : Clause} {v : Truth}

theorem Atom.conjunction (h : lang.Atom params scope clause v) : lang.Conjunction params scope clause v := by
  obtain ⟨bound, h⟩ := h
  refine of_succ bound fun fuel hfuel rest hrest => ?_
  rw [readAnd, h fuel hfuel rest]
  split
  · rename_i heq
    simp only [Option.some.injEq, Prod.mk.injEq] at heq
    simp [heq.2] at hrest
  · rfl

variable {w : Truth}

theorem Atom.cons_and {u : Clause} (hu : lang.Atom params scope u v) (hc : lang.Conjunction params scope clause w) :
    lang.Conjunction params scope (u ++ .and :: clause) (v.and w) := by
  obtain ⟨b1, hu⟩ := hu
  obtain ⟨b2, hc⟩ := hc
  refine of_succ (b1 + b2) fun fuel hfuel rest hrest => ?_
  rw [append_assoc, cons_append, readAnd, hu fuel (by omega)]
  simp only [hc fuel (by omega) rest hrest, Option.map_some]

theorem joinClauses_cons (connective : Token) (c d : Clause) (cs : List Clause) :
    joinClauses connective (c :: d :: cs) = c ++ connective :: joinClauses connective (d :: cs) := by
  simp [joinClauses]

theorem joinClauses_single (connective : Token) (c : Clause) : joinClauses connective [c] = c := by
  simp [joinClauses]

def Pieces (lang : Language) (params : List (ℕ × Value)) (scope : String → Value) (clause : Clause)
    (v : Truth) : Prop :=
  ∃ units : List (Clause × Truth), units ≠ [] ∧ clause = joinClauses .and (units.map Prod.fst) ∧
    (∀ u ∈ units, lang.Atom params scope u.1 u.2) ∧ v = Truth.all (units.map Prod.snd)

theorem Atom.pieces (h : lang.Atom params scope clause v) : lang.Pieces params scope clause v :=
  ⟨[(clause, v)], by simp, (joinClauses_single _ _).symm, by simpa using h, (Truth.and_true v).symm⟩

theorem Pieces.conjunction (h : lang.Pieces params scope clause v) : lang.Conjunction params scope clause v := by
  obtain ⟨units, hne, rfl, hunits, rfl⟩ := h
  induction units with
  | nil => exact absurd rfl hne
  | cons u units ih =>
    have hu := hunits u mem_cons_self
    cases units with
    | nil =>
      simpa [joinClauses_single, Truth.all, Truth.and_true] using hu.conjunction
    | cons w units =>
      have hrest := ih (by simp) fun x hx => hunits x (mem_cons_of_mem u hx)
      exact hu.cons_and hrest

theorem joinClauses_append (connective : Token) {cs ds : List Clause} (hc : cs ≠ []) (hd : ds ≠ []) :
    joinClauses connective (cs ++ ds) = joinClauses connective cs ++ connective :: joinClauses connective ds := by
  induction cs with
  | nil => exact absurd rfl hc
  | cons c cs ih =>
    cases cs with
    | nil =>
      obtain ⟨d, ds, rfl⟩ := exists_cons_of_ne_nil hd
      rw [singleton_append, joinClauses_cons, joinClauses_single]
    | cons c' cs =>
      rw [cons_append, cons_append, joinClauses_cons, ← cons_append,
        ih (by simp), joinClauses_cons, append_assoc, cons_append]

variable {cs : List (Clause × Truth)}

theorem Pieces.join (hne : cs ≠ []) (h : ∀ c ∈ cs, lang.Pieces params scope c.1 c.2) :
    lang.Pieces params scope (joinClauses .and (cs.map Prod.fst)) (Truth.all (cs.map Prod.snd)) := by
  induction cs with
  | nil => exact absurd rfl hne
  | cons c cs ih =>
    have hc := h c mem_cons_self
    cases cs with
    | nil => simpa [joinClauses_single, Truth.all, Truth.and_true] using hc
    | cons d cs =>
      obtain ⟨us, hus, hcl, hunits, hv⟩ := hc
      obtain ⟨ws, hws, hcl', hunits', hv'⟩ := ih (by simp) fun x hx => h x (mem_cons_of_mem c hx)
      refine ⟨us ++ ws, by simp [hus], ?_, ?_, ?_⟩
      · rw [map_append, joinClauses_append _ (by simpa using hus) (by simpa using hws), ← hcl, ← hcl']
        simp only [map_cons, joinClauses_cons]
      · intro u hu
        rcases mem_append.1 hu with hu | hu
        · exact hunits u hu
        · exact hunits' u hu
      · rw [map_append, Truth.all_append, ← hv, ← hv']
        rfl

theorem Pieces.pair {a b : Clause} (ha : lang.Pieces params scope a v)
    (hb : lang.Pieces params scope b w) : lang.Pieces params scope (a ++ .and :: b) (v.and w) := by
  have h : lang.Pieces params scope (joinClauses .and ([(a, v), (b, w)].map Prod.fst))
      (Truth.all ([(a, v), (b, w)].map Prod.snd)) := Pieces.join (by simp) (by simp [ha, hb])
  simpa [joinClauses_cons, joinClauses_single, Truth.all, Truth.and_true] using h

variable {c : Clause}

theorem Conjunction.cons_or (hc : lang.Conjunction params scope c v) (h : lang.Disjunction params scope clause w) :
    lang.Disjunction params scope (c ++ .or :: clause) (v.or w) := by
  obtain ⟨b1, hc⟩ := hc
  obtain ⟨b2, h⟩ := h
  refine of_succ (b1 + b2) fun fuel hfuel rest ha ho => ?_
  rw [append_assoc, cons_append, readOr, hc fuel (by omega) _ (by simp)]
  simp only [h fuel (by omega) rest ha ho, Option.map_some]

theorem Conjunction.disjunction (hc : lang.Conjunction params scope c v) : lang.Disjunction params scope c v := by
  obtain ⟨b1, hc⟩ := hc
  refine of_succ b1 fun fuel hfuel rest ha ho => ?_
  rw [Language.readOr, hc fuel hfuel rest ha]
  split
  · rename_i heq
    simp only [Option.some.injEq, Prod.mk.injEq] at heq
    simp [heq.2] at ho
  · rfl

theorem readOr_join (hne : cs ≠ []) (h : ∀ c ∈ cs, lang.Conjunction params scope c.1 c.2) :
    lang.Disjunction params scope (joinClauses .or (cs.map Prod.fst)) (Truth.any (cs.map Prod.snd)) := by
  induction cs with
  | nil => exact absurd rfl hne
  | cons c cs ih =>
    have hc := h c mem_cons_self
    cases cs with
    | nil => simpa [joinClauses_single, Truth.any, Truth.or_false] using hc.disjunction
    | cons d cs =>
      have hrest := ih (by simp) fun x hx => h x (mem_cons_of_mem c hx)
      exact hc.cons_or hrest

theorem atom_parenthesis (h : lang.Disjunction params scope clause v) :
    lang.Atom params scope (.openParen :: clause ++ [.closeParen]) v := by
  obtain ⟨bound, h⟩ := h
  refine of_succ bound fun fuel hfuel rest => ?_
  simp only [cons_append, append_assoc, nil_append, readUnit]
  rw [h fuel hfuel (.closeParen :: rest) (by simp) (by simp)]

theorem Atom.negate (h : lang.Atom params scope clause v) : lang.Atom params scope (.not :: clause) v.not := by
  obtain ⟨bound, h⟩ := h
  refine of_succ bound fun fuel hfuel rest => ?_
  simp only [cons_append, readUnit, h fuel hfuel rest, Option.map_some]

theorem atom_const (b : Bool) : lang.Atom params scope [.const b] (some b) :=
  of_succ 0 fun fuel _ rest => by simp [readUnit]

theorem atom_test (owner : String) (path : List String) (t : Test) (param : Option ℕ) :
    lang.Atom params scope [.test owner path t param]
      (lang.truth t (lang.get (scope owner) path) ((param.map (paramOf params)).getD .null)) :=
  of_succ 0 fun fuel _ rest => by simp [readUnit]

theorem Conjunction.evaluates (h : lang.Conjunction params scope clause v) : lang.Evaluates params scope clause v := by
  obtain ⟨bound, h⟩ := h.disjunction
  exact ⟨bound, fun fuel hfuel => by simpa using h fuel hfuel [] (by simp) (by simp)⟩

theorem Evaluates.unique (hv : lang.Evaluates params scope clause v)
    (hw : lang.Evaluates params scope clause w) : v = w := by
  obtain ⟨b1, hv⟩ := hv
  obtain ⟨b2, hw⟩ := hw
  have h := (hv (b1 + b2) (by omega)).symm.trans (hw (b1 + b2) (by omega))
  simpa using h

end Language

end Rag3db.Weaver
