import Mathlib

namespace Rag3db.Weaver

inductive Value where
  | null
  | bool (b : Bool)
  | int (i : Int)
  | float (bits : UInt64)
  | string (s : String)
  | list (items : List Value)
  | map (fields : List (String × Value))
  | blob (bytes : List UInt8)

def Value.isNull : Value → Bool
  | .null => true
  | _ => false

inductive FilterOp where
  | eq (v : Value)
  | neq (v : Value)
  | lt (v : Value)
  | lte (v : Value)
  | gt (v : Value)
  | gte (v : Value)
  | isIn (items : List Value)
  | hasAny (items : List Value)
  | hasAll (items : List Value)
  | hasNone (items : List Value)
  | isNull
  | isNotNull
  | isEmpty
  | isNotEmpty
  | between (lo hi : Value)
  | notIn (items : List Value)
  | startsWith (s : String)
  | contains (s : String)
  | valuesCount (min max : Option ℕ)

inductive FilterValue where
  | ops (ops : List FilterOp)
  | list (items : List Value)
  | direct (v : Value)

inductive FilterCondition where
  | field (key : String) (value : FilterValue)
  | path (path : List String) (value : FilterValue)
  | nested (path : List String) (condition : FilterCondition)
  | must (conditions : List FilterCondition)
  | should (conditions : List FilterCondition)
  | mustNot (conditions : List FilterCondition)

inductive FilterError where
  | invalidIdentifier (kind name : String)
  | noRelation (origin target : String)
  | structured (message : String)

inductive Comparison where
  | eq
  | neq
  | lt
  | lte
  | gt
  | gte

/-- What a predicate asks of a field, its argument being a parameter of the query. -/
inductive Test where
  | compare (c : Comparison)
  | inList
  | isNull
  | isNotNull
  | sizeIsZero
  | sizeIsPositive
  | sizeAtLeast
  | sizeAtMost
  | startsWith
  | contains
  | listContains
  | listAny
  | listAll

/-- The text of a clause, cut where the query language cuts it: a predicate on `alias.path` is one
token, and `anyOf` is `COALESCE(any(element IN alias.path WHERE COALESCE((predicate), false)), false)`. -/
inductive Token where
  | openParen
  | closeParen
  | not
  | and
  | or
  | const (b : Bool)
  | test (owner : String) (path : List String) (t : Test) (param : Option ℕ)
  | anyOf (element owner : String) (path : List String) (predicate : List Token)

abbrev Clause := List Token

structure Dialect where
  name : String
  structuredFields : Bool
  /-- Membership in a list is asked one scalar at a time. -/
  scalarContains : Bool

structure RelationDef where
  name : String
  origin : String
  target : String

structure MatchClause where
  resultAlias : String
  relation : String
  entityAlias : String
  entity : String
  forward : Bool

/-- What the parser accumulates. The parameter `filter_p{k}` is written `k`. -/
structure ParserState where
  paramCounter : ℕ := 0
  params : List (ℕ × Value) := []
  aliases : List (String × String) := []
  aliasCounter : ℕ := 0
  matchClauses : List MatchClause := []

structure FilterParser where
  dialect : Dialect
  relations : List RelationDef
  resultEntity : String
  resultAlias : String

def isValidIdentifier (s : String) : Bool :=
  match s.toList with
  | c :: cs => (c.isAlpha || c = '_') && cs.all fun c => c.isAlphanum || c = '_'
  | [] => false

def validateIdentifier (name kind : String) : Except FilterError Unit :=
  if isValidIdentifier name then .ok () else .error (.invalidIdentifier kind name)

def splitOnce (s : String) : Option (String × String) :=
  match s.toList.span (· ≠ '.') with
  | (entity, _ :: field) => some (String.ofList entity, String.ofList field)
  | (_, []) => none

def joinClauses (connective : Token) (clauses : List Clause) : Clause := [connective].intercalate clauses

namespace ParserState

def push (s : ParserState) (v : Value) : ParserState :=
  { s with paramCounter := s.paramCounter + 1, params := s.params ++ [(s.paramCounter, v)] }

end ParserState

/-- The cast of a `usize` to an `i64`. -/
def asI64 (n : ℕ) : ℤ := if n < 2 ^ 63 then n else n - 2 ^ 64

namespace Dialect

def oneParam (owner : String) (path : List String) (t : Test) (v : Value) (s : ParserState) : Clause × ParserState :=
  ([.test owner path t (some s.paramCounter)], s.push v)

def scalarTests (owner : String) (path : List String) : List Value → ParserState → List Clause × ParserState
  | [], s => ([], s)
  | v :: items, s =>
    let (clause, s) := oneParam owner path .listContains v s
    let (clauses, s) := scalarTests owner path items s
    (clause :: clauses, s)

/-- `HasAny`, `HasAll` or `HasNone` by scalar membership: the value for no item, the connective, and
whether it is negated. -/
def scalarListOp (owner : String) (path : List String) (empty : Bool) (connective : Token) (negated : Bool)
    (items : List Value) (s : ParserState) : Clause × ParserState :=
  if items.isEmpty then ([.const empty], s)
  else
    let (clauses, s) := scalarTests owner path items s
    let clause := .openParen :: joinClauses connective clauses ++ [.closeParen]
    (if negated then .not :: clause else clause, s)

def buildOpClause (d : Dialect) (owner : String) (path : List String) (op : FilterOp) (s : ParserState) :
    Option Clause × ParserState :=
  let some' : Clause × ParserState → Option Clause × ParserState := fun r => (some r.1, r.2)
  match op with
  | .eq v => some' (oneParam owner path (.compare .eq) v s)
  | .neq v => some' (oneParam owner path (.compare .neq) v s)
  | .lt v => some' (oneParam owner path (.compare .lt) v s)
  | .lte v => some' (oneParam owner path (.compare .lte) v s)
  | .gt v => some' (oneParam owner path (.compare .gt) v s)
  | .gte v => some' (oneParam owner path (.compare .gte) v s)
  | .isIn items => some' (oneParam owner path .inList (.list items) s)
  | .hasAny items =>
    if d.scalarContains then some' (scalarListOp owner path false .or false items s)
    else some' (oneParam owner path .listAny (.list items) s)
  | .hasAll items =>
    if d.scalarContains then some' (scalarListOp owner path true .and false items s)
    else some' (oneParam owner path .listAll (.list items) s)
  | .hasNone items =>
    if d.scalarContains then some' (scalarListOp owner path true .or true items s)
    else
      let r := oneParam owner path .listAny (.list items) s
      (some (.not :: .openParen :: r.1 ++ [.closeParen]), r.2)
  | .notIn items =>
    let r := oneParam owner path .inList (.list items) s
    (some (.not :: .openParen :: r.1 ++ [.closeParen]), r.2)
  | .isNull => (some [.test owner path .isNull none], s)
  | .isNotNull => (some [.test owner path .isNotNull none], s)
  | .isEmpty => (some [.test owner path .sizeIsZero none], s)
  | .isNotEmpty => (some [.test owner path .sizeIsPositive none], s)
  | .between lo hi =>
    let (first, s) := oneParam owner path (.compare .gte) lo s
    let (second, s) := oneParam owner path (.compare .lte) hi s
    (some (first ++ .and :: second), s)
  | .startsWith text => some' (oneParam owner path .startsWith (.string text) s)
  | .contains text => some' (oneParam owner path .contains (.string text) s)
  | .valuesCount none none => (none, s)
  | .valuesCount (some lo) none => some' (oneParam owner path .sizeAtLeast (.int (asI64 lo)) s)
  | .valuesCount none (some hi) => some' (oneParam owner path .sizeAtMost (.int (asI64 hi)) s)
  | .valuesCount (some lo) (some hi) =>
    let (first, s) := oneParam owner path .sizeAtLeast (.int (asI64 lo)) s
    let (second, s) := oneParam owner path .sizeAtMost (.int (asI64 hi)) s
    (some (first ++ .and :: second), s)

def buildOpClauses (d : Dialect) (owner : String) (path : List String) :
    List FilterOp → ParserState → List Clause × ParserState
  | [], s => ([], s)
  | op :: ops, s =>
    let (clause, s) := d.buildOpClause owner path op s
    let (clauses, s) := d.buildOpClauses owner path ops s
    (clause.toList ++ clauses, s)

def buildClause (d : Dialect) (owner : String) (path : List String) (value : FilterValue) (s : ParserState) :
    Option Clause × ParserState :=
  match value with
  | .direct v =>
    if v.isNull then (some [.test owner path .isNull none], s)
    else
      let r := oneParam owner path (.compare .eq) v s
      (some r.1, r.2)
  | .list items =>
    let r := oneParam owner path .inList (.list items) s
    (some r.1, r.2)
  | .ops ops =>
    let (clauses, s) := d.buildOpClauses owner path ops s
    (if clauses.isEmpty then none else some (joinClauses .and clauses), s)

end Dialect

def combineMust (clauses : List Clause) : Clause :=
  match clauses.filter fun c => !c.isEmpty with
  | [] => []
  | [c] => c
  | cs => .openParen :: joinClauses .and cs ++ [.closeParen]

def combineShould (clauses : List Clause) : Clause :=
  match clauses.filter fun c => !c.isEmpty with
  | [] => []
  | [c] => c
  | cs => .openParen :: joinClauses .or cs ++ [.closeParen]

def combineMustNot (clauses : List Clause) : Clause :=
  match clauses.filter fun c => !c.isEmpty with
  | [] => []
  | cs => .not :: .openParen :: joinClauses .and cs ++ [.closeParen]

namespace FilterParser

def validateParts : List String → Except FilterError Unit
  | [] => .ok ()
  | part :: path => do
    validateIdentifier part "path component"
    validateParts path

def validatePath (path : List String) : Except FilterError Unit :=
  if path.isEmpty then .error (.structured "empty path") else validateParts path

def emptyPredicate : Option Clause × ParserState → Except FilterError (Clause × ParserState)
  | (some clause, s) => .ok (clause, s)
  | (none, _) => .error (.structured "empty predicate")

def structuredGroup (combine : List Clause → Clause) (cs : List FilterCondition)
    (members : Except FilterError (List Clause × ParserState)) : Except FilterError (Clause × ParserState) :=
  if cs.isEmpty then .error (.structured "empty boolean group")
  else members.map fun r => (combine r.1, r.2)

mutual

def structuredClause (p : FilterParser) :
    FilterCondition → String → ℕ → ParserState → Except FilterError (Clause × ParserState)
  | condition, owner, depth, s =>
    if ¬ p.dialect.structuredFields then
      .error (.structured ("native nested filters: dialect " ++ p.dialect.name ++
        " does not declare structured fields"))
    else if depth > 32 then .error (.structured "nesting exceeds 32")
    else
      match condition with
      | .path path value => do
        validatePath path
        emptyPredicate (p.dialect.buildClause owner path value s)
      | .field key value => do
        validateIdentifier key "nested field"
        emptyPredicate (p.dialect.buildClause owner [key] value s)
      | .nested path condition => do
        validatePath path
        let element := "nested_" ++ toString depth
        let (predicate, s) ← structuredClause p condition element (depth + 1) s
        .ok ([.anyOf element owner path predicate], s)
      | .must cs =>
        structuredGroup (fun clauses => .openParen :: joinClauses .and clauses ++ [.closeParen]) cs
          (structuredClauses p cs owner (depth + 1) s)
      | .should cs =>
        structuredGroup (fun clauses => .openParen :: joinClauses .or clauses ++ [.closeParen]) cs
          (structuredClauses p cs owner (depth + 1) s)
      | .mustNot cs =>
        structuredGroup (fun clauses => .not :: .openParen :: joinClauses .and clauses ++ [.closeParen]) cs
          (structuredClauses p cs owner (depth + 1) s)

def structuredClauses (p : FilterParser) :
    List FilterCondition → String → ℕ → ParserState → Except FilterError (List Clause × ParserState)
  | [], _, _, s => .ok ([], s)
  | c :: cs, owner, depth, s => do
    let (clause, s) ← structuredClause p c owner depth s
    let (clauses, s) ← structuredClauses p cs owner depth s
    .ok (clause :: clauses, s)

end

def findRelation (p : FilterParser) (entity : String) : Option RelationDef :=
  p.relations.find? fun r =>
    (r.origin = p.resultEntity ∧ r.target = entity) ∨ (r.origin = entity ∧ r.target = p.resultEntity)

/-- The alias of an entity; the first use of another entity joins it. -/
def aliasOf (p : FilterParser) (entity : String) (s : ParserState) : Except FilterError (String × ParserState) :=
  match s.aliases.find? fun a => a.1 = entity with
  | some a => .ok (a.2, s)
  | none =>
    let entityAlias := "e" ++ toString (s.aliasCounter + 1)
    match p.findRelation entity with
    | none => .error (.noRelation p.resultEntity entity)
    | some rel => do
      validateIdentifier rel.name "relation"
      .ok (entityAlias, { s with
        aliasCounter := s.aliasCounter + 1
        aliases := s.aliases ++ [(entity, entityAlias)]
        matchClauses := s.matchClauses ++
          [⟨p.resultAlias, rel.name, entityAlias, entity, rel.origin = p.resultEntity⟩] })

def resolveKey (p : FilterParser) (key : String) : String × String :=
  (splitOnce key).getD (p.resultEntity, key)

mutual

def buildConditionClause (p : FilterParser) : FilterCondition → ParserState → Except FilterError (Clause × ParserState)
  | .path path value, s => p.structuredClause (.path path value) p.resultAlias 0 s
  | .nested path condition, s => p.structuredClause (.nested path condition) p.resultAlias 0 s
  | .field key value, s => do
    validateIdentifier (p.resolveKey key).1 "entity"
    validateIdentifier (p.resolveKey key).2 "field"
    let (owner, s) ← p.aliasOf (p.resolveKey key).1 s
    let (clause, s) := p.dialect.buildClause owner [(p.resolveKey key).2] value s
    .ok (clause.getD [], s)
  | .must cs, s => (buildConditionClauses p cs s).map fun r => (combineMust r.1, r.2)
  | .should cs, s => (buildConditionClauses p cs s).map fun r => (combineShould r.1, r.2)
  | .mustNot cs, s => (buildConditionClauses p cs s).map fun r => (combineMustNot r.1, r.2)

def buildConditionClauses (p : FilterParser) :
    List FilterCondition → ParserState → Except FilterError (List Clause × ParserState)
  | [], s => .ok ([], s)
  | c :: cs, s => do
    let (clause, s) ← buildConditionClause p c s
    let (clauses, s) ← buildConditionClauses p cs s
    .ok (clause :: clauses, s)

end

structure ParsedFilter where
  whereClause : Clause
  matchClauses : List MatchClause
  params : List (ℕ × Value)
  aliases : List (String × String)

def parseCondition (p : FilterParser) (condition : FilterCondition) : Except FilterError ParsedFilter := do
  validateIdentifier p.resultEntity "entity"
  let (clause, s) ← p.buildConditionClause condition { aliases := [(p.resultEntity, p.resultAlias)] }
  .ok ⟨clause, s.matchClauses, s.params, s.aliases⟩

end FilterParser

end Rag3db.Weaver
