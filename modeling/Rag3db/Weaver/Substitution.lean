import Rag3db.Weaver.Json

open List

namespace Rag3db.Weaver

/-- The letters and digits that a name may have beside the underscore: those of
Unicode in the source, of which only that `$` is none matters. -/
structure Alphabet where
  alphanumeric : Char → Bool
  dollar : alphanumeric '$' = false

def Alphabet.ascii : Alphabet := ⟨Char.isAlphanum, by decide⟩

structure NodeDef where
  name : String
  nodeType : String
  config : Json

structure EdgeDef where
  fromNode : String
  fromPort : String
  toNode : String
  toPort : String

structure GraphDefinition where
  nodes : List NodeDef
  edges : List EdgeDef

abbrev Args := List (String × Json)

namespace Alphabet

variable (A : Alphabet)

def isWord (c : Char) : Bool := A.alphanumeric c || c == '_'

def word (s : List Char) : List Char := s.takeWhile A.isWord

/-- The names that stand behind a `$`. A name holds no `$`, so that the scan
goes on inside it as well as behind it. -/
def scanChars : List Char → List String
  | [] => []
  | c :: rest =>
    if c = '$' ∧ A.word rest ≠ [] then String.ofList (A.word rest) :: scanChars rest else scanChars rest

mutual

def scanVars : Json → List String
  | .str s => A.scanChars s.toList
  | .arr items => scanItems items
  | .obj fields => scanFields fields
  | _ => []

def scanItems : List Json → List String
  | [] => []
  | v :: vs => scanVars v ++ scanItems vs

def scanFields : List (String × Json) → List String
  | [] => []
  | (_, v) :: fields => scanVars v ++ scanFields fields

end

def templateVars (d : GraphDefinition) : List String := d.nodes.flatMap fun n => A.scanVars n.config

/-- Follows `.field` in an object as long as there is one; `used` counts the
characters read so far. -/
def follow : Nat → Json → List Char → Nat → Json × Nat
  | fuel + 1, .obj fields, '.' :: rest, used =>
    let name := A.word rest
    match if name = [] then none else fields.lookup (String.ofList name) with
    | some next => follow fuel next (rest.drop name.length) (used + 1 + name.length)
    | none => (.obj fields, used)
  | _, v, _, used => (v, used)

def resolvePath (args : Args) (after : List Char) : Option (Json × Nat) :=
  let name := A.word after
  if name = [] then none
  else
    (args.lookup (String.ofList name)).map fun v =>
      A.follow after.length v (after.drop name.length) name.length

def inserted : Json → List Char
  | .str s => s.toList
  | v => v.text

def interpolateFrom (args : Args) : Nat → List Char → List Char
  | fuel + 1, c :: rest =>
    if c = '$' then
      let name := A.word rest
      if name = [] then '$' :: interpolateFrom args fuel rest
      else
        match A.resolvePath args rest with
        | some (v, used) => inserted v ++ interpolateFrom args fuel (rest.drop used)
        | none => '$' :: name ++ interpolateFrom args fuel (rest.drop name.length)
    else c :: interpolateFrom args fuel rest
  | _, s => s

def interpolate (args : Args) (s : String) : String :=
  String.ofList (A.interpolateFrom args s.toList.length s.toList)

def wholePath (args : Args) (s : List Char) : Option Json :=
  match s with
  | '$' :: name =>
    match A.resolvePath args name with
    | some (v, used) => if used = name.length then some v else none
    | none => none
  | _ => none

mutual

def substituteValue (args : Args) : Json → Json
  | .str s => (A.wholePath args s.toList).getD (.str (A.interpolate args s))
  | .arr items => .arr (substituteItems args items)
  | .obj fields => .obj (substituteFields args fields)
  | v => v

def substituteItems (args : Args) : List Json → List Json
  | [] => []
  | v :: vs => substituteValue args v :: substituteItems args vs

def substituteFields (args : Args) : List (String × Json) → List (String × Json)
  | [] => []
  | (k, v) :: fields => (k, substituteValue args v) :: substituteFields args fields

end

def substituteDefinition (args : Args) (d : GraphDefinition) : GraphDefinition :=
  { d with nodes := d.nodes.map fun n => { n with config := A.substituteValue args n.config } }

variable {A} {args args' : Args} {s t : List Char} {x : String}

theorem word_append_drop (s : List Char) : A.word s ++ s.drop (A.word s).length = s := by
  induction s with
  | nil => rfl
  | cons c rest ih =>
    unfold word at ih ⊢
    rw [takeWhile_cons]
    split_ifs
    · rw [length_cons, drop_succ_cons, cons_append, ih]
    · rfl

theorem scanChars_suffix (h : t <:+ s) (hx : x ∈ A.scanChars t) : x ∈ A.scanChars s := by
  induction s with
  | nil => simpa [suffix_nil.mp h] using hx
  | cons c rest ih =>
    rcases suffix_cons_iff.mp h with rfl | h
    · exact hx
    · unfold scanChars
      split_ifs
      · exact mem_cons_of_mem _ (ih h)
      · exact ih h

theorem word_mem_scanChars {rest : List Char} (h : A.word rest ≠ []) :
    String.ofList (A.word rest) ∈ A.scanChars ('$' :: rest) := by
  simp [scanChars, h]

theorem resolvePath_congr {after : List Char} (h : ∀ x ∈ A.scanChars ('$' :: after), args.lookup x = args'.lookup x) :
    A.resolvePath args after = A.resolvePath args' after := by
  unfold resolvePath
  by_cases hn : A.word after = []
  · simp [hn]
  · simp only [h _ (word_mem_scanChars hn)]

theorem interpolateFrom_congr {fuel : Nat} (h : ∀ x ∈ A.scanChars s, args.lookup x = args'.lookup x) :
    A.interpolateFrom args fuel s = A.interpolateFrom args' fuel s := by
  induction fuel generalizing s with
  | zero => rfl
  | succ fuel ih =>
    cases s with
    | nil => rfl
    | cons c rest =>
      have hrest : ∀ n, ∀ x ∈ A.scanChars (rest.drop n), args.lookup x = args'.lookup x := fun n x hx =>
        h x (scanChars_suffix ((drop_suffix n rest).trans (suffix_cons c rest)) hx)
      have hrest0 := hrest 0
      simp only [drop_zero] at hrest0
      unfold interpolateFrom
      by_cases hc : c = '$'
      · subst hc
        rw [if_pos rfl, if_pos rfl]
        dsimp only
        rw [resolvePath_congr h, ih hrest0]
        split_ifs
        · rfl
        · split
          · rw [ih (hrest _)]
          · rw [ih (hrest _)]
      · rw [if_neg hc, if_neg hc, ih hrest0]

theorem interpolateFrom_nil {fuel : Nat} : A.interpolateFrom [] fuel s = s := by
  induction fuel generalizing s with
  | zero => rfl
  | succ fuel ih =>
    cases s with
    | nil => rfl
    | cons c rest =>
      have hnone : A.resolvePath [] rest = none := by simp [resolvePath]
      unfold interpolateFrom
      by_cases hc : c = '$'
      · subst hc
        simp only [if_true, hnone]
        split_ifs
        · rw [ih]
        · rw [ih, cons_append, word_append_drop]
      · rw [if_neg hc, ih]

theorem wholePath_congr (h : ∀ x ∈ A.scanChars s, args.lookup x = args'.lookup x) :
    A.wholePath args s = A.wholePath args' s := by
  unfold wholePath
  split
  · rw [resolvePath_congr h]
  · rfl

theorem wholePath_nil : A.wholePath [] s = none := by
  unfold wholePath
  split
  · simp [resolvePath]
  · rfl

mutual

theorem substituteValue_congr : ∀ v : Json, (∀ x ∈ A.scanVars v, args.lookup x = args'.lookup x) →
    A.substituteValue args v = A.substituteValue args' v
  | .str s, h => by
    rw [scanVars] at h
    simp only [substituteValue, interpolate, wholePath_congr h, interpolateFrom_congr h]
  | .arr items, h => by
    rw [scanVars] at h
    simp only [substituteValue, substituteItems_congr items h]
  | .obj fields, h => by
    rw [scanVars] at h
    simp only [substituteValue, substituteFields_congr fields h]
  | .null, _ | .bool _, _ | .int _, _ | .float _, _ => rfl

theorem substituteItems_congr : ∀ vs : List Json, (∀ x ∈ A.scanItems vs, args.lookup x = args'.lookup x) →
    A.substituteItems args vs = A.substituteItems args' vs
  | [], _ => rfl
  | v :: vs, h => by
    rw [scanItems] at h
    rw [substituteItems, substituteItems, substituteValue_congr v fun x hx => h x (mem_append_left _ hx),
      substituteItems_congr vs fun x hx => h x (mem_append_right _ hx)]

theorem substituteFields_congr : ∀ fields : List (String × Json),
    (∀ x ∈ A.scanFields fields, args.lookup x = args'.lookup x) →
    A.substituteFields args fields = A.substituteFields args' fields
  | [], _ => rfl
  | (k, v) :: fields, h => by
    rw [scanFields] at h
    rw [substituteFields, substituteFields, substituteValue_congr v fun x hx => h x (mem_append_left _ hx),
      substituteFields_congr fields fun x hx => h x (mem_append_right _ hx)]

end

mutual

theorem substituteValue_nil : ∀ v : Json, A.substituteValue [] v = v
  | .str s => by simp [substituteValue, interpolate, wholePath_nil, interpolateFrom_nil]
  | .arr items => by simp only [substituteValue, substituteItems_nil items]
  | .obj fields => by simp only [substituteValue, substituteFields_nil fields]
  | .null | .bool _ | .int _ | .float _ => rfl

theorem substituteItems_nil : ∀ vs : List Json, A.substituteItems [] vs = vs
  | [] => rfl
  | v :: vs => by rw [substituteItems, substituteValue_nil v, substituteItems_nil vs]

theorem substituteFields_nil : ∀ fields : List (String × Json), A.substituteFields [] fields = fields
  | [] => rfl
  | (k, v) :: fields => by rw [substituteFields, substituteValue_nil v, substituteFields_nil fields]

end

theorem substituteValue_eq_self (v : Json) (h : ∀ x ∈ A.scanVars v, args.lookup x = none) :
    A.substituteValue args v = v :=
  (substituteValue_congr v fun x hx => by simpa using h x hx).trans (substituteValue_nil v)

/-- Instantiation reads no parameter but those that the scan of the template finds. -/
theorem substituteDefinition_congr {d : GraphDefinition} (h : ∀ x ∈ A.templateVars d, args.lookup x = args'.lookup x) :
    A.substituteDefinition args d = A.substituteDefinition args' d := by
  refine congrArg (GraphDefinition.mk · d.edges) (map_congr_left fun n hn => ?_)
  rw [substituteValue_congr n.config fun x hx => h x (mem_flatMap.mpr ⟨n, hn, hx⟩)]

theorem substituteDefinition_congr_other :
    let d : GraphDefinition := ⟨[⟨"n", "t", .str "$y"⟩], []⟩
    ascii.substituteDefinition [("x", .null), ("y", .str "v")] d = ascii.substituteDefinition [("y", .str "v")] d ∧
      (ascii.substituteDefinition [("y", .str "v")] d).nodes = [⟨"n", "t", .str "v"⟩] := by
  refine ⟨substituteDefinition_congr fun x hx => ?_, rfl⟩
  obtain rfl := mem_singleton.mp (show x ∈ ["y"] from hx)
  rfl

end Alphabet

end Rag3db.Weaver
