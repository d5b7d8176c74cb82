import Rag3db.Library.Fallible
import Rag3db.Weaver.Substitution

open List

namespace Rag3db.Weaver

open Json

inductive ConfigParamType
  | string
  | int
  | float
  | bool
  | json
  deriving DecidableEq

def ConfigParamType.name : ConfigParamType → String
  | .string => "string"
  | .int => "int"
  | .float => "float"
  | .bool => "bool"
  | .json => "json"

structure ConfigParam where
  name : String
  paramType : ConfigParamType
  required : Bool
  default : Option Json

structure GraphTool where
  params : List ConfigParam
  template : GraphDefinition
  resultNode : String
  resultPort : String

def GraphTool.paramNames (tool : GraphTool) : List String := tool.params.map (·.name)

namespace Json

def kind : Json → String
  | .null => "null"
  | .bool _ => "boolean"
  | .int _ => "integer"
  | .float _ => "number"
  | .str _ => "string"
  | .arr _ => "array"
  | .obj _ => "object"

def Scalar : Json → Prop
  | .arr _ | .obj _ => False
  | _ => True

@[simp] theorem scalar_str (s : String) : (str s).Scalar := trivial

end Json

def valueMatches : ConfigParamType → Json → Bool
  | .string, .str _ | .int, .int _ | .float, .int _ | .float, .float _ | .bool, .bool _ => true
  | .json, .obj _ | .json, .arr _ | .json, .null => true
  | _, _ => false

/-- The arguments in the order of the parameters, with the defaults of those
that are not given. -/
def fillParams (given : Args) : List ConfigParam → Except String Args
  | [] => .ok []
  | p :: params =>
    match given.lookup p.name with
    | some v =>
      if valueMatches p.paramType v then (fillParams given params).map ((p.name, v) :: ·)
      else .error s!"argument '{p.name}' : attendu {p.paramType.name}, reçu {v.kind}"
    | none =>
      if p.required then .error s!"argument requis manquant : '{p.name}'"
      else
        match p.default with
        | some d => (fillParams given params).map ((p.name, d) :: ·)
        | none => fillParams given params

def resolveParams (params : List ConfigParam) (given : Args) : Except String Args :=
  let known := params.map (·.name)
  match given.find? fun (k, _) => !known.contains k with
  | some (k, _) =>
    let attendus := ", ".intercalate known
    .error s!"argument inconnu '{k}' ; attendus : {attendus}"
  | none => fillParams given params

/-- Each parameter of a graph is named in it, and each name in it is a
parameter. -/
def checkSpec (A : Alphabet) (tool : GraphTool) : Except String Unit :=
  let used := A.templateVars tool.template
  match used.find? fun v => !tool.paramNames.contains v with
  | some v => .error s!"le graphe utilise ${v}, qui n'est pas un paramètre déclaré"
  | none =>
    match tool.paramNames.find? fun p => !used.contains p with
    | some p => .error s!"le paramètre '{p}' n'apparaît nulle part dans le graphe (${p})"
    | none => .ok ()

/-- How a graph is read: the parser of its text, whose values are scalars, the
check against the registry of nodes, which leaves the graph and the names of
its parameters alone, and the two places that cited graphs come from. -/
structure Reader where
  fromMermaid : String → Except String GraphTool
  scalars : ∀ {texte tool}, fromMermaid texte = .ok tool → ∀ n ∈ tool.template.nodes,
    ∃ fields, n.config = .obj fields ∧ ∀ p ∈ fields, p.2.Scalar
  bind : GraphTool → Except String GraphTool
  bind_template : ∀ {tool bound}, bind tool = .ok bound → bound.template = tool.template
  bind_names : ∀ {tool bound}, bind tool = .ok bound → bound.paramNames = tool.paramNames
  lire : String → Except String String
  builtin : String → Option String

def isGraphNode (nodeType : String) : Bool := nodeType == "GraphNode" || nodeType == "ForEachNode"

def NodeDef.isGraphNode (n : NodeDef) : Bool := Weaver.isGraphNode n.nodeType

def NodeDef.isForEach (n : NodeDef) : Bool := n.nodeType == "ForEachNode"

/-- The text under `graph` of a node that calls a graph. -/
def NodeDef.citation (n : NodeDef) : Option String :=
  if n.isGraphNode then (n.config.get "graph").bind asStr else none

def NodeDef.remplacer (n : NodeDef) (key : String) (v : Json) : NodeDef :=
  match n.config with
  | .obj fields => { n with config := .obj (insertField key v fields) }
  | _ => { n with config := .obj [(key, v)] }

def remplacerConfig (noeud key : String) (v : Json) : List NodeDef → List NodeDef
  | [] => []
  | n :: nodes => if n.name = noeud then n.remplacer key v :: nodes else n :: remplacerConfig noeud key v nodes

def GraphTool.remplacerConfig (tool : GraphTool) (noeud key : String) (v : Json) : GraphTool :=
  { tool with template := { tool.template with nodes := Weaver.remplacerConfig noeud key v tool.template.nodes } }

def parametreDeLElement (config : Json) : String := ((config.get "element").bind asStr).getD "element"

def contient (motif s : List Char) : Bool := s.tails.any fun t => motif.isPrefixOf t

def estUnScript (key : String) : Bool := contient "script".toList key.toList

mutual

def scriptQuiLit (element : String) : Json → Option String
  | .obj fields => scriptDesChamps element fields
  | .arr items => scriptDesItems element items
  | _ => none

def scriptDesItems (element : String) : List Json → Option String
  | [] => none
  | v :: vs => (scriptQuiLit element v).or (scriptDesItems element vs)

def scriptDesChamps (element : String) : List (String × Json) → Option String
  | [] => none
  | (k, v) :: fields =>
    (match v with
      | .str s => if estUnScript k && contient ('$' :: element.toList) s.toList then some k else none
      | v => scriptQuiLit element v).or (scriptDesChamps element fields)

end

def arbreCite (cite texte : String) (sous : List (String × Json)) : Json :=
  .obj [("cite", .str cite), ("mermaid", .str texte), ("sous", .obj sous)]

namespace Reader

variable (R : Reader)

def texteCite (cite : String) : Except String (String × String) :=
  match cite.toList with
  | '@' :: rest =>
    let chemin := String.ofList rest
    if "builtin:".toList.isPrefixOf rest then
      let livre := String.ofList (rest.drop "builtin:".length)
      match R.builtin livre with
      | some texte => .ok (chemin, texte)
      | none => .error s!"aucun graphe livré « {livre} »"
    else
      match R.lire chemin with
      | .ok texte => .ok (chemin, texte)
      | .error e => .error s!"{chemin} : {e}"
  | _ => .error s!"`graph` se cite par @graphs/<fichier>.mmd ou @builtin:<chemin>, pas « {cite} »"

/-- The graphs that the nodes cite, read one by one with `lireUn`, and the
types of all nodes on the way. -/
def lireLesNoeuds (lireUn : String → Json → Bool → Except String (Json × List String)) (chemin : String) :
    List NodeDef → List (String × Json) → List String → Except String (List (String × Json) × List String)
  | [], sous, types => .ok (sous, types)
  | n :: nodes, sous, types =>
    match n.citation with
    | some cite =>
      match lireUn cite n.config n.isForEach with
      | .ok (arbre, ses) =>
        lireLesNoeuds lireUn chemin nodes (insertField n.name arbre sous) (types ++ n.nodeType :: ses)
      | .error e => .error s!"{chemin}, le nœud « {n.name} » : {e}"
    | none => lireLesNoeuds lireUn chemin nodes sous (types ++ [n.nodeType])

/-- Reads, binds and checks a cited graph and those that it cites: the tree of
their texts and the types of all their nodes. The first argument counts how
many more levels may follow. -/
def lireUnSousGraphe : Nat → String → Json → Bool → Except String (Json × List String)
  | 0, cite, _, _ =>
    .error s!"« {cite} » : plus de 8 sous-graphes cités les uns dans les autres — un cycle de citations ?"
  | niveaux + 1, cite, config, parElement => do
    let (chemin, texte) ← R.texteCite cite
    let outil ← (R.fromMermaid texte >>= R.bind).mapError fun e => s!"{chemin} : {e}"
    let element := parametreDeLElement config
    if parElement && !outil.paramNames.contains element then
      .error s!"{chemin} : le graphe ne déclare pas le paramètre « {element} » qui reçoit l'élément"
    else
      match outil.template.nodes.findSome? fun n => (scriptQuiLit element n.config).map (n.name, ·) with
      | some (noeud, cle) =>
        .error s!"{chemin} : le nœud « {noeud} » substitue ${element} dans sa clé « {cle} »"
      | none =>
        let (sous, types) ← lireLesNoeuds (lireUnSousGraphe niveaux) chemin outil.template.nodes [] []
        .ok (arbreCite cite texte sous, types)

def profondeurMax : Nat := 8

def resoudreLesCites : List NodeDef → GraphTool → List String → Except String (GraphTool × List String)
  | [], outil, types => .ok (outil, types)
  | n :: cites, outil, types =>
    match n.citation with
    | some cite =>
      let parElement := outil.template.nodes.any fun m => m.name == n.name && m.isForEach
      match R.lireUnSousGraphe profondeurMax cite n.config parElement with
      | .ok (arbre, ses) => resoudreLesCites cites (outil.remplacerConfig n.name "graph" arbre) (types ++ ses)
      | .error e => .error s!"le nœud « {n.name} » : {e}"
    | none => resoudreLesCites cites outil types

/-- Puts the trees of the cited graphs in the place of their citations. -/
def resoudreLesSousGraphes (outil : GraphTool) : Except String (GraphTool × List String) :=
  R.resoudreLesCites outil.template.nodes outil []

def sousGraphes (arbre : List (String × Json)) : List (String × Json) :=
  match arbre.lookup "sous" with
  | some (.obj sous) => sous
  | _ => []

def materialiser (config : Json) (qui : String) : Except String (String × GraphTool) :=
  match config.get "graph" with
  | some (.obj arbre) =>
    let cite := ((arbre.lookup "cite").bind asStr).getD "?"
    match (arbre.lookup "mermaid").bind asStr with
    | none => .error s!"{qui} : `graph` sans texte"
    | some texte =>
      (do
        let outil ← R.fromMermaid texte
        let outil ← R.bind <|
          (sousGraphes arbre).foldl (fun o (noeud, a) => o.remplacerConfig noeud "graph" a) outil
        .ok (cite, outil)).mapError fun e => s!"{qui}, {cite} : {e}"
  | some (.str c) => .error s!"{qui} : le graphe « {c} » n'a pas été lu au chargement"
  | _ => .error s!"{qui} : il manque `graph`"

end Reader

def clesDuNoeud : List String := ["graph", "element", "result", "on_error", "parallelism"]

def Json.fields : Json → List (String × Json)
  | .obj fields => fields
  | _ => []

def parametres (outil : GraphTool) (config : Json) (sauf : Option String) : Except String Args :=
  resolveParams (outil.params.filter fun p => some p.name != sauf)
    (config.fields.filter fun (k, _) => !clesDuNoeud.contains k)

namespace Reader

variable (R : Reader)

/-- The nested call that a node of an instantiated graph makes: a graph node
one call, a for-each node one for every element. -/
inductive Calls (n : NodeDef) (outil : GraphTool) : Args → Prop
  | graph {cite : String} {args : Args} (htype : n.nodeType = "GraphNode")
      (hgraph : R.materialiser n.config s!"GraphNode « {n.name} »" = .ok (cite, outil))
      (hargs : parametres outil n.config none = .ok args) : Calls n outil args
  | each {cite : String} {args : Args} (e : Json) (htype : n.nodeType = "ForEachNode")
      (hgraph : R.materialiser n.config s!"ForEachNode « {n.name} »" = .ok (cite, outil))
      (helement : parametreDeLElement n.config ∈ outil.paramNames)
      (hargs : parametres outil n.config (some (parametreDeLElement n.config)) = .ok args) :
      Calls n outil (insertField (parametreDeLElement n.config) e args)

end Reader

section Arguments

variable {given args : Args} {params : List ConfigParam} {x : String}
  {p : String × Json} {fields : List (String × Json)}

theorem Json.lookup_cons : List.lookup x (p :: fields) = if x = p.1 then some p.2 else fields.lookup x := by
  by_cases hx : x = p.1
  · simp [List.lookup, hx]
  · simp [List.lookup, hx, beq_false_of_ne hx]

variable {key : String} {v : Json}

theorem Json.lookup_insertField :
    (insertField key v fields).lookup x = if x = key then some v else fields.lookup x := by
  induction fields with
  | nil => exact lookup_cons
  | cons p fields ih =>
    unfold insertField
    split_ifs with hp hx hx
    · rw [lookup_cons, if_pos hx]
    · rw [lookup_cons, if_neg hx, lookup_cons, if_neg (by rwa [hp])]
    · rw [lookup_cons, ih, if_neg fun h : x = p.1 => hp (h.symm.trans hx), if_pos hx]
    · rw [lookup_cons, ih, if_neg hx, lookup_cons]

theorem Json.mem_of_lookup (h : fields.lookup x = some v) : (x, v) ∈ fields := by
  obtain ⟨_, _, rfl, -⟩ := lookup_eq_some_iff.mp h
  exact mem_append_right _ mem_cons_self

theorem Json.mem_insertField (h : p ∈ insertField key v fields) : p = (key, v) ∨ p ∈ fields := by
  induction fields with
  | nil => simpa [insertField] using h
  | cons q fields ih =>
    unfold insertField at h
    split_ifs at h
    · rcases mem_cons.mp h with rfl | h
      · exact .inl rfl
      · exact .inr (mem_cons_of_mem _ h)
    · rcases mem_cons.mp h with rfl | h
      · exact .inr mem_cons_self
      · exact (ih h).imp_right (mem_cons_of_mem _)

theorem lookup_fillParams (h : fillParams given params = .ok args) :
    args.lookup x = params.findSome? fun p => if p.name = x then (given.lookup x).or p.default else none := by
  induction params generalizing args with
  | nil => cases h; rfl
  | cons p params ih =>
    have hput : ∀ v, (fillParams given params).map ((p.name, v) :: ·) = .ok args →
        (given.lookup p.name).or p.default = some v →
        args.lookup x = (p :: params).findSome? fun p =>
          if p.name = x then (given.lookup x).or p.default else none := by
      intro v hv hval
      cases hf : fillParams given params with
      | error e => rw [hf] at hv; cases hv
      | ok rest =>
        rw [hf] at hv
        cases hv
        rw [lookup_cons]
        by_cases hx : x = p.name
        · subst hx; simp [hval]
        · simp [hx, Ne.symm hx, ih hf]
    unfold fillParams at h
    split at h
    · rename_i v hv
      split_ifs at h
      exact hput v h (by rw [hv]; rfl)
    · rename_i hv
      split_ifs at h
      split at h
      · rename_i d hd
        exact hput d h (by rw [hv, hd]; rfl)
      · rename_i hd
        rw [ih h]
        by_cases hx : p.name = x
        · subst hx; simp [hv, hd]
        · simp [hx]

theorem resolveParams_eq_ok (h : resolveParams params given = .ok args) : fillParams given params = .ok args := by
  unfold resolveParams at h
  dsimp only at h
  split at h
  · cases h
  · exact h

theorem lookup_resolveParams (h : resolveParams params given = .ok args) (hx : x ∉ params.map (·.name)) :
    args.lookup x = none := by
  rw [lookup_fillParams (resolveParams_eq_ok h), findSome?_eq_none_iff]
  intro p hp
  rw [if_neg fun hn => hx (mem_map.mpr ⟨p, hp, hn⟩)]

theorem get_substituteValue {A : Alphabet} (key : String) :
    (A.substituteValue args (.obj fields)).get key = (fields.lookup key).map (A.substituteValue args) := by
  rw [Alphabet.substituteValue, Json.get]
  induction fields with
  | nil => rfl
  | cons p fields ih =>
    rw [Alphabet.substituteFields, lookup_cons, lookup_cons, ih]
    split_ifs <;> rfl

theorem lookup_filter_keys {p : String → Bool} :
    (fields.filter fun (k, _) => p k).lookup x = if p x then fields.lookup x else none := by
  induction fields with
  | nil => simp
  | cons q fields ih =>
    rw [filter_cons]
    by_cases hq : p q.1
    · simp only [hq, if_true, lookup_cons, ih]
      by_cases hx : x = q.1
      · simp [hx, hq]
      · simp [hx]
    · simp only [hq, Bool.false_eq_true, if_false, lookup_cons, ih]
      by_cases hx : x = q.1
      · simp [hx, hq]
      · simp [hx]

theorem Json.lookup_fields (config : Json) : config.fields.lookup x = config.get x := by
  cases config <;> rfl

theorem parametres_congr {outil : GraphTool} {config config' : Json} {sauf : Option String} {args' : Args}
    (h : parametres outil config sauf = .ok args) (h' : parametres outil config' sauf = .ok args')
    (hx : config.get x = config'.get x) : args.lookup x = args'.lookup x := by
  rw [lookup_fillParams (resolveParams_eq_ok h), lookup_fillParams (resolveParams_eq_ok h'),
    lookup_filter_keys (p := fun k => !clesDuNoeud.contains k),
    lookup_filter_keys (p := fun k => !clesDuNoeud.contains k), lookup_fields, lookup_fields, hx]

end Arguments

theorem NodeDef.get_remplacer (n : NodeDef) (key x : String) (v : Json) (hobj : ∃ fields, n.config = .obj fields) :
    (n.remplacer key v).config.get x = if x = key then some v else n.config.get x := by
  obtain ⟨fields, hf⟩ := hobj
  simp only [NodeDef.remplacer, hf, Json.get, Json.lookup_insertField]

theorem NodeDef.remplacer_nodeType (n : NodeDef) (key : String) (v : Json) :
    (n.remplacer key v).nodeType = n.nodeType := by
  unfold remplacer
  split <;> rfl

theorem NodeDef.remplacer_config (n : NodeDef) (key : String) (v : Json) :
    ∃ fields, (n.remplacer key v).config = .obj fields := by
  unfold remplacer
  split
  · exact ⟨_, rfl⟩
  · exact ⟨_, rfl⟩

variable {P : NodeDef → Prop} {key : String} {nodes : List NodeDef}

/-- What holds of all nodes and survives the replacement holds afterwards. -/
theorem forall_remplacerConfig {noeud : String} {v : Json}
    (hP : ∀ n, P n → P (n.remplacer key v)) (h : ∀ n ∈ nodes, P n) : ∀ n ∈ remplacerConfig noeud key v nodes, P n := by
  induction nodes with
  | nil => exact h
  | cons m nodes ih =>
    obtain ⟨hm, hnodes⟩ := forall_mem_cons.mp h
    unfold remplacerConfig
    split_ifs
    · exact forall_mem_cons.mpr ⟨hP m hm, hnodes⟩
    · exact forall_mem_cons.mpr ⟨hm, ih hnodes⟩

variable {sous : List (String × Json)} {outil : GraphTool}

theorem forall_remplacerConfigs
    (hP : ∀ p ∈ sous, ∀ n, P n → P (n.remplacer key p.2)) (h : ∀ n ∈ outil.template.nodes, P n) :
    ∀ n ∈ (sous.foldl (fun o (noeud, a) => o.remplacerConfig noeud key a) outil).template.nodes, P n := by
  induction sous generalizing outil with
  | nil => exact h
  | cons p sous ih =>
    exact ih (fun q hq => hP q (mem_cons_of_mem _ hq)) (forall_remplacerConfig (hP p mem_cons_self) h)

theorem paramNames_remplacerConfigs :
    (sous.foldl (fun o (noeud, a) => o.remplacerConfig noeud key a) outil).paramNames = outil.paramNames := by
  induction sous generalizing outil with
  | nil => rfl
  | cons p sous ih => exact ih

namespace Reader

open Library.Fallible

variable {R : Reader} {niveaux : Nat} {cite chemin texte qui : String} {config arbre : Json} {parElement : Bool}
  {types : List String} {outil : GraphTool}

theorem head_of_texteCite {r : String × String} (h : R.texteCite cite = .ok r) : cite.toList.head? = some '@' := by
  unfold texteCite at h
  split at h
  · rename_i hc; rw [hc]; rfl
  · cases h

theorem lireUnSousGraphe_eq_ok (h : R.lireUnSousGraphe (niveaux + 1) cite config parElement = .ok (arbre, types)) :
    ∃ chemin texte lu outil sous, R.texteCite cite = .ok (chemin, texte) ∧ R.fromMermaid texte = .ok lu ∧
      R.bind lu = .ok outil ∧
      (∀ n ∈ outil.template.nodes, scriptQuiLit (parametreDeLElement config) n.config = none) ∧
      lireLesNoeuds (R.lireUnSousGraphe niveaux) chemin outil.template.nodes [] [] = .ok (sous, types) ∧
      arbre = arbreCite cite texte sous := by
  obtain ⟨⟨chemin, texte⟩, htexte, h⟩ := bind_eq_ok h
  obtain ⟨outil, houtil, h⟩ := bind_eq_ok h
  obtain ⟨lu, hlu, hbind⟩ := bind_eq_ok (mapError_eq_ok houtil)
  dsimp only at h
  split_ifs at h
  split at h
  · cases h
  · rename_i hscript
    obtain ⟨⟨sous, ses⟩, hnoeuds, h⟩ := bind_eq_ok h
    cases h
    refine ⟨chemin, texte, lu, outil, sous, htexte, hlu, hbind, fun n hn => ?_, hnoeuds, rfl⟩
    simpa using findSome?_eq_none_iff.mp hscript n hn

theorem head_of_lireUnSousGraphe (h : R.lireUnSousGraphe niveaux cite config parElement = .ok (arbre, types)) :
    cite.toList.head? = some '@' := by
  cases niveaux with
  | zero => cases h
  | succ niveaux =>
    obtain ⟨_, _, _, _, _, htexte, -⟩ := lireUnSousGraphe_eq_ok h
    exact head_of_texteCite htexte

/-- What reading the citations of some nodes gives: the types of the nodes and
of the graphs read, and a tree only of a graph that was read. -/
structure Lu (lireUn : String → Json → Bool → Except String (Json × List String)) (nodes : List NodeDef)
    (sous₀ sous : List (String × Json)) (types₀ types : List String) : Prop where
  before : types₀ ⊆ types
  nodeType : ∀ n ∈ nodes, n.nodeType ∈ types
  cited : ∀ n ∈ nodes, ∀ cite, n.citation = some cite → ∃ r, lireUn cite n.config n.isForEach = .ok r
  tree : ∀ p ∈ sous, p ∈ sous₀ ∨
    ∃ cite config parElement ses, lireUn cite config parElement = .ok (p.2, ses) ∧ ses ⊆ types

variable {sous : List (String × Json)}

theorem lu_of_lireLesNoeuds {lireUn : String → Json → Bool → Except String (Json × List String)}
    {sous₀ : List (String × Json)} {types₀ : List String}
    (h : lireLesNoeuds lireUn chemin nodes sous₀ types₀ = .ok (sous, types)) :
    Lu lireUn nodes sous₀ sous types₀ types := by
  induction nodes generalizing sous₀ types₀ with
  | nil =>
    cases h
    exact ⟨List.Subset.refl _, by simp, by simp, fun p hp => .inl hp⟩
  | cons n nodes ih =>
    unfold lireLesNoeuds at h
    split at h
    · rename_i cite hcite
      split at h
      · rename_i arbre ses hlu
        obtain ⟨hbefore, htypes, hcited, htree⟩ := ih h
        rw [append_subset, cons_subset] at hbefore
        refine ⟨hbefore.1, forall_mem_cons.mpr ⟨hbefore.2.1, htypes⟩, forall_mem_cons.mpr
          ⟨fun cite' hc => ?_, hcited⟩, fun p hp => ?_⟩
        · cases hcite.symm.trans hc
          exact ⟨_, hlu⟩
        · rcases htree p hp with hp | hp
          · rcases mem_insertField hp with rfl | hp
            · exact .inr ⟨cite, n.config, n.isForEach, ses, hlu, hbefore.2.2⟩
            · exact .inl hp
          · exact .inr hp
      · cases h
    · rename_i hcite
      obtain ⟨hbefore, htypes, hcited, htree⟩ := ih h
      rw [append_subset, cons_subset] at hbefore
      refine ⟨hbefore.1, forall_mem_cons.mpr ⟨hbefore.2.1, htypes⟩, forall_mem_cons.mpr
        ⟨fun cite' hc => ?_, hcited⟩, htree⟩
      cases hcite.symm.trans hc

variable {r : String × GraphTool}

theorem materialiser_eq_ok (h : R.materialiser config qui = .ok r) :
    ∃ arbre texte lu, config.get "graph" = some (.obj arbre) ∧
      (arbre.lookup "mermaid").bind asStr = some texte ∧ R.fromMermaid texte = .ok lu ∧
      R.bind ((sousGraphes arbre).foldl (fun o (noeud, a) => o.remplacerConfig noeud "graph" a) lu) = .ok r.2 := by
  unfold materialiser at h
  split at h
  · rename_i arbre hgraph
    split at h
    · cases h
    · rename_i texte htexte
      obtain ⟨lu, hlu, h⟩ := bind_eq_ok (mapError_eq_ok h)
      obtain ⟨outil, hbind, h⟩ := bind_eq_ok h
      cases h
      exact ⟨arbre, texte, lu, hgraph, htexte, hlu, hbind⟩
  · cases h
  · cases h

theorem materialiser_arbreCite
    (hgraph : config.get "graph" = some (arbreCite cite texte sous)) (h : R.materialiser config qui = .ok r) :
    ∃ lu, R.fromMermaid texte = .ok lu ∧
      R.bind (sous.foldl (fun o (noeud, a) => o.remplacerConfig noeud "graph" a) lu) = .ok r.2 := by
  obtain ⟨arbre, texte', lu, hget, htexte, hlu, hbind⟩ := materialiser_eq_ok h
  cases hgraph.symm.trans hget
  cases htexte
  exact ⟨lu, hlu, hbind⟩

theorem Calls.materialised {n : NodeDef} {args : Args} (h : R.Calls n outil args) :
    n.isGraphNode ∧ ∃ qui cite, R.materialiser n.config qui = .ok (cite, outil) := by
  cases h with
  | graph htype hgraph _ | each e htype hgraph _ _ =>
    exact ⟨by simp [NodeDef.isGraphNode, isGraphNode, htype], _, _, hgraph⟩

def ofTexts (texts : List (String × GraphTool)) (files : List (String × String))
    (h : ∀ p ∈ texts, ∀ n ∈ p.2.template.nodes, ∃ fields, n.config = .obj fields ∧ ∀ q ∈ fields, q.2.Scalar) :
    Reader where
  fromMermaid texte := match texts.lookup texte with
    | some tool => .ok tool
    | none => .error "pas un graphe"
  scalars {texte tool} hok n hn := by
    split at hok
    · rename_i found hfound
      cases hok
      obtain ⟨_, _, rfl, -⟩ := lookup_eq_some_iff.mp hfound
      exact h _ (mem_append_right _ mem_cons_self) n hn
    · cases hok
  bind tool := (checkSpec .ascii tool).map fun _ => tool
  bind_template hok := by
    obtain ⟨_, -, rfl⟩ := map_eq_ok hok
    rfl
  bind_names hok := by
    obtain ⟨_, -, rfl⟩ := map_eq_ok hok
    rfl
  lire chemin := match files.lookup chemin with
    | some texte => .ok texte
    | none => .error "absent"
  builtin _ := none

def single (name nodeType : String) (fields : List (String × Json)) : GraphTool :=
  ⟨[], ⟨[⟨name, nodeType, .obj fields⟩], []⟩, name, "result"⟩

end Reader

end Rag3db.Weaver
