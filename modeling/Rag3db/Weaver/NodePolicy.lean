import Rag3db.Weaver.CitedGraphs

open List

namespace Rag3db.Weaver

inductive NodeTypePolicy
  | all
  | only (types : List String)

namespace NodeTypePolicy

def allows : NodeTypePolicy → String → Bool
  | .all, _ => true
  | .only types, nodeType => types.contains nodeType

end NodeTypePolicy

def validateNodeTypes (d : GraphDefinition) (policy : NodeTypePolicy) : Except String Unit :=
  match d.nodes.find? fun n => !policy.allows n.nodeType with
  | some n => .error s!"nœud '{n.name}' : le type '{n.nodeType}' n'est pas autorisé ici"
  | none => .ok ()

/-- The check of a tool when it is loaded: its own types and those of the
graphs that it cites. -/
def validateToolPolicy (tool : String) (types : List String) (policy : NodeTypePolicy) : Except String Unit :=
  match types.find? fun t => !policy.allows t with
  | some t => .error s!"l'outil « {tool} » contient {t}, qui n'est pas un nœud d'outil de backend"
  | none => .ok ()

namespace Reader

variable (R : Reader) (A : Alphabet)

/-- Building and running a definition creates its nodes and, through its calls,
those of the nested graphs. -/
inductive Creates : GraphDefinition → String → Prop
  | node {d : GraphDefinition} {n : NodeDef} (hn : n ∈ d.nodes) : Creates d n.nodeType
  | nested {d : GraphDefinition} {n : NodeDef} {outil : GraphTool} {args : Args} {t : String} (hn : n ∈ d.nodes)
      (hcall : R.Calls n outil args) (ht : Creates (A.substituteDefinition args outil.template) t) : Creates d t

/-- No text of a cited graph mentions a parameter of the graph around it, at
any depth. -/
inductive Enclosed : List String → Json → Prop
  | tree {names : List String} {cite texte : String} {sous : List (String × Json)} {lu : GraphTool}
      (hlu : R.fromMermaid texte = .ok lu) (hnames : ∀ x ∈ A.scanVars (arbreCite cite texte sous), x ∉ names)
      (hsous : ∀ p ∈ sous, Enclosed lu.paramNames p.2) : Enclosed names (arbreCite cite texte sous)

/-- The tree of a cited graph that only holds nodes of some types. -/
inductive Cited (ok : String → Prop) : List String → Json → Prop
  | tree {names : List String} {cite texte : String} {sous : List (String × Json)} {lu : GraphTool}
      (hlu : R.fromMermaid texte = .ok lu) (hnames : ∀ x ∈ A.scanVars (arbreCite cite texte sous), x ∉ names)
      (htypes : ∀ n ∈ lu.template.nodes, ok n.nodeType)
      (hcites : ∀ n ∈ lu.template.nodes, ∀ s, n.citation = some s → s.toList.head? = some '@')
      (hsous : ∀ p ∈ sous, Cited ok lu.paramNames p.2) : Cited ok names (arbreCite cite texte sous)

variable {R A} {ok : String → Prop} {names types : List String} {g tree : Json} {args : Args} {n : NodeDef}
  {config : Json}

theorem cited_of_lireUnSousGraphe {niveaux : Nat} {cite : String} {parElement : Bool}
    (h : R.lireUnSousGraphe niveaux cite config parElement = .ok (tree, types)) (hok : ∀ t ∈ types, ok t)
    (henc : R.Enclosed A names tree) : R.Cited A ok names tree := by
  induction niveaux generalizing cite config parElement tree types names with
  | zero => cases h
  | succ niveaux ih =>
    obtain ⟨chemin, texte, lu, outil, sous, -, hlu, hbind, -, hnoeuds, rfl⟩ := lireUnSousGraphe_eq_ok h
    have hread := lu_of_lireLesNoeuds hnoeuds
    rw [R.bind_template hbind] at hread
    cases henc with
    | tree hlu' hnames hsous =>
      cases hlu.symm.trans hlu'
      refine .tree hlu hnames (fun n hn => hok _ (hread.nodeType n hn)) (fun n hn s hs => ?_) fun p hp => ?_
      · obtain ⟨r, hr⟩ := hread.cited n hn s hs
        exact head_of_lireUnSousGraphe hr
      · rcases hread.tree p hp with hp' | ⟨_, _, _, ses, hses, hsub⟩
        · cases hp'
        · exact ih hses (fun t ht => hok t (hsub ht)) (hsous p hp)

/-- What a node may have under `graph`, so that an instance of it calls only
graphs that were read: the tree of one, or a scalar that no substitution makes
an object. -/
def Held (R : Reader) (A : Alphabet) (ok : String → Prop) (names : List String) (g : Json) : Prop :=
  R.Cited A ok names g ∨ g.Scalar ∧ ∀ s, g = .str s → s.toList.head? = some '@'

structure Good (R : Reader) (A : Alphabet) (ok : String → Prop) (names : List String) (n : NodeDef) : Prop where
  nodeType : ok n.nodeType
  config : ∃ fields, n.config = .obj fields
  held : n.isGraphNode → ∀ g, n.config.get "graph" = some g → Held R A ok names g

theorem Good.remplacer (h : Good R A ok names n) (htree : R.Cited A ok names tree) :
    Good R A ok names (n.remplacer "graph" tree) where
  nodeType := by rw [n.remplacer_nodeType]; exact h.nodeType
  config := n.remplacer_config _ _
  held _ g hg := by
    rw [n.get_remplacer _ _ _ h.config] at hg
    cases hg
    exact .inl htree

theorem Held.substituted (h : Held R A ok names g) (hargs : ∀ x, x ∉ names → args.lookup x = none)
    {o : List (String × Json)} (ho : A.substituteValue args g = .obj o) : R.Cited A ok names (.obj o) := by
  rcases h with h | ⟨hscalar, hcite⟩
  · have hself : A.substituteValue args g = g := by
      obtain ⟨_, hnames, _, _, _⟩ := h
      exact Alphabet.substituteValue_eq_self _ fun x hx => hargs x (hnames x hx)
    rw [hself] at ho
    exact ho ▸ h
  · cases g with
    | str s =>
      have hwhole : A.wholePath args s.toList = none := by
        unfold Alphabet.wholePath
        split
        · rename_i hs
          have hat := hcite s rfl
          simp [hs] at hat
        · rfl
      simp [Alphabet.substituteValue, hwhole] at ho
    | arr _ => exact hscalar.elim
    | obj _ => exact hscalar.elim
    | null | bool _ | int _ | float _ => simp [Alphabet.substituteValue] at ho

/-- What an instance of a node needs for its calls: `graph` is an object only
if it is the tree of a graph that was read. -/
structure Ready (R : Reader) (A : Alphabet) (ok : String → Prop) (n : NodeDef) : Prop where
  nodeType : ok n.nodeType
  tree : n.isGraphNode → ∀ o, n.config.get "graph" = some (.obj o) → ∃ names, R.Cited A ok names (.obj o)

theorem Good.substituted (h : Good R A ok names n) (hargs : ∀ x, x ∉ names → args.lookup x = none) :
    Ready R A ok { n with config := A.substituteValue args n.config } where
  nodeType := h.nodeType
  tree hgraph o ho := by
    obtain ⟨fields, hf⟩ := h.config
    rw [hf, get_substituteValue, Option.map_eq_some_iff] at ho
    obtain ⟨g, hg, ho⟩ := ho
    exact ⟨names, (h.held hgraph g (by rw [hf]; exact hg)).substituted hargs ho⟩

variable {lu : GraphTool}

/-- A parsed node holds scalars, and no substitution makes a citation an object. -/
theorem scalar_of_fromMermaid {texte : String} (hlu : R.fromMermaid texte = .ok lu)
    (hcites : ∀ n ∈ lu.template.nodes, ∀ s, n.citation = some s → s.toList.head? = some '@') :
    ∀ n ∈ lu.template.nodes, (∃ fields, n.config = .obj fields) ∧ (n.isGraphNode → ∀ g, n.config.get "graph" = some g →
        g.Scalar ∧ ∀ s, g = .str s → s.toList.head? = some '@') := by
  intro n hn
  obtain ⟨fields, hf, hscalar⟩ := R.scalars hlu n hn
  refine ⟨⟨fields, hf⟩, fun hgraph g hg => ⟨?_, fun s hs => hcites n hn s ?_⟩⟩
  · rw [hf] at hg
    exact hscalar _ (Json.mem_of_lookup hg)
  · rw [NodeDef.citation, if_pos hgraph, hg, hs]
    rfl

theorem Cited.materialised {qui : String} {r : String × GraphTool}
    (h : R.Cited A ok names tree) (hgraph : config.get "graph" = some tree)
    (hr : R.materialiser config qui = .ok r) :
    ∀ n ∈ r.2.template.nodes, Good R A ok r.2.paramNames n := by
  cases h with
  | tree hlu hnames htypes hcites hsous =>
    obtain ⟨lu', hlu', hbind⟩ := materialiser_arbreCite hgraph hr
    cases hlu.symm.trans hlu'
    rw [R.bind_template hbind, R.bind_names hbind, paramNames_remplacerConfigs]
    refine forall_remplacerConfigs (fun p hp n hn => hn.remplacer (hsous p hp)) fun n hn => ?_
    obtain ⟨hconfig, hscalar⟩ := scalar_of_fromMermaid hlu hcites n hn
    exact ⟨htypes n hn, hconfig, fun hgraph g hg => .inr (hscalar hgraph g hg)⟩

variable {outil : GraphTool}

theorem Calls.lookup_args (h : R.Calls n outil args) {x : String} (hx : x ∉ outil.paramNames) :
    args.lookup x = none := by
  have hfilter : ∀ sauf, x ∉ (outil.params.filter fun p => some p.name != sauf).map (·.name) := by
    intro sauf hmem
    obtain ⟨p, hp, rfl⟩ := mem_map.mp hmem
    exact hx (mem_map.mpr ⟨p, mem_of_mem_filter hp, rfl⟩)
  cases h with
  | graph _ _ hargs => exact lookup_resolveParams hargs (hfilter _)
  | each e _ _ helement hargs =>
    rw [Json.lookup_insertField, if_neg fun h : x = _ => hx (h ▸ helement)]
    exact lookup_resolveParams hargs (hfilter _)

variable {d : GraphDefinition} {t : String}

/-- Of a definition whose calls all go to graphs that were read, only nodes of
the types of these are created. -/
theorem Creates.of_ready (h : R.Creates A d t) (hd : ∀ n ∈ d.nodes, Ready R A ok n) : ok t := by
  induction h with
  | node hn => exact (hd _ hn).nodeType
  | nested hn hcall _ ih =>
    obtain ⟨hgraph, qui, cite, hr⟩ := hcall.materialised
    obtain ⟨o, _, _, ho, -⟩ := materialiser_eq_ok hr
    obtain ⟨names, hcited⟩ := (hd _ hn).tree hgraph o ho
    refine ih fun m hm => ?_
    obtain ⟨m', hm', rfl⟩ := mem_map.mp hm
    exact (hcited.materialised ho hr m' hm').substituted fun x hx => hcall.lookup_args hx

/-- A tree that was read when the tool was loaded, with its types among those
collected. -/
def Loaded (R : Reader) (types : List String) (tree : Json) : Prop :=
  ∃ cite config parElement ses, R.lireUnSousGraphe profondeurMax cite config parElement = .ok (tree, ses) ∧ ses ⊆ types

variable {cites : List NodeDef} {outil' : GraphTool} {types₀ : List String}
  (h : R.resoudreLesCites cites outil types₀ = .ok (outil', types))

include h

theorem subset_resoudreLesCites : types₀ ⊆ types := by
  induction cites generalizing outil types₀ with
  | nil => cases h; exact List.Subset.refl _
  | cons n cites ih =>
    unfold resoudreLesCites at h
    split at h
    · dsimp only at h
      split at h
      · exact (append_subset.mp (ih h)).1
      · cases h
    · exact ih h

theorem forall_resoudreLesCites {P : NodeDef → Prop}
    (hP : ∀ n tree, P n → Loaded R types tree → P (n.remplacer "graph" tree))
    (hnodes : ∀ n ∈ outil.template.nodes, P n) : ∀ n ∈ outil'.template.nodes, P n := by
  induction cites generalizing outil types₀ with
  | nil => cases h; exact hnodes
  | cons n cites ih =>
    unfold resoudreLesCites at h
    split at h
    · dsimp only at h
      split at h
      · rename_i arbre ses hlu
        have hsub := (append_subset.mp (subset_resoudreLesCites h)).2
        exact ih h (forall_remplacerConfig (fun m hm => hP m arbre hm ⟨_, _, _, ses, hlu, hsub⟩) hnodes)
      · cases h
    · exact ih h hnodes

theorem head_of_resoudreLesCites : ∀ n ∈ cites, ∀ s, n.citation = some s → s.toList.head? = some '@' := by
  induction cites generalizing outil types₀ with
  | nil => simp
  | cons n cites ih =>
    unfold resoudreLesCites at h
    split at h
    · rename_i cite hcite
      dsimp only at h
      split at h
      · rename_i hlu
        refine forall_mem_cons.mpr ⟨fun s hs => ?_, ih h⟩
        cases hcite.symm.trans hs
        exact head_of_lireUnSousGraphe hlu
      · cases h
    · rename_i hcite
      refine forall_mem_cons.mpr ⟨fun s hs => ?_, ih h⟩
      cases hcite.symm.trans hs

omit h

/-- The nodes of a loaded tool hold trees that were read, or scalars that no
substitution makes an object. -/
theorem held_of_resoudreLesSousGraphes {source : String} {bound : GraphTool}
    (hlu : R.fromMermaid source = .ok lu) (hbind : R.bind lu = .ok bound)
    (hload : R.resoudreLesSousGraphes bound = .ok (outil, types)) :
    ∀ n ∈ outil.template.nodes, (∃ fields, n.config = .obj fields) ∧
      (n.isGraphNode → ∀ g, n.config.get "graph" = some g →
        Loaded R types g ∨ g.Scalar ∧ ∀ s, g = .str s → s.toList.head? = some '@') := by
  refine forall_resoudreLesCites hload (fun n tree hn htree => ⟨n.remplacer_config _ _, fun _ g hg => ?_⟩) ?_
  · rw [n.get_remplacer _ _ _ hn.1] at hg
    cases hg
    exact .inl htree
  · have hcites := head_of_resoudreLesCites hload
    rw [R.bind_template hbind] at hcites ⊢
    intro n hn
    obtain ⟨hconfig, hscalar⟩ := scalar_of_fromMermaid hlu hcites n hn
    exact ⟨hconfig, fun hgraph g hg => .inr (hscalar hgraph g hg)⟩

theorem Loaded.cited (h : Loaded R types tree) (hok : ∀ t ∈ types, ok t)
    (henc : ∀ o, tree = .obj o → R.Enclosed A names (.obj o)) : R.Cited A ok names tree := by
  obtain ⟨cite, config, parElement, ses, hlu, hsub⟩ := h
  refine cited_of_lireUnSousGraphe hlu (fun t ht => hok t (hsub ht)) ?_
  obtain ⟨_, texte, _, _, sous, -, -, -, -, -, rfl⟩ := lireUnSousGraphe_eq_ok hlu
  exact henc _ rfl

variable {policy : NodeTypePolicy}

theorem allows_of_validateNodeTypes
    (h : validateNodeTypes d policy = .ok ()) (hn : n ∈ d.nodes) : policy.allows n.nodeType := by
  unfold validateNodeTypes at h
  split at h
  · cases h
  · rename_i hnone
    simpa using find?_eq_none.mp hnone n hn

theorem allows_of_validateToolPolicy {tool : String}
    (h : validateToolPolicy tool types policy = .ok ()) (ht : t ∈ types) : policy.allows t := by
  unfold validateToolPolicy at h
  split at h
  · cases h
  · rename_i hnone
    simpa using find?_eq_none.mp hnone t ht

def deuxGraphes : Reader :=
  ofTexts [("dehors", single "appel" "GraphNode" [("graph", .str "@dedans")]), ("dedans", single "note" "NoterNode" [])]
    [("dedans", "dedans")] (by simp [single])

/-- A composed definition whose one node carries a graph in its configuration:
only the node itself is checked. -/
def porteur : GraphDefinition :=
  ⟨[⟨"appel", "GraphNode", .obj [("graph", arbreCite "@?" "requete" [])]⟩], []⟩

def texteRequete : Reader :=
  ofTexts [("requete", single "q" "CypherNode" [])] [] (by simp [single])

end Reader

end Rag3db.Weaver
