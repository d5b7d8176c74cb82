import Rag3db.Weaver.CitedGraphs

open List Option

namespace Rag3db.Weaver

open Alphabet Json

/-- The values of a definition that are code: those under the keys of scripts. -/
def scripts (d : GraphDefinition) : List (String × String × Json) :=
  d.nodes.flatMap fun n => (n.config.fields.filter fun (k, _) => estUnScript k).map fun (k, v) => (n.name, k, v)

namespace Reader

variable (R : Reader) (A : Alphabet)

/-- A run that calls a graph with some arguments calls, along a path of nodes,
a nested graph with others. -/
inductive Builds : GraphTool → Args → List Nat → GraphTool → Args → Prop
  | here {t : GraphTool} {a : Args} : Builds t a [] t a
  | nested {t t' t'' : GraphTool} {a a' a'' : Args} {i : Nat} {path : List Nat} {n : NodeDef}
      (hn : t.template.nodes[i]? = some n)
      (hcall : R.Calls { n with config := A.substituteValue a n.config } t' a')
      (h : Builds t' a' path t'' a'') : Builds t a (i :: path) t'' a''

/-- The parameters of a nested graph that a value of `reached` can get to: those
that the node gives a value which mentions one of `reached`, and the element. -/
def passes (a : Args) (reached : String → Prop) (n : NodeDef) (k : String) : Prop :=
  (∃ v, n.config.get k = some v ∧ ∃ x ∈ A.scanVars v, reached x) ∨
    n.isForEach ∧ k = parametreDeLElement (A.substituteValue a n.config)

/-- A nested graph along a path, with the parameters that are reached there. -/
inductive Reaches : GraphTool → Args → (String → Prop) → List Nat → GraphTool → (String → Prop) → Prop
  | here {t : GraphTool} {a : Args} {reached : String → Prop} : Reaches t a reached [] t reached
  | nested {t t' t'' : GraphTool} {a a' : Args} {reached reached'' : String → Prop} {i : Nat} {path : List Nat}
      {n : NodeDef} (hn : t.template.nodes[i]? = some n)
      (hcall : R.Calls { n with config := A.substituteValue a n.config } t' a')
      (h : Reaches t' a' (passes A a reached n) path t'' reached'') : Reaches t a reached (i :: path) t'' reached''

/-- No script mentions a parameter that is reached. -/
def ScriptsClean (t : GraphTool) (reached : String → Prop) : Prop :=
  ∀ n ∈ t.template.nodes, ∀ p ∈ n.config.fields, estUnScript p.1 → ∀ x ∈ A.scanVars p.2, ¬ reached x

/-- Neither the text of a nested graph nor the name of its element mentions a
parameter that is reached. -/
def CallsClean (t : GraphTool) (reached : String → Prop) : Prop :=
  ∀ n ∈ t.template.nodes, n.isGraphNode → ∀ key ∈ ["graph", "element"], ∀ v, n.config.get key = some v →
    ∀ x ∈ A.scanVars v, ¬ reached x

variable {R A} {t t' t₁ t₂ : GraphTool} {a b a₁ b₁ : Args} {reached : String → Prop} {n : NodeDef}
  {path : List Nat} {x : String}

/-- The arguments of two runs are the same but for what is reached. -/
def Agree (reached : String → Prop) (a b : Args) : Prop := ∀ x, ¬ reached x → a.lookup x = b.lookup x

variable {v : Json}

theorem Agree.substituteValue (h : Agree reached a b) (hv : ∀ x ∈ A.scanVars v, ¬ reached x) :
    A.substituteValue a v = A.substituteValue b v :=
  substituteValue_congr v fun x hx => h x (hv x hx)

variable {config : Json} {qui : String} {r : String × GraphTool}

theorem config_of_materialiser
    (h : R.materialiser config qui = .ok r) : ∀ n ∈ r.2.template.nodes, ∃ fields, n.config = .obj fields := by
  obtain ⟨arbre, texte, lu, -, -, hlu, hbind⟩ := materialiser_eq_ok h
  rw [R.bind_template hbind]
  refine forall_remplacerConfigs (fun p _ n _ => n.remplacer_config _ _) fun n hn => ?_
  obtain ⟨fields, hf, -⟩ := R.scalars hlu n hn
  exact ⟨fields, hf⟩

variable {config' : Json}

theorem materialiser_congr
    (h : config.get "graph" = config'.get "graph") : R.materialiser config qui = R.materialiser config' qui := by
  unfold materialiser
  rw [h]

variable {key : String}

theorem get_congr (h : Agree reached a b) (hconfig : ∃ fields, n.config = .obj fields)
    (hkey : ∀ v, n.config.get key = some v → ∀ x ∈ A.scanVars v, ¬ reached x) :
    (A.substituteValue a n.config).get key = (A.substituteValue b n.config).get key := by
  obtain ⟨fields, hf⟩ := hconfig
  rw [hf, get_substituteValue, get_substituteValue]
  cases hv : fields.lookup key with
  | none => rfl
  | some v => rw [map_some, map_some, h.substituteValue (hkey v (by rw [hf]; exact hv))]

theorem Agree.calls (h : Agree reached a b) (hclean : CallsClean A t reached) (hn : n ∈ t.template.nodes)
    (hconfig : ∃ fields, n.config = .obj fields)
    (h₁ : R.Calls { n with config := A.substituteValue a n.config } t₁ a₁)
    (h₂ : R.Calls { n with config := A.substituteValue b n.config } t₂ b₁) :
    t₁ = t₂ ∧ Agree (passes A a reached n) a₁ b₁ := by
  have hgraphNode : n.isGraphNode := h₁.materialised.1
  have hkeys : ∀ key ∈ ["graph", "element"],
      (A.substituteValue a n.config).get key = (A.substituteValue b n.config).get key := fun key hkey =>
    get_congr h hconfig (hclean n hn hgraphNode key hkey)
  have helement : parametreDeLElement (A.substituteValue a n.config) =
      parametreDeLElement (A.substituteValue b n.config) := by
    rw [parametreDeLElement, hkeys "element" (by decide)]
    rfl
  have hsame : ∀ x, ¬ passes A a reached n x →
      (A.substituteValue a n.config).get x = (A.substituteValue b n.config).get x := fun x hx =>
    get_congr h hconfig fun v hv y hy hreached => hx (.inl ⟨v, hv, y, hy, hreached⟩)
  have hmat : ∀ qui, R.materialiser (A.substituteValue a n.config) qui =
      R.materialiser (A.substituteValue b n.config) qui := fun qui => materialiser_congr (hkeys "graph" (by decide))
  cases h₁ with
  | graph htype hgraph hargs =>
    cases h₂ with
    | graph _ hgraph' hargs' =>
      cases hgraph.symm.trans ((hmat _).trans hgraph')
      exact ⟨rfl, fun x hx => parametres_congr hargs hargs' (hsame x hx)⟩
    | each _ htype' _ _ _ => exact absurd (htype.symm.trans htype') (by decide)
  | each e htype hgraph hel hargs =>
    cases h₂ with
    | graph htype' _ _ => exact absurd (htype.symm.trans htype') (by decide)
    | each e' _ hgraph' _ hargs' =>
      cases hgraph.symm.trans ((hmat _).trans hgraph')
      refine ⟨rfl, fun x hx => ?_⟩
      rw [← helement] at hargs' ⊢
      have hne : x ≠ parametreDeLElement (A.substituteValue a n.config) := fun h =>
        hx (.inr ⟨by simpa [NodeDef.isForEach] using htype, h⟩)
      rw [lookup_insertField, lookup_insertField, if_neg hne, if_neg hne]
      exact parametres_congr hargs hargs' (hsame x hx)

theorem Agree.builds (h : Agree reached a b) (h₁ : R.Builds A t a path t₁ a₁) (h₂ : R.Builds A t b path t₂ b₁)
    (hconfig : ∀ n ∈ t.template.nodes, ∃ fields, n.config = .obj fields)
    (hclean : ∀ path' t' reached', R.Reaches A t a reached path' t' reached' → CallsClean A t' reached') :
    ∃ reached', R.Reaches A t a reached path t₁ reached' ∧ t₁ = t₂ ∧ Agree reached' a₁ b₁ ∧
      ∀ n ∈ t₁.template.nodes, ∃ fields, n.config = .obj fields := by
  induction h₁ generalizing b reached with
  | here =>
    cases h₂
    exact ⟨reached, .here, rfl, h, hconfig⟩
  | nested hn hcall _ ih =>
    cases h₂ with
    | nested hn' hcall' h₂ =>
      cases hn.symm.trans hn'
      have hmem := mem_of_getElem? hn
      obtain ⟨rfl, hagree⟩ := h.calls (hclean _ _ _ .here) hmem (hconfig _ hmem) hcall hcall'
      obtain ⟨_, _, _, hmat⟩ := hcall.materialised
      obtain ⟨reached', hreach, hrest⟩ := ih hagree h₂ (config_of_materialiser hmat)
        fun path' t' reached' h => hclean _ _ _ (.nested hn hcall h)
      exact ⟨reached', .nested hn hcall hreach, hrest⟩

theorem substituteFields_eq_map (fields : List (String × Json)) :
    A.substituteFields a fields = fields.map fun p => (p.1, A.substituteValue a p.2) := by
  induction fields with
  | nil => rfl
  | cons p fields ih => rw [substituteFields, ih, map_cons]

theorem Agree.scripts (h : Agree reached a b) (hclean : ScriptsClean A t reached)
    (hconfig : ∀ n ∈ t.template.nodes, ∃ fields, n.config = .obj fields) :
    scripts (A.substituteDefinition a t.template) = scripts (A.substituteDefinition b t.template) := by
  simp only [Weaver.scripts, Alphabet.substituteDefinition, List.flatMap_map]
  refine List.flatMap_congr fun n hn => ?_
  obtain ⟨fields, hf⟩ := hconfig n hn
  have hfields : ∀ p ∈ fields, estUnScript p.1 → A.substituteValue a p.2 = A.substituteValue b p.2 :=
    fun p hp hscript => h.substituteValue (hclean n hn p (by rw [hf]; exact hp) hscript)
  simp only [hf, Alphabet.substituteValue, Json.fields, substituteFields_eq_map, List.filter_map, List.map_map]
  refine List.map_congr_left fun p hp => ?_
  obtain ⟨hp, hscript⟩ := List.mem_filter.mp hp
  simp [hfields p hp hscript]

variable {s : List Char}

theorem contient_iff {motif : List Char} : contient motif s ↔ ∃ t, t <:+ s ∧ motif <+: t := by
  simp [contient]

theorem contient_of_mem_scanChars (h : x ∈ A.scanChars s) : contient ('$' :: x.toList) s := by
  rw [contient_iff]
  induction s with
  | nil => simp [scanChars] at h
  | cons c rest ih =>
    have hrest : x ∈ A.scanChars rest → ∃ t, t <:+ c :: rest ∧ '$' :: x.toList <+: t := fun h => by
      obtain ⟨t, ht, hx⟩ := ih h
      exact ⟨t, ht.trans (suffix_cons c rest), hx⟩
    unfold scanChars at h
    split_ifs at h with hc
    · rcases mem_cons.mp h with rfl | h
      · have hword : A.word rest <+: rest := takeWhile_prefix _
        refine ⟨c :: rest, suffix_refl _, ?_⟩
        rw [hc.1, String.toList_ofList]
        exact (prefix_cons_inj '$').mpr hword
      · exact hrest h
    · exact hrest h

variable {element : String} {fields : List (String × Json)}

theorem scriptDesChamps_tail {q : String × Json}
    (h : scriptDesChamps element (q :: fields) = none) : scriptDesChamps element fields = none := by
  obtain ⟨k, v⟩ := q
  cases v with
  | str s =>
    exact (or_eq_none_iff.mp h).2
  | null | bool _ | int _ | float _ | arr _ | obj _ =>
    rw [scriptDesChamps] at h
    · exact (or_eq_none_iff.mp h).2
    · rintro _ ⟨⟩

theorem scriptDesChamps_eq_none (h : scriptDesChamps element fields = none) {k s : String} (hp : (k, str s) ∈ fields)
    (hk : estUnScript k) : contient ('$' :: element.toList) s.toList = false := by
  induction fields with
  | nil => cases hp
  | cons q fields ih =>
    rcases mem_cons.mp hp with rfl | hp
    · simpa [hk] using (or_eq_none_iff.mp h).1
    · exact ih (scriptDesChamps_tail h) hp

theorem mem_fields_remplacer {p : String × Json}
    (h : p ∈ (n.remplacer key v).config.fields) : p = (key, v) ∨ p ∈ n.config.fields := by
  unfold NodeDef.remplacer at h
  split at h
  · rename_i hf
    rw [hf]
    exact mem_insertField h
  · exact .inl (mem_singleton.mp h)

/-- The loader's check: no script of a graph that it accepts mentions the
element. -/
theorem scriptsClean_of_lireUnSousGraphe {niveaux : Nat} {cite : String} {tree : Json}
    {parElement : Bool} {types : List String}
    (hread : R.lireUnSousGraphe niveaux cite config parElement = .ok (tree, types))
    (hgraph : config'.get "graph" = some tree) (hmat : R.materialiser config' qui = .ok r) :
    ScriptsClean A r.2 (· = parametreDeLElement config) := by
  cases niveaux with
  | zero => cases hread
  | succ niveaux =>
    obtain ⟨_, texte, lu, outil, sous, -, hlu, hbind, hscript, -, rfl⟩ := lireUnSousGraphe_eq_ok hread
    obtain ⟨lu', hlu', hbind'⟩ := materialiser_arbreCite hgraph hmat
    cases hlu.symm.trans hlu'
    rw [R.bind_template hbind] at hscript
    unfold ScriptsClean
    rw [R.bind_template hbind']
    refine forall_remplacerConfigs (fun q hq n hn p hp hk => ?_) fun n hn p hp hk x hx hxe => ?_
    · rcases mem_fields_remplacer hp with rfl | hp
      · exact absurd (show estUnScript "graph" = true from hk) (by decide)
      · exact hn p hp hk
    · subst hxe
      obtain ⟨fields, hf, hscalar⟩ := R.scalars hlu n hn
      have hnone := hscript n hn
      rw [hf] at hp hnone
      obtain ⟨k, v⟩ := p
      cases v with
      | str s =>
        have hc := contient_of_mem_scanChars hx
        rw [scriptDesChamps_eq_none hnone hp hk] at hc
        cases hc
      | null | bool _ | int _ | float _ => simp [scanVars] at hx
      | arr _ => exact hscalar _ hp
      | obj _ => exact hscalar _ hp

theorem Calls.agree (h₁ : R.Calls n t a) (h₂ : R.Calls n t b) (hn : n.nodeType = "ForEachNode") :
    Agree (· = parametreDeLElement n.config) a b := by
  cases h₁ with
  | graph htype _ _ => exact absurd (hn.symm.trans htype) (by decide)
  | each e _ _ _ hargs =>
    cases h₂ with
    | graph htype _ _ => exact absurd (hn.symm.trans htype) (by decide)
    | each e' _ _ _ hargs' =>
      cases hargs.symm.trans hargs'
      intro x hx
      rw [lookup_insertField, lookup_insertField, if_neg hx, if_neg hx]

/-- Two calls of the body of a for-each node, which differ in the element only,
build the same scripts along every path of nested graphs, if neither a script
below the body nor the text of a nested graph mentions a parameter that the
element reaches. -/
theorem scripts_independent_of_element (R : Reader) (A : Alphabet) {n : NodeDef} {body t₁ t₂ : GraphTool}
    {a b a₁ b₁ : Args} {niveaux : Nat} {cite : String} {config tree : Json} {types : List String} {path : List Nat}
    (hread : R.lireUnSousGraphe niveaux cite config true = .ok (tree, types))
    (hn : n.nodeType = "ForEachNode") (hgraph : n.config.get "graph" = some tree)
    (helement : parametreDeLElement config = parametreDeLElement n.config)
    (ha : R.Calls n body a) (hb : R.Calls n body b)
    (hclean : ∀ path t reached, R.Reaches A body a (· = parametreDeLElement n.config) path t reached →
      CallsClean A t reached ∧ (path ≠ [] → ScriptsClean A t reached))
    (h₁ : R.Builds A body a path t₁ a₁) (h₂ : R.Builds A body b path t₂ b₁) :
    scripts (A.substituteDefinition a₁ t₁.template) = scripts (A.substituteDefinition b₁ t₂.template) := by
  obtain ⟨-, qui, cite', hmat⟩ := ha.materialised
  obtain ⟨reached, hreach, rfl, hagree, hconfig⟩ := (ha.agree hb hn).builds h₁ h₂ (config_of_materialiser hmat)
    fun path t reached h => (hclean path t reached h).1
  refine hagree.scripts ?_ hconfig
  cases hreach with
  | here =>
    rw [← helement]
    exact scriptsClean_of_lireUnSousGraphe hread hgraph hmat
  | nested hm hcall h => exact (hclean _ _ _ (.nested hm hcall h)).2 (cons_ne_nil _ _)

section Example

def corps (graph : Json) (p : String) : GraphTool :=
  ⟨[⟨"element", .json, true, none⟩, ⟨"p", .string, true, none⟩],
    ⟨[⟨"note", "NoterNode", .obj [("valeur", .str "$p $element")]⟩,
      ⟨"appel", "GraphNode", .obj [("graph", graph), ("p", .str p)]⟩], []⟩, "note", "result"⟩

def dedans : GraphTool :=
  ⟨[⟨"p", .string, true, none⟩], ⟨[⟨"code", "RhaiNode", .obj [("script", .str "$p")]⟩], []⟩, "code", "result"⟩

def lecteur (p : String) : Reader :=
  ofTexts [("corps", corps (.str "@dedans") p), ("script=$p", dedans)] [("corps", "corps"), ("dedans", "script=$p")]
    (by simp [corps, dedans, or_imp, forall_and])

def chaque (graph : Json) : NodeDef := ⟨"chaque", "ForEachNode", .obj [("graph", graph), ("p", .str "$p")]⟩

def arbreDedans : Json := arbreCite "@dedans" "script=$p" []

def arbreDuCorps : Json := arbreCite "@corps" "corps" [("appel", arbreDedans)]

def avec (e : String) : Args :=
  insertField (parametreDeLElement (chaque arbreDuCorps).config) (.str e) [("p", .str "$p")]

theorem clean_constant {path : List Nat} {t : GraphTool} {reached : String → Prop}
    (h : (lecteur "1+1").Reaches .ascii (corps arbreDedans "1+1") (avec "1") (· = "element") path t reached) :
    CallsClean .ascii t reached ∧ (path ≠ [] → ScriptsClean .ascii t reached) := by
  cases h with
  | here =>
    refine ⟨fun n hn hgraph key hkey v hv x hx hreached => ?_, fun hne => absurd rfl hne⟩
    subst hreached
    rcases mem_pair.mp hn with rfl | rfl
    · cases hgraph
    · rcases mem_pair.mp hkey with rfl | rfl
      · cases hv
        exact absurd hx (by decide)
      · cases hv
  | nested hn hcall h =>
    rcases mem_pair.mp (mem_of_getElem? hn) with rfl | rfl
    · exact absurd hcall.materialised.1 (by decide)
    · obtain ⟨-, _, _, hmat⟩ := hcall.materialised
      cases (show Except.ok ("@dedans", dedans) = _ from hmat)
      cases h with
      | here =>
        refine ⟨fun n hn hgraph => ?_, fun _ n hn p hp _ x hx => ?_⟩
        · cases mem_singleton.mp hn
          cases hgraph
        · cases mem_singleton.mp hn
          cases mem_singleton.mp hp
          cases mem_singleton.mp (show x ∈ ["p"] from hx)
          rintro (⟨v, hv, y, hy, -⟩ | ⟨heach, -⟩)
          · cases hv
            exact absurd (show y ∈ [] from hy) not_mem_nil
          · cases heach
      | nested hn hcall _ =>
        cases mem_singleton.mp (mem_of_getElem? hn)
        exact absurd (show isGraphNode "RhaiNode" = true from hcall.materialised.1) (by decide)

theorem scripts_independent_of_element_constant : ∃ body a b t a₁ b₁,
      (lecteur "1+1").Calls (chaque arbreDuCorps) body a ∧ (lecteur "1+1").Calls (chaque arbreDuCorps) body b ∧
      (lecteur "1+1").Builds .ascii body a [1] t a₁ ∧ (lecteur "1+1").Builds .ascii body b [1] t b₁ ∧
      scripts (ascii.substituteDefinition a₁ t.template) = scripts (ascii.substituteDefinition b₁ t.template) := by
  have hread : (lecteur "1+1").lireUnSousGraphe profondeurMax "@corps" (chaque (.str "@corps")).config true =
      .ok (arbreDuCorps, ["NoterNode", "GraphNode", "RhaiNode"]) := rfl
  have ha : (lecteur "1+1").Calls (chaque arbreDuCorps) (corps arbreDedans "1+1") (avec "1") :=
    .each (.str "1") rfl rfl (by decide) rfl
  have hb : (lecteur "1+1").Calls (chaque arbreDuCorps) (corps arbreDedans "1+1") (avec "2") :=
    .each (.str "2") rfl rfl (by decide) rfl
  have h₁ : (lecteur "1+1").Builds .ascii (corps arbreDedans "1+1") (avec "1") [1] dedans [("p", .str "1+1")] :=
    .nested rfl (.graph rfl rfl rfl) .here
  have h₂ : (lecteur "1+1").Builds .ascii (corps arbreDedans "1+1") (avec "2") [1] dedans [("p", .str "1+1")] :=
    .nested rfl (.graph rfl rfl rfl) .here
  exact ⟨_, _, _, _, _, _, ha, hb, h₁, h₂, scripts_independent_of_element (lecteur "1+1") .ascii
    (n := chaque arbreDuCorps) hread rfl rfl rfl ha hb (fun _ _ _ h => clean_constant h) h₁ h₂⟩

/-- The element is passed on, and a script is made of it. -/
theorem element_becomes_code : ∃ body a b t a₁ b₁,
      (lecteur "$element").lireUnSousGraphe profondeurMax "@corps" (chaque (.str "@corps")).config true =
        .ok (arbreDuCorps, ["NoterNode", "GraphNode", "RhaiNode"]) ∧
      (lecteur "$element").Calls (chaque arbreDuCorps) body a ∧
      (lecteur "$element").Calls (chaque arbreDuCorps) body b ∧
      (lecteur "$element").Builds .ascii body a [1] t a₁ ∧ (lecteur "$element").Builds .ascii body b [1] t b₁ ∧
      scripts (ascii.substituteDefinition a₁ t.template) ≠ scripts (ascii.substituteDefinition b₁ t.template) := by
  refine ⟨_, _, _, _, _, _, rfl, .each (.str "1") rfl rfl (by decide) rfl, .each (.str "2") rfl rfl (by decide) rfl,
    .nested rfl (.graph rfl rfl rfl) .here, .nested rfl (.graph rfl rfl rfl) .here, fun h => ?_⟩
  have hval := congrArg (List.map fun s => s.2.2.text) h
  revert hval
  decide

end Example

end Reader

end Rag3db.Weaver
