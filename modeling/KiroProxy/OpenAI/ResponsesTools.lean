import KiroProxy.OpenAI.ResponsesResponse

/-!
# Tools of a request and of its calls

`translateTools` gives the tools of a group names that join the names of the group and of the tool.
`DeclaredTools.restore` takes them apart by a table. Two tools can be joined into one name, though:
`restores_iff` says which declarations are restored.
-/

namespace KiroProxy.OpenAI.Responses

inductive ToolKind
  | callable (custom : Bool)
  | group
  | webSearch
  | unsupported
  deriving DecidableEq, Repr

def toolKind (tool : Json) : ToolKind :=
  let type := (tool.index "type").asStr.getD "function"
  if type = "function" then .callable false
  else if type = "custom" then .callable true
  else if type = "namespace" then .group
  else if type = "web_search" ∨ type = "web_search_preview" then .webSearch
  else .unsupported

def toolName? (tool : Json) : Option (List Char) :=
  (tool.index "name").asStr.bind fun name => nonEmpty name.toList

def toolDescription (tool : Json) : String := (tool.index "description").asStr.getD ""

def separator : List Char := ['_', '_']

def flatToolName (toolNamespace : Option (List Char)) (name : List Char) : List Char :=
  match toolNamespace with
  | some toolNamespace => if toolNamespace = [] then name else toolNamespace ++ separator ++ name
  | none => name

structure TranslatedTools where
  tools : List Json
  /-- The flat names of custom tools. -/
  custom : List (List Char)
  /-- The flat name, the group and the name of a tool. -/
  namespaced : List (List Char × (List Char × List Char))

def pathOf (path : String) (index : ℕ) : String := path ++ "[" ++ toString index ++ "]"

def functionSchema (path : String) (index : ℕ) (tool : Json) : Except String Json :=
  match tool.index "parameters" with
  | .null => .ok (.obj [("type", .str "object")])
  | .obj schema =>
    .ok (.obj (if (Json.getField schema "type").isSome then schema
      else Json.insertField schema "type" (.str "object")))
  | _ => .error (pathOf path index ++ ".parameters: must be a JSON object")

def customSchema : Json :=
  .obj [("properties", .obj [("input", .obj
      [("description", .str "The complete raw tool input text. Do not wrap it in JSON."),
        ("type", .str "string")])]),
    ("required", .arr [.str "input"]), ("type", .str "object")]

def customDescription (tool : Json) : String :=
  match ((tool.index "format").index "definition").asStr with
  | some definition =>
    let textSyntax := ((tool.index "format").index "syntax").asStr.getD "grammar"
    toolDescription tool ++ "\n\nInput format (" ++ textSyntax ++ "):\n" ++ definition
  | none => toolDescription tool

def toolEntry (flat : List Char) (schema : Json) (description : String) : Json :=
  let entry := .obj [("input_schema", schema), ("name", .str (String.ofList flat))]
  if description = "" then entry else entry.setIndex "description" (.str description)

def translateCallable (toolNamespace : Option (List Char)) (path : String) (index : ℕ)
    (tool : Json) (custom : Bool) (translated : TranslatedTools) :
    Except String TranslatedTools :=
  match toolName? tool with
  | none => .error (pathOf path index ++ ".name: field is required")
  | some name =>
    let flat := flatToolName toolNamespace name
    let schema := if custom then .ok customSchema else functionSchema path index tool
    let description := if custom then customDescription tool else toolDescription tool
    match schema with
    | .error message => .error message
    | .ok schema =>
      .ok {
        tools := translated.tools ++ [toolEntry flat schema description]
        custom := if custom then translated.custom ++ [flat] else translated.custom
        namespaced := translated.namespaced ++
          (toolNamespace.map fun toolNamespace => (flat, toolNamespace, name)).toList }

def describe (group : List Char) (description : String) (member : Json) : Json :=
  member.setIndex "description" (.str ("[" ++ String.ofList group ++ "] " ++ description ++ "\n" ++
    toolDescription member))

def webSearchName : List Char := "web_search".toList

def webSearchEntry : Json :=
  .obj [("name", .str "web_search"), ("type", .str "web_search_20250305")]

def members (tool : Json) : List Json :=
  match tool.index "tools" with
  | .arr members => members
  | _ => []

/-- The tools from `index` on, up to the first error. -/
def translateFrom (translate : ℕ → Json → TranslatedTools → Except String TranslatedTools) :
    ℕ → List Json → TranslatedTools → Except String TranslatedTools
  | _, [], translated => .ok translated
  | index, tool :: tools, translated =>
    match translate index tool translated with
    | .error message => .error message
    | .ok translated => translateFrom translate (index + 1) tools translated

def translateMembers (group : List Char) (path : String) :
    List Json → TranslatedTools → Except String TranslatedTools :=
  translateFrom (fun index tool translated =>
    match toolKind tool with
    | .callable custom => translateCallable (some group) path index tool custom translated
    | _ => .ok translated) 0

def translateTool (path : String) (index : ℕ) (tool : Json) (translated : TranslatedTools) :
    Except String TranslatedTools :=
  match toolKind tool with
  | .callable custom => translateCallable none path index tool custom translated
  | .group =>
    match toolName? tool with
    | none => .error (pathOf path index ++ ".name: field is required")
    | some group =>
      let before := translated.tools.length
      match translateMembers group (pathOf path index ++ ".tools") (members tool) translated with
      | .error message => .error message
      | .ok translated =>
        if toolDescription tool = "" then .ok translated
        else
          .ok { translated with
            tools := translated.tools.take before ++
              (translated.tools.drop before).map (describe group (toolDescription tool)) }
  | .webSearch =>
    if translated.tools.any fun tool => (tool.index "name").asStr = some "web_search" then
      .ok translated
    else .ok { translated with tools := translated.tools ++ [webSearchEntry] }
  | .unsupported => .ok translated

def translateTools : Option Json → Except String TranslatedTools
  | none => .ok ⟨[], [], []⟩
  | some (.arr tools) => translateFrom (translateTool "tools") 0 tools ⟨[], [], []⟩
  | some _ => .error "tools: must be an array"

def DeclaredTools.new (custom : List (List Char))
    (namespaced : List (List Char × (List Char × List Char))) : DeclaredTools where
  custom := custom
  namespaced := namespaced.foldl (fun map entry => KeyedList.insert entry.1 entry.2 map) []

def TranslatedTools.declared (translated : TranslatedTools) : DeclaredTools :=
  .new translated.custom translated.namespaced

structure DeclaredTool where
  toolNamespace : Option (List Char)
  name : List Char
  custom : Bool
  deriving DecidableEq, Repr

namespace DeclaredTool

def flatName (tool : DeclaredTool) : List Char := flatToolName tool.toolNamespace tool.name

def entry? (tool : DeclaredTool) : Option (List Char × (List Char × List Char)) :=
  tool.toolNamespace.map fun toolNamespace => (tool.flatName, toolNamespace, tool.name)

end DeclaredTool

def declaredTool? (toolNamespace : Option (List Char)) (tool : Json) : Option DeclaredTool :=
  match toolKind tool with
  | .callable custom => (toolName? tool).map fun name => ⟨toolNamespace, name, custom⟩
  | _ => none

def declaredBy (tool : Json) : List DeclaredTool :=
  match toolKind tool with
  | .group =>
    match toolName? tool with
    | some group => (members tool).filterMap (declaredTool? (some group))
    | none => []
  | _ => (declaredTool? none tool).toList

def declaredTools (tools : List Json) : List DeclaredTool := tools.flatMap declaredBy

def TranslatedTools.names (translated : TranslatedTools) : List (Option String) :=
  translated.tools.map fun tool => (tool.index "name").asStr

/-- The tools have their own names in the translation, and calls of them are given back as calls
of what was declared. -/
structure Restores (tools : List Json) (translated : TranslatedTools) : Prop where
  names : translated.names.Nodup
  functionCall : ∀ tool ∈ declaredTools tools, ∀ id callId arguments status,
    translated.declared.restore (.functionCall id callId tool.flatName none arguments status) =
      .functionCall id callId tool.name tool.toolNamespace arguments status
  customToolCall : ∀ tool ∈ declaredTools tools, ∀ id callId input status,
    translated.declared.restore (.customToolCall id callId tool.flatName none input status) =
      .customToolCall id callId tool.name tool.toolNamespace input status
  custom : ∀ tool ∈ declaredTools tools, translated.declared.isCustom tool.flatName = tool.custom

/-- Two parts around a separator that can also be cut at the one of the other two. -/
def Overlap (first rest first' rest' : List Char) : Prop :=
  (first' = first ++ ['_'] ∧ rest = '_' :: rest') ∨
    let middle := first'.drop (first.length + separator.length)
    first' = first ++ separator ++ middle ∧ rest = middle ++ separator ++ rest'

instance (first rest first' rest' : List Char) : Decidable (Overlap first rest first' rest') :=
  inferInstanceAs (Decidable (_ ∨ _ ∧ _))

theorem eq_or_overlap_of_append {first rest first' rest' middle : List Char}
    (hfirst : first' = first ++ middle)
    (h : separator ++ rest = middle ++ (separator ++ rest')) :
    first = first' ∧ rest = rest' ∨ Overlap first rest first' rest' := by
  subst hfirst
  match middle with
  | [] => exact .inl ⟨(List.append_nil _).symm, List.append_cancel_left h⟩
  | [c] =>
    obtain ⟨rfl, hrest⟩ := List.cons.inj h
    exact .inr (.inl ⟨rfl, (List.cons.inj hrest).2⟩)
  | c :: c' :: middle =>
    obtain ⟨rfl, htail⟩ := List.cons.inj h
    obtain ⟨rfl, hrest⟩ := List.cons.inj htail
    have hdrop : (first ++ '_' :: '_' :: middle).drop (first.length + separator.length) =
        middle := by
      rw [← List.drop_drop, List.drop_left]
      rfl
    refine .inr (.inr ?_)
    rw [hdrop]
    exact ⟨by rw [List.append_assoc]; rfl, by rw [List.append_assoc]; exact hrest⟩

theorem append_separator_eq_iff {first rest first' rest' : List Char} :
    first ++ separator ++ rest = first' ++ separator ++ rest' ↔
      first = first' ∧ rest = rest' ∨ Overlap first rest first' rest' ∨
        Overlap first' rest' first rest := by
  have hoverlap {first rest first' rest' : List Char} (h : Overlap first rest first' rest') :
      first ++ separator ++ rest = first' ++ separator ++ rest' := by
    rcases h with ⟨rfl, rfl⟩ | ⟨hfirst, hrest⟩
    · simp [separator]
    · rw [hfirst, hrest]
      simp
  refine ⟨fun h => ?_, ?_⟩
  · rw [List.append_assoc, List.append_assoc] at h
    rcases List.append_eq_append_iff.mp h with ⟨middle, hfirst, hrest⟩ | ⟨middle, hfirst, hrest⟩
    · exact (eq_or_overlap_of_append hfirst hrest).imp_right .inl
    · rcases eq_or_overlap_of_append hfirst hrest with ⟨rfl, rfl⟩ | hoverlap
      · exact .inl ⟨rfl, rfl⟩
      · exact .inr (.inr hoverlap)
  · rintro (⟨rfl, rfl⟩ | h | h)
    · rfl
    · exact hoverlap h
    · exact (hoverlap h).symm

/-- The flat name of a tool can be read as that of another one. -/
def DeclaredTool.Clashes (tool tool' : DeclaredTool) : Prop :=
  match tool.toolNamespace, tool'.toolNamespace with
  | some group, some group' => Overlap group tool.name group' tool'.name
  | some group, none => tool'.name = group ++ separator ++ tool.name
  | none, _ => False

instance : (tool tool' : DeclaredTool) → Decidable (tool.Clashes tool')
  | ⟨some group, name, _⟩, ⟨some group', name', _⟩ =>
    inferInstanceAs (Decidable (Overlap group name group' name'))
  | ⟨some group, name, _⟩, ⟨none, name', _⟩ =>
    inferInstanceAs (Decidable (name' = group ++ separator ++ name))
  | ⟨none, _, _⟩, _ => inferInstanceAs (Decidable False)

def DeclaredTool.Named (tool : DeclaredTool) : Prop := tool.toolNamespace ≠ some []

theorem flatName_group {tool : DeclaredTool} {group : List Char} (hnamed : tool.Named)
    (hgroup : tool.toolNamespace = some group) :
    tool.flatName = group ++ separator ++ tool.name := by
  have hne : group ≠ [] := fun hnil => hnamed (hnil ▸ hgroup)
  rw [DeclaredTool.flatName, hgroup, flatToolName, if_neg hne]

theorem flatName_topLevel {tool : DeclaredTool} (hnone : tool.toolNamespace = none) :
    tool.flatName = tool.name := by
  rw [DeclaredTool.flatName, hnone, flatToolName]

theorem flatName_eq_iff {tool tool' : DeclaredTool} (hnamed : tool.Named) (hnamed' : tool'.Named) :
    tool.flatName = tool'.flatName ↔
      (tool.toolNamespace, tool.name) = (tool'.toolNamespace, tool'.name) ∨
        tool.Clashes tool' ∨ tool'.Clashes tool := by
  rw [Prod.mk.injEq, DeclaredTool.Clashes, DeclaredTool.Clashes]
  cases hgroup : tool.toolNamespace with
  | some group =>
    rw [flatName_group hnamed hgroup]
    cases hgroup' : tool'.toolNamespace with
    | some group' =>
      rw [flatName_group hnamed' hgroup', append_separator_eq_iff, Option.some_inj]
    | none =>
      rw [flatName_topLevel hgroup']
      simp [eq_comm]
  | none =>
    rw [flatName_topLevel hgroup]
    cases hgroup' : tool'.toolNamespace with
    | some group' =>
      rw [flatName_group hnamed' hgroup']
      simp
    | none =>
      rw [flatName_topLevel hgroup']
      simp

/-- Only a tool outside of groups has a flat name without a separator. -/
theorem flatName_eq_webSearchName {tool : DeclaredTool} (hnamed : tool.Named)
    (h : tool.flatName = webSearchName) :
    tool.toolNamespace = none ∧ tool.name = webSearchName := by
  cases hgroup : tool.toolNamespace with
  | none => exact ⟨rfl, (flatName_topLevel hgroup).symm.trans h⟩
  | some group =>
    rw [flatName_group hnamed hgroup] at h
    have hchars : webSearchName = ['w', 'e', 'b', '_', 's', 'e', 'a', 'r', 'c', 'h'] := rfl
    have hinfix : separator <:+: webSearchName := ⟨group, tool.name, h⟩
    rw [hchars] at hinfix
    exact absurd hinfix (by decide)

structure Adds (tools : List DeclaredTool) (names : List (Option String))
    (translated translated' : TranslatedTools) : Prop where
  custom : translated'.custom =
    translated.custom ++ (tools.filter DeclaredTool.custom).map DeclaredTool.flatName
  namespaced : translated'.namespaced =
    translated.namespaced ++ tools.filterMap DeclaredTool.entry?
  names : translated'.names = translated.names ++ names

variable {translated translated' translated'' : TranslatedTools} {path : String} {index : ℕ}
  {tool : Json}

theorem Adds.refl (translated : TranslatedTools) : Adds [] [] translated translated :=
  ⟨(List.append_nil _).symm, (List.append_nil _).symm, (List.append_nil _).symm⟩

theorem Adds.trans {tools tools' : List DeclaredTool} {names names' : List (Option String)}
    (h : Adds tools names translated translated') (h' : Adds tools' names' translated' translated'') :
    Adds (tools ++ tools') (names ++ names') translated translated'' where
  custom := by
    rw [h'.custom, h.custom, List.filter_append, List.map_append, List.append_assoc]
  namespaced := by rw [h'.namespaced, h.namespaced, List.filterMap_append, List.append_assoc]
  names := by rw [h'.names, h.names, List.append_assoc]

def DeclaredTool.translatedName (tool : DeclaredTool) : Option String :=
  some (String.ofList tool.flatName)

theorem name_toolEntry (flat : List Char) (schema : Json) (description : String) :
    ((toolEntry flat schema description).index "name").asStr = some (String.ofList flat) := by
  rw [toolEntry]
  split_ifs
  · rfl
  · rw [Json.index_setIndex_of_ne (by decide)]
    rfl

theorem name_describe (group : List Char) (description : String) (member : Json) :
    (describe group description member).index "name" = member.index "name" :=
  Json.index_setIndex_of_ne (by decide) _ _

theorem adds_translateCallable {toolNamespace : Option (List Char)} {custom : Bool}
    (hkind : toolKind tool = .callable custom)
    (h : translateCallable toolNamespace path index tool custom translated = .ok translated') :
    Adds (declaredTool? toolNamespace tool).toList
      ((declaredTool? toolNamespace tool).toList.map DeclaredTool.translatedName)
      translated translated' := by
  rw [translateCallable] at h
  rw [declaredTool?, hkind]
  cases hname : toolName? tool with
  | none =>
    rw [hname] at h
    cases h
  | some name =>
    rw [hname] at h
    dsimp only at h
    split at h
    · cases h
    next schema hschema =>
      rw [← Except.ok.inj h]
      refine ⟨?_, ?_, ?_⟩
      · cases custom
        · exact (List.append_nil _).symm
        · rfl
      · cases toolNamespace <;> rfl
      · rw [TranslatedTools.names, List.map_append, List.map_singleton, name_toolEntry]
        rfl

theorem translateFrom_induction
    {translate : ℕ → Json → TranslatedTools → Except String TranslatedTools}
    {motive : List Json → TranslatedTools → TranslatedTools → Prop}
    (hnil : ∀ translated, motive [] translated translated)
    (hcons : ∀ {index tool tools translated translated' translated''},
      translate index tool translated = .ok translated' → motive tools translated' translated'' →
        motive (tool :: tools) translated translated'')
    {tools : List Json} (h : translateFrom translate index tools translated = .ok translated') :
    motive tools translated translated' := by
  induction tools generalizing index translated with
  | nil =>
    rw [← Except.ok.inj h]
    exact hnil _
  | cons tool tools ih =>
    rw [translateFrom] at h
    split at h
    · cases h
    next first hfirst => exact hcons hfirst (ih h)

theorem adds_translateMembers {group : List Char} {tools : List Json}
    (h : translateMembers group path tools translated = .ok translated') :
    Adds (tools.filterMap (declaredTool? (some group)))
      ((tools.filterMap (declaredTool? (some group))).map DeclaredTool.translatedName)
      translated translated' := by
  refine @translateFrom_induction _ _ _ _ (fun tools translated translated' =>
    Adds (tools.filterMap (declaredTool? (some group)))
      ((tools.filterMap (declaredTool? (some group))).map DeclaredTool.translatedName)
      translated translated') Adds.refl ?_ _ h
  intro index tool tools translated translated' translated'' hstep hrest
  have hfirst : Adds (declaredTool? (some group) tool).toList
      ((declaredTool? (some group) tool).toList.map DeclaredTool.translatedName)
      translated translated' := by
    split at hstep
    next custom hkind => exact adds_translateCallable hkind hstep
    next hkind =>
      rw [← Except.ok.inj hstep]
      have hnone : declaredTool? (some group) tool = none := by
        rw [declaredTool?]
        split
        next custom hcustom => exact absurd hcustom (hkind custom)
        · rfl
      rw [hnone]
      exact .refl _
  rw [List.filterMap_eq_flatMap_toList] at hrest ⊢
  rw [List.flatMap_cons, List.map_append]
  exact hfirst.trans hrest

/-- The names with those of one more tool; the search is not added twice. -/
def pushNames (names : List (Option String)) (tool : Json) : List (Option String) :=
  match toolKind tool with
  | .webSearch => if some "web_search" ∈ names then names else names ++ [some "web_search"]
  | _ => names ++ (declaredBy tool).map DeclaredTool.translatedName

theorem names_describe (translated : TranslatedTools) (before : ℕ) (group : List Char)
    (description : String) :
    ({ translated with
      tools := translated.tools.take before ++
        (translated.tools.drop before).map (describe group description) } : TranslatedTools).names =
      translated.names := by
  have hnames (tools : List Json) :
      (tools.map (describe group description)).map (fun tool => (tool.index "name").asStr) =
        tools.map fun tool => (tool.index "name").asStr := by
    rw [List.map_map]
    exact List.map_congr_left fun tool _ => by rw [Function.comp_apply, name_describe]
  rw [TranslatedTools.names, List.map_append, hnames, ← List.map_append, List.take_append_drop]
  rfl

theorem adds_translateTool (h : translateTool path index tool translated = .ok translated') :
    ∃ names, Adds (declaredBy tool) names translated translated' ∧
      translated.names ++ names = pushNames translated.names tool := by
  rw [translateTool] at h
  rw [declaredBy, pushNames]
  cases hkind : toolKind tool with
  | callable custom =>
    rw [hkind] at h
    have hdeclared : declaredBy tool = (declaredTool? none tool).toList := by
      rw [declaredBy, hkind]
    rw [hdeclared]
    exact ⟨_, adds_translateCallable hkind h, rfl⟩
  | group =>
    rw [hkind] at h
    cases hname : toolName? tool with
    | none =>
      rw [hname] at h
      cases h
    | some group =>
      have hdeclared : declaredBy tool = (members tool).filterMap (declaredTool? (some group)) := by
        rw [declaredBy, hkind]
        dsimp only
        rw [hname]
      rw [hname] at h
      rw [hdeclared]
      refine ⟨_, ?_, rfl⟩
      dsimp only at h
      split at h
      · cases h
      next translated'' hmembers =>
        have hadds := adds_translateMembers hmembers
        split_ifs at h
        · rw [← Except.ok.inj h]
          exact hadds
        · rw [← Except.ok.inj h]
          exact ⟨hadds.custom, hadds.namespaced, (names_describe _ _ _ _).trans hadds.names⟩
  | webSearch =>
    rw [hkind] at h
    have hnone : declaredTool? none tool = none := by rw [declaredTool?, hkind]
    have hany : (translated.tools.any fun tool => (tool.index "name").asStr = some "web_search") =
        true ↔ some "web_search" ∈ translated.names := by
      rw [List.any_eq_true, TranslatedTools.names, List.mem_map]
      simp
    dsimp only
    rw [hnone]
    by_cases hmem : some "web_search" ∈ translated.names
    · rw [if_pos hmem]
      dsimp only at h
      rw [if_pos (hany.mpr hmem)] at h
      rw [← Except.ok.inj h]
      exact ⟨[], .refl _, List.append_nil _⟩
    · rw [if_neg hmem]
      dsimp only at h
      rw [if_neg (mt hany.mp hmem)] at h
      rw [← Except.ok.inj h]
      refine ⟨_, ⟨(List.append_nil _).symm, (List.append_nil _).symm, ?_⟩, rfl⟩
      rw [TranslatedTools.names, List.map_append]
      rfl
  | unsupported =>
    rw [hkind] at h
    have hnone : declaredTool? none tool = none := by rw [declaredTool?, hkind]
    have hdeclared : declaredBy tool = [] := by
      rw [declaredBy, hkind]
      dsimp only
      rw [hnone]
      rfl
    dsimp only
    rw [hnone, hdeclared, ← Except.ok.inj h]
    exact ⟨[], .refl _, rfl⟩

theorem adds_translateFrom {tools : List Json}
    (h : translateFrom (translateTool path) index tools translated = .ok translated') :
    ∃ names, Adds (declaredTools tools) names translated translated' ∧
      translated.names ++ names = tools.foldl pushNames translated.names := by
  refine @translateFrom_induction _ _ _ _ (fun tools translated translated' =>
    ∃ names, Adds (declaredTools tools) names translated translated' ∧
      translated.names ++ names = tools.foldl pushNames translated.names)
    (fun translated => ⟨[], .refl _, List.append_nil _⟩) ?_ _ h
  rintro index tool tools translated translated' translated'' hstep ⟨names', hrest, hnames'⟩
  obtain ⟨names, hfirst, hnames⟩ := adds_translateTool hstep
  refine ⟨names ++ names', hfirst.trans hrest, ?_⟩
  rw [← List.append_assoc, ← hfirst.names, hnames', hfirst.names, hnames, List.foldl_cons]

/-- A function or custom tool outside of groups that has the name of the search. -/
def isNamedSearch (tool : Json) : Bool :=
  (declaredTool? none tool).any fun tool => tool.name = webSearchName

/-- No such tool comes after a search. -/
def SearchNameFree (tools : List Json) : Prop :=
  tools.Pairwise fun tool later => toolKind tool = .webSearch → isNamedSearch later = false

instance (tools : List Json) : Decidable (SearchNameFree tools) :=
  inferInstanceAs (Decidable (List.Pairwise _ tools))

theorem toolName?_ne {name : List Char} (h : toolName? tool = some name) : name ≠ [] := by
  rw [toolName?, Option.bind_eq_some_iff] at h
  obtain ⟨text, -, hname⟩ := h
  rw [nonEmpty] at hname
  split_ifs at hname with hempty
  rw [← Option.some.inj hname]
  exact hempty

theorem toolNamespace_of_declaredTool? {toolNamespace : Option (List Char)}
    {declared : DeclaredTool} (h : declaredTool? toolNamespace tool = some declared) :
    declared.toolNamespace = toolNamespace := by
  rw [declaredTool?] at h
  split at h
  · obtain ⟨name, -, rfl⟩ := Option.map_eq_some_iff.mp h
    rfl
  · cases h

theorem named_of_mem_declaredBy {declared : DeclaredTool} (h : declared ∈ declaredBy tool) :
    declared.Named := by
  rw [declaredBy] at h
  split at h
  · split at h
    next group hgroup =>
      obtain ⟨member, -, hmember⟩ := List.mem_filterMap.mp h
      rw [DeclaredTool.Named, toolNamespace_of_declaredTool? hmember]
      exact fun hnil => toolName?_ne hgroup (Option.some.inj hnil)
    · cases h
  · rw [DeclaredTool.Named, toolNamespace_of_declaredTool? (Option.mem_toList.mp h)]
    exact nofun

theorem named_of_mem {tools : List Json} {declared : DeclaredTool}
    (h : declared ∈ declaredTools tools) : declared.Named := by
  obtain ⟨tool, -, hmem⟩ := List.mem_flatMap.mp h
  exact named_of_mem_declaredBy hmem

theorem translatedName_eq_search_iff {declared : DeclaredTool} :
    declared.translatedName = some "web_search" ↔ declared.flatName = webSearchName := by
  have hname : String.ofList webSearchName = "web_search" := String.ofList_toList
  rw [DeclaredTool.translatedName, Option.some_inj]
  exact ⟨fun h => String.ofList_injective (h.trans hname.symm), fun h => h ▸ hname⟩

theorem isNamedSearch_iff :
    isNamedSearch tool = true ↔ some "web_search" ∈ (declaredBy tool).map DeclaredTool.translatedName := by
  rw [isNamedSearch, Option.any_eq_true, List.mem_map]
  constructor
  · rintro ⟨declared, hdeclared, hname⟩
    refine ⟨declared, ?_, translatedName_eq_search_iff.mpr ?_⟩
    · rw [declaredBy]
      split
      next hkind =>
        rw [declaredTool?, hkind] at hdeclared
        cases hdeclared
      · exact Option.mem_toList.mpr hdeclared
    · rw [flatName_topLevel (toolNamespace_of_declaredTool? hdeclared)]
      exact of_decide_eq_true hname
  · rintro ⟨declared, hmem, hname⟩
    obtain ⟨hnone, hname⟩ := flatName_eq_webSearchName (named_of_mem_declaredBy hmem)
      (translatedName_eq_search_iff.mp hname)
    refine ⟨declared, ?_, decide_eq_true hname⟩
    rw [declaredBy] at hmem
    split at hmem
    · split at hmem
      · obtain ⟨member, -, hmember⟩ := List.mem_filterMap.mp hmem
        rw [toolNamespace_of_declaredTool? hmember] at hnone
        cases hnone
      · cases hmem
    · exact Option.mem_toList.mp hmem

theorem forall_isNamedSearch_eq_false {tools : List Json} :
    (∀ tool ∈ tools, isNamedSearch tool = false) ↔
      some "web_search" ∉ (declaredTools tools).map DeclaredTool.translatedName := by
  rw [declaredTools, List.map_flatMap, List.mem_flatMap, not_exists]
  refine forall_congr' fun tool => ?_
  rw [not_and, ← isNamedSearch_iff, Bool.not_eq_true]

theorem nodup_foldl_pushNames (tools : List Json) (names : List (Option String)) :
    (tools.foldl pushNames names).Nodup ↔
      names.Nodup ∧ ((declaredTools tools).map DeclaredTool.translatedName).Nodup ∧
        names.Disjoint ((declaredTools tools).map DeclaredTool.translatedName) ∧
        SearchNameFree tools := by
  induction tools generalizing names with
  | nil => simp [declaredTools, SearchNameFree]
  | cons tool tools ih =>
    have hall : (declaredTools (tool :: tools)).map DeclaredTool.translatedName =
        (declaredBy tool).map DeclaredTool.translatedName ++
          (declaredTools tools).map DeclaredTool.translatedName := by
      rw [declaredTools, List.flatMap_cons, List.map_append]
      rfl
    have hlast : SearchNameFree (tool :: tools) ↔
        (toolKind tool = .webSearch →
          some "web_search" ∉ (declaredTools tools).map DeclaredTool.translatedName) ∧
        SearchNameFree tools := by
      rw [SearchNameFree, List.pairwise_cons, ← forall_isNamedSearch_eq_false]
      exact and_congr_left fun _ =>
        ⟨fun h hkind later hmem => h later hmem hkind, fun h later hmem hkind => h hkind later hmem⟩
    rw [List.foldl_cons, ih, hall, hlast]
    by_cases hsearch : toolKind tool = .webSearch
    · have hnil : declaredBy tool = [] := by
        rw [declaredBy, hsearch]
        dsimp only
        rw [declaredTool?, hsearch]
        rfl
      rw [hnil, pushNames, hsearch]
      dsimp only
      by_cases hmem : some "web_search" ∈ names
      · rw [if_pos hmem]
        have hdisjoint (h : names.Disjoint
            ((declaredTools tools).map DeclaredTool.translatedName)) :
            some "web_search" ∉ (declaredTools tools).map DeclaredTool.translatedName :=
          fun hmem' => h hmem hmem'
        simp only [List.map_nil, List.nil_append]
        tauto
      · rw [if_neg hmem]
        simp only [List.map_nil, List.nil_append, List.nodup_append', List.disjoint_append_left,
          List.nodup_singleton, List.disjoint_singleton, List.singleton_disjoint]
        tauto
    · have hpush : pushNames names tool =
          names ++ (declaredBy tool).map DeclaredTool.translatedName := by
        rw [pushNames]
        split
        next hkind => exact absurd hkind hsearch
        · rfl
      rw [hpush, List.nodup_append', List.nodup_append', List.disjoint_append_left,
        List.disjoint_append_right]
      tauto

theorem not_overlap_self (first rest : List Char) : ¬ Overlap first rest first rest := by
  rintro (⟨hfirst, -⟩ | ⟨hfirst, -⟩)
  · simp at hfirst
  · simp [separator] at hfirst

theorem DeclaredTool.not_clashes_self (tool : DeclaredTool) : ¬ tool.Clashes tool := by
  rw [DeclaredTool.Clashes]
  cases tool.toolNamespace with
  | some group => exact not_overlap_self group tool.name
  | none => exact not_false

theorem nodup_flatName_iff {tools : List Json}
    (hpairs : ((declaredTools tools).map fun tool => (tool.toolNamespace, tool.name)).Nodup) :
    ((declaredTools tools).map DeclaredTool.flatName).Nodup ↔
      ∀ tool ∈ declaredTools tools, ∀ tool' ∈ declaredTools tools, ¬ tool.Clashes tool' := by
  constructor
  · intro hnodup tool hmem tool' hmem' hclash
    have hflat := (flatName_eq_iff (named_of_mem hmem) (named_of_mem hmem')).mpr
      (.inr (.inl hclash))
    have heq := List.inj_on_of_nodup_map hnodup hmem hmem' hflat
    rw [heq] at hclash
    exact tool'.not_clashes_self hclash
  · intro hclash
    refine (List.nodup_map_iff_inj_on hpairs.of_map).mpr fun tool hmem tool' hmem' hflat => ?_
    rcases (flatName_eq_iff (named_of_mem hmem) (named_of_mem hmem')).mp hflat with
      hpair | h | h
    · exact List.inj_on_of_nodup_map hpairs hmem hmem' hpair
    · exact absurd h (hclash tool hmem tool' hmem')
    · exact absurd h (hclash tool' hmem' tool hmem)

theorem map_translatedName (tools : List DeclaredTool) :
    tools.map DeclaredTool.translatedName =
      (tools.map DeclaredTool.flatName).map fun flat => some (String.ofList flat) := by
  rw [List.map_map]
  rfl

theorem nodup_translatedName_iff (tools : List DeclaredTool) :
    (tools.map DeclaredTool.translatedName).Nodup ↔ (tools.map DeclaredTool.flatName).Nodup := by
  rw [map_translatedName]
  exact List.nodup_map_iff fun flat flat' h => String.ofList_injective (Option.some.inj h)

theorem keys_sublist (tools : List DeclaredTool) :
    ((tools.filterMap DeclaredTool.entry?).map Prod.fst).Sublist
      (tools.map DeclaredTool.flatName) := by
  induction tools with
  | nil => exact .slnil
  | cons tool tools ih =>
    rw [List.filterMap_cons, DeclaredTool.entry?]
    cases tool.toolNamespace with
    | none => exact ih.cons _
    | some toolNamespace => exact ih.cons_cons _

section Declared

variable {tools : List Json} {names : List (Option String)}

theorem get_namespaced (h : Adds (declaredTools tools) names ⟨[], [], []⟩ translated)
    (hnodup : ((declaredTools tools).map DeclaredTool.flatName).Nodup) {declared : DeclaredTool}
    (hmem : declared ∈ declaredTools tools) :
    KeyedList.get declared.flatName translated.declared.namespaced =
      declared.toolNamespace.map fun toolNamespace => (toolNamespace, declared.name) := by
  have hkeys : (((declaredTools tools).filterMap DeclaredTool.entry?).map Prod.fst).Nodup :=
    hnodup.sublist (keys_sublist _)
  have hentries : translated.declared.namespaced =
      (declaredTools tools).filterMap DeclaredTool.entry? := by
    rw [TranslatedTools.declared, DeclaredTools.new, h.namespaced]
    exact KeyedList.foldl_insert_eq_append hkeys
  rw [hentries]
  cases hgroup : declared.toolNamespace with
  | some group =>
    refine (KeyedList.get_eq_some_iff hkeys).mpr (List.mem_filterMap.mpr ⟨declared, hmem, ?_⟩)
    rw [DeclaredTool.entry?, hgroup]
    rfl
  | none =>
    -- A tool of a group with this flat name would be another one.
    refine KeyedList.get_eq_none_iff.mpr fun hkey => ?_
    obtain ⟨entry, hentry, hflat⟩ := List.mem_map.mp hkey
    obtain ⟨declared', hmem', hentry⟩ := List.mem_filterMap.mp hentry
    obtain ⟨group, hgroup', rfl⟩ := Option.map_eq_some_iff.mp hentry
    have heq := List.inj_on_of_nodup_map hnodup hmem' hmem hflat
    rw [heq, hgroup] at hgroup'
    cases hgroup'

theorem isCustom_flatName (h : Adds (declaredTools tools) names ⟨[], [], []⟩ translated)
    (hnodup : ((declaredTools tools).map DeclaredTool.flatName).Nodup) {declared : DeclaredTool}
    (hmem : declared ∈ declaredTools tools) :
    translated.declared.isCustom declared.flatName = declared.custom := by
  have hcustom : translated.declared.custom =
      ((declaredTools tools).filter DeclaredTool.custom).map DeclaredTool.flatName := h.custom
  rw [DeclaredTools.isCustom, hcustom, Bool.eq_iff_iff, decide_eq_true_iff, List.mem_map]
  constructor
  · rintro ⟨declared', hmem', hflat⟩
    obtain ⟨hmem', hcustom'⟩ := List.mem_filter.mp hmem'
    rwa [List.inj_on_of_nodup_map hnodup hmem' hmem hflat] at hcustom'
  · exact fun hcustom => ⟨declared, List.mem_filter.mpr ⟨hmem, hcustom⟩, rfl⟩

end Declared

/-- Tools that do not clash are restored, and only they. -/
theorem restores_iff {tools : List Json} {translated : TranslatedTools}
    (h : translateTools (some (.arr tools)) = .ok translated)
    (hpairs : ((declaredTools tools).map fun tool => (tool.toolNamespace, tool.name)).Nodup) :
    Restores tools translated ↔
      (∀ tool ∈ declaredTools tools, ∀ tool' ∈ declaredTools tools, ¬ tool.Clashes tool') ∧
        SearchNameFree tools := by
  obtain ⟨names, hadds, hnames⟩ := adds_translateFrom h
  have hall : translated.names = tools.foldl pushNames [] := hadds.names.trans hnames
  have hnodup : translated.names.Nodup ↔
      ((declaredTools tools).map DeclaredTool.flatName).Nodup ∧ SearchNameFree tools := by
    rw [hall, nodup_foldl_pushNames, nodup_translatedName_iff]
    simp
  rw [← nodup_flatName_iff hpairs, ← hnodup]
  refine ⟨Restores.names, fun hown => ?_⟩
  have hflat := (hnodup.mp hown).1
  refine ⟨hown, ?_, ?_, fun tool hmem => isCustom_flatName hadds hflat hmem⟩
  · intro tool hmem id callId arguments status
    rw [DeclaredTools.restore, get_namespaced hadds hflat hmem]
    cases hgroup : tool.toolNamespace with
    | some group => rfl
    | none => rw [flatName_topLevel hgroup]; rfl
  · intro tool hmem id callId input status
    rw [DeclaredTools.restore, get_namespaced hadds hflat hmem]
    cases hgroup : tool.toolNamespace with
    | some group => rfl
    | none => rw [flatName_topLevel hgroup]; rfl

def deployTools : List Json :=
  [.obj [("name", .str "git"), ("tools", .arr [.obj [("name", .str "log")],
      .obj [("name", .str "diff"), ("type", .str "custom")]]), ("type", .str "namespace")],
    .obj [("name", .str "deploy"), ("tools", .arr [.obj [("name", .str "log")]]),
      ("type", .str "namespace")],
    .obj [("name", .str "shell"), ("type", .str "custom")], .obj [("type", .str "web_search")]]

theorem restores_deployTools :
    ∃ translated, translateTools (some (.arr deployTools)) = .ok translated ∧
      Restores deployTools translated := by
  refine ⟨_, rfl, (restores_iff rfl ?_).mpr ⟨?_, ?_⟩⟩
  · decide
  · decide
  · decide

def clashingTools : List Json :=
  [.obj [("name", .str "git"), ("tools", .arr [.obj [("name", .str "log")]]),
      ("type", .str "namespace")],
    .obj [("name", .str "git__log"), ("type", .str "function")]]

theorem not_restores_clashingTools :
    ∃ translated, translateTools (some (.arr clashingTools)) = .ok translated ∧
      ((declaredTools clashingTools).map fun tool => (tool.toolNamespace, tool.name)).Nodup ∧
      ¬ Restores clashingTools translated := by
  refine ⟨_, rfl, ?_, fun h => ?_⟩
  · decide
  · have hnames := h.names
    revert hnames
    decide

end KiroProxy.OpenAI.Responses
