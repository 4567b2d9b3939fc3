import KiroProxy.Converter.Tools
import KiroProxy.ToolNameRestore.Resolve
import KiroProxy.Transition

/-!
# Round trip of tool names

The names allocated to the selected tools are safe and differ ignoring case, and the
reverse map gives back the name of the client for each of them.
-/

namespace KiroProxy.Converter

open ToolSchemaKeys ToolNameRestore Transition

variable {sha256 : String → Digest} {options : ConverterOptions} {tools : List AnthropicTool}

structure NameAllocation.Inv (state : NameAllocation tools.length) : Prop where
  reserved_iff : ∀ key, (KeyedList.get key state.reserved).isSome =
    (KeyedList.get key state.selectedDefinitionByName).isSome
  reserved_mem : ∀ x ∈ state.allocated, (KeyedList.get (toAsciiLowercase x.2) state.reserved).isSome
  nodup : (state.allocated.map fun x => toAsciiLowercase x.2).Nodup
  safe : ∀ x ∈ state.allocated, KiroSafe x.2
  pending_nodup : (state.pendingReverseMap.map Prod.fst).Nodup
  mem_pending : ∀ mapped original, (mapped, original) ∈ state.pendingReverseMap ↔
    ∃ idx, (idx, mapped) ∈ state.allocated ∧ (tools.get idx).name = original ∧ mapped ≠ original

theorem NameAllocation.inv_empty : (⟨[], [], [], []⟩ : NameAllocation tools.length).Inv := by
  refine ⟨fun key => rfl, ?_, List.nodup_nil, ?_, List.nodup_nil, ?_⟩
  · exact fun x hx => absurd hx List.not_mem_nil
  · exact fun x hx => absurd hx List.not_mem_nil
  · simp

theorem kiroSafe_mappedToolName (hmapping : options.toolNameMapping = true)
    (reserved : ToolNameMap) (name : String) :
    KiroSafe (mappedToolName sha256 options reserved name) := by
  unfold mappedToolName
  simp only [hmapping, if_true]
  split_ifs
  · exact kiroSafe_shortenToolName sha256 name name
  · exact kiroSafe_kiroRequestToolName sha256 _ name

theorem isSome_get_insert {α : Type} (key key' : String) (value : α) (map : List (String × α)) :
    (KeyedList.get key' (KeyedList.insert key value map)).isSome =
      (decide (key' = key) || (KeyedList.get key' map).isSome) := by
  by_cases h : key' = key
  · subst h
    simp [KeyedList.get_insert_self]
  · simp [KeyedList.get_insert_of_ne h, h]

theorem nodup_append_singleton {l : List String} {x : String} (h : l.Nodup) (hx : x ∉ l) :
    (l ++ [x]).Nodup := by
  rw [← List.concat_eq_append]
  exact List.Nodup.concat hx h

theorem NameAllocation.Inv.claim {state : NameAllocation tools.length} (hinv : state.Inv)
    {idx : Fin tools.length} {mapped : String} (hsafe : KiroSafe mapped)
    (hfree : KeyedList.get (toAsciiLowercase mapped) state.reserved = none) :
    (state.claim idx (tools.get idx).name mapped).Inv := by
  have hfresh : ∀ x ∈ state.allocated, toAsciiLowercase x.2 ≠ toAsciiLowercase mapped := by
    intro x hx heq
    have hsome := hinv.reserved_mem x hx
    rw [heq, hfree] at hsome
    cases hsome
  have hpending : KeyedList.get mapped state.pendingReverseMap = none := by
    rw [KeyedList.get_eq_none_iff]
    intro hmem
    obtain ⟨⟨m, original⟩, hentry, rfl⟩ := List.mem_map.mp hmem
    obtain ⟨i, hi, -, -⟩ := (hinv.mem_pending m original).mp hentry
    exact hfresh _ hi rfl
  refine ⟨fun key => ?_, fun x hx => ?_, ?_, fun x hx => ?_, ?_, fun m original => ?_⟩
  · simp only [NameAllocation.claim, isSome_get_insert, hinv.reserved_iff]
  · simp only [NameAllocation.claim, isSome_get_insert, Bool.or_eq_true, decide_eq_true_eq]
    rcases List.mem_append.mp hx with hx | hx
    · exact .inr (hinv.reserved_mem x hx)
    · rw [List.mem_singleton.mp hx]
      exact .inl rfl
  · simp only [NameAllocation.claim, List.map_append, List.map_cons, List.map_nil]
    refine nodup_append_singleton hinv.nodup fun hmem => ?_
    obtain ⟨x, hx, heq⟩ := List.mem_map.mp hmem
    exact hfresh x hx heq
  · rcases List.mem_append.mp hx with hx | hx
    · exact hinv.safe x hx
    · rw [List.mem_singleton.mp hx]
      exact hsafe
  · simp only [NameAllocation.claim]
    split_ifs with hne
    · rw [KeyedList.insert_of_get_eq_none hpending, List.map_append]
      exact nodup_append_singleton hinv.pending_nodup (KeyedList.get_eq_none_iff.mp hpending)
    · exact hinv.pending_nodup
  · have hnew : (m, original) ∈ (state.claim idx (tools.get idx).name mapped).pendingReverseMap ↔
        (m, original) ∈ state.pendingReverseMap ∨
          m = mapped ∧ (tools.get idx).name = original ∧ mapped ≠ original := by
      simp only [NameAllocation.claim]
      split_ifs with hne
      · rw [KeyedList.insert_of_get_eq_none hpending, List.mem_append, List.mem_singleton,
          Prod.mk.injEq]
        refine or_congr Iff.rfl ⟨?_, ?_⟩
        · rintro ⟨rfl, rfl⟩
          exact ⟨rfl, rfl, hne⟩
        · rintro ⟨rfl, rfl, -⟩
          exact ⟨rfl, rfl⟩
      · rw [not_not] at hne
        refine ⟨.inl, fun h => h.resolve_right ?_⟩
        rintro ⟨-, rfl, h⟩
        exact h hne
    rw [hnew, hinv.mem_pending]
    simp only [NameAllocation.claim, List.mem_append, List.mem_singleton, Prod.mk.injEq]
    constructor
    · rintro (⟨i, hi, h⟩ | ⟨rfl, h⟩)
      · exact ⟨i, .inl hi, h⟩
      · exact ⟨idx, .inr ⟨rfl, rfl⟩, h⟩
    · rintro ⟨i, hi | ⟨rfl, rfl⟩, h⟩
      · exact .inl ⟨i, hi, h⟩
      · exact .inr ⟨rfl, h⟩

theorem NameAllocation.Inv.step (hmapping : options.toolNameMapping = true)
    {state state' : NameAllocation tools.length} (hinv : state.Inv) {idx : Fin tools.length}
    (h : allocateToolName sha256 options tools state idx = .ok state') : state'.Inv := by
  have hsafe : KiroSafe (mappedToolName sha256 options state.reserved (tools.get idx).name) :=
    kiroSafe_mappedToolName hmapping _ _
  simp only [allocateToolName] at h
  split at h
  · next previous hreserved =>
    split_ifs at h
    split at h
    · split_ifs at h
      cases h
      exact hinv
    · next hnone =>
      have hiff := hinv.reserved_iff (toAsciiLowercase
        (mappedToolName sha256 options state.reserved (tools.get idx).name))
      rw [hreserved, hnone] at hiff
      cases hiff
  · next hfree =>
    cases h
    exact hinv.claim hsafe hfree

theorem extendMap_append {map extension : ToolNameMap}
    (hnodup : (extension.map Prod.fst).Nodup)
    (hdisjoint : ∀ x ∈ extension, x.1 ∉ map.map Prod.fst) :
    extendMap map extension = map ++ extension := by
  induction extension generalizing map with
  | nil => simp [extendMap]
  | cons entry extension ih =>
    obtain ⟨hnotin, hnodup⟩ := List.nodup_cons.mp hnodup
    have hfree := KeyedList.get_eq_none_iff.mpr (hdisjoint entry List.mem_cons_self)
    have hrest : ∀ x ∈ extension, x.1 ∉ (map ++ [entry]).map Prod.fst := by
      intro x hx hmem
      rw [List.map_append, List.mem_append] at hmem
      rcases hmem with hmem | hmem
      · exact hdisjoint x (List.mem_cons_of_mem _ hx) hmem
      · rw [List.map_singleton, List.mem_singleton] at hmem
        exact hnotin (List.mem_map.mpr ⟨x, hx, hmem⟩)
    have htail := ih hnodup hrest
    rw [List.append_assoc, List.singleton_append] at htail
    rw [← htail, extendMap, List.foldl_cons, KeyedList.insert_of_get_eq_none hfree]
    rfl

theorem foldlM_appendTool {externals : Externals} {mapper : SchemaKeyMapper}
    {allocated : List (Fin tools.length × String)} {converted converted' : ConvertedTools}
    (h : allocated.foldlM (appendTool options externals mapper tools) converted = .ok converted') :
    ∃ specs, converted'.tools = converted.tools ++ specs ∧
      List.Forall₂ (fun x spec => spec.name = x.2 ∧
        ∃ keys, convertTool options externals mapper (tools.get x.1) x.2 = .ok (spec, keys))
        allocated specs := by
  induction allocated generalizing converted with
  | nil =>
    cases h
    exact ⟨[], by simp, .nil⟩
  | cons x allocated ih =>
    rw [List.foldlM_cons] at h
    obtain ⟨converted₁, h₁, h⟩ := exists_of_bind_eq_ok h
    obtain ⟨⟨spec, keys⟩, hspec, h₁⟩ := exists_of_bind_eq_ok h₁
    cases h₁
    obtain ⟨specs, htools, hspecs⟩ := ih h
    refine ⟨spec :: specs, by simpa using htools, .cons ⟨?_, keys, hspec⟩ hspecs⟩
    obtain ⟨⟨schema, keys'⟩, -, hspec⟩ := exists_of_bind_eq_ok hspec
    cases hspec
    rfl

theorem map_name_of_forall₂ {externals : Externals} {mapper : SchemaKeyMapper}
    {allocated : List (Fin tools.length × String)} {specs : List ToolSpecification}
    (h : List.Forall₂ (fun x spec => spec.name = x.2 ∧
      ∃ keys, convertTool options externals mapper (tools.get x.1) x.2 = .ok (spec, keys))
      allocated specs) : specs.map ToolSpecification.name = allocated.map Prod.snd := by
  induction h with
  | nil => rfl
  | cons hname _ ih => rw [List.map_cons, List.map_cons, hname.1, ih]

/-- The names of `tools` and of the reverse map, as the response side knows them. -/
def knownToolNames (converted : ConvertedTools) (toolNameMap : ToolNameMap) : List String :=
  converted.tools.map ToolSpecification.name ++ toolNameMap.map Prod.snd

/-- The client tool from which a tool was converted, with its name given back by the
reverse map in any iteration order. -/
def RoundTrips (externals : Externals) (options : ConverterOptions) (toolNameMap : ToolNameMap)
    (known : List String) (original : AnthropicTool) (spec : ToolSpecification) : Prop :=
  (∃ mapper keys, schemaKeyMapper options externals = .ok mapper ∧
    convertTool options externals mapper original spec.name = .ok (spec, keys)) ∧
    ∀ map', map'.Perm toolNameMap →
      resolveResponseToolName map' known spec.name = ⟨spec.name, original.name⟩

theorem resolve_allocated {state : NameAllocation tools.length} (hinv : state.Inv)
    {map' : ToolNameMap} (hperm : map'.Perm state.pendingReverseMap) {known : List String}
    {idx : Fin tools.length} {mapped : String} (hmem : (idx, mapped) ∈ state.allocated)
    (hknown : mapped ∈ known) :
    resolveResponseToolName map' known mapped = ⟨mapped, (tools.get idx).name⟩ := by
  have hnodup : (map'.map Prod.fst).Nodup :=
    (hperm.map Prod.fst).nodup_iff.mpr hinv.pending_nodup
  by_cases hname : mapped = (tools.get idx).name
  · have hnone : KeyedList.get mapped map' = none := by
      cases hget : KeyedList.get mapped map' with
      | none => rfl
      | some original =>
        have hentry := hperm.mem_iff.mp (KeyedList.mem_of_get hget)
        obtain ⟨idx', hmem', horiginal, hne⟩ := (hinv.mem_pending mapped original).mp hentry
        have hidx : (idx', mapped) = (idx, mapped) :=
          List.inj_on_of_nodup_map hinv.nodup hmem' hmem rfl
        cases hidx
        exact absurd (hname.trans horiginal) hne
    rw [resolveResponseToolName_of_known _ _ hnone hknown, ← hname]
  · have hentry : (mapped, (tools.get idx).name) ∈ map' :=
      hperm.mem_iff.mpr ((hinv.mem_pending _ _).mpr ⟨idx, hmem, rfl, hname⟩)
    exact resolveResponseToolName_of_mapped _ _ ((KeyedList.get_eq_some_iff hnodup).mpr hentry)

/-- With name mapping enabled and an empty reverse map, the emitted names differ ignoring
case, are safe for Kiro, and resolve to the names of the client tools. -/
theorem convertTools_names {externals : Externals} {tools : Option (List AnthropicTool)}
    {toolChoice : Option Json} {converted : ConvertedTools} {toolNameMap : ToolNameMap}
    (hmapping : options.toolNameMapping = true)
    (h : convertTools options externals tools toolChoice [] = .ok (converted, toolNameMap)) :
    (converted.tools.map fun spec => toAsciiLowercase spec.name).Nodup ∧
      (∀ spec ∈ converted.tools, KiroSafe spec.name) ∧
      ∃ originals : List AnthropicTool, (∀ original ∈ originals, original ∈ tools.getD []) ∧
        List.Forall₂ (RoundTrips externals options toolNameMap
          (knownToolNames converted toolNameMap)) originals converted.tools := by
  cases tools with
  | none =>
    cases h
    exact ⟨List.nodup_nil, fun spec hspec => absurd hspec List.not_mem_nil, [],
      fun original h => absurd h List.not_mem_nil, .nil⟩
  | some tools =>
    obtain ⟨selected, -, h⟩ := exists_of_bind_eq_ok h
    obtain ⟨⟨allocated, pending⟩, hallocated, h⟩ := exists_of_bind_eq_ok h
    obtain ⟨mapper, hmapper, h⟩ := exists_of_bind_eq_ok h
    obtain ⟨converted₁, hconverted, h⟩ := exists_of_bind_eq_ok h
    cases h
    obtain ⟨reserved, hreserved, hallocated⟩ := exists_of_bind_eq_ok hallocated
    cases hreserved
    obtain ⟨state, hstate, hallocated⟩ := exists_of_bind_eq_ok hallocated
    cases hallocated
    have hinv : state.Inv := foldlM_invariant (fun s idx t hs ht => hs.step hmapping ht)
      NameAllocation.inv_empty hstate
    obtain ⟨specs, htools, hspecs⟩ := foldlM_appendTool hconverted
    rw [List.nil_append] at htools
    have hnames : converted.tools.map ToolSpecification.name = state.allocated.map Prod.snd := by
      rw [htools, map_name_of_forall₂ hspecs]
    have hmap : extendMap [] state.pendingReverseMap = state.pendingReverseMap :=
      extendMap_append hinv.pending_nodup fun x _ => List.not_mem_nil
    refine ⟨?_, fun spec hspec => ?_, state.allocated.map fun x => tools.get x.1,
      fun original horiginal => ?_, ?_⟩
    · have hlower : (converted.tools.map fun spec => toAsciiLowercase spec.name) =
          state.allocated.map fun x => toAsciiLowercase x.2 := by
        rw [← Function.comp_def toAsciiLowercase ToolSpecification.name, ← List.map_map, hnames,
          List.map_map]
        rfl
      rw [hlower]
      exact hinv.nodup
    · have hmem : spec.name ∈ state.allocated.map Prod.snd :=
        hnames ▸ List.mem_map_of_mem hspec
      obtain ⟨x, hx, hname⟩ := List.mem_map.mp hmem
      exact hname ▸ hinv.safe x hx
    · obtain ⟨x, -, rfl⟩ := List.mem_map.mp horiginal
      exact List.get_mem _ _
    · rw [htools, List.forall₂_map_left_iff, hmap]
      have hmem := (List.forall₂_and_left (p := (· ∈ state.allocated)) _ _).mpr ⟨fun _ hx => hx, hspecs⟩
      refine hmem.imp fun x spec ⟨hx, hname, keys, hspec⟩ => ?_
      refine ⟨⟨mapper, keys, hmapper, hname ▸ hspec⟩, fun map' hperm => ?_⟩
      rw [hname]
      refine resolve_allocated hinv hperm hx (List.mem_append_left _ ?_)
      rw [hnames]
      exact List.mem_map_of_mem hx

def verbatimOptions : ConverterOptions where
  toolNameMapping := true
  toolNameVerbatimWhenValid := true
  toolSchemaNormalization := false
  toolChoiceSteering := true
  toolSchemaKeyMapping := .disabled
  toolSchemaKeyValidationRegex := "^[a-zA-Z0-9_.-]{1,64}$"
  chunkedWriteToolSuffix := none
  kiroCachePointEnabled := false

/-- The digest of the text `read`. -/
def readExternals : Externals where
  sha256 _ := 0x3316348dbadfb7b11c7c2ea235949419e23f9fa898ad2c198f999617912a9925#256
  compileRegex _ := .ok fun _ => true
  normalizeJsonSchema := id

def plainTool (name : String) : AnthropicTool :=
  ⟨none, name, "reads", [], none, none⟩

def readTools : List AnthropicTool := [plainTool "Read", plainTool "read"]

def readConverted : ConvertedTools :=
  ⟨[⟨"Read", "reads", .obj []⟩, ⟨"readHash3316348d", "reads", .obj []⟩], [], [], false⟩

theorem convertTools_names_case_collision :
    convertTools verbatimOptions readExternals (some readTools) none [] =
      .ok (readConverted, [("readHash3316348d", "read")]) ∧
    (readConverted.tools.map fun spec => toAsciiLowercase spec.name).Nodup ∧
    (∀ spec ∈ readConverted.tools, KiroSafe spec.name) ∧
    ∃ originals : List AnthropicTool, (∀ original ∈ originals, original ∈ readTools) ∧
      List.Forall₂ (RoundTrips readExternals verbatimOptions [("readHash3316348d", "read")]
        ["Read", "readHash3316348d", "read"]) originals readConverted.tools := by
  have h : convertTools verbatimOptions readExternals (some readTools) none [] =
      .ok (readConverted, [("readHash3316348d", "read")]) := rfl
  exact ⟨h, convertTools_names rfl h⟩

end KiroProxy.Converter
