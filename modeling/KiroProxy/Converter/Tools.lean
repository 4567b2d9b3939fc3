import KiroProxy.Converter.ToolNames
import KiroProxy.ToolSchemaKeys.Mapper

/-!
# Conversion of tool definitions

The tools that `tool_choice` selects are given names that differ ignoring case, and are
converted one by one. The reverse map is committed only after every definition has been
converted.
-/

namespace KiroProxy.Converter

open ToolSchemaKeys

/-- The tool of a client request. -/
structure AnthropicTool where
  toolType : Option String
  name : String
  description : String
  inputSchema : Json.Fields
  maxUses : Option ℤ
  cacheControl : Option Json

/-- The tool sent to Kiro. -/
structure ToolSpecification where
  name : String
  description : String
  inputSchema : Json

inductive ConversionError
  | unsupportedModel (model : String)
  | emptyMessages
  | unsupportedContent (message : String)
  deriving DecidableEq, Repr

structure ConverterOptions where
  toolNameMapping : Bool
  toolNameVerbatimWhenValid : Bool
  toolSchemaNormalization : Bool
  toolChoiceSteering : Bool
  toolSchemaKeyMapping : ToolSchemaKeyMappingMode
  toolSchemaKeyValidationRegex : String
  /-- The suffixes for `Write` and `Edit`, when their injection is allowed. -/
  chunkedWriteToolSuffix : Option (String × String)
  kiroCachePointEnabled : Bool

/-- Functions of other crates and modules. -/
structure Externals where
  sha256 : String → Digest
  compileRegex : String → Except String (String → Bool)
  normalizeJsonSchema : Json → Json

abbrev ToolNameMap := List (String × String)

abbrev ToolSchemaKeyMap := List (String × Finmap fun _ : String => String)

structure ConvertedTools where
  tools : List ToolSpecification
  toolCachePointInsertAfter : List ℕ
  toolSchemaKeyMap : ToolSchemaKeyMap
  chunkedSuffixApplied : Bool

inductive ToolChoiceDirective
  | auto
  | any
  | none
  | tool (name : String)
  | unknown
  deriving DecidableEq, Repr

def parseToolChoice : Option Json → ToolChoiceDirective
  | .none => .auto
  | some (.str choice) =>
    if choice = "auto" then .auto
    else if choice = "any" then .any
    else if choice = "none" then .none
    else .unknown
  | some (.obj fields) =>
    match (Json.getField fields "type").bind Json.asStr with
    | some "auto" => .auto
    | some "any" => .any
    | some "none" => .none
    | some "tool" =>
      match (Json.getField fields "name").bind Json.asStr with
      | some name => if trim name = "" then .unknown else .tool name
      | _ => .unknown
    | _ => .unknown
  | some _ => .unknown

def selectedToolIndices (tools : List AnthropicTool) (directive : ToolChoiceDirective) :
    Except ConversionError (List (Fin tools.length)) :=
  match directive with
  | .none => .ok []
  | .tool requestedName =>
    let exact' := (List.finRange tools.length).filter fun idx => (tools.get idx).name == requestedName
    if exact' ≠ [] then .ok exact'
    else
      let normalized := (List.finRange tools.length).filter fun idx =>
        sanitizeToolName (tools.get idx).name == sanitizeToolName requestedName
      match normalized.length with
      | 0 => .ok (List.finRange tools.length)
      | 1 => .ok normalized
      | _ => .error
        (.unsupportedContent "tool_choice name is ambiguous after tool-name normalization")
  | .auto | .any | .unknown => .ok (List.finRange tools.length)

def equivalentToolDefinitions (left right : AnthropicTool) : Bool :=
  left.name == right.name && left.description == right.description &&
    Json.beqFields left.inputSchema right.inputSchema && left.toolType == right.toolType &&
    left.maxUses == right.maxUses && left.cacheControl == right.cacheControl

structure NameAllocation (n : ℕ) where
  /-- Lower-case Kiro name to original name. -/
  reserved : ToolNameMap
  selectedDefinitionByName : List (String × Fin n)
  allocated : List (Fin n × String)
  pendingReverseMap : ToolNameMap

def reserveExisting : ToolNameMap → ToolNameMap → Except ConversionError ToolNameMap
  | [], reserved => .ok reserved
  | (mapped, original) :: existing, reserved =>
    let key := toAsciiLowercase mapped
    match KeyedList.get key reserved with
    | some _ => .error (.unsupportedContent "existing tool-name reverse map is ambiguous")
    | none => reserveExisting existing (KeyedList.insert key original reserved)

variable (sha256 : String → Digest) (options : ConverterOptions)

/-- The Kiro name of a tool. A verbatim name that would collide with another tool falls
back to the digest mapping. -/
def mappedToolName (reserved : ToolNameMap) (name : String) : String :=
  let mapped := if options.toolNameMapping then
    kiroRequestToolName sha256 options.toolNameVerbatimWhenValid name else name
  if mapped = name ∧ options.toolNameMapping ∧
      (KeyedList.get (toAsciiLowercase mapped) reserved).any (· ≠ name) then
    shortenToolName sha256 (sanitizeToolName name) name
  else mapped

def NameAllocation.claim {n : ℕ} (state : NameAllocation n) (idx : Fin n)
    (name mapped : String) : NameAllocation n where
  reserved := KeyedList.insert (toAsciiLowercase mapped) name state.reserved
  selectedDefinitionByName :=
    KeyedList.insert (toAsciiLowercase mapped) idx state.selectedDefinitionByName
  allocated := state.allocated ++ [(idx, mapped)]
  pendingReverseMap :=
    if mapped ≠ name then KeyedList.insert mapped name state.pendingReverseMap
    else state.pendingReverseMap

def allocateToolName (tools : List AnthropicTool) (state : NameAllocation tools.length)
    (idx : Fin tools.length) : Except ConversionError (NameAllocation tools.length) :=
  let tool := tools.get idx
  let mapped := mappedToolName sha256 options state.reserved tool.name
  let collisionKey := toAsciiLowercase mapped
  match KeyedList.get collisionKey state.reserved with
  | some previousOriginal =>
    if previousOriginal = tool.name then
      match KeyedList.get collisionKey state.selectedDefinitionByName with
      | some previousIdx =>
        if equivalentToolDefinitions (tools.get previousIdx) tool then .ok state
        else .error (.unsupportedContent
          "duplicate tool definitions with the same name are not structurally equivalent")
      | none => .ok (state.claim idx tool.name mapped)
    else .error (.unsupportedContent
      "multiple tool definitions resolve to the same normalized tool name")
  | none => .ok (state.claim idx tool.name mapped)

def allocateSelectedToolNames (tools : List AnthropicTool) (selected : List (Fin tools.length))
    (existingToolNameMap : ToolNameMap) :
    Except ConversionError (List (Fin tools.length × String) × ToolNameMap) := do
  let reserved ← reserveExisting existingToolNameMap []
  let state ← selected.foldlM (allocateToolName sha256 options tools) ⟨reserved, [], [], []⟩
  .ok (state.allocated, state.pendingReverseMap)

def normalizeToolDescription (toolName description : String) : String :=
  if trim description ≠ "" then description
  else if trim toolName = "" then "Tool available to the assistant."
  else "Tool `" ++ trim toolName ++ "` available to the assistant."

def toolSuffix (name : String) : String :=
  match options.chunkedWriteToolSuffix with
  | none => ""
  | some (write, edit) =>
    if name = "Write" then trim write else if name = "Edit" then trim edit else ""

def toolDescription (tool : AnthropicTool) : String :=
  let description := normalizeToolDescription tool.name tool.description
  let description := String.ofList (description.toList.take 10000)
  let suffix := toolSuffix options tool.name
  if suffix = "" then description else description ++ "\n" ++ suffix

def inputSchemaFromJson (externals : Externals) (mapper : SchemaKeyMapper) (mappedToolName : String)
    (schema : Json) : Except ConversionError (Json × Finmap fun _ : String => String) :=
  let schema := if options.toolSchemaNormalization then externals.normalizeJsonSchema schema
    else schema
  match mapper.applyToSchema mappedToolName schema with
  | .ok result => .ok result
  | .error err => .error (.unsupportedContent err.display)

def convertTool (externals : Externals) (mapper : SchemaKeyMapper) (tool : AnthropicTool)
    (mappedName : String) :
    Except ConversionError (ToolSpecification × Finmap fun _ : String => String) := do
  let (inputSchema, schemaKeyMapping) ←
    inputSchemaFromJson options externals mapper mappedName (.obj tool.inputSchema)
  .ok (⟨mappedName, toolDescription options tool, inputSchema⟩, schemaKeyMapping)

def appendTool (externals : Externals) (mapper : SchemaKeyMapper) (tools : List AnthropicTool)
    (converted : ConvertedTools) (allocated : Fin tools.length × String) :
    Except ConversionError ConvertedTools := do
  let tool := tools.get allocated.1
  let (spec, schemaKeyMapping) ← convertTool options externals mapper tool allocated.2
  .ok {
    tools := converted.tools ++ [spec]
    toolCachePointInsertAfter :=
      if options.kiroCachePointEnabled && tool.cacheControl.isSome then
        converted.toolCachePointInsertAfter ++ [converted.tools.length]
      else converted.toolCachePointInsertAfter
    toolSchemaKeyMap :=
      if schemaKeyMapping = ∅ then converted.toolSchemaKeyMap
      else KeyedList.insert allocated.2 schemaKeyMapping converted.toolSchemaKeyMap
    chunkedSuffixApplied :=
      converted.chunkedSuffixApplied || toolSuffix options tool.name ≠ "" }

def extendMap (map extension : ToolNameMap) : ToolNameMap :=
  extension.foldl (fun map entry => KeyedList.insert entry.1 entry.2 map) map

def schemaKeyMapper (externals : Externals) : Except ConversionError SchemaKeyMapper :=
  match SchemaKeyMapper.new externals.compileRegex
    (fun text => String.ofList (externals.sha256 text).hex) options.toolSchemaKeyMapping
    options.toolSchemaKeyValidationRegex with
  | .ok mapper => .ok mapper
  | .error err => .error (.unsupportedContent err.display)

def convertTools (externals : Externals) (tools : Option (List AnthropicTool))
    (toolChoice : Option Json) (toolNameMap : ToolNameMap) :
    Except ConversionError (ConvertedTools × ToolNameMap) :=
  match tools with
  | none => .ok (⟨[], [], [], false⟩, toolNameMap)
  | some tools => do
    let directive := if options.toolChoiceSteering then parseToolChoice toolChoice else .auto
    let selected ← selectedToolIndices tools directive
    let (allocated, pendingReverseMap) ←
      allocateSelectedToolNames externals.sha256 options tools selected toolNameMap
    let mapper ← schemaKeyMapper options externals
    let converted ← allocated.foldlM (appendTool options externals mapper tools) ⟨[], [], [], false⟩
    .ok (converted, extendMap toolNameMap pendingReverseMap)

end KiroProxy.Converter
