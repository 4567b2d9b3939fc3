import Mathlib.Data.Finmap
import Mathlib.Data.Finset.Lattice.Basic
import KiroProxy.Json

/-!
# Property keys of tool input schemas

Three traversals of a schema: the collection of valid property keys, the search for the
first invalid one, and the rewriting that replaces invalid keys by generated ones. The
regular expression is a predicate and SHA-256 a function of the hashed text. The
traversals recurse with the depth of the schema as fuel.
-/

namespace KiroProxy.ToolSchemaKeys

open Json

inductive ToolSchemaKeyMappingMode
  | disabled
  | sanitize
  | reject
  deriving DecidableEq, Repr

inductive SchemaKeyMappingError
  | invalidRegex (pattern error : String)
  | invalidKey (toolName path key pattern : String)
  | cannotSanitize (toolName path key pattern : String)
  deriving DecidableEq, Repr

def SchemaKeyMappingError.display : SchemaKeyMappingError → String
  | .invalidRegex pattern error =>
    "bodyConversion.toolSchemaKeyValidationRegex is invalid: pattern `" ++ pattern ++ "`: " ++ error
  | .invalidKey toolName path key pattern =>
    "tool `" ++ toolName ++ "` input_schema property key `" ++ key ++ "` at `" ++ path ++
      "` does not match `" ++ pattern ++ "`"
  | .cannotSanitize toolName path key pattern =>
    "tool `" ++ toolName ++ "` input_schema property key `" ++ key ++ "` at `" ++ path ++
      "` cannot be safely sanitized to match `" ++ pattern ++ "`"

structure SchemaKeyMapper where
  mode : ToolSchemaKeyMappingMode
  pattern : String
  isMatch : String → Bool
  /-- Hexadecimal digest of a text. -/
  sha256 : String → String

def generatedKeyHashLen : ℕ := 16

def generatedKeyPrefix : String := "key"

def maxGenerationAttempts : ℕ := 128

def schemaMapKeywords : List String := ["$defs", "patternProperties", "dependentSchemas"]

def schemaValueKeywords : List String :=
  ["items", "contains", "not", "if", "then", "else", "propertyNames", "contentSchema"]

def schemaArrayKeywords : List String := ["prefixItems", "oneOf", "anyOf", "allOf"]

def escapePathSegment (value : String) : String :=
  String.ofList (value.toList.flatMap fun c =>
    if c = '~' then ['~', '0'] else if c = '/' then ['~', '1'] else [c])

def objectField (fields : Fields) (key : String) : Fields :=
  match getField fields key with
  | some (.obj map) => map
  | _ => []

def arrayField (fields : Fields) (key : String) : List Json :=
  match getField fields key with
  | some (.arr items) => items
  | _ => []

/-- A dependency that is a schema, not a list of property names. -/
def isSchema (value : Json) : Bool :=
  value.isObject || value.isBoolean

def collectValidPropertyKeys (isMatch : String → Bool) : ℕ → Json → Finset String
  | 0, _ => ∅
  | fuel + 1, .obj fields =>
    let below (children : List Json) : Finset String :=
      children.foldl (fun keys child => keys ∪ collectValidPropertyKeys isMatch fuel child) ∅
    ((objectField fields "properties").map Prod.fst |>.filter (isMatch ·)).toFinset ∪
      below ((objectField fields "properties").map Prod.snd) ∪
      below (schemaMapKeywords.flatMap fun key => (objectField fields key).map Prod.snd) ∪
      below (schemaValueKeywords.filterMap (getField fields)) ∪
      below (schemaArrayKeywords.flatMap (arrayField fields)) ∪
      below (((objectField fields "dependencies").map Prod.snd).filter isSchema)
  | fuel + 1, .arr items =>
    items.foldl (fun keys child => keys ∪ collectValidPropertyKeys isMatch fuel child) ∅
  | _ + 1, _ => ∅

def firstInvalidPropertyKeyFuel (isMatch : String → Bool) :
    ℕ → String → Json → Option (String × String)
  | 0, _, _ => none
  | fuel + 1, path, .obj fields =>
    ((objectField fields "properties").findSome? fun (key, _) =>
      if isMatch key then none
      else some (path ++ "/properties/" ++ escapePathSegment key, key)) <|>
    ((objectField fields "properties").findSome? fun (key, child) =>
      firstInvalidPropertyKeyFuel isMatch fuel
        (path ++ "/properties/" ++ escapePathSegment key) child) <|>
    (schemaMapKeywords.findSome? fun key => (objectField fields key).findSome? fun (childKey, child) =>
      firstInvalidPropertyKeyFuel isMatch fuel (path ++ "/" ++ escapePathSegment childKey) child) <|>
    (schemaValueKeywords.findSome? fun key => (getField fields key).bind fun child =>
      firstInvalidPropertyKeyFuel isMatch fuel (path ++ "/" ++ key) child) <|>
    (schemaArrayKeywords.findSome? fun key => (arrayField fields key).zipIdx.findSome? fun (child, idx) =>
      firstInvalidPropertyKeyFuel isMatch fuel (path ++ "/" ++ key ++ "/" ++ toString idx) child) <|>
    ((objectField fields "dependencies").findSome? fun (key, child) =>
      if isSchema child then
        firstInvalidPropertyKeyFuel isMatch fuel
          (path ++ "/dependencies/" ++ escapePathSegment key) child
      else none)
  | fuel + 1, path, .arr items =>
    items.zipIdx.findSome? fun (child, idx) =>
      firstInvalidPropertyKeyFuel isMatch fuel (path ++ "/" ++ toString idx) child
  | _ + 1, _, _ => none

def firstInvalidPropertyKey (isMatch : String → Bool) (schema : Json) : Option (String × String) :=
  firstInvalidPropertyKeyFuel isMatch (schema.depth + 1) "#" schema

structure SanitizeState where
  reserved : Finset String
  mapping : Finmap fun _ : String => String

abbrev Sanitizer := String → Json → SanitizeState →
  Except SchemaKeyMappingError (Json × SanitizeState)

abbrev ScopeMap := Finmap fun _ : String => String

namespace SchemaKeyMapper

/-- The pattern is compiled unless the mapping is disabled. -/
def new (compileRegex : String → Except String (String → Bool)) (sha256 : String → String)
    (mode : ToolSchemaKeyMappingMode) (pattern : String) :
    Except SchemaKeyMappingError SchemaKeyMapper :=
  match mode with
  | .disabled => .ok ⟨.disabled, pattern, fun _ => false, sha256⟩
  | mode =>
    match compileRegex pattern with
    | .ok isMatch => .ok ⟨mode, pattern, isMatch, sha256⟩
    | .error error => .error (.invalidRegex pattern error)

variable (mapper : SchemaKeyMapper)

def generatedKey (toolName path key : String) (attempt : ℕ) : String :=
  let hash := mapper.sha256 ("kiro.rs:tool-schema-key:v1\x00" ++ toolName ++ "\x00" ++ path ++
    "\x00" ++ key ++ "\x00" ++ toString attempt)
  generatedKeyPrefix ++ String.ofList (hash.toList.take generatedKeyHashLen)

def sanitizeKey (toolName path key : String) (reserved : Finset String) :
    Except SchemaKeyMappingError (String × Finset String) :=
  match mapper.mode with
  | .disabled => .ok (key, reserved)
  | .reject => .error (.invalidKey toolName path key mapper.pattern)
  | .sanitize =>
    let candidates := (List.range maxGenerationAttempts).map (mapper.generatedKey toolName path key)
    match candidates.find? fun candidate => mapper.isMatch candidate && candidate ∉ reserved with
    | some candidate => .ok (candidate, insert candidate reserved)
    | none => .error (.cannotSanitize toolName path key mapper.pattern)

/-- The output key of a property, with the mapping and the scope map extended when the
key is replaced. -/
def outputKey (toolName path key : String) (scopeMap : ScopeMap) (state : SanitizeState) :
    Except SchemaKeyMappingError (String × ScopeMap × SanitizeState) :=
  if mapper.isMatch key then .ok (key, scopeMap, state)
  else do
    let (sanitized, reserved) ← mapper.sanitizeKey toolName path key state.reserved
    .ok (sanitized, scopeMap.insert key sanitized,
      ⟨reserved, state.mapping.insert sanitized key⟩)

def sanitizePropertyLoop (child : Sanitizer) (toolName path : String) :
    Fields → Fields → ScopeMap → SanitizeState →
      Except SchemaKeyMappingError (Fields × ScopeMap × SanitizeState)
  | [], newProperties, scopeMap, state => .ok (newProperties, scopeMap, state)
  | (key, schema) :: old, newProperties, scopeMap, state => do
    let propertyPath := path ++ "/properties/" ++ escapePathSegment key
    let (outputKey, scopeMap, state) ← mapper.outputKey toolName propertyPath key scopeMap state
    let (schema, state) ← child propertyPath schema state
    sanitizePropertyLoop child toolName path old (insertField newProperties outputKey schema)
      scopeMap state

def sanitizeProperties (child : Sanitizer) (toolName path : String) (fields : Fields)
    (state : SanitizeState) :
    Except SchemaKeyMappingError (Fields × ScopeMap × SanitizeState) :=
  match getField fields "properties" with
  | some (.obj properties) => do
    let (newProperties, scopeMap, state) ←
      mapper.sanitizePropertyLoop child toolName path properties [] ∅ state
    .ok (setField fields "properties" (.obj newProperties), scopeMap, state)
  | _ => .ok (fields, ∅, state)

end SchemaKeyMapper

def renameString (scopeMap : ScopeMap) (value : Json) : Json :=
  match value.asStr.bind scopeMap.lookup with
  | some mapped => .str mapped
  | none => value

def rewritePropertyNameArray (scopeMap : ScopeMap) : Json → Json
  | .arr items => .arr (items.map (renameString scopeMap))
  | other => other

/-- Rebuilds a map with renamed keys; a later key replaces an earlier equal one. -/
def renameKeys (scopeMap : ScopeMap) (rewrite : Json → Json) (old : Fields) : Fields :=
  old.foldl (fun out (key, value) =>
    insertField out ((scopeMap.lookup key).getD key) (rewrite value)) []

def rewriteField (fields : Fields) (key : String) (rewrite : Json → Json) : Fields :=
  match getField fields key with
  | some value => setField fields key (rewrite value)
  | none => fields

def onObject (rewrite : Fields → Fields) : Json → Json
  | .obj fields => .obj (rewrite fields)
  | other => other

def rewriteRequired (scopeMap : ScopeMap) (fields : Fields) : Fields :=
  if scopeMap = ∅ then fields
  else rewriteField fields "required" (rewritePropertyNameArray scopeMap)

def rewriteDependentRequired (scopeMap : ScopeMap) (fields : Fields) : Fields :=
  if scopeMap = ∅ then fields
  else rewriteField fields "dependentRequired"
    (onObject (renameKeys scopeMap (rewritePropertyNameArray scopeMap)))

def rewriteDependentSchemaKeys (scopeMap : ScopeMap) (fields : Fields) : Fields :=
  if scopeMap = ∅ then fields
  else rewriteField fields "dependentSchemas" (onObject (renameKeys scopeMap id))

def rewriteDependencies (scopeMap : ScopeMap) (fields : Fields) : Fields :=
  if scopeMap = ∅ then fields
  else rewriteField fields "dependencies"
    (onObject (renameKeys scopeMap (rewritePropertyNameArray scopeMap)))

def sanitizeEntries (child : Sanitizer) (pathOf : String → String) :
    Fields → SanitizeState → Except SchemaKeyMappingError (Fields × SanitizeState)
  | [], state => .ok ([], state)
  | (key, value) :: entries, state => do
    let (value, state) ← child (pathOf key) value state
    let (entries, state) ← sanitizeEntries child pathOf entries state
    .ok ((key, value) :: entries, state)

def sanitizeItems (child : Sanitizer) (pathOf : ℕ → String) :
    ℕ → List Json → SanitizeState → Except SchemaKeyMappingError (List Json × SanitizeState)
  | _, [], state => .ok ([], state)
  | idx, item :: items, state => do
    let (item, state) ← child (pathOf idx) item state
    let (items, state) ← sanitizeItems child pathOf (idx + 1) items state
    .ok (item :: items, state)

def sanitizeMapKeyword (child : Sanitizer) (path _key : String) (value : Json)
    (state : SanitizeState) : Except SchemaKeyMappingError (Json × SanitizeState) :=
  match value with
  | .obj map => do
    let (map, state) ← sanitizeEntries child (fun key => path ++ "/" ++ escapePathSegment key) map state
    .ok (.obj map, state)
  | other => .ok (other, state)

def sanitizeValueKeyword (child : Sanitizer) (path key : String) (value : Json)
    (state : SanitizeState) : Except SchemaKeyMappingError (Json × SanitizeState) :=
  child (path ++ "/" ++ key) value state

def sanitizeArrayKeyword (child : Sanitizer) (path key : String) (value : Json)
    (state : SanitizeState) : Except SchemaKeyMappingError (Json × SanitizeState) :=
  match value with
  | .arr items => do
    let (items, state) ←
      sanitizeItems child (fun idx => path ++ "/" ++ key ++ "/" ++ toString idx) 0 items state
    .ok (.arr items, state)
  | other => .ok (other, state)

/-- One of the keyword loops over an object. -/
def sanitizeKeywords
    (sanitize : String → Json → SanitizeState → Except SchemaKeyMappingError (Json × SanitizeState)) :
    List String → Fields → SanitizeState → Except SchemaKeyMappingError (Fields × SanitizeState)
  | [], fields, state => .ok (fields, state)
  | key :: keywords, fields, state =>
    match getField fields key with
    | some value => do
      let (value, state) ← sanitize key value state
      sanitizeKeywords sanitize keywords (setField fields key value) state
    | none => sanitizeKeywords sanitize keywords fields state

def sanitizeSchemaValue (mapper : SchemaKeyMapper) (toolName : String) : ℕ → Sanitizer
  | 0, _, value, state => .ok (value, state)
  | fuel + 1, path, .obj fields, state => do
    let child := sanitizeSchemaValue mapper toolName fuel
    let (fields, scopeMap, state) ← mapper.sanitizeProperties child toolName path fields state
    let fields := rewriteRequired scopeMap fields
    let fields := rewriteDependentRequired scopeMap fields
    let fields := rewriteDependentSchemaKeys scopeMap fields
    let fields := rewriteDependencies scopeMap fields
    let (fields, state) ← sanitizeKeywords (sanitizeMapKeyword child path) schemaMapKeywords fields state
    let (fields, state) ←
      sanitizeKeywords (sanitizeValueKeyword child path) schemaValueKeywords fields state
    let (fields, state) ←
      sanitizeKeywords (sanitizeArrayKeyword child path) schemaArrayKeywords fields state
    .ok (.obj fields, state)
  | fuel + 1, path, .arr items, state => do
    let child := sanitizeSchemaValue mapper toolName fuel
    let (items, state) ← sanitizeItems child (fun idx => path ++ "/" ++ toString idx) 0 items state
    .ok (.arr items, state)
  | _ + 1, _, value, state => .ok (value, state)

/-- The rewritten schema and the mapping from generated to original keys. -/
def SchemaKeyMapper.applyToSchema (mapper : SchemaKeyMapper) (toolName : String) (schema : Json) :
    Except SchemaKeyMappingError (Json × Finmap fun _ : String => String) :=
  match mapper.mode with
  | .disabled => .ok (schema, ∅)
  | .reject =>
    match firstInvalidPropertyKey mapper.isMatch schema with
    | some (path, key) => .error (.invalidKey toolName path key mapper.pattern)
    | none => .ok (schema, ∅)
  | .sanitize => do
    let reserved := collectValidPropertyKeys mapper.isMatch (schema.depth + 1) schema
    let (schema, state) ←
      sanitizeSchemaValue mapper toolName (schema.depth + 1) "#" schema ⟨reserved, ∅⟩
    .ok (schema, state.mapping)

end KiroProxy.ToolSchemaKeys
