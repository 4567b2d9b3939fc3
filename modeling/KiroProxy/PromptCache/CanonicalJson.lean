import KiroProxy.JsonPrint
import KiroProxy.KeyedList
import KiroProxy.SessionId

/-!
# Canonical JSON of cached blocks

The text that stands for a block in a fingerprint. Members that only control the cache are left
out, and positions and volatile ids are blanked. The text is the compact text of a normal form, so
that two blocks have one text exactly when they have one normal form.
-/

namespace KiroProxy.PromptCache

open Json JsonPrint PrefixCode

def isCachePositionKey (key : String) : Bool :=
  ["tool_index", "system_index", "message_index", "block_index"].contains key

def looksLikeUuid (value : String) : Bool :=
  let bytes := SessionId.bytes value.toList
  bytes.length == 36 && bytes.zipIdx.all fun entry =>
    if SessionId.isHyphenIndex entry.2 then entry.1 == 0x2d else SessionId.isAsciiHexdigit entry.1

def isCacheVolatileIdValue (id : String) (object : Fields) : Bool :=
  let kind := ((getField object "type").bind asStr).getD ""
  ["tool_use", "tool_result", "message"].contains kind ||
    (["toolu_", "srvtoolu_", "msg_", "req_"].any fun start =>
      start.toList.isPrefixOf id.toList) ||
    looksLikeUuid id

def isCacheVolatileKey (key : String) (value : Option Json) (object : Fields) : Bool :=
  if ["tool_use_id", "toolUseId", "request_id", "requestId", "message_id", "messageId"].contains key
  then true
  else if key = "id" then
    (value.bind asStr).any fun id => isCacheVolatileIdValue id object
  else false

def sortByKey {α : Type} (fields : List (String × α)) : List (String × α) :=
  fields.mergeSort fun field field' => decide (field.1 ≤ field'.1)

mutual

def writeCanonicalJson : Json → List Char
  | .null => "null".toList
  | .bool v => if v then "true".toList else "false".toList
  | .int v => printInt v
  | .float v => v.toList
  | .str v => printString v
  | .arr items => '[' :: ([','].intercalate (writeCanonicalItems items) ++ [']'])
  | .obj map =>
    '\x7b' :: ([','].intercalate ((sortByKey (writeCanonicalFields map map)).map printField) ++
      ['\x7d'])

def writeCanonicalItems : List Json → List (List Char)
  | [] => []
  | item :: items => writeCanonicalJson item :: writeCanonicalItems items

/-- The keys of an object with the texts of their values. -/
def writeCanonicalFields (map : Fields) : Fields → List (String × List Char)
  | [] => []
  | (key, value) :: fields =>
    if key = "cache_control" then writeCanonicalFields map fields
    else
      (key,
        if isCachePositionKey key || isCacheVolatileKey key (some value) map then "null".toList
        else writeCanonicalJson value) :: writeCanonicalFields map fields

end

def canonicalizeCacheValue (value : Json) : List Char := writeCanonicalJson value

mutual

/-- The value without `cache_control`, with null for positions and volatile ids, and with the members
of each object in the order of their keys. -/
def normalize : Json → Json
  | .null => .null
  | .bool b => .bool b
  | .int n => .int n
  | .float text => .float text
  | .str s => .str s
  | .arr items => .arr (normalizeItems items)
  | .obj map => .obj (sortByKey (normalizeFields map map))

def normalizeItems : List Json → List Json
  | [] => []
  | item :: items => normalize item :: normalizeItems items

def normalizeFields (map : Fields) : Fields → Fields
  | [] => []
  | (key, value) :: fields =>
    if key = "cache_control" then normalizeFields map fields
    else
      (key,
        if isCachePositionKey key || isCacheVolatileKey key (some value) map then .null
        else normalize value) :: normalizeFields map fields

end

theorem sortByKey_map {α β : Type} (f : α → β) (fields : List (String × α)) :
    sortByKey (fields.map fun field => (field.1, f field.2)) =
      (sortByKey fields).map fun field => (field.1, f field.2) := by
  unfold sortByKey
  rw [List.map_mergeSort]
  intro _ _ _ _
  rfl

theorem normalizeItems_eq (items : List Json) : normalizeItems items = items.map normalize := by
  induction items with
  | nil => rfl
  | cons item items ih => rw [normalizeItems, ih, List.map_cons]

mutual

theorem writeCanonicalJson_eq : ∀ v : Json, writeCanonicalJson v = print (normalize v)
  | .null => rfl
  | .bool _ => rfl
  | .int _ => rfl
  | .float _ => rfl
  | .str _ => rfl
  | .arr items => by rw [writeCanonicalJson, normalize, print, writeCanonicalItems_eq items]
  | .obj map => by
    rw [writeCanonicalJson, normalize, print, printFields_eq, writeCanonicalFields_eq map map,
      sortByKey_map]

theorem writeCanonicalItems_eq : ∀ items : List Json,
    writeCanonicalItems items = printItems (normalizeItems items)
  | [] => rfl
  | item :: items => by
    rw [writeCanonicalItems, normalizeItems, printItems, writeCanonicalJson_eq item,
      writeCanonicalItems_eq items]

theorem writeCanonicalFields_eq (map : Fields) : ∀ fields : Fields,
    writeCanonicalFields map fields =
      (normalizeFields map fields).map fun field => (field.1, print field.2)
  | [] => rfl
  | (key, value) :: fields => by
    rw [writeCanonicalFields, normalizeFields]
    split_ifs
    · exact writeCanonicalFields_eq map fields
    · rw [List.map_cons, writeCanonicalFields_eq map fields]
      rfl
    · rw [List.map_cons, writeCanonicalFields_eq map fields, writeCanonicalJson_eq value]

end

theorem mem_normalizeFields {map fields : Fields} {key : String} {v : Json}
    (h : (key, v) ∈ normalizeFields map fields) :
    v = .null ∨ ∃ w, (key, w) ∈ fields ∧ v = normalize w := by
  induction fields with
  | nil => cases h
  | cons field fields ih =>
    rw [normalizeFields] at h
    have htail (h : (key, v) ∈ normalizeFields map fields) :
        v = .null ∨ ∃ w, (key, w) ∈ field :: fields ∧ v = normalize w := by
      obtain hnull | ⟨w, hw, hv⟩ := ih h
      · exact .inl hnull
      · exact .inr ⟨w, List.mem_cons_of_mem _ hw, hv⟩
    split_ifs at h with hcontrol hblank
    · exact htail h
    · rcases List.mem_cons.mp h with heq | h
      · exact .inl (congrArg Prod.snd heq)
      · exact htail h
    · rcases List.mem_cons.mp h with heq | h
      · obtain ⟨rfl, rfl⟩ := Prod.ext_iff.mp heq
        exact .inr ⟨field.2, List.mem_cons_self, rfl⟩
      · exact htail h

theorem member_normalize {u v : Json} (h : Member u (normalize v)) :
    u = .null ∨ ∃ w, Member w v ∧ u = normalize w := by
  cases v with
  | arr items =>
    rw [normalize, normalizeItems_eq] at h
    cases h with
    | item h =>
      obtain ⟨w, hw, rfl⟩ := List.mem_map.mp h
      exact .inr ⟨w, .item hw, rfl⟩
  | obj map =>
    rw [normalize] at h
    cases h with
    | field h =>
      obtain hnull | ⟨w, hw, hv⟩ := mem_normalizeFields (List.mem_mergeSort.mp h)
      · exact .inl hnull
      · exact .inr ⟨w, .field hw, hv⟩
  | _ => cases h

theorem floatsPrinted_normalize (v : Json) (h : FloatsPrinted v) :
    FloatsPrinted (normalize v) := by
  induction v using induction_on_members with
  | _ v ih =>
    intro text hfloat
    rcases (Relation.ReflTransGen.cases_tail_iff _ _ _).mp hfloat with hself | ⟨u, hrest, hmember⟩
    · cases v with
      | float text' =>
        obtain rfl := Json.float.inj hself
        exact h _ .refl
      | _ => cases hself
    · obtain rfl | ⟨w, hw, rfl⟩ := member_normalize hmember
      · rcases (Relation.ReflTransGen.cases_tail_iff _ _ _).mp hrest with hnull | ⟨u, -, hnull⟩
        · cases hnull
        · cases hnull
      · exact ih w hw (h.member hw) text hrest

/-- Two values have one canonical text exactly when they have one normal form. -/
theorem canonicalizeCacheValue_eq_iff {v w : Json} (hv : FloatsPrinted v) (hw : FloatsPrinted w) :
    canonicalizeCacheValue v = canonicalizeCacheValue w ↔ normalize v = normalize w := by
  unfold canonicalizeCacheValue
  rw [writeCanonicalJson_eq, writeCanonicalJson_eq]
  exact ⟨print_injective (floatsPrinted_normalize v hv) (floatsPrinted_normalize w hw), congrArg print⟩

end KiroProxy.PromptCache
