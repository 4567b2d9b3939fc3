import KiroProxy.JsonBytes.Values
import KiroProxy.RequestFacts.Probe
import KiroProxy.Splicing
import KiroProxy.Utf8Lossy

/-!
# Rewriting a raw request body

Single fields of the top level are replaced or added at the places that the probe of the body has
taken down; the rest of the body is copied. The probe is always that of the body itself.
-/

namespace KiroProxy.RequestFacts

open JsonBytes Fallible Splicing

def maxReasoningProtocolFieldBytes : ℕ := 16 * 1024

def maxReasoningProtocolScanWorkUnits : ℕ := maxReasoningProtocolFieldBytes * 2

def minEnabledThinkingBudgetTokens : ℤ := 1024

def defaultEnabledThinkingBudgetTokens : ℤ := 20000

def defaultBoundedExpansionMaxTokens : ℤ := 128000

def maxBoundedExpansionDeltaTokens : ℤ := 64000

def i32Min : ℤ := -2 ^ 31

def i32Max : ℤ := 2 ^ 31 - 1

/-- The parser with the values it reads. The value of a text is that of its tree, and `N` are the
numbers. -/
structure SerdeValues (N : Type) extends SerdeJson where
  fromSlice : Bytes → Except String (Value N)
  readNumber : NumberToken → Option N
  numberText : N → NumberToken
  fromI32 : ℤ → N
  asI64 : N → Option ℤ
  value_of_fromSlice : ∀ {tree : Tree} {value : Value N}, fromSlice tree.text = .ok value →
    tree.value readNumber = some value

def RawMessagesBodyProbeError.message : RawMessagesBodyProbeError → String
  | .bodyTooLarge => "JSON body exceeds the 52428800 byte probe limit"
  | .modelTooLong => "model exceeds the 160 byte limit"
  | .workLimitExceeded => "JSON body exceeds the 104857600 work unit probe limit"
  | .nestingTooDeep => "JSON body nesting exceeds the supported limit of 192"
  | .duplicateObjectKey => "JSON body contains a repeated object field"
  | .malformedTopLevelJson => "JSON body is not a complete top-level object"

def orFail {α : Type} (scan : Scan α) (message : String) : Fallible JsonScanBudget String α :=
  fun s =>
    match scan.exec s with
    | (.ok a, s) => (.ok a, s)
    | (.error _, s) => (.error message, s)

def scanLimitMessage : String := "reasoning control object scan exceeded its work limit"

section Keys

variable (serde : SerdeJson)

def parseJsonStringAt (start : Bytes) : Scan (Bytes × Bytes) := do
  let stop ← skipJsonString start
  consume (start.length - stop.length)
  match serde.parseString (between start stop) with
  | none => throw .malformed
  | some value => pure (value, stop)

/-- Each turn of the loop reads at least one byte. -/
def scanForDuplicateKeys : ℕ → List Bytes → Bytes → Fallible JsonScanBudget String Bool
  | 0, _, _ => throw "invalid reasoning control object"
  | turns + 1, seen, start => do
    let i ← orFail (skipJsonWs start) scanLimitMessage
    if i.head? = some closeBrace then pure false
    else do
      let key ← orFail (parseJsonStringAt serde i) "invalid reasoning control object key"
      if key.1 ∈ seen then pure true
      else do
        let i ← orFail (skipJsonWs key.2) scanLimitMessage
        if i.head? ≠ some colon then throw "invalid reasoning control object"
        else do
          orFail (consume 1) scanLimitMessage
          let i ← orFail (skipJsonWs i.tail) scanLimitMessage
          let valueEnd ← orFail (skipJsonValue i 1) "invalid reasoning control object value"
          let i ← orFail (skipJsonWs valueEnd) scanLimitMessage
          if i.head? = some comma then do
            orFail (consume 1) scanLimitMessage
            scanForDuplicateKeys turns (key.1 :: seen) i.tail
          else if i.head? = some closeBrace then pure false
          else throw "invalid reasoning control object"

def jsonObjectHasDuplicateKeys (bytes : Bytes) : Except String Bool :=
  let scan : Fallible JsonScanBudget String Bool := do
    let i ← orFail (skipJsonWs bytes) scanLimitMessage
    if i.head? ≠ some openBrace then pure false
    else do
      orFail (consume 1) scanLimitMessage
      orFail (observeDepth 1) "reasoning control object nesting is too deep"
      scanForDuplicateKeys serde i.length [] i.tail
  (scan.exec { remaining := maxReasoningProtocolScanWorkUnits }).1

end Keys

section Controls

variable {N : Type} (serde : SerdeValues N)

def parseBoundedProtocolValue (rawBody : Bytes) (span : Option Span) :
    Except String (Option (Value N)) :=
  match span with
  | none => .ok none
  | some span =>
    if maxReasoningProtocolFieldBytes < span.stop - span.start then
      .error "thinking/output_config exceeds the 16384 byte protocol field limit"
    else
      match serde.fromSlice (slice rawBody span) with
      | .ok value => .ok (some value)
      | .error error => .error ("invalid thinking/output_config JSON: " ++ error)

def controlFields (rawBody : Bytes) (span : Span) : Except String (Option (Fields N)) := do
  if ← jsonObjectHasDuplicateKeys serde.toSerdeJson (slice rawBody span) then return none
  match ← parseBoundedProtocolValue serde rawBody (some span) with
  | some (.object fields) => return some fields
  | _ => return none

/-- `serde_json::to_vec` of an object. -/
def toVec (fields : Fields N) : Bytes := ((Value.object fields).tree serde.numberText).text

end Controls

def typeKey : Utf8 := ⟨bytesOf "type", by decide⟩

def budgetTokensKey : Utf8 := ⟨bytesOf "budget_tokens", by decide⟩

def effortKey : Utf8 := ⟨bytesOf "effort", by decide⟩

def editOf (span : Span) (text : Bytes) : Edit UInt8 := ⟨span.start, span.stop, text⟩

/-- The body with the edits made from left to right. -/
def spliceEdits (rawBody : Bytes) (edits : List (Edit UInt8)) : Bytes :=
  splice rawBody 0 (edits.insertionSort fun e e' => e.start ≤ e'.start)

/-- What is decided about a request with thinking enabled. -/
structure EnabledBudget where
  maxTokens : ℤ
  rewriteMaxTokens : Bool
  budget : ℤ
  reason : String
  deriving DecidableEq

def canExpand (candidateMax maxTokens : ℤ) (modelMaxOutputTokens : Option ℤ) : Bool :=
  let modelLimit := (modelMaxOutputTokens.filter (0 < ·)).getD defaultBoundedExpansionMaxTokens
  candidateMax ≤ modelLimit ∧ candidateMax ≤ defaultBoundedExpansionMaxTokens ∧
    candidateMax ≤ 2 * maxTokens + 1 ∧ candidateMax - maxTokens ≤ maxBoundedExpansionDeltaTokens ∧
    candidateMax ≤ i32Max

def enabledBudget (maxTokens : ℤ) (original modelMaxOutputTokens : Option ℤ) :
    Option EnabledBudget :=
  let conservativeMax := max (maxTokens - minEnabledThinkingBudgetTokens) i32Min
  let requested := original.getD
    (min defaultEnabledThinkingBudgetTokens (max conservativeMax minEnabledThinkingBudgetTokens))
  if requested < i32Min ∨ i32Max < requested then none
  else
    let budget := max requested minEnabledThinkingBudgetTokens
    if maxTokens ≤ minEnabledThinkingBudgetTokens then
      some ⟨minEnabledThinkingBudgetTokens + 1, true, minEnabledThinkingBudgetTokens,
        "raise_small_max_to_minimum_pair"⟩
    else if budget = maxTokens then
      some ⟨maxTokens, false, maxTokens - 1, "clamp_equal_budget_to_max_minus_one"⟩
    else if maxTokens < budget then
      if canExpand (budget + 1) maxTokens modelMaxOutputTokens = true then
        some ⟨budget + 1, true, budget, "bounded_expand_max_to_preserve_budget"⟩
      else some ⟨maxTokens, false, maxTokens - 1, "clamp_budget_to_max_minus_one"⟩
    else
      some ⟨maxTokens, false, budget,
        if original.isSome = true ∧ requested < minEnabledThinkingBudgetTokens then
          "raise_budget_to_minimum"
        else ""⟩

structure RawReasoningProtocolNormalization where
  body : Bytes
  thinkingType : Utf8
  originalMaxTokens : Option ℤ
  normalizedMaxTokens : Option ℤ
  originalBudgetTokens : Option ℤ
  normalizedBudgetTokens : Option ℤ
  normalizationReason : String

/-- What is written in place of the two fields, with what is reported about it. -/
structure Decision (N : Type) where
  maxTokens : ℤ
  rewriteMaxTokens : Bool
  originalBudget : Option ℤ
  budget : Option ℤ
  thinking : Option (Fields N)
  reason : String

section Rewrites

variable {N : Type} (serde : SerdeValues N)

def decisionFor (thinking : Fields N) (thinkingType : Utf8) (maxTokens : ℤ)
    (modelMaxOutputTokens : Option ℤ) : Option (Decision N) :=
  if thinkingType.1 = bytesOf "enabled" then
    let original := (KeyedList.get budgetTokensKey thinking).bind fun value =>
      match value with
      | .number n => serde.asI64 n
      | _ => none
    if (KeyedList.get budgetTokensKey thinking).isSome = true ∧ original = none then none
    else
      (enabledBudget maxTokens original modelMaxOutputTokens).map fun result =>
        { maxTokens := result.maxTokens
          rewriteMaxTokens := result.rewriteMaxTokens
          originalBudget := original
          budget := some result.budget
          thinking :=
            if original = some result.budget then none
            else some (thinking.insert budgetTokensKey (.number (serde.fromI32 result.budget)))
          reason :=
            if original = none ∧ result.reason = "" then "default_missing_budget"
            else result.reason }
  else if thinkingType.1 = bytesOf "adaptive" ∨ thinkingType.1 = bytesOf "disabled" then
    let removed := (KeyedList.get budgetTokensKey thinking).isSome
    some
      { maxTokens
        rewriteMaxTokens := false
        originalBudget := none
        budget := none
        thinking := if removed = true then some (KeyedList.remove budgetTokensKey thinking) else none
        reason := if removed = true then "remove_budget_for_non_enabled_thinking" else "" }
  else none

/-- The body with the two fields replaced, as far as the decision asks for it. -/
def applyDecision (rawBody : Bytes) (probe : RawMessagesBodyProbe) (thinkingSpan : Span)
    (decision : Decision N) : Option Bytes :=
  let thinkingEdit := (decision.thinking.map fun fields =>
    editOf thinkingSpan (toVec serde fields)).toList
  if decision.rewriteMaxTokens = true then
    probe.maxTokensValueSpan.map fun span =>
      spliceEdits rawBody (editOf span (integerToken decision.maxTokens).1 :: thinkingEdit)
  else if decision.thinking.isSome = true then some (spliceEdits rawBody thinkingEdit)
  else none

def normalizeRawReasoningProtocolWithProbeAndLimit (rawBody : Bytes)
    (probe : RawMessagesBodyProbe) (modelMaxOutputTokens : Option ℤ) :
    Except String (Option RawReasoningProtocolNormalization) :=
  if probe.duplicateMaxTokensField = true ∨ probe.duplicateThinkingField = true then .ok none
  else
    match probe.scanError, probe.thinkingValueSpan with
    | some error, _ => .error error.message
    | none, none => .ok none
    | none, some thinkingSpan => do
      let some thinking ← controlFields serde rawBody thinkingSpan | return none
      return do
        let thinkingType ← (KeyedList.get typeKey thinking).bind Value.asStr
        let maxTokens ← probe.maxTokens
        guard (i32Min ≤ maxTokens ∧ maxTokens ≤ i32Max)
        let decision ← decisionFor serde thinking thinkingType maxTokens modelMaxOutputTokens
        let body ← applyDecision serde rawBody probe thinkingSpan decision
        return {
          body
          thinkingType
          originalMaxTokens := probe.maxTokens
          normalizedMaxTokens := some decision.maxTokens
          originalBudgetTokens := decision.originalBudget
          normalizedBudgetTokens := decision.budget
          normalizationReason := decision.reason }

def compatibleThinkingTypeAliases : List (List Char × Utf8) :=
  [("between_tools".toList, ⟨bytesOf "adaptive", by decide⟩)]

def asciiLowercase (s : Utf8) : List Char := (trimChars (lossy s.1)).map Char.toLower

/-- An effort of `none` means that none is asked for. -/
def withoutEffort (outputConfig : Fields N) : Option (Fields N) :=
  if ((KeyedList.get effortKey outputConfig).bind Value.asStr).any
      (fun effort => asciiLowercase effort = "none".toList) then
    some (KeyedList.remove effortKey outputConfig)
  else none

def withKnownType (thinking : Fields N) : Option (Fields N) := do
  let thinkingType ← (KeyedList.get typeKey thinking).bind Value.asStr
  let aliased ← compatibleThinkingTypeAliases.find? fun aliased =>
    aliased.1 = asciiLowercase thinkingType
  return thinking.insert typeKey (.string aliased.2)

def controlEdit (rawBody : Bytes) (duplicate : Bool) (span : Option Span)
    (change : Fields N → Option (Fields N)) : Except String (List (Edit UInt8)) :=
  if duplicate = true then .ok []
  else
    match span with
    | none => .ok []
    | some span => do
      let some fields ← controlFields serde rawBody span | return []
      return ((change fields).map fun fields => editOf span (toVec serde fields)).toList

def normalizeRawClientReasoningAliasesWithProbe (rawBody : Bytes) (probe : RawMessagesBodyProbe) :
    Except String (Option Bytes) := do
  let outputConfigEdit ← controlEdit serde rawBody probe.duplicateOutputConfigField
    probe.outputConfigValueSpan withoutEffort
  let thinkingEdit ← controlEdit serde rawBody probe.duplicateThinkingField
    probe.thinkingValueSpan withKnownType
  let replacements := outputConfigEdit ++ thinkingEdit
  if replacements = [] then return none
  return some (spliceEdits rawBody replacements)

end Rewrites

def rewriteRawMissingTopLevelMaxTokensWithProbe (rawBody : Bytes) (probe : RawMessagesBodyProbe)
    (defaultValue : ℤ) : Except String (Option Bytes) :=
  match probe.scanError with
  | some error => .error error.message
  | none =>
    if probe.maxTokensPresent = true then .ok none
    else if probe.completeTopLevelObject = false then .ok none
    else
      match probe.objectStartIndex, probe.objectEndIndex with
      | some objectStart, some objectEnd =>
        let hasExistingFields := (slice rawBody ⟨objectStart + 1, objectEnd⟩).any fun byte =>
          !isAsciiWhitespace byte
        let member := bytesOf "\"max_tokens\":" ++ (integerToken defaultValue).1
        let field := if hasExistingFields then comma :: member else member
        .ok (some (rawBody.take objectEnd ++ field ++ rawBody.drop objectEnd))
      | _, _ => .ok none

def rewriteRawTopLevelModelWithProbe (rawBody : Bytes) (probe : RawMessagesBodyProbe)
    (model : Utf8) : Except String Bytes :=
  match probe.scanError with
  | some error => .error error.message
  | none =>
    if probe.duplicateModelField = true then .error "top-level model field must not be repeated"
    else
      match probe.modelValueSpan with
      | none => .error "top-level model field was not found"
      | some span =>
        if probe.model = some model.1 then .ok rawBody
        else
          .ok (rawBody.take span.start ++ (StringToken.ofUtf8 model).text ++
            rawBody.drop span.stop)

end KiroProxy.RequestFacts
