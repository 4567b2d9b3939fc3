import KiroProxy.Fallible
import KiroProxy.JsonBytes.Syntax

/-!
# The probe of a raw request body

The body of a request is looked over byte by byte for a few fields of its top level, and then read
once by the parser of JSON. A place in the body is what is left of it from there.
-/

namespace KiroProxy.RequestFacts

open JsonBytes Fallible

def maxMessagesBodySize : ℕ := 50 * 1024 * 1024

def maxMessagesJsonNestingDepth : ℕ := 192

def maxMessagesModelIdBytes : ℕ := 160

def maxRawBodyProbeWorkUnits : ℕ := maxMessagesBodySize * 2

/-- The length of `output_config`. -/
def maxTopLevelProbedKeyBytes : ℕ := 13

def maxJsonAsciiEscapeBytes : ℕ := 6

def maxTopLevelProbedKeyEncodedBytes : ℕ := maxTopLevelProbedKeyBytes * maxJsonAsciiEscapeBytes + 2

def maxModelIdEncodedBytes : ℕ := maxMessagesModelIdBytes * maxJsonAsciiEscapeBytes + 2

def maxJsonObjectKeys : ℕ := 16384

def maxJsonDocumentKeys : ℕ := 131072

inductive RawMessagesBodyProbeError
  | bodyTooLarge
  | modelTooLong
  | workLimitExceeded
  | nestingTooDeep
  | duplicateObjectKey
  | malformedTopLevelJson
  deriving DecidableEq

inductive JsonScanError
  | modelTooLong
  | workLimitExceeded
  | nestingTooDeep
  | duplicateObjectKey
  | malformed

def RawMessagesBodyProbeError.from : JsonScanError → RawMessagesBodyProbeError
  | .modelTooLong => .modelTooLong
  | .workLimitExceeded => .workLimitExceeded
  | .nestingTooDeep => .nestingTooDeep
  | .duplicateObjectKey => .duplicateObjectKey
  | .malformed => .malformedTopLevelJson

inductive JsonDocumentValidationFailure
  | duplicateObjectKey
  | keyLimitExceeded

/-- The parser of JSON. A text that it takes is the text of the document it reads; it reads a
string as what it stands for and an integer of 64 bits as its value. -/
structure SerdeJson where
  parse : Bytes → Option Document
  /-- What was found wrong with the keys read before an error of the text. -/
  foundBeforeError : Bytes → Option JsonDocumentValidationFailure
  parseString : Bytes → Option Bytes
  parseInteger : Bytes → Option ℤ
  text_of_parse : ∀ {bytes doc}, parse bytes = some doc → doc.text = bytes
  parseString_text : ∀ token : StringToken, parseString token.text = some token.decoded
  parseInteger_text : ∀ tree : Tree, parseInteger tree.text = tree.asInteger

structure JsonScanBudget where
  remaining : ℕ
  consumed : ℕ := 0
  maxDepth : ℕ := 0

abbrev Scan := Fallible JsonScanBudget JsonScanError

def consume (amount : ℕ) : Scan Unit := do
  let budget ← get
  if amount ≤ budget.remaining then
    set { budget with
      remaining := budget.remaining - amount
      consumed := min (budget.consumed + amount) (2 ^ 64 - 1) }
  else throw .workLimitExceeded

def observeDepth (depth : ℕ) : Scan Unit :=
  if maxMessagesJsonNestingDepth < depth then throw .nestingTooDeep
  else modify fun budget => { budget with maxDepth := max budget.maxDepth depth }

def isAsciiWhitespace (b : UInt8) : Bool :=
  b == 0x20 || b == 0x09 || b == 0x0a || b == 0x0c || b == 0x0d

def skipJsonWs : Bytes → Scan Bytes
  | [] => pure []
  | byte :: rest =>
    if isAsciiWhitespace byte = true then do
      consume 1
      skipJsonWs rest
    else pure (byte :: rest)

/-- The loop behind the opening quotation mark. -/
def skipStringBody : Bool → Bytes → Scan Bytes
  | _, [] => throw .malformed
  | escaped, byte :: rest => do
    consume 1
    if escaped = true then skipStringBody false rest
    else if byte = backslash then skipStringBody true rest
    else if byte = quote then pure rest
    else skipStringBody false rest

def skipJsonString : Bytes → Scan Bytes
  | [] => throw .malformed
  | byte :: rest =>
    if byte = quote then do
      consume 1
      skipStringBody false rest
    else throw .malformed

def isDelimiter (b : UInt8) : Bool :=
  b == comma || b == closeBrace || b == closeBracket || isAsciiWhitespace b

def skipJsonNumber : Bytes → Scan Bytes
  | [] => pure []
  | byte :: rest =>
    if isDelimiter byte = false then do
      consume 1
      skipJsonNumber rest
    else pure (byte :: rest)

/-- What is open after the byte, the innermost first. -/
def nextStack (parentDepth : ℕ) (stack : List UInt8) (byte : UInt8) : Scan (List UInt8) :=
  if byte = openBrace ∨ byte = openBracket then
    if maxMessagesJsonNestingDepth < parentDepth + stack.length + 1 then throw .nestingTooDeep
    else do
      observeDepth (parentDepth + (byte :: stack).length)
      pure (byte :: stack)
  else if byte = closeBrace then
    if stack.head? ≠ some openBrace then throw .malformed else pure stack.tail
  else if byte = closeBracket then
    if stack.head? ≠ some openBracket then throw .malformed else pure stack.tail
  else pure stack

/-- Each turn of the loop reads at least one byte, so the length of the text bounds the turns. -/
def skipContainerBody (parentDepth : ℕ) : ℕ → List UInt8 → Bytes → Scan Bytes
  | turns + 1, stack, byte :: rest =>
    if byte = quote then do
      let next ← skipJsonString (byte :: rest)
      skipContainerBody parentDepth turns stack next
    else do
      let stack ← nextStack parentDepth stack byte
      consume 1
      if stack = [] then pure rest else skipContainerBody parentDepth turns stack rest
  | _, _, _ => throw .malformed

def skipJsonContainer (start : Bytes) (parentDepth : ℕ) : Scan Bytes :=
  match start with
  | [] => throw .malformed
  | byte :: rest =>
    if byte = openBrace ∨ byte = openBracket then do
      observeDepth (parentDepth + 1)
      consume 1
      skipContainerBody parentDepth rest.length [byte] rest
    else throw .malformed

def skipWord (length : ℕ) (start : Bytes) : Scan Bytes := do
  consume length
  pure (start.drop length)

def skipJsonValue (start : Bytes) (parentDepth : ℕ) : Scan Bytes := do
  let i ← skipJsonWs start
  match i with
  | [] => throw .malformed
  | byte :: _ =>
    if byte = quote then skipJsonString i
    else if byte = openBrace ∨ byte = openBracket then skipJsonContainer i parentDepth
    else if byte = 0x74 ∧ i.take 4 = trueText then skipWord 4 i
    else if byte = 0x66 ∧ i.take 5 = falseText then skipWord 5 i
    else if byte = 0x6e ∧ i.take 4 = nullText then skipWord 4 i
    else if byte = 0x2d ∨ isDigit byte = true then skipJsonNumber i
    else throw .malformed

/-- The bytes from one place to a later one. -/
def between (start stop : Bytes) : Bytes := start.take (start.length - stop.length)

inductive ProbedTopLevelKey
  | model
  | stream
  | maxTokens
  | thinking
  | outputConfig
  | cacheControl
  | other
  deriving DecidableEq

def bytesOf (s : String) : Bytes := s.toList.map fun c => UInt8.ofNat c.toNat

def modelName : Bytes := bytesOf "model"
def streamName : Bytes := bytesOf "stream"
def maxTokensName : Bytes := bytesOf "max_tokens"
def thinkingName : Bytes := bytesOf "thinking"
def outputConfigName : Bytes := bytesOf "output_config"
def cacheControlName : Bytes := bytesOf "cache_control"

def probedKey (name : Bytes) : ProbedTopLevelKey :=
  if name = modelName then .model
  else if name = streamName then .stream
  else if name = maxTokensName then .maxTokens
  else if name = thinkingName then .thinking
  else if name = outputConfigName then .outputConfig
  else if name = cacheControlName then .cacheControl
  else .other

structure Span where
  start : ℕ
  stop : ℕ
  deriving DecidableEq

structure RawMessagesBodyProbe where
  model : Option Bytes := none
  stream : Option Bool := none
  topLevelCacheControl : Bool := false
  maxTokensPresent : Bool := false
  maxTokens : Option ℤ := none
  completeTopLevelObject : Bool := false
  objectStartIndex : Option ℕ := none
  modelValueSpan : Option Span := none
  maxTokensValueSpan : Option Span := none
  thinkingValueSpan : Option Span := none
  outputConfigValueSpan : Option Span := none
  duplicateThinkingField : Bool := false
  duplicateOutputConfigField : Bool := false
  modelFieldSeen : Bool := false
  streamFieldSeen : Bool := false
  maxTokensFieldSeen : Bool := false
  thinkingFieldSeen : Bool := false
  outputConfigFieldSeen : Bool := false
  duplicateModelField : Bool := false
  duplicateStreamField : Bool := false
  duplicateMaxTokensField : Bool := false
  objectEndIndex : Option ℕ := none
  scanError : Option RawMessagesBodyProbeError := none
  scanWorkUnits : ℕ := 0
  maxNestingDepth : ℕ := 0

structure Probing where
  probe : RawMessagesBodyProbe := {}
  budget : JsonScanBudget

abbrev Probe := Fallible Probing JsonScanError

def onBudget {α : Type} (scan : Scan α) : Probe α := fun s =>
  let result := scan.exec s.budget
  (result.1, { s with budget := result.2 })

def record (f : RawMessagesBodyProbe → RawMessagesBodyProbe) : Probe Unit :=
  modify fun s => { s with probe := f s.probe }

section Probe

variable (serde : SerdeJson)

def parseProbedTopLevelKeyAt (start : Bytes) : Scan (ProbedTopLevelKey × Bytes) := do
  let stop ← skipJsonString start
  let encodedLen := start.length - stop.length
  if maxTopLevelProbedKeyEncodedBytes < encodedLen then pure (.other, stop)
  else do
    consume encodedLen
    match serde.parseString (between start stop) with
    | none => throw .malformed
    | some name => pure (probedKey name, stop)

def parseBoundedModelStringAt (start : Bytes) : Scan (Bytes × Bytes) := do
  let stop ← skipJsonString start
  let encodedLen := start.length - stop.length
  if maxModelIdEncodedBytes < encodedLen then throw .modelTooLong
  else do
    consume encodedLen
    match serde.parseString (between start stop) with
    | none => throw .malformed
    | some model =>
      if maxMessagesModelIdBytes < model.length then throw .modelTooLong
      else pure (model, stop)

variable (size : ℕ)

def indexOf (place : Bytes) : ℕ := size - place.length

def spanOf (start stop : Bytes) : Span := ⟨indexOf size start, indexOf size stop⟩

def probeModel (valueStart : Bytes) : Probe Bytes := do
  record fun p => { p with
    duplicateModelField := p.duplicateModelField || p.modelFieldSeen
    modelFieldSeen := true }
  if valueStart.head? = some quote then do
    let result ← onBudget (parseBoundedModelStringAt serde valueStart)
    record fun p => { p with
      model := some result.1
      modelValueSpan := some (spanOf size valueStart result.2) }
    pure result.2
  else onBudget (skipJsonValue valueStart 1)

def probeStream (valueStart : Bytes) : Probe Bytes := do
  record fun p => { p with
    duplicateStreamField := p.duplicateStreamField || p.streamFieldSeen
    streamFieldSeen := true }
  if valueStart.take 4 = trueText then do
    onBudget (consume 4)
    record fun p => { p with stream := some true }
    pure (valueStart.drop 4)
  else if valueStart.take 5 = falseText then do
    onBudget (consume 5)
    record fun p => { p with stream := some false }
    pure (valueStart.drop 5)
  else onBudget (skipJsonValue valueStart 1)

def probeMaxTokens (valueStart : Bytes) : Probe Bytes := do
  record fun p => { p with
    duplicateMaxTokensField := p.duplicateMaxTokensField || p.maxTokensFieldSeen
    maxTokensFieldSeen := true
    maxTokensPresent := true }
  let valueEnd ← onBudget (skipJsonValue valueStart 1)
  record fun p => { p with
    maxTokens := serde.parseInteger (between valueStart valueEnd)
    maxTokensValueSpan := some (spanOf size valueStart valueEnd) }
  pure valueEnd

def probeThinking (valueStart : Bytes) : Probe Bytes := do
  let valueEnd ← onBudget (skipJsonValue valueStart 1)
  record fun p => { p with
    duplicateThinkingField := p.duplicateThinkingField || p.thinkingFieldSeen
    thinkingFieldSeen := true
    thinkingValueSpan := some (spanOf size valueStart valueEnd) }
  pure valueEnd

def probeOutputConfig (valueStart : Bytes) : Probe Bytes := do
  let valueEnd ← onBudget (skipJsonValue valueStart 1)
  record fun p => { p with
    duplicateOutputConfigField := p.duplicateOutputConfigField || p.outputConfigFieldSeen
    outputConfigFieldSeen := true
    outputConfigValueSpan := some (spanOf size valueStart valueEnd) }
  pure valueEnd

def probeCacheControl (valueStart : Bytes) : Probe Bytes := do
  let valueEnd ← onBudget (skipJsonValue valueStart 1)
  record fun p => { p with
    topLevelCacheControl := decide (between valueStart valueEnd ≠ nullText) }
  pure valueEnd

def probeValue (key : ProbedTopLevelKey) (valueStart : Bytes) : Probe Bytes :=
  match key with
  | .model => probeModel serde size valueStart
  | .stream => probeStream valueStart
  | .maxTokens => probeMaxTokens serde size valueStart
  | .thinking => probeThinking size valueStart
  | .outputConfig => probeOutputConfig size valueStart
  | .cacheControl => probeCacheControl valueStart
  | .other => onBudget (skipJsonValue valueStart 1)

/-- At the closing brace. -/
def finishObject (i : Bytes) : Probe Unit := do
  onBudget (consume 1)
  let rest ← onBudget (skipJsonWs i.tail)
  if rest ≠ [] then throw .malformed
  else record fun p => { p with
    completeTopLevelObject := true
    objectEndIndex := some (indexOf size i) }

/-- From a name to behind its value. -/
def probeMember (i : Bytes) : Probe Bytes := do
  let key ← onBudget (parseProbedTopLevelKeyAt serde i)
  let afterKey ← onBudget (skipJsonWs key.2)
  if afterKey.head? ≠ some colon then throw .malformed
  else do
    onBudget (consume 1)
    let valueStart ← onBudget (skipJsonWs afterKey.tail)
    let valueEnd ← probeValue serde size key.1 valueStart
    onBudget (skipJsonWs valueEnd)

/-- Each turn of the loop reads at least one byte. -/
def scanMembers : ℕ → Bytes → Probe Unit
  | 0, _ => throw .malformed
  | turns + 1, start => do
    let i ← onBudget (skipJsonWs start)
    if i.head? = some closeBrace then finishObject size i
    else if i.head? ≠ some quote then throw .malformed
    else do
      let next ← probeMember serde size i
      if next.head? = some comma then do
        onBudget (consume 1)
        scanMembers turns next.tail
      else if next.head? = some closeBrace then finishObject size next
      else throw .malformed

def scanTopLevelObject (bytes : Bytes) : Probe Unit := do
  let i ← onBudget (skipJsonWs bytes)
  if i.head? ≠ some openBrace then throw .malformed
  else do
    onBudget (consume 1)
    onBudget (observeDepth 1)
    record fun p => { p with objectStartIndex := some (indexOf size i) }
    scanMembers serde size i.length i.tail

end Probe

def visitKey (name : Bytes) (seen : List Bytes) (totalKeys : ℕ) :
    Except JsonDocumentValidationFailure ℕ :=
  let totalKeys := min (totalKeys + 1) (2 ^ 64 - 1)
  if maxJsonDocumentKeys < totalKeys ∨ maxJsonObjectKeys ≤ seen.length then
    .error .keyLimitExceeded
  else if name ∈ seen then .error .duplicateObjectKey
  else .ok totalKeys

mutual

def visit : Tree → ℕ → Except JsonDocumentValidationFailure ℕ
  | .array items, totalKeys => visitSeq items totalKeys
  | .object members, totalKeys => visitMap members [] totalKeys
  | _, totalKeys => .ok totalKeys

def visitSeq : Items → ℕ → Except JsonDocumentValidationFailure ℕ
  | .last _ value _, totalKeys => visit value totalKeys
  | .cons _ value _ rest, totalKeys => do
    let totalKeys ← visit value totalKeys
    visitSeq rest totalKeys

def visitMap : Members → List Bytes → ℕ → Except JsonDocumentValidationFailure ℕ
  | .last _ name _ _ value _, seen, totalKeys => do
    let totalKeys ← visitKey name.decoded seen totalKeys
    visit value totalKeys
  | .cons _ name _ _ value _ rest, seen, totalKeys => do
    let totalKeys ← visitKey name.decoded seen totalKeys
    let totalKeys ← visit value totalKeys
    visitMap rest (name.decoded :: seen) totalKeys

end

def JsonScanError.fromFailure : JsonDocumentValidationFailure → JsonScanError
  | .duplicateObjectKey => .duplicateObjectKey
  | .keyLimitExceeded => .workLimitExceeded

def validateCompleteJsonDocument (serde : SerdeJson) (bytes : Bytes) : Except JsonScanError Unit :=
  match serde.parse bytes with
  | none =>
    match serde.foundBeforeError bytes with
    | some failure => .error (.fromFailure failure)
    | none => .error .malformed
  | some doc =>
    match visit doc.root 0 with
    | .error failure => .error (.fromFailure failure)
    | .ok _ => .ok ()

def scanResult (serde : SerdeJson) (bytes : Bytes) (scan : Except JsonScanError Unit) :
    Except JsonScanError Unit :=
  match scan with
  | .error e => .error e
  | .ok _ => validateCompleteJsonDocument serde bytes

def probeRawMessagesBody (serde : SerdeJson) (rawBody : Bytes) : RawMessagesBodyProbe :=
  if maxMessagesBodySize < rawBody.length then { scanError := some .bodyTooLarge }
  else
    let budget : JsonScanBudget := { remaining := maxRawBodyProbeWorkUnits }
    let scan := (scanTopLevelObject serde rawBody.length rawBody).exec { budget }
    let probe := { scan.2.probe with
      scanWorkUnits := scan.2.budget.consumed
      maxNestingDepth := scan.2.budget.maxDepth }
    match scanResult serde rawBody scan.1 with
    | .error e => { probe with scanError := some (.from e) }
    | .ok _ =>
      if probe.completeTopLevelObject = false then
        { probe with scanError := some .malformedTopLevelJson }
      else probe

end KiroProxy.RequestFacts
