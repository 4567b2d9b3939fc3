import KiroProxy.Text

/-!
# Tool input in fragments

The scanner finds where the first top-level object or array of a tool input ends. Lengths
count characters: every byte that it looks at is a character of its own. The depth has 32 bits.
-/

namespace KiroProxy.Stream

structure ToolInputScanner where
  depth : ℕ := 0
  inString : Bool := false
  escape : Bool := false
  started : Bool := false
  unstructured : Bool := false
  scannedLen : ℕ := 0
  completeLen : Option ℕ := none
  deriving DecidableEq, Repr

def isAsciiWhitespace (c : Char) : Bool :=
  c = ' ' || c = '\t' || c = '\n' || c = '\x0c' || c = '\r'

namespace ToolInputScanner

def feedLoop (length : ℕ) : ToolInputScanner → ℕ → List Char → ℕ × ToolInputScanner
  | s, _, [] => (length, { s with scannedLen := s.scannedLen + length })
  | s, offset, c :: rest =>
    if s.inString then
      let s := if s.escape then { s with escape := false }
        else if c = '\\' then { s with escape := true }
        else if c = '"' then { s with inString := false }
        else s
      feedLoop length s (offset + 1) rest
    else if c = '{' ∨ c = '[' then
      feedLoop length { s with started := true, depth := (s.depth + 1) % 2 ^ 32 } (offset + 1) rest
    else if c = '"' ∧ s.started then
      feedLoop length { s with inString := true } (offset + 1) rest
    else if (c = '}' ∨ c = ']') ∧ s.started then
      let s := { s with depth := s.depth - 1 }
      if s.depth = 0 then
        (offset + 1, { s with
          completeLen := some (s.scannedLen + (offset + 1))
          scannedLen := s.scannedLen + length })
      else feedLoop length s (offset + 1) rest
    else if isAsciiWhitespace c then feedLoop length s (offset + 1) rest
    else if !s.started then
      (length, { s with unstructured := true, scannedLen := s.scannedLen + length })
    else feedLoop length s (offset + 1) rest

/-- The number of characters of the fragment that belong to the first top-level value. -/
def feed (s : ToolInputScanner) (fragment : List Char) : ℕ × ToolInputScanner :=
  if s.unstructured then
    (fragment.length, { s with scannedLen := s.scannedLen + fragment.length })
  else if s.completeLen.isSome then
    (0, { s with scannedLen := s.scannedLen + fragment.length })
  else feedLoop fragment.length s 0 fragment

end ToolInputScanner

inductive ToolInputJson
  | valid
  | cleaned (text : List Char)
  | invalid
  deriving DecidableEq, Repr

def dropRepeated (head : List Char) : ℕ → List Char → List Char
  | 0, rest => rest
  | fuel + 1, rest =>
    if head ≠ [] ∧ head.isPrefixOf rest then
      dropRepeated head fuel (trimStart (rest.drop head.length))
    else rest

def toolInputRemainderIsRedundant (head rest : List Char) : Bool :=
  let rest := dropRepeated head rest.length (trimChars rest)
  rest.isEmpty || rest.isPrefixOf head ||
    rest.all fun c => c = '}' || c = ']' || c = ',' || isWhitespace c

/-- `isJson` is the check that the text is one JSON value. -/
def classifyToolInputJson (isJson : List Char → Bool) (input : List Char) : ToolInputJson :=
  if isBlank input || isJson input then .valid
  else
    match (ToolInputScanner.feed {} input).2.completeLen with
    | none => .invalid
    | some length =>
      let head := input.take length
      if !isJson head || !toolInputRemainderIsRedundant (trimChars head) (input.drop length) then
        .invalid
      else .cleaned head

theorem classifyToolInputJson_nil (isJson : List Char → Bool) :
    classifyToolInputJson isJson [] = .valid := rfl

end KiroProxy.Stream
