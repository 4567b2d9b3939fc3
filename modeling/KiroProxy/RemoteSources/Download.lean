import KiroProxy.Fallible
import KiroProxy.Json
import KiroProxy.RemoteSources.Address
import KiroProxy.Text

/-!
# Downloading remote sources

Images and documents that a request names by URL are downloaded and put into it in base64. The
parsers of URLs and addresses, the name server and the remote servers are arbitrary. A run keeps
a log of what it does, the latest first.
-/

namespace KiroProxy.RemoteSources

def maxRemoteMultimodalBytes : ℕ := 20 * 1024 * 1024

def maxRemoteMultimodalSources : ℕ := 20

def maxRemoteMultimodalTotalBytes : ℕ := 32 * 1024 * 1024

def maxRemoteMultimodalMaterializedBytes : ℕ := 44 * 1024 * 1024

def maxRemoteMultimodalHttpAttempts : ℕ := 32

def maxRemoteMultimodalRedirects : ℕ := 5

def remoteMultimodalCapacityError : String :=
  "remote image/document materialization is temporarily at capacity"

structure RemoteMaterializationLimits where
  maxDownloadedBytes : ℕ := maxRemoteMultimodalTotalBytes
  maxMaterializedBytes : ℕ := maxRemoteMultimodalMaterializedBytes
  maxHttpAttempts : ℕ := maxRemoteMultimodalHttpAttempts

structure RemoteMaterializationBudget where
  downloadedBytes : ℕ := 0
  materializedBytes : ℕ := 0
  httpAttempts : ℕ := 0
  limits : RemoteMaterializationLimits := {}

/-- The sum, where a machine word holds it. -/
def checkedAdd (a b : ℕ) : Option ℕ := if a + b < 2 ^ 64 then some (a + b) else none

def checkedMul (a b : ℕ) : Option ℕ := if a * b < 2 ^ 64 then some (a * b) else none

namespace RemoteMaterializationBudget

variable (budget : RemoteMaterializationBudget)

def reserveHttpAttempt : Except String RemoteMaterializationBudget :=
  let limit := budget.limits.maxHttpAttempts
  if limit ≤ budget.httpAttempts then
    .error s!"remote image/document sources exceed the request HTTP attempt limit of {limit}"
  else .ok { budget with httpAttempts := budget.httpAttempts + 1 }

def reserveDownloadedBytes (blockType : String) (amount : ℕ) :
    Except String RemoteMaterializationBudget :=
  let limit := budget.limits.maxDownloadedBytes
  match checkedAdd budget.downloadedBytes amount with
  | none => .error "remote image/document source byte accounting overflowed"
  | some next =>
    if limit < next then
      .error s!"{blockType} URL sources exceed the request aggregate download limit of {limit} bytes"
    else .ok { budget with downloadedBytes := next }

def reserveMaterializedBytes (blockType : String) (amount : ℕ) :
    Except String RemoteMaterializationBudget :=
  let limit := budget.limits.maxMaterializedBytes
  match checkedAdd budget.materializedBytes amount with
  | none => .error "remote image/document materialized byte accounting overflowed"
  | some next =>
    if limit < next then
      .error
        s!"{blockType} URL sources exceed the request aggregate materialized limit of {limit} bytes"
    else .ok { budget with materializedBytes := next }

end RemoteMaterializationBudget

inductive Host
  | domain (name : String)
  | ipv4 (addr : Ipv4Addr)
  | ipv6 (addr : Ipv6Addr)

structure Url where
  scheme : String
  username : String
  password : Option String
  hostStr : Option String
  host : Option Host
  port : Option ℕ
  /-- The serialized form. -/
  text : String

abbrev Bytes := List UInt8

structure Response where
  status : ℕ
  /-- The code and its reason, as an error shows them. -/
  statusText : String
  location : Option String
  contentLength : Option ℕ
  contentType : Option String
  chunks : List (Except String Bytes)

/-- One look at the name server: its answer, and which of the addresses were then tried, by
their places in it. -/
structure Lookup where
  answer : Except String (List IpAddr)
  tried : List ℕ

/-- What the network does for one request. -/
structure Exchange where
  lookups : List Lookup
  response : Except String Response

structure Env where
  parseUrl : String → Except String Url
  join : Url → String → Except String Url
  parseIp : String → Option IpAddr
  /-- How the client words a failed request. -/
  sendError : String → String
  exchange : ℕ → Exchange
  permitAvailable : Bool
  client : Except String Unit

def blockedHosts : List String :=
  ["localhost", "ip6-localhost", "ip6-loopback", "metadata.google.internal", "metadata",
    "instance-data"]

def normalizedHost (host : String) : List Char :=
  (toAsciiLowercase host).toList.rdropWhile (· == '.')

def isBlockedHost (host : String) : Bool :=
  blockedHosts.any (fun blocked => blocked.toList == normalizedHost host) ||
    ".localhost".toList.isSuffixOf (normalizedHost host)

def Env.parsedHostIp (env : Env) (parsed : Url) (host : String) : Option IpAddr :=
  match parsed.host with
  | some (.ipv4 ip) => some (.v4 ip)
  | some (.ipv6 ip) => some (.v6 ip)
  | _ => env.parseIp host

def Env.ensureSafeRemoteUrl (env : Env) (url : String) : Except String Unit :=
  match env.parseUrl url with
  | .error e => .error s!"invalid URL: {e}"
  | .ok parsed =>
    if ¬(parsed.scheme = "http" ∨ parsed.scheme = "https") then
      .error "URL source must use http or https"
    else if parsed.username ≠ "" ∨ parsed.password.isSome = true then
      .error "URL source credentials are not allowed"
    else
      match parsed.hostStr with
      | none => .error "URL missing host"
      | some host =>
        if parsed.port = some 0 then .error "URL port 0 is not allowed"
        else if isBlockedHost host = true then .error "URL host is blocked"
        else if (env.parsedHostIp parsed host).any isBlockedIp = true then
          .error "URL IP is in a blocked range"
        else .ok ()

/-- `SafeRemoteDnsResolver`, which passes an answer on only as a whole. -/
def safeResolve (answer : Except String (List IpAddr)) : Except String (List IpAddr) :=
  match answer with
  | .error e => .error e
  | .ok addrs =>
    if addrs.isEmpty = true then .error "remote source DNS lookup returned no addresses"
    else if addrs.any isBlockedIp = true then
      .error "remote source DNS lookup returned a blocked address"
    else .ok addrs

def normalizeMediaType (raw : String) : String :=
  toAsciiLowercase (trim (String.ofList (raw.toList.takeWhile (· != ';'))))

def isSupportedRemoteMediaType (blockType mediaType : String) : Bool :=
  if blockType = "image" then
    ["image/jpeg", "image/png", "image/gif", "image/webp"].contains mediaType
  else if blockType = "document" then
    ["application/pdf", "text/plain", "text/markdown", "text/html", "text/csv",
      "application/json"].contains mediaType
  else false

def bytesOf (s : String) : Bytes := s.toList.map fun c => UInt8.ofNat c.toNat

def inferImageMediaTypeFromBytes (bytes : Bytes) : Option String :=
  if [0x89, 0x50, 0x4e, 0x47, 0x0d, 0x0a, 0x1a, 0x0a].isPrefixOf bytes then some "image/png"
  else if [0xff, 0xd8, 0xff].isPrefixOf bytes then some "image/jpeg"
  else if (bytesOf "GIF87a").isPrefixOf bytes || (bytesOf "GIF89a").isPrefixOf bytes then
    some "image/gif"
  else if decide (12 ≤ bytes.length) && (bytesOf "RIFF").isPrefixOf bytes &&
      (bytes.drop 8).take 4 == bytesOf "WEBP" then
    some "image/webp"
  else none

def urlPath (url : String) : List Char :=
  (toAsciiLowercase (String.ofList (url.toList.takeWhile (· != '?')))).toList

def pathEndsWith (url suffix : String) : Bool := suffix.toList.isSuffixOf (urlPath url)

def inferImageFormatFromUrl (url : String) : Option String :=
  if pathEndsWith url ".jpg" || pathEndsWith url ".jpeg" then some "jpeg"
  else if pathEndsWith url ".png" then some "png"
  else if pathEndsWith url ".gif" then some "gif"
  else if pathEndsWith url ".webp" then some "webp"
  else none

def imageMediaTypeFromFormat (format : String) : Option String :=
  if format = "jpeg" then some "image/jpeg"
  else if format = "png" then some "image/png"
  else if format = "gif" then some "image/gif"
  else if format = "webp" then some "image/webp"
  else none

def inferDocumentMediaTypeFromUrl (url : String) : String :=
  if pathEndsWith url ".pdf" then "application/pdf"
  else if pathEndsWith url ".md" then "text/markdown"
  else if pathEndsWith url ".html" || pathEndsWith url ".htm" then "text/html"
  else if pathEndsWith url ".txt" then "text/plain"
  else "application/octet-stream"

def inferRemoteMediaType (blockType url : String) (provided response : Option String)
    (bytes : Bytes) : Option String :=
  match (provided.toList ++ response.toList).find? (isSupportedRemoteMediaType blockType) with
  | some candidate => some candidate
  | none =>
    if blockType = "image" then
      match inferImageMediaTypeFromBytes bytes with
      | some mediaType => some mediaType
      | none => (inferImageFormatFromUrl url).bind imageMediaTypeFromFormat
    else if (bytesOf "%PDF").isPrefixOf bytes then some "application/pdf"
    else
      let inferred := inferDocumentMediaTypeFromUrl url
      if isSupportedRemoteMediaType blockType inferred then some inferred else none

def base64EncodedLen (decodedLen : ℕ) : Except String ℕ :=
  match (checkedAdd decodedLen 2).bind fun value => checkedMul (value / 3) 4 with
  | some len => .ok len
  | none => .error "remote source base64 size accounting overflowed"

def base64Alphabet : List Char :=
  "ABCDEFGHIJKLMNOPQRSTUVWXYZabcdefghijklmnopqrstuvwxyz0123456789+/".toList

def base64Char (n : ℕ) : Char := base64Alphabet.getD (n % 64) '='

def base64Chars : Bytes → List Char
  | [] => []
  | [a] =>
    let n := a.toNat * 2 ^ 16
    [base64Char (n / 2 ^ 18), base64Char (n / 2 ^ 12), '=', '=']
  | [a, b] =>
    let n := a.toNat * 2 ^ 16 + b.toNat * 2 ^ 8
    [base64Char (n / 2 ^ 18), base64Char (n / 2 ^ 12), base64Char (n / 2 ^ 6), '=']
  | a :: b :: c :: rest =>
    let n := a.toNat * 2 ^ 16 + b.toNat * 2 ^ 8 + c.toNat
    base64Char (n / 2 ^ 18) :: base64Char (n / 2 ^ 12) :: base64Char (n / 2 ^ 6) ::
      base64Char n :: base64Chars rest

def base64Encode (bytes : Bytes) : String := String.ofList (base64Chars bytes)

inductive Event
  /-- A source begins. -/
  | source
  | sent (url : String)
  | connected (addr : IpAddr)
  | charged (budget : RemoteMaterializationBudget)
  /-- Bytes of a body are kept. -/
  | kept (bytes : ℕ)
  /-- Bytes of base64 are put into the request. -/
  | inserted (bytes : ℕ)

def Event.isSent : Event → Bool
  | .sent _ => true
  | _ => false

structure World where
  budget : RemoteMaterializationBudget := {}
  log : List Event := []

abbrev Fetch := Fallible World String

namespace Fetch

def note (event : Event) : Fetch Unit := modify fun w => { w with log := event :: w.log }

def check (result : Except String Unit) (word : String → String) : Fetch Unit :=
  match result with
  | .ok _ => pure ()
  | .error e => throw (word e)

def charge (reserve : RemoteMaterializationBudget → Except String RemoteMaterializationBudget) :
    Fetch Unit := do
  let w ← get
  match reserve w.budget with
  | .error e => throw e
  | .ok budget => modify fun w => ⟨budget, .charged budget :: w.log⟩

/-- The client connects to one address after the other. -/
def connectTo : List IpAddr → Fetch Unit
  | [] => pure ()
  | addr :: rest => do
    note (.connected addr)
    connectTo rest

end Fetch

open Fetch

section Download

variable (env : Env) (blockType : String)

def Env.downloadError (e : String) : String := s!"failed to download {blockType} URL source: {e}"

def resolveHost : List Lookup → Fetch Unit
  | [] => pure ()
  | lookup :: rest =>
    match safeResolve lookup.answer with
    | .error e => throw (Env.downloadError blockType (env.sendError e))
    | .ok addrs => do
      connectTo (lookup.tried.filterMap fun place => addrs[place]?)
      resolveHost rest

/-- For an address the client asks no name server. -/
def connectHost (parsed : Url) (lookups : List Lookup) : Fetch Unit :=
  match parsed.hostStr.bind (env.parsedHostIp parsed) with
  | some addr => connectTo [addr]
  | none => resolveHost env blockType lookups

def send (url : String) : Fetch (Url × Response) := do
  let w ← get
  note (.sent url)
  match env.parseUrl url with
  | .error e => throw (Env.downloadError blockType (env.sendError e))
  | .ok parsed =>
    let exchange := env.exchange (w.log.countP Event.isSent)
    connectHost env blockType parsed exchange.lookups
    match exchange.response with
    | .error e => throw (Env.downloadError blockType (env.sendError e))
    | .ok response => pure (parsed, response)

def nextUrl (parsed : Url) (response : Response) : Fetch String :=
  match response.location with
  | none => throw s!"{blockType} URL source redirect is missing Location header"
  | some location =>
    match env.join parsed location with
    | .error e => throw s!"invalid {blockType} URL redirect: {e}"
    | .ok next => pure next.text

/-- The loop over the redirects. -/
def follow : ℕ → ℕ → String → Fetch (Option (Url × Response))
  | 0, _, _ => pure none
  | left + 1, redirectCount, currentUrl => do
    check (env.ensureSafeRemoteUrl currentUrl) fun reason => s!"{blockType} URL rejected: {reason}"
    charge RemoteMaterializationBudget.reserveHttpAttempt
    let candidate ← send env blockType currentUrl
    if 300 ≤ candidate.2.status ∧ candidate.2.status < 400 then
      if maxRemoteMultimodalRedirects ≤ redirectCount then
        throw s!"{blockType} URL source has too many redirects"
      else
        let next ← nextUrl env blockType candidate.1 candidate.2
        follow left (redirectCount + 1) next
    else pure (some candidate)

def checkContentLength (budget : RemoteMaterializationBudget) (contentLength : Option ℕ) :
    Except String Unit :=
  match contentLength with
  | none => .ok ()
  | some length =>
    let limit := budget.limits.maxDownloadedBytes
    if maxRemoteMultimodalBytes < length then
      .error s!"{blockType} URL source exceeds {maxRemoteMultimodalBytes} bytes"
    else if limit < min (budget.downloadedBytes + length) (2 ^ 64 - 1) then
      .error s!"{blockType} URL sources exceed the request aggregate download limit of {limit} bytes"
    else .ok ()

def readLimitedResponseBody : List (Except String Bytes) → Bytes → Fetch Bytes
  | [], bytes => pure bytes
  | .error e :: _, _ => throw s!"failed to read {blockType} URL source: {e}"
  | .ok chunk :: chunks, bytes =>
    if (checkedAdd bytes.length chunk.length).any (· ≤ maxRemoteMultimodalBytes) = false then
      throw s!"{blockType} URL source exceeds {maxRemoteMultimodalBytes} bytes"
    else do
      charge fun budget => budget.reserveDownloadedBytes blockType chunk.length
      note (.kept chunk.length)
      readLimitedResponseBody chunks (bytes ++ chunk)

def encodeBody (mediaType : String) (bytes : Bytes) : Fetch (String × String) :=
  match base64EncodedLen bytes.length with
  | .error e => throw e
  | .ok encodedLen => do
    charge fun budget => budget.reserveMaterializedBytes blockType encodedLen
    pure (mediaType, base64Encode bytes)

/-- What follows the redirects. -/
def receive (providedMediaType : Option String) (parsed : Url) (response : Response) :
    Fetch (String × String) := do
  check (env.ensureSafeRemoteUrl parsed.text) fun reason => s!"{blockType} URL rejected: {reason}"
  if ¬(200 ≤ response.status ∧ response.status < 300) then
    let status := response.statusText
    throw s!"failed to download {blockType} URL source: HTTP {status}"
  else
    let w ← get
    check (checkContentLength blockType w.budget response.contentLength) id
    let bytes ← readLimitedResponseBody blockType response.chunks []
    match inferRemoteMediaType blockType parsed.text providedMediaType
        (response.contentType.map normalizeMediaType) bytes with
    | none =>
      let finalUrl := parsed.text
      throw s!"unsupported {blockType} URL media type for {finalUrl}"
    | some mediaType => encodeBody blockType mediaType bytes

def downloadRemoteMultimodalSource (url : String) (providedMediaType : Option String) :
    Fetch (String × String) := do
  let response ← follow env blockType (maxRemoteMultimodalRedirects + 1) 0 url
  match response with
  | none => throw s!"failed to download {blockType} URL source"
  | some (parsed, response) => receive env blockType providedMediaType parsed response

end Download

def remoteSourceInfo (item : Json) : Option (String × String × Option String) :=
  match item with
  | .obj obj => do
    let blockType ← (← Json.getField obj "type").asStr
    if blockType ≠ "image" ∧ blockType ≠ "document" then none
    else
      match ← Json.getField obj "source" with
      | .obj source =>
        let sourceType ← (← Json.getField source "type").asStr
        if sourceType ≠ "url" then none
        else
          let url ← (← Json.getField source "url").asStr
          let mediaType := (Json.getField source "media_type").bind Json.asStr
          some (blockType, url, mediaType.map normalizeMediaType)
      | _ => none
  | _ => none

def nestedToolResultContent (item : Json) : Option (List Json) :=
  match item with
  | .obj obj =>
    if (Json.getField obj "type").bind Json.asStr = some "tool_result" then
      match Json.getField obj "content" with
      | some (.arr items) => some items
      | _ => none
    else none
  | _ => none

theorem depth_nested_lt {item : Json} {nested : List Json}
    (h : nestedToolResultContent item = some nested) : (Json.arr nested).depth < item.depth := by
  unfold nestedToolResultContent at h
  split at h
  case h_1 fields =>
    split_ifs at h
    split at h
    case h_1 items hfield =>
      cases h
      exact (Json.Member.field (Json.mem_of_getField hfield)).depth_lt
    case h_2 => cases h
  case h_2 => cases h

def isDataUrl (url : String) : Bool := "data:".toList.isPrefixOf url.toList

def countRemoteContentSources (content : Json) : ℕ :=
  match content with
  | .arr items =>
    (items.attach.map fun item =>
      match _hnested : nestedToolResultContent item.1 with
      | some nested => countRemoteContentSources (.arr nested)
      | none =>
        if (remoteSourceInfo item.1).any fun info => !isDataUrl info.2.1 then 1 else 0).sum
  | _ => 0
termination_by content.depth
decreasing_by exact (depth_nested_lt _hnested).trans (Json.Member.item item.2).depth_lt

def replaceSourceWithBase64 (item : Json) (mediaType data : String) : Json :=
  match item with
  | .obj obj =>
    .obj (Json.insertField obj "source" (.obj
      [("data", .str data), ("media_type", .str mediaType), ("type", .str "base64")]))
  | other => other

section Materialize

variable (env : Env)

def materializeRemoteSourceItem (item : Json) : Fetch (ℕ × Json) :=
  match remoteSourceInfo item with
  | none => pure (0, item)
  | some (blockType, url, providedMediaType) =>
    if isDataUrl url = true then pure (0, item)
    else do
      note .source
      let source ← downloadRemoteMultimodalSource env blockType url providedMediaType
      note (.inserted source.2.utf8ByteSize)
      pure (1, replaceSourceWithBase64 item source.1 source.2)

/-- One item after the other, with the number of sources in them. -/
def materializeEach (materialize : Json → Fetch (ℕ × Json)) : List Json → Fetch (ℕ × List Json)
  | [] => pure (0, [])
  | item :: items => do
    let first ← materialize item
    let rest ← materializeEach materialize items
    pure (first.1 + rest.1, first.2 :: rest.2)

def setContent (item : Json) (items : List Json) : Json :=
  match item with
  | .obj obj => .obj (Json.setField obj "content" (.arr items))
  | other => other

def materializeItem (item : Json) : Fetch (ℕ × Json) :=
  match nestedToolResultContent item with
  | some nested => do
    let result ← materializeEach (materializeRemoteSourceItem env) nested
    pure (result.1, setContent item result.2)
  | none => materializeRemoteSourceItem env item

def materializeContentSources (content : Json) : Fetch (ℕ × Json) :=
  match content with
  | .arr items => do
    let result ← materializeEach (materializeItem env) items
    pure (result.1, .arr result.2)
  | other => pure (0, other)

structure RemoteMaterializationOutcome where
  materializedSources : ℕ
  downloadedBytes : ℕ
  materializedBytes : ℕ
  httpAttempts : ℕ
  contents : List Json

def workflow (contents : List Json) : Fetch RemoteMaterializationOutcome := do
  check (if env.permitAvailable = true then .ok () else .error remoteMultimodalCapacityError) id
  check env.client fun e => s!"failed to create remote source client: {e}"
  let result ← materializeEach (materializeContentSources env) contents
  let w ← get
  pure ⟨result.1, w.budget.downloadedBytes, w.budget.materializedBytes, w.budget.httpAttempts,
    result.2⟩

/-- The contents are those of the messages of one request. A run that its deadline stops has a
log that the whole run ends with. -/
def materializeRemoteMultimodalSources (contents : List Json) :
    Fetch (Option RemoteMaterializationOutcome) :=
  let sourceCount := (contents.map countRemoteContentSources).sum
  let limit := maxRemoteMultimodalSources
  if sourceCount = 0 then pure none
  else if limit < sourceCount then
    throw s!"remote image/document source count {sourceCount} exceeds the request limit of {limit}"
  else do
    let outcome ← workflow env contents
    pure (some outcome)

end Materialize

end KiroProxy.RemoteSources
