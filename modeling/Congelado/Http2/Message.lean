import Congelado.Codec.Flush
import Congelado.Codec.Feed
import Congelado.Http2.Frame

/-!
# Requests and responses

The targets of the decoder. A message has an array with a slot for each well-known name up to
`www-authenticate`, and a map of the other names. `tokenize` knows more names than the array has
slots. What a decoded header does to a message is `noexcept`, so that an exception on the way ends
the program.

The frames of a response are those of its header block, in the chunks that the encoder hands over,
and those of its body.
-/

namespace Congelado.Http2

open Codec

/-! ### Names -/

/-- The names that `tokenize` compares with, by the length of the name it is given. Some of them do
not have that length. -/
def tokenBucket : ℕ → List Token
  | 3 => [.age, .via]
  | 4 => [.date, .eTag, .fromToken, .host, .link, .vary]
  | 5 => [.path, .allow, .range]
  | 6 => [.accept, .cookie, .expect, .origin, .server]
  | 7 => [.method, .scheme, .status, .altSvc, .expires, .purpose, .referer, .refresh]
  | 8 => [.ifMatch, .ifRange, .location]
  | 9 => [.expectCt, .forwarded]
  | 10 => [.authority, .earlyData, .setCookie, .userAgent]
  | 11 => [.retryAfter]
  | 12 => [.acceptRanges, .contentType, .maxForwards]
  | 13 => [.authorization, .cacheControl, .contentRange, .ifNoneMatch, .lastModified]
  | 14 => [.acceptCharset, .contentLength]
  | 15 => [.acceptEncoding, .acceptLanguage]
  | 16 => [.contentEncoding, .contentLanguage, .contentLocation, .wwwAuthenticate]
  | 17 => [.ifModifiedSince, .transferEncoding]
  | 18 => [.proxyAuthenticate, .xXssProtection]
  | 19 => [.contentDisposition, .ifUnmodifiedSince, .proxyAuthorization, .timingAllowOrigin,
      .xFrameOptions]
  | 20 => [.xForwardedFor]
  | 22 => [.xContentTypeOptions]
  | 23 => [.contentSecurityPolicy]
  | 25 => [.strictTransportSecurity, .upgradeInsecureRequests]
  | 27 => [.accessControlAllowOrigin]
  | 28 => [.accessControlAllowHeaders, .accessControlAllowMethods]
  | 29 => [.accessControlExposeHeaders, .accessControlRequestMethod]
  | 30 => [.accessControlRequestHeaders]
  | 32 => [.accessControlAllowCredentials]
  | _ => []

def tokenize (name : Text) : Option Token :=
  (tokenBucket name.length).find? fun token => text (tokenToString token) = name

/-- The tokens that have a slot, in the order of the slots. -/
def slotTokens : List Token :=
  [.none, .authority, .method, .path, .scheme, .status, .acceptCharset, .acceptEncoding,
    .acceptLanguage, .acceptRanges, .accept, .accessControlAllowOrigin, .age, .allow,
    .authorization, .cacheControl, .contentDisposition, .contentEncoding, .contentLanguage,
    .contentLength, .contentLocation, .contentRange, .contentType, .cookie, .date, .eTag, .expect,
    .expires, .fromToken, .host, .ifMatch, .ifModifiedSince, .ifNoneMatch, .ifRange,
    .ifUnmodifiedSince, .lastModified, .link, .location, .maxForwards, .proxyAuthenticate,
    .proxyAuthorization, .range, .referer, .refresh, .retryAfter, .server, .setCookie,
    .strictTransportSecurity, .transferEncoding, .userAgent, .vary, .via, .wwwAuthenticate]

/-! ### Headers of a message -/

structure Headers where
  /-- The array `m_static_headers`. -/
  slots : List (Option Text) := List.replicate slotTokens.length none
  /-- The map `m_headers`, in the order in which it is iterated. -/
  others : List (Text × Text) := []
  deriving DecidableEq

namespace Headers

variable (token : Token)

def slot (headers : Headers) : Option Text :=
  (headers.slots[slotTokens.idxOf token]?).join

variable (value : Text) (headers : Headers)

/-- An assignment to the slot of a token. -/
def assign : Except Fault Headers :=
  if token ∈ slotTokens then
    .ok { headers with slots := headers.slots.set (slotTokens.idxOf token) (some value) }
  else .error .outOfBounds

/-- `set_header` for a token. -/
def setToken : Except Fault Headers :=
  if token = .none then .error .terminate else assign token value headers

/-- The crumbs of a cookie are joined. -/
def setCookie : Except Fault Headers :=
  match headers.slot .cookie with
  | none => assign .cookie value headers
  | some existing =>
    if value = [] then .ok headers else assign .cookie (existing ++ text "; " ++ value) headers

/-- `set_header` for a string. The messages differ in what they do with a name they do not know. -/
def setHeader (unknown : Text → Text → Headers → Except Fault Headers) (name value : Text)
    (headers : Headers) : Except Fault Headers :=
  if name = [] then .error .terminate
  else
    match tokenize name with
    | none => unknown name value headers
    | some .cookie => setCookie value headers
    | some token => setToken token value headers

/-- The value is joined with the one that is there. -/
def extend (name value : Text) (headers : Headers) : Headers :=
  { headers with
    others := headers.others.map fun (other, existing) =>
      if other = name then (other, existing ++ text ", " ++ value) else (other, existing) }

def has (name : Text) (headers : Headers) : Bool :=
    headers.others.any fun (other, _) => other = name

/-- `HttpRequest::set_header`, for a name that is not known. -/
def requestUnknown (name value : Text) (headers : Headers) : Except Fault Headers :=
  if headers.has name then .ok (if value = [] then headers else headers.extend name value)
  else .ok { headers with others := headers.others ++ [(name, value)] }

/-- `HttpResponse::set_header`, for a name that is not known: a value is dropped, or joined with the
one that is there, and a header without a value is inserted and then taken for a known one. -/
def responseUnknown (name value : Text) (headers : Headers) : Except Fault Headers :=
  if value = [] then .error .terminate
  else .ok (if headers.has name then headers.extend name value else headers)

/-- `add_header`. -/
def addHeader (unknown : Text → Text → Headers → Except Fault Headers) (entry : HeaderEntry)
    (headers : Headers) : Except Fault Headers :=
  match entry.name with
  | .token token => setToken token entry.value headers
  | .text name => setHeader unknown name entry.value headers

def addHeaders (unknown : Text → Text → Headers → Except Fault Headers) :
    List HeaderEntry → Headers → Except Fault Headers
  | [], headers => .ok headers
  | entry :: entries, headers => do
    let headers ← addHeader unknown entry headers
    addHeaders unknown entries headers

def getHeaders (headers : Headers) : List HeaderEntry :=
  ((slotTokens.zip headers.slots).filterMap fun (token, value) =>
      value.map fun value => ⟨.token token, value⟩) ++
    headers.others.map fun (name, value) => ⟨.text name, value⟩

end Headers

/-! ### Messages -/

structure Request where
  streamId : ℕ
  headers : Headers := {}
  body : List UInt8 := []
  deriving DecidableEq

structure Response where
  streamId : ℕ
  headers : Headers := {}
  body : List UInt8 := []
  deriving DecidableEq

/-- `set_status`. The slot of the status is there. -/
def Response.setStatus (status : String) (response : Response) : Response :=
  { response with
    headers := { response.headers with
      slots := response.headers.slots.set (slotTokens.idxOf .status) (some (text status)) } }

/-- The frames of a header block. -/
def headerFrames (streamId : ℕ) (chunks : List (List UInt8 × HpackFlushReason)) : List Frame :=
  chunks.zipIdx.map fun ((data, reason), idx) => {
    type := if idx = 0 then .headers else .continuation
    flags := if reason = .final then Flags.endHeaders else 0
    streamId
    payload := data }

/-- The frames of a body. -/
def Response.bodyFrames (maxFrameSize : ℕ) (response : Response) : List Frame :=
  if response.body = [] then
    [{ type := .data, flags := Flags.endStream, streamId := response.streamId }]
  else dataFrames response.streamId maxFrameSize response.body

end Congelado.Http2
