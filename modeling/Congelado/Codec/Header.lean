import Congelado.Codec.Integers

/-!
# Header fields

A header field has a name, which is a `Token` for the well-known ones and a string otherwise, and
a value. Strings are sequences of bytes.
-/

namespace Congelado.Codec

/-- The contents of a `std::string`. -/
abbrev Text := List UInt8

/-- A string of the source. -/
def text (s : String) : Text := s.toUTF8.data.toList

inductive Token
  | none | authority | method | path | scheme | status | acceptCharset | acceptEncoding
  | acceptLanguage | acceptRanges | accept | accessControlAllowOrigin | age | allow | authorization
  | cacheControl | contentDisposition | contentEncoding | contentLanguage | contentLength
  | contentLocation | contentRange | contentType | cookie | date | eTag | expect | expires
  | fromToken | host | ifMatch | ifModifiedSince | ifNoneMatch | ifRange | ifUnmodifiedSince
  | lastModified | link | location | maxForwards | proxyAuthenticate | proxyAuthorization | range
  | referer | refresh | retryAfter | server | setCookie | strictTransportSecurity | transferEncoding
  | userAgent | vary | via | wwwAuthenticate | accessControlAllowCredentials
  | accessControlAllowHeaders | accessControlAllowMethods | accessControlExposeHeaders
  | accessControlRequestHeaders | accessControlRequestMethod | altSvc | contentSecurityPolicy
  | earlyData | expectCt | forwarded | origin | purpose | timingAllowOrigin
  | upgradeInsecureRequests | xContentTypeOptions | xForwardedFor | xFrameOptions | xXssProtection
  deriving DecidableEq

def tokenToString : Token → String
  | .none => ""
  | .authority => ":authority"
  | .method => ":method"
  | .path => ":path"
  | .scheme => ":scheme"
  | .status => ":status"
  | .acceptCharset => "accept-charset"
  | .acceptEncoding => "accept-encoding"
  | .acceptLanguage => "accept-language"
  | .acceptRanges => "accept-ranges"
  | .accept => "accept"
  | .accessControlAllowOrigin => "access-control-allow-origin"
  | .age => "age"
  | .allow => "allow"
  | .authorization => "authorization"
  | .cacheControl => "cache-control"
  | .contentDisposition => "content-disposition"
  | .contentEncoding => "content-encoding"
  | .contentLanguage => "content-language"
  | .contentLength => "content-length"
  | .contentLocation => "content-location"
  | .contentRange => "content-range"
  | .contentType => "content-type"
  | .cookie => "cookie"
  | .date => "date"
  | .eTag => "etag"
  | .expect => "expect"
  | .expires => "expires"
  | .fromToken => "from"
  | .host => "host"
  | .ifMatch => "if-match"
  | .ifModifiedSince => "if-modified-since"
  | .ifNoneMatch => "if-none-match"
  | .ifRange => "if-range"
  | .ifUnmodifiedSince => "if-unmodified-since"
  | .lastModified => "last-modified"
  | .link => "link"
  | .location => "location"
  | .maxForwards => "max-forwards"
  | .proxyAuthenticate => "proxy-authenticate"
  | .proxyAuthorization => "proxy-authorization"
  | .range => "range"
  | .referer => "referer"
  | .refresh => "refresh"
  | .retryAfter => "retry-after"
  | .server => "server"
  | .setCookie => "set-cookie"
  | .strictTransportSecurity => "strict-transport-security"
  | .transferEncoding => "transfer-encoding"
  | .userAgent => "user-agent"
  | .vary => "vary"
  | .via => "via"
  | .wwwAuthenticate => "www-authenticate"
  | .accessControlAllowCredentials => "access-control-allow-credentials"
  | .accessControlAllowHeaders => "access-control-allow-headers"
  | .accessControlAllowMethods => "access-control-allow-methods"
  | .accessControlExposeHeaders => "access-control-expose-headers"
  | .accessControlRequestHeaders => "access-control-request-headers"
  | .accessControlRequestMethod => "access-control-request-method"
  | .altSvc => "alt-svc"
  | .contentSecurityPolicy => "content-security-policy"
  | .earlyData => "early-data"
  | .expectCt => "expect-ct"
  | .forwarded => "forwarded"
  | .origin => "origin"
  | .purpose => "purpose"
  | .timingAllowOrigin => "timing-allow-origin"
  | .upgradeInsecureRequests => "upgrade-insecure-requests"
  | .xContentTypeOptions => "x-content-type-options"
  | .xForwardedFor => "x-forwarded-for"
  | .xFrameOptions => "x-frame-options"
  | .xXssProtection => "x-xss-protection"

inductive FieldName
  | token (token : Token)
  | text (name : Text)
  deriving DecidableEq

namespace FieldName

/-- The name as it is written. -/
def wire : FieldName → Text
  | .token t => Codec.text (tokenToString t)
  | .text name => name

/-- The name without its `Token`. -/
def plain (name : FieldName) : FieldName := .text name.wire

@[simp] theorem wire_text (name : Text) : wire (.text name) = name := rfl

@[simp] theorem plain_text (name : Text) : plain (.text name) = .text name := rfl

end FieldName

/-- `HeaderField<true>` or `HeaderField<false>`. -/
structure HeaderEntry where
  name : FieldName
  value : Text
  deriving DecidableEq

namespace HeaderEntry

def entryOverhead : ℕ := 32

variable (entry : HeaderEntry)

/-- `HeaderField::size`. A `Token` is one byte. -/
def size : ℕ :=
  match entry.name with
  | .token _ => 1 + entry.value.length + entryOverhead
  | .text name => name.length + entry.value.length + entryOverhead

/-- The size that the format defines: of the name as it is written, and the value. -/
def cost : ℕ :=
  entry.name.wire.length + entry.value.length + entryOverhead

/-- The entry without its `Token`. -/
def plain : HeaderEntry := ⟨entry.name.plain, entry.value⟩

theorem size_eq_cost {entry : HeaderEntry} {name : Text} (h : entry.name = .text name) :
    entry.size = entry.cost := by
  rw [size, cost, h]
  rfl

end HeaderEntry

end Congelado.Codec
