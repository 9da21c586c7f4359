import Predictive.Json.Encoding
import Predictive.Json.Reader
import Predictive.Service.Address

/-!
# Requests

What the service is asked, from where, and on whose behalf. The content
of a request is the JSON value of its body, if the body is declared to
be JSON and is.

The client of a request that came through proxies is the first public
address that they name, or else the first they name at all; without
them it is the address that the last proxy tells, or else the peer
itself.
-/

namespace Predictive

namespace Service

structure Request where
  method : Text
  target : Text
  headers : List (Text × Text)
  /-- The address of the peer, empty when it is not known. -/
  peer : Text
  /-- The declared type of the body, empty when there is none. -/
  contentType : Text
  body : List UInt8
deriving DecidableEq

namespace Request

/-- The request has a method, whose case does not matter. -/
def isMethod (r : Request) (method : Text) : Bool := Text.uppercase r.method == method

/-! ## Headers -/

/-- The form in which names of headers are compared. -/
def headerKey (name : Text) : Text :=
  (Text.lowercase name).map fun c => if c = .char '_' then .char '-' else c

/-- The value of a header; values of one name are joined. -/
def header? (headers : List (Text × Text)) (name : Text) : Option Text :=
  match headers.filter fun h => headerKey h.1 == headerKey name with
  | [] => none
  | found => some (Text.join ", " (found.map Prod.snd))

/-- The pages that may read the answer: those of the origin that asks, or
else any. -/
def allowedOrigin (r : Request) : Text :=
  match header? r.headers "Origin" with
  | some (c :: rest) => c :: rest
  | _ => "*"

/-! ## Content -/

/-- The type declares JSON: its parameters and case do not matter. -/
def isJsonType (contentType : Text) : Bool :=
  let media := Text.lowercase (Text.strip (Text.partition ';' contentType).1)
  media == ("application/json" : Text) ||
    (("application/" : Text).isPrefixOf media && ("+json" : Text).isSuffixOf media)

/-- The value of a body; null when it is no JSON text, and `none` when
its containers are nested too deep to be read. -/
def readBody? (body : List UInt8) : Option JsonValue :=
  match Text.ofJsonBytes? body with
  | none => some .null
  | some t =>
    match JsonValue.read JsonValue.usualRoom t with
    | .ok v => some v
    | .error .malformed => some .null
    | .error .tooDeep => none

/-- The value that a request carries; null when it carries none, and
`none` when it cannot be read. -/
def content? (r : Request) : Option JsonValue :=
  if isJsonType r.contentType then readBody? r.body else some .null

/-! ## Client -/

/-- The addresses that proxies name, in the order in which the request
passed them. -/
def forwardedFor (headers : List (Text × Text)) : List Text :=
  ((Text.pieces ',' ((header? headers "X-Forwarded-For").getD [])).map Text.strip).filter
    (!·.isEmpty)

/-- The client for whom a request with these headers comes from a
peer. -/
def clientOf (headers : List (Text × Text)) (peer : Text) : Text :=
  let forwarded := forwardedFor headers
  match forwarded.find? Address.isPublic <|> forwarded.head? with
  | some address => address
  | none =>
    (header? headers "X-Real-IP").getD (if peer.isEmpty then "127.0.0.1" else peer)

def client (r : Request) : Text := clientOf r.headers r.peer

end Request

end Service

end Predictive
