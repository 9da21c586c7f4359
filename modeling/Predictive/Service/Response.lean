import Predictive.Json.Printer
import Predictive.Service.Analysis

/-!
# Responses

What is sent back for a request: a status, a body unless it is a page,
and headers about its type, about who may read it and about where the
client stands with the rate limit. An answer with half of a surrogate pair in
it cannot be encoded; the service has failed then.
-/

namespace Predictive

namespace Service

/-- The answer to a request. An answer without a body is a page for
people, or the empty answer to a question about methods. -/
structure Response where
  status : Nat
  body : Option JsonValue
  /-- It is declared to be JSON, with a body or without. -/
  isJson : Bool
  standing : Option Standing
  /-- Whose pages may read the answer. -/
  allowedOrigin : Text

namespace Response

def text (r : Response) : Text :=
  match r.body with
  | some v => v.text ++ "\n"
  | none => []

def contentType (r : Response) : Text :=
  if r.isJson then "application/json" else "text/html; charset=utf-8"

/-- The headers about the type of the answer, who may read it, and where
the client stands. -/
def headers (r : Response) : List (Text × Text) :=
  let standing : List (Text × Text) := match r.standing with
    | none => []
    | some s => [("X-RateLimit-Limit", Text.ofNat s.limit),
        ("X-RateLimit-Remaining", Text.ofNat s.remaining)]
  ("Access-Control-Allow-Origin", r.allowedOrigin) :: ("Content-Type", r.contentType) :: standing

def page (status : Nat) : Response := ⟨status, none, false, none, "*"⟩

def json (status : Nat) (v : JsonValue) : Response := ⟨status, some v, true, none, "*"⟩

def message (status code : Nat) (text : Text) : Response :=
  json status (.object [("code", .ofNat code), ("msg", .string text)])

def failed : Response := message 500 500 "Internal server error"

def tooMany : Response := message 429 429 "Too many requests, please try again later"

/-- The answer when it can be encoded; otherwise the service has
failed. -/
def encodable (r : Response) : Response :=
  if (r.body.getD .null).isEncodable then r else failed

/-- The response that an outcome of an endpoint makes. -/
def ofOutcome : Except Refusal JsonValue → Response
  | .ok data => (json 200 (.object [("code", .ofNat 0), ("data", data)])).encodable
  | .error (.unfit text) => (message 400 1 text).encodable
  | .error .failed => failed

end Response

end Service

end Predictive
