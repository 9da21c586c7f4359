import Predictive.Service.Request
import Predictive.Service.Response

/-!
# The service

The service answers one request after another; between requests it
keeps nothing but the counts of its rate limit. A request to an endpoint
is counted before anything else of it is looked at, and an answer is
decided by the settings and the content of the request alone. When the
rates in force cannot be read, nothing is counted and every request to
an endpoint fails.
-/

namespace Predictive

namespace Service

/-! ## Endpoints -/

/-- The response of an endpoint to a content, with what the journal
holds about it. Where a content is wanted, it must have been read. -/
def respond (s : Settings) (e : Endpoint) (content : Option JsonValue) :
    List Record × Response :=
  match e, content with
  | .test, _ => ([], .message 200 0 "test success!")
  | _, none => ([], .failed)
  | .analysis, some content =>
    let r := analyse s content
    (r.records, .ofOutcome r.outcome)
  | .inputAnalysis, some content =>
    let r := analyseInput s content
    (r.records, .ofOutcome r.outcome)

/-- The response to a request that an endpoint answers; a question about
methods gets an empty one. -/
def respondTo (s : Settings) (e : Endpoint) (r : Request) : List Record × Response :=
  if r.isMethod "OPTIONS" then ([], .page 200) else respond s e r.content?

/-! ## Counting -/

/-- Counts a request to an endpoint; `none` when the rates in force
cannot be read. -/
def admit? (s : Settings) (counts : Counts) (e : Endpoint) (r : Request) : Option Admission :=
  if s.isLimiting then s.rates.map fun rates => hit counts rates r.client e
  else some ⟨counts, .admitted, none⟩

/-- The response to a request for an endpoint, the counts after it and
what the journal holds about it. -/
def serve (s : Settings) (counts : Counts) (e : Endpoint) (r : Request) :
    Counts × List Record × Response :=
  match admit? s counts e r with
  | none => (counts, [], .failed)
  | some a =>
    let (records, response) := match a.verdict with
      | .admitted => respondTo s e r
      | .exceeds _ => ([], .tooMany)
      | .uncountable => ([], .failed)
    (a.counts, records, { response with standing := if s.showsStanding then a.standing else none })

/-! ## Requests one after another -/

/-- The answer to a request, the counts after it and what the journal
holds about it. Only the headers of an answer to `HEAD` are sent. -/
def answer (s : Settings) (counts : Counts) (r : Request) : Counts × List Record × Response :=
  let (counts, records, response) := match Route.of r.method r.target with
    | .endpoint e => serve s counts e r
    | .file => (counts, [], .page (if r.isMethod "OPTIONS" then 200 else 404))
    | .redirect => (counts, [], .page 308)
    | .missing => (counts, [], .page 404)
    | .wrongMethod => (counts, [], .page 405)
  let response := { response with allowedOrigin := r.allowedOrigin }
  (counts, records, if r.isMethod "HEAD" then { response with body := none } else response)

/-- The answers to requests, each counted after those before it, and
what the journal holds about all of them. -/
def answerAll (s : Settings) (counts : Counts) : List Request → List Record × List Response
  | [] => ([], [])
  | r :: rest =>
    let (counts, records, response) := answer s counts r
    let (more, responses) := answerAll s counts rest
    (records ++ more, response :: responses)

end Service

end Predictive
