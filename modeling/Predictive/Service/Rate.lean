import Predictive.Double.Basic
import Predictive.OrderedMap
import Predictive.Service.Route
import Predictive.Text.Digits

/-!
# Rates and counts

A rate allows a number of requests in a period, or in a multiple of it.
It is written as the number, a slash or the word `per`, and the period,
`2/day` or `500 per 2 hours`; several rates stand between commas,
semicolons or bars, before which there may be a colon. Case does not
matter.

Requests are counted for each rate, client and endpoint. `hit` counts
one request under the rates in the order of their periods and stops at
the first that it exceeds; a request counts also for the rate that it
exceeds. Under a rate whose periods end beyond double precision nothing
can be counted.
-/

namespace Predictive

namespace Service

/-! ## Rates -/

/-- The periods of rates, shortest first. -/
inductive Period where
  | second
  | minute
  | hour
  | day
  | month
  | year
deriving DecidableEq

namespace Period

def all : List Period := [second, minute, hour, day, month, year]

def name : Period → Text
  | second => "second"
  | minute => "minute"
  | hour => "hour"
  | day => "day"
  | month => "month"
  | year => "year"

/-- The place of a period among all, by length. -/
def rank : Period → Nat
  | second => 0
  | minute => 1
  | hour => 2
  | day => 3
  | month => 4
  | year => 5

def seconds : Period → Nat
  | second => 1
  | minute => 60
  | hour => 3600
  | day => 24 * 3600
  | month => 30 * 24 * 3600
  | year => 12 * 30 * 24 * 3600

/-- The period whose name stands at the front of a text, and the rest
behind it and a plural ending. -/
def read? (t : Text) : Option (Period × Text) :=
  all.findSome? fun p => (p.name.isPrefixOf? t).map fun rest =>
    (p, match rest with
      | .char 's' :: rest => rest
      | _ => rest)

end Period

/-- So many requests in so many periods. -/
structure Rate where
  amount : Nat
  multiple : Nat
  period : Period
deriving DecidableEq

namespace Rate

/-- The end of the periods can be told: it is within double
precision. -/
def isCountable (r : Rate) : Bool := (Double.ofQuotient? (r.period.seconds * r.multiple) 1).isSome

/-- The rest of a text behind a slash or the word that stands for it. -/
def afterPer? (t : Text) : Option Text :=
  match t with
  | .char '/' :: rest => some rest
  | _ => ("per" : Text).isPrefixOf? t

/-- The number of digits beyond which a numeral is refused. -/
def maxDigits : Nat := 4300

/-- The rate that a text in small letters spells. A multiple of zero is
read as one. -/
def read? (t : Text) : Option Rate := do
  let (amount, rest) := (t.dropWhile Text.isBlank).span Text.isDigit
  if amount.isEmpty then none
  let rest ← afterPer? (rest.dropWhile Text.isBlank)
  let (multiple, rest) := (rest.dropWhile Text.isBlank).span Text.isDigit
  let (period, rest) ← Period.read? (rest.dropWhile Text.isBlank)
  if (rest.dropWhile Text.isBlank).isEmpty && amount.length ≤ maxDigits &&
      multiple.length ≤ maxDigits then
    return ⟨Text.decimalValue amount, max 1 (Text.decimalValue multiple), period⟩
  else none

def dropColon (t : Text) : Text := if t.getLast? = some (.char ':') then t.dropLast else t

/-- The rates that a text spells; `none` when one of them is no rate. -/
def readAll? (t : Text) : Option (List Rate) :=
  let pieces := (Text.lowercase t).splitOnP fun c => (",;|" : Text).contains c
  (pieces.dropLast.map dropColon ++ pieces.drop (pieces.length - 1)).mapM read?

end Rate

/-! ## Counts -/

/-- What requests are counted for. -/
structure Counter where
  rate : Rate
  client : Text
  endpoint : Endpoint
deriving DecidableEq

/-- What is found when a request is counted. -/
inductive Verdict where
  | admitted
  /-- It is one too many for a rate. -/
  | exceeds (rate : Rate)
  /-- There is a rate under which it cannot be counted. -/
  | uncountable
deriving DecidableEq

abbrev Counts := OrderedMap Counter Nat

namespace Counts

def used (counts : Counts) (c : Counter) : Nat := (counts.get? c).getD 0

/-- Counts one request under each of the rates, until it exceeds one or
cannot be counted. -/
def hitEach (client : Text) (endpoint : Endpoint) (counts : Counts) :
    List Rate → Counts × Verdict
  | [] => (counts, .admitted)
  | rate :: rest =>
    let counter : Counter := ⟨rate, client, endpoint⟩
    let counts' : Counts := counts.alter counter fun n => n.getD 0 + 1
    if !rate.isCountable then (counts, .uncountable)
    else if rate.amount < counts'.used counter then (counts', .exceeds rate)
    else hitEach client endpoint counts' rest

end Counts

/-- Where a client stands with the rate that an answer tells about. -/
structure Standing where
  limit : Nat
  remaining : Nat
deriving DecidableEq

/-- What became of a request when it was counted. -/
structure Admission where
  counts : Counts
  verdict : Verdict
  standing : Option Standing

/-- Counts a request. The answer tells about the rate that the request
exceeds, or else about the one with the shortest period. A client
without a name is not counted. -/
def hit (counts : Counts) (rates : List Rate) (client : Text) (endpoint : Endpoint) : Admission :=
  if client.isEmpty then ⟨counts, .admitted, none⟩
  else
    let rates := rates.mergeSort fun r s => decide (r.period.rank ≤ s.period.rank)
    let (counts, verdict) := counts.hitEach client endpoint rates
    let standing (rate : Rate) : Standing :=
      ⟨rate.amount, rate.amount - counts.used ⟨rate, client, endpoint⟩⟩
    ⟨counts, verdict, match verdict with
      | .admitted => rates.head?.map standing
      | .exceeds rate => some (standing rate)
      | .uncountable => none⟩

end Service

end Predictive
