import Predictive.Json.Value
import Predictive.Text.Numeral

/-!
# Settings of the workers

How many processes answer requests, where they listen and how long one
request may take, as the environment sets it, beside the settings that
are always the same; and what is logged when the workers start and when
one of them took too long.
-/

namespace Predictive

namespace Deployment

abbrev Environment := List (Text × Text)

def Environment.get? (env : Environment) (name : Text) : Option Text :=
  (env.find? fun v => v.1 == name).map Prod.snd

/-- The value of a variable, or else a default. -/
def Environment.text (env : Environment) (name default : Text) : Text :=
  (env.get? name).getD default

/-- The integer in a variable, or else a default. -/
def Environment.int (env : Environment) (name : Text) (default : Int) :
    Except Text.NumeralError Int :=
  match env.get? name with
  | some t => Text.toInt t
  | none => .ok default

def workerClass (env : Environment) : Text := env.text "LL1_WORKER_CLASS" "sync"

/-- The settings of the workers that vary. -/
structure Workers where
  bind : Text
  kind : Text
  count : Int
  timeout : Int
  logLevel : Text
deriving DecidableEq

namespace Workers

/-- The settings that an environment makes on a machine with so many
processors. -/
def ofEnvironment (env : Environment) (processors : Nat) : Except Text.NumeralError Workers := do
  let count ← env.int "LL1_WORKERS" (processors + 1)
  let timeout ← env.int "LL1_TIMEOUT" 30
  return {
    bind := env.text "LL1_BIND" "0.0.0.0:5000"
    kind := workerClass env
    count, timeout
    logLevel := env.text "LL1_LOG_LEVEL" "info" }

/-- All settings by name. Only workers that serve several connections
at once have a number of these. -/
def members (w : Workers) : List (Text × JsonValue) :=
  let connections : List (Text × JsonValue) :=
    if w.kind = "gevent" then [("worker_connections", .ofNat 100)] else []
  let others : List (Text × JsonValue) := [
    ("bind", .string w.bind), ("worker_class", .string w.kind), ("workers", .ofInt w.count),
    ("timeout", .ofInt w.timeout), ("graceful_timeout", .ofInt w.timeout),
    ("keepalive", .ofNat 2), ("max_requests", .ofNat 2000), ("max_requests_jitter", .ofNat 100),
    ("accesslog", .string "-"), ("errorlog", .string "-"), ("loglevel", .string w.logLevel),
    ("proc_name", .string "ll1_analysis_api")]
  connections ++ others

def startLine (w : Workers) : Text :=
  "LL(1) API on " ++ w.bind ++ ": " ++ Text.ofInt w.count ++ " " ++ w.kind ++ " workers"

/-- What is logged when a worker took too long. -/
def abortLine (w : Workers) (process : Int) : Text :=
  "Worker " ++ Text.ofInt process ++ " aborted after " ++ Text.ofInt w.timeout ++
    "s; request too large?"

end Workers

end Deployment

end Predictive
