import Predictive.CommandLine.Options
import Predictive.CommandLine.Output
import Predictive.Deployment.Workers
import Predictive.Service.Settings

/-!
# Launching the service

The launcher reads from its arguments in which of three modes the
service is to run, prints what it is about to start, and starts it: the
development server, or a server program with its settings in a file or
on its command line. The development server needs settings of the service
that can be used; before the server program with a settings file is
started, the packages it needs are looked for. `launch` says what is
printed and what is started, and starts nothing.
-/

namespace Predictive

namespace Deployment

/-! ## Arguments -/

/-- How the service is run. -/
inductive Mode where
  | development
  | production
  | plainProduction
deriving DecidableEq

namespace Mode

def all : List Mode := [development, production, plainProduction]

def name : Mode → Text
  | development => "dev"
  | production => "prod"
  | plainProduction => "prod-simple"

def ofName? (t : Text) : Option Mode := all.find? fun m => m.name == t

end Mode

def help : OptionSpec := ⟨'h', "help", false⟩

def listening : OptionSpec := ⟨'p', "port", true⟩

/-- The options of the launcher, in the order in which help lists
them. -/
def optionSpecs : List OptionSpec := [help, listening]

def program : Text := "start_server.py"

def usage : Text := "usage: start_server.py [-h] [-p PORT] [\x7bdev,prod,prod-simple\x7d]"

def helpText : Text := Text.unlines [
  usage,
  [],
  "LL(1) grammar analysis API server",
  [],
  "positional arguments:",
  "  \x7bdev,prod,prod-simple\x7d",
  "                        run mode: dev=development, prod=production",
  "                        (recommended), prod-simple=production without",
  "                        gunicorn.conf.py",
  [],
  "options:",
  "  -h, --help            show this help message and exit",
  "  -p PORT, --port PORT  port for dev and prod-simple modes"]

/-- What the arguments ask for. -/
structure Plan where
  mode : Mode
  /-- The port, when the option for it was given one. -/
  portNumber : Option Int
deriving DecidableEq

/-- What to do with a command line. -/
inductive Order where
  | help
  | refuse (e : UsageError)
  | launch (plan : Plan)
deriving DecidableEq

/-- Carries out what was taken, as long as it is no call for help and
nothing is wrong with it. -/
def Order.ofTaken (plan : Plan) (complaint : Option UsageError) : List Taken → Order
  | [] => match complaint with
    | some e => .refuse e
    | none => .launch plan
  | .positional t :: rest =>
    match Mode.ofName? t with
    | some mode => ofTaken { plan with mode } complaint rest
    | none => .refuse (.notAChoice "mode" t (Mode.all.map Mode.name))
  | .option o value :: rest =>
    if o = Deployment.help then .help
    else match value with
      | none => ofTaken { plan with portNumber := none } complaint rest
      | some t =>
        match Text.toInt t with
        | .ok n => ofTaken { plan with portNumber := some n } complaint rest
        | .error _ => .refuse (.notInteger o t)

def Order.ofArgs (args : List Text) : Order :=
  let r := Reading.ofArgs optionSpecs args
  ofTaken ⟨.development, some 5000⟩ r.complaint? r.taken

/-! ## Starting -/

inductive Start where
  /-- The development server, and where it listens. -/
  | development (host : Text) (portNumber : Option Int)
  /-- The server program, with arguments. -/
  | server (arguments : List Text)
deriving DecidableEq

/-- What the launcher comes to. -/
inductive Next where
  | exit (code : Nat)
  | start (what : Start)
  /-- The settings of the service cannot be used. -/
  | broken (e : Service.SettingsError)

/-- What the server program is to serve. -/
def application : Text := "server:create_app()"

def serverPackage : Text := "gunicorn"

/-- The arguments of the server program with its settings in a file. -/
def productionArguments : List Text :=
  ["-m", serverPackage, "-c", "gunicorn.conf.py", application]

/-- The arguments of the server program with its settings among them. A
port that is missing is shown as an empty list. -/
def plainArguments (portNumber : Option Int) : List Text :=
  let place : Text := "0.0.0.0:" ++ (portNumber.map Text.ofInt).getD "[]"
  ["-m", serverPackage, "-w", "4", "-b", place, "--timeout", "60", "--access-logfile", "-",
    "--error-logfile", "-", "--log-level", "info", application]

def banner (line : Text) : List Text :=
  let rule : Text := List.replicate 60 '='
  [rule, line, rule]

/-- The packages that workers of a kind need, with the names under which
their versions are told. -/
def neededPackages (kind : Text) : List (Text × Text) :=
  (serverPackage, ("Gunicorn" : Text)) :: if kind = "gevent" then [("gevent", "Gevent")] else []

/-- Looks for packages: the lines about those that were found, and the
first that was not. -/
def checkPackages (version : Text → Option Text) :
    List (Text × Text) → List Text × Option Text
  | [] => ([], none)
  | (name, title) :: rest =>
    match version name with
    | none => ([], some name)
    | some v =>
      let (found, missing) := checkPackages version rest
      ((title ++ " " ++ v) :: found, missing)

/-- Carries out a plan, given the environment and the versions of the
packages that are installed. -/
def carryOut (env : Environment) (version : Text → Option Text) (plan : Plan) : Output × Next :=
  match plan.mode with
  | .development =>
    (.lines (banner "Starting development server (Flask)"),
      match Service.Settings.make env [] with
      | .ok _ => .start (.development "0.0.0.0" plan.portNumber)
      | .error e => .broken e)
  | .production =>
    let kind := workerClass env
    let opening := banner ("Starting production server (Gunicorn, " ++ kind ++ " workers)")
    let (found, missing) := checkPackages version (neededPackages kind)
    match missing with
    | none => (.lines (opening ++ found), .start (.server productionArguments))
    | some name =>
      (.lines (opening ++ found ++
        ["Missing dependency: No module named " ++ Text.quoted name,
          "Install the server extras: pip install -e .[server]"]), .exit 1)
  | .plainProduction =>
    (.lines (banner "Starting production server (Gunicorn, no config file)"),
      .start (.server (plainArguments plan.portNumber)))

/-- The whole launcher: what it prints, and how it ends or what it
starts. -/
def launch (args : List Text) (env : Environment) (version : Text → Option Text) :
    Output × Next :=
  match Order.ofArgs args with
  | .help => (.result helpText, .exit 0)
  | .refuse e => (.message (e.report program usage), .exit 2)
  | .launch plan => carryOut env version plan

end Deployment

end Predictive
