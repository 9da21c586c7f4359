import Predictive.CommandLine.Options

/-!
# Arguments of the console program

The console program takes a grammar file, any number of texts to parse,
and a switch for the journal. Help acts as soon as it is read;
everything wrong with the arguments comes out only after what stood
before it.
-/

namespace Predictive

namespace Console

def help : OptionSpec := ⟨'h', "help", false⟩

def string : OptionSpec := ⟨'s', "string", true⟩

def verbose : OptionSpec := ⟨'v', "verbose", false⟩

/-- The options of the program, in the order in which help lists
them. -/
def optionSpecs : List OptionSpec := [help, string, verbose]

def program : Text := "ll1"

def usage : Text := "usage: ll1 [-h] [-s STRINGS] [-v] [grammar]"

def helpText : Text := Text.unlines [
  usage,
  [],
  "LL(1) grammar analyser and predictive parser",
  [],
  "positional arguments:",
  "  grammar               file with one production per line, e.g. E->TX or",
  "                        X=+TX/ε",
  [],
  "options:",
  "  -h, --help            show this help message and exit",
  "  -s STRINGS, --string STRINGS",
  "                        string to parse; may be repeated. Without it, strings",
  "                        are read interactively",
  "  -v, --verbose         enable debug logging"]

/-- What the arguments ask for. -/
structure Options where
  /-- The file with the grammar; without one, productions are asked
  for. -/
  file : Option Text
  /-- The texts to parse, as they were given; without any, they are asked
  for. -/
  texts : List (Option Text)
  isVerbose : Bool
deriving DecidableEq

/-- What to do with a command line. -/
inductive Order where
  | help
  | refuse (e : UsageError)
  | work (options : Options)
deriving DecidableEq

/-- Carries out what was taken, as long as it is no call for help. -/
def Order.ofTaken (options : Options) (complaint : Option UsageError) : List Taken → Order
  | [] => match complaint with
    | some e => .refuse e
    | none => .work options
  | .positional t :: rest => ofTaken { options with file := some t } complaint rest
  | .option o value :: rest =>
    if o = Console.help then .help
    else if o = string then
      ofTaken { options with texts := options.texts ++ [value] } complaint rest
    else ofTaken { options with isVerbose := true } complaint rest

def Order.ofArgs (args : List Text) : Order :=
  let r := Reading.ofArgs optionSpecs args
  ofTaken ⟨none, [], false⟩ r.complaint? r.taken

end Console

end Predictive
