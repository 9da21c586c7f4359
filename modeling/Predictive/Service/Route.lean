import Predictive.Text.Digits

/-!
# Routes

Which endpoint a request reaches by its method and target. A target is
an address, of which only the path counts; its case matters, and escapes
in it stand for what they spell. Two slashes in place of one lead to the
endpoint by a redirect. There is a folder for files, with nothing in it.
-/

namespace Predictive

namespace Service

inductive Endpoint where
  | test
  | analysis
  | inputAnalysis
deriving DecidableEq

namespace Endpoint

def all : List Endpoint := [test, analysis, inputAnalysis]

def path : Endpoint → Text
  | test => "/api/test"
  | analysis => "/api/LL1Analyse"
  | inputAnalysis => "/api/LL1AnalyseInp"

/-- The methods by which an endpoint can be reached. -/
def methods : Endpoint → List Text
  | test => ["GET", "HEAD", "OPTIONS"]
  | _ => ["POST", "OPTIONS"]

end Endpoint

inductive Route where
  | endpoint (e : Endpoint)
  /-- To a place in the folder for files. -/
  | file
  | redirect
  | missing
  | wrongMethod
deriving DecidableEq

namespace Route

/-! ## The path of a target -/

/-- A letter, then letters, digits and three signs: the scheme of an
address. -/
def isScheme : Text → Bool
  | [] => false
  | c :: rest => Text.isLetter c &&
      rest.all fun c => Text.isLetter c || Text.isDigit c || ("+-." : Text).contains c

def dropScheme (address : Text) : Text :=
  match Text.partition ':' address with
  | (scheme, some rest) => if isScheme scheme then rest else address
  | _ => address

/-- An address that begins with its host, without the host. -/
def dropHost (address : Text) : Text :=
  match ("//" : Text).isPrefixOf? address with
  | some rest => rest.dropWhile fun c => c != .char '/' && c != .char '?' && c != .char '#'
  | none => address

/-- The path of an address: without control characters and spaces at its
front and line ends and tabs anywhere, without scheme and host, and
without a query and a fragment. -/
def pathOf (address : Text) : Text :=
  let shown := (address.dropWhile (· ≤ .char ' ')).filter fun c => !("\t\r\n" : Text).contains c
  (dropHost (dropScheme shown)).takeWhile fun c => c != .char '?' && c != .char '#'

/-- A path with each escape replaced by the code point of its number, as
far as ASCII is concerned. -/
def unescape : Text → Text
  | .char '%' :: a :: b :: rest =>
    match [a, b].mapM Text.hexValue? with
    | some digits => .ofNat (Text.ofDigits 16 digits) :: unescape rest
    | none => '%' :: unescape (a :: b :: rest)
  | c :: rest => c :: unescape rest
  | [] => []

/-- The path that a target leads to. A target is sent as an address in
the path of an address; the path in it begins with a single slash. -/
def place (target : Text) : Text :=
  '/' :: (unescape (pathOf (pathOf target))).dropWhile (· == .char '/')

/-! ## Where paths lead -/

/-- A path in which one slash stands for two that follow each other. -/
def mergeSlashes : Text → Text
  | .char '/' :: .char '/' :: rest => '/' :: mergeSlashes rest
  | c :: rest => c :: mergeSlashes rest
  | [] => []

def isFilePath (path : Text) : Bool :=
  match ("/static/" : Text).isPrefixOf? path with
  | some (c :: rest) => c != .char '/' && !rest.contains (.char '\n')
  | _ => false

/-- Where a method and a path lead, without regard to double slashes. -/
def ofPath (method path : Text) : Route :=
  match Endpoint.all.find? fun e => e.path == path with
  | some e => if e.methods.contains method then .endpoint e else .wrongMethod
  | none =>
    if !isFilePath path then .missing
    else if ([("GET" : Text), "HEAD", "OPTIONS"] : List Text).contains method then .file
    else .wrongMethod

/-- Where a request with a method and a target leads. -/
def of (method target : Text) : Route :=
  let method := Text.uppercase method
  let path := place target
  match ofPath method path with
  | .missing =>
    match ofPath method (mergeSlashes path) with
    | .endpoint _ => .redirect
    | .file => .redirect
    | route => route
  | route => route

end Route

end Service

end Predictive
