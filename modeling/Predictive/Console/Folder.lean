import Predictive.Tally
import Predictive.Text.Encoder

/-!
# Files by their paths

The console program reads its grammar from a file in a folder that holds
files and no folders. A path is followed from the left, part by part: an
empty part and a single dot stay where they are, two dots lead out of the
folder and on to the root, and no part leads on from a file, not even an
empty one. So the first part that leads nowhere decides what is wrong
with a path, unless the whole cannot be a path. Outside the folder only
what every system has is to be found: the folders at the root, and the
device that is an empty file.
-/

namespace Predictive

namespace Console

/-! ## Refusals -/

/-- Why no file is found by a path. -/
inductive PathError where
  | unencodable (e : EncodingError)
  | zeroInside
  | missing
  | isFolder
  /-- A part leads on from a file. -/
  | notFolder
  | tooLong
deriving DecidableEq

/-- The wording of a refusal, which mostly names the path. -/
def PathError.message (path : Text) : PathError → Text
  | unencodable e => e.message
  | zeroInside => "embedded null byte"
  | missing => "[Errno 2] No such file or directory: " ++ Text.quoted path
  | isFolder => "[Errno 21] Is a directory: " ++ Text.quoted path
  | notFolder => "[Errno 20] Not a directory: " ++ Text.quoted path
  | tooLong => "[Errno 36] File name too long: " ++ Text.quoted path

/-! ## Paths as bytes -/

/-- How many bytes a code point takes in a path. -/
def byteCount (c : CodePoint) : Nat :=
  if c.isByte || c.toNat < 0x80 then 1
  else if c.toNat < 0x800 then 2
  else if c.toNat < 0x10000 then 3
  else 4

def pathSize (t : Text) : Nat := tally byteCount t

/-- What is wrong with a path wherever it leads. -/
def pathError? (path : Text) : Option PathError :=
  match Encoder.keepingBytes.refusal? path with
  | some e => some (.unencodable e)
  | none =>
    if path.contains (.char '\x00') then some .zeroInside
    else if path.isEmpty then some .missing
    else if 4096 ≤ pathSize path then some .tooLong
    else none

/-! ## Following paths -/

/-- A folder of files by their names. -/
abbrev Folder := List (Text × List UInt8)

/-- Where a path leads. -/
inductive Place where
  | here
  | root
  /-- The folder of the devices, at the root. -/
  | devices
  /-- Another folder next to the root. -/
  | outside
  | file (bytes : List UInt8)
deriving DecidableEq

/-- The folders at the root, without the one of the devices. -/
def rootFolders : List Text :=
  ["bin", "boot", "etc", "home", "lib", "media", "mnt", "opt", "proc", "root", "run", "sbin",
    "srv", "sys", "tmp", "usr", "var"]

namespace Folder

/-- What has a name in a place. -/
def find? (d : Folder) (p : Place) (name : Text) : Option Place :=
  match p with
  | .here => (d.lookup name).map .file
  | .root =>
    if name = "dev" then some .devices
    else if rootFolders.contains name then some .outside
    else none
  | .devices => if name = "null" then some (.file []) else none
  | _ => none

/-- Where one part of a path leads. -/
def step (d : Folder) (p : Place) (part : Text) : Except PathError Place :=
  match p with
  | .file _ => .error .notFolder
  | _ =>
    if part.isEmpty ∨ part = "." then .ok p
    else if part = ".." then .ok (if p = .here then .outside else .root)
    else if 255 < pathSize part then .error .tooLong
    else match d.find? p part with
      | some p => .ok p
      | none => .error .missing

def read (d : Folder) (path : Text) : Except PathError (List UInt8) :=
  match pathError? path with
  | some e => .error e
  | none => do
    let p ← (Text.pieces '/' path).foldlM d.step (if path.head? = some '/' then .root else .here)
    match p with
    | .file bytes => return bytes
    | _ => throw .isFolder

end Folder

end Console

end Predictive
