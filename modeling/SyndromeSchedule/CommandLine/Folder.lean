import SyndromeSchedule.CommandLine.Run

/-!
Commands run in a folder of texts. A path is followed name by name, from the working folder or from
the root; names and paths have a greatest length. Around the folder lies a system of which little is
known: the folders below its root, a few devices, and that the working folder lies in `/tmp`.
-/

namespace SyndromeSchedule

/-- Where names are counted from. -/
inductive Base where
  | working
  | root
deriving DecidableEq

/-- A place in the system, reached from its base by names. -/
structure Location where
  base : Base
  names : List (List Char)
deriving DecidableEq

namespace Location

/-- The folder commands run in. -/
def working : Location := ⟨.working, []⟩

/-- The folder of files for a while. -/
def scratch : Location := ⟨.root, [['t', 'm', 'p']]⟩

/-- The folder above. The working folder lies among the files for a while, and the root lies in
itself. -/
def parent : Location → Location
  | ⟨.working, []⟩ => scratch
  | ⟨base, names⟩ => ⟨base, names.dropLast⟩

def child (l : Location) (name : List Char) : Location := ⟨l.base, l.names ++ [name]⟩

def isBelow (inner outer : Location) : Bool :=
  inner ≠ outer && inner.base = outer.base && outer.names.isPrefixOf inner.names

/-- Folders that a system keeps below its root. -/
def system : List Location :=
  ["bin", "boot", "dev", "etc", "home", "lib", "media", "mnt", "opt", "proc", "root", "run",
    "sbin", "srv", "sys", "tmp", "usr", "var"].map fun name => ⟨.root, [name.toList]⟩

end Location

/-- Files that keep nothing: what is written to them is dropped or printed. -/
inductive Device where
  | null
  | stdout
  | stderr
deriving DecidableEq

namespace Device

def name : Device → String
  | null => "null"
  | stdout => "stdout"
  | stderr => "stderr"

def location (d : Device) : Location := ⟨.root, ["dev".toList, d.name.toList]⟩

def all : List Device := [null, stdout, stderr]

def ofLocation? (l : Location) : Option Device := all.find? (·.location = l)

end Device

/-- Names to follow from a location. -/
structure Path where
  start : Location
  names : List (List Char)

namespace Path

/-- Names between slashes, empty ones included. -/
def split : List Char → List (List Char)
  | [] => [[]]
  | c :: rest =>
      match c, split rest with
      | '/', names => [] :: names
      | c, name :: names => (c :: name) :: names
      | c, [] => [[c]]

/-- Bytes a path has to stay below. -/
def byteLimit : Nat := 4096

/-- Bytes a name may have. -/
def nameLimit : Nat := 255

def byteCount (name : List Char) : Nat :=
  name.foldl (fun n c => n + c.utf8Size) 0

/-- The path a text stands for. A slash in front leads to the root; the empty text leads nowhere. -/
def ofText (text : String) : Except FileError Path :=
  let chars := text.toList
  if byteLimit ≤ byteCount chars then .error .tooLong
  else
    match chars with
    | [] => .error .missing
    | '/' :: rest => .ok ⟨⟨.root, []⟩, split rest⟩
    | chars => .ok ⟨.working, split chars⟩

/-- Names up to the last that is not empty. -/
def trimmed (p : Path) : List (List Char) :=
  (p.names.reverse.dropWhile List.isEmpty).reverse

def endsInSlash (p : Path) : Bool := p.names.getLast? = some []

/-- The way to the folder that the last name is looked up in. -/
def toFolder (p : Path) : Path := ⟨p.start, p.trimmed.dropLast ++ [[]]⟩

end Path

/-- Files by their locations. -/
structure Folder where
  files : List (Location × String) := []

namespace Folder

/-- A folder lies where a path can start, where a file lies below, and where the system keeps
one. -/
def isFolder (f : Folder) (l : Location) : Bool :=
  l.names.isEmpty || Location.system.contains l || f.files.any fun e => e.1.isBelow l

/-- One name from a location. Only in a folder is a name looked up. -/
def step (f : Folder) (here : Location) (name : List Char) : Except FileError Location :=
  if f.isFolder here then
    if name = [] ∨ name = ['.'] then .ok here
    else if name = ['.', '.'] then .ok here.parent
    else if Path.nameLimit < Path.byteCount name then .error .tooLong
    else .ok (here.child name)
  else if (f.files.lookup here).isSome then .error .notFolder
  else .error .missing

def follow (f : Folder) (p : Path) : Except FileError Location :=
  p.names.foldlM f.step p.start

def read (f : Folder) (text : String) : Except FileError String := do
  let location ← f.follow (← Path.ofText text)
  if f.isFolder location then .error .isFolder
  match f.files.lookup location with
  | some contents => return contents
  | none => .error .missing

def put (f : Folder) (l : Location) (contents : String) : Folder :=
  if (Device.ofLocation? l).isSome then f
  else ⟨(l, contents) :: f.files.filter (·.1 ≠ l)⟩

/-- Where a text can be written. A path that ends in a slash names a folder, whether there is one or
not. -/
def target (f : Folder) (text : String) : Except FileError Location := do
  let path ← Path.ofText text
  if path.endsInSlash then
    let _ ← f.follow path.toFolder
    .error .isFolder
  let location ← f.follow path
  if f.isFolder location then .error .isFolder
  return location

/-- A working folder with files of the given names. -/
def ofList (files : List (String × String)) : Folder :=
  ⟨Device.all.map (fun d => (d.location, "")) ++
    files.map fun e => (⟨.working, Path.split e.1.toList⟩, e.2)⟩

end Folder

/-- Prints a text that goes to a device. -/
def Effects.send (e : Effects) (contents : String) : Option Device → Effects
  | some .stdout => { e with stdout := contents ++ e.stdout }
  | some .stderr => { e with stderr := contents ++ e.stderr }
  | some .null | none => e

namespace Command

/-- Runs a command in a folder: what it prints, and the folder it leaves. -/
def runIn (c : Command) (f : Folder) : Outcome (Effects × Folder) := do
  let effects ← c.run (f.read c.source)
  match effects.file with
  | none => return (effects, f)
  | some (path, contents) =>
      let location ← Outcome.ofExcept .file (f.target path)
      return (effects.send contents (Device.ofLocation? location), f.put location contents)

end Command

end SyndromeSchedule
