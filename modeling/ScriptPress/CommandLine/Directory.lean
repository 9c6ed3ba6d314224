import ScriptPress.Diagnostic.Failure

/-! # Directories

The files a command works on: one directory with named files in it, each a sequence of bytes.
-/
namespace ScriptPress

structure Directory where
  files : List (String × ByteArray) := []

namespace Directory

def bytes? (d : Directory) (name : String) : Option ByteArray :=
  (d.files.find? (·.1 == name)).map (·.2)

/-- Where a path leads: to the directory itself or one above it, to a name in the directory, which
must be a directory when a slash follows it, below such a name, or elsewhere. -/
inductive Place where
  | here
  | name (name : String) (slash : Bool)
  | below (name : String)
  | elsewhere
  deriving Repr, DecidableEq

/-- The parts of a path between its slashes. -/
def splitPath : List Char → List (List Char)
  | [] => [[]]
  | '/' :: rest => [] :: splitPath rest
  | c :: rest =>
    match splitPath rest with
    | part :: parts => (c :: part) :: parts
    | [] => [[c]]

/-- The parts that stand for the directory reached so far. -/
def isIdle (part : List Char) : Bool := part = [] || part = ['.']

/-- Where the parts of a path lead from the directory on. -/
def follow : List (List Char) → Place
  | [] => .here
  | part :: rest =>
    if isIdle part then follow rest
    else if part = ['.', '.'] then
      if rest.all fun p => isIdle p || p = ['.', '.'] then .here else .elsewhere
    else if rest.all (· = []) then .name (String.ofList part) (!rest.isEmpty)
    else .below (String.ofList part)

def place (path : String) : Place :=
  let parts := splitPath path.toList
  match path.toList with
  | [] => .elsewhere
  | '/' :: _ => if parts.all (· = []) then .here else .elsewhere
  | _ => follow parts

/-- The problem with a name that is used as a directory. -/
def throughFile (d : Directory) (name : String) : FileProblem :=
  if (d.bytes? name).isSome then .notADirectory else .missing

/-- The text of a file. -/
def read (d : Directory) (path : String) : Except FileProblem String :=
  match place path with
  | .here => .error .isDirectory
  | .elsewhere => .error .missing
  | .below name | .name name true => .error (d.throughFile name)
  | .name name false =>
    match d.bytes? name with
    | none => .error .missing
    | some bytes =>
      match String.fromUTF8? bytes with
      | some text => .ok text
      | none => .error .notText

/-- Puts a text into a file, which need not be there. -/
def write (d : Directory) (path text : String) : Except FileProblem Directory :=
  match place path with
  | .here | .name _ true => .error .isDirectory
  | .elsewhere => .error .missing
  | .below name => .error (d.throughFile name)
  | .name name false => .ok ⟨(name, text.toUTF8) :: d.files.filter (·.1 != name)⟩

end Directory
end ScriptPress
