import ImpCompiler.Text

/-!
# Files — a tree of files

A file store is a tree of directories with files in it, and the directory in which
the tool runs. A path is walked name by name, from the top if it starts with a slash
and else from that directory. Every place that the walk leaves has to be a directory,
also where the next name is `.` or `..`, so a path says more than the place it ends in.
-/

namespace ImpCompiler

set_option autoImplicit false

inductive FileCause where
  | missing | isDirectory | notDirectory | nameTooLong
  | other (reason : Text)
  deriving DecidableEq, Repr

def FileCause.text : FileCause → Text
  | .missing => "no such file or directory"
  | .isDirectory => "is a directory"
  | .notDirectory => "not a directory"
  | .nameTooLong => "file name too long"
  | .other reason => reason

structure FileError where
  /-- What was tried. -/
  action : Text
  path : Text
  cause : FileCause
  deriving DecidableEq, Repr

def FileError.message (e : FileError) : Text := e.action ++ " " ++ e.path ++ ": " ++ e.cause.text

/-- A place in the tree: the names that lead to it, the last one first. -/
abbrev Place := List Text

structure FileStore where
  /-- Where relative paths start. -/
  directory : Place
  files : List (Place × Text)
  deriving Repr

inductive Entry where
  | file (content : Text)
  | directory
  | vacant

/-- The names of a path: what stands before, between and after its slashes. -/
def pathNames : Text → List Text
  | [] => [[]]
  | b :: rest =>
    if b = 0x2F then [] :: pathNames rest
    else
      match pathNames rest with
      | [] => [[b]]
      | p :: ps => (b :: p) :: ps

def maxNameLength : Nat := 255

def maxPathLength : Nat := 4095

/-- Goes from a directory to what a name means in it; an empty name is the directory
itself. -/
def Place.step (place : Place) (name : Text) : Except FileCause Place :=
  if name.isEmpty || name == ("." : Text) then .ok place
  else if name == (".." : Text) then .ok place.tail
  else if maxNameLength < name.length then .error .nameTooLong
  else .ok (name :: place)

/-- Goes through names as long as they can be taken, whatever the tree holds. -/
def Place.follow (place : Place) (names : List Text) : Place :=
  names.foldl (fun p name => (p.step name).toOption.getD p) place

namespace FileStore

/-- A directory with files, which are named relative to it. -/
def ofFiles (directory : Place) (files : List (Text × Text)) : FileStore :=
  ⟨directory, files.map fun f => (directory.follow (pathNames f.1), f.2)⟩

/-- Whether a place is on the way to the tool's directory or to a file. -/
def isDirectory (s : FileStore) (place : Place) : Bool :=
  place.isSuffixOf s.directory || s.files.any fun f => place.isSuffixOf f.1.tail

def entry (s : FileStore) (place : Place) : Entry :=
  match s.files.lookup place with
  | some content => .file content
  | none => if s.isDirectory place then .directory else .vacant

def obstacle (s : FileStore) (place : Place) : Option FileCause :=
  match s.entry place with
  | .file _ => some .notDirectory
  | .directory => none
  | .vacant => some .missing

def walk (s : FileStore) (place : Place) : List Text → Except FileCause Place
  | [] => .ok place
  | name :: names =>
    match s.obstacle place with
    | some cause => .error cause
    | none =>
      match place.step name with
      | .error cause => .error cause
      | .ok next => s.walk next names

def origin (s : FileStore) (path : Text) : Place :=
  if path.head? = some 0x2F then [] else s.directory

def locate (s : FileStore) (path : Text) : Except FileCause Place :=
  if maxPathLength < path.length then .error .nameTooLong
  else s.walk (s.origin path) (pathNames path)

def read (s : FileStore) (path : Text) : Except FileError Text :=
  match s.locate path with
  | .error cause => .error ⟨"open", path, cause⟩
  | .ok place =>
    match s.entry place with
    | .file content => .ok content
    | .directory => .error ⟨"read", path, .isDirectory⟩
    | .vacant => .error ⟨"open", path, .missing⟩

/-- Where a file can be written under a path. A path that ends in a slash means a
directory, whether it exists or not, once the way to its last name does. -/
def outputPlace (s : FileStore) (path : Text) : Except FileError Place :=
  let names := pathNames path
  let closed := path.getLast? == some 0x2F
  let way := if closed then (names.reverse.dropWhile List.isEmpty).tail.reverse ++ [[]] else names
  if maxPathLength < path.length then .error ⟨"open", path, .nameTooLong⟩
  else
    match s.walk (s.origin path) way with
    | .error cause => .error ⟨"open", path, cause⟩
    | .ok place =>
      match s.entry place with
      | .directory => .error ⟨"open", path, .isDirectory⟩
      | _ => .ok place

def put (s : FileStore) (place : Place) (content : Text) : FileStore :=
  ⟨s.directory, (place, content) :: s.files.filter fun f => f.1 != place⟩

end FileStore

end ImpCompiler
