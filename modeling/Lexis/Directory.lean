import Lexis.Source.Basic
set_option autoImplicit false

/-!
A directory given by the paths of its files, and the meaning of a path in it. Paths that lead to the
same place name the same file, however they are spelled. A path is followed name by name, and only
directories can be passed through; of what lies outside, only the directories above are known.
-/
namespace Lexis

inductive Base where
  | above (levels : Nat)
  | top
  deriving DecidableEq, Repr

def Base.parent : Base → Base
  | .above levels => .above (levels + 1)
  | .top => .top

/-- A place is known by the names on the straight way down to it. -/
structure Place where
  base : Base
  names : List String
  deriving DecidableEq, Repr

namespace Place

def parent (p : Place) : Place :=
  match p.names with
  | [] => ⟨p.base.parent, []⟩
  | _ :: _ => ⟨p.base, p.names.dropLast⟩

def child (p : Place) (name : String) : Place := ⟨p.base, p.names ++ [name]⟩

/-- An empty name and one dot stay at a place, and two dots lead to its parent. -/
def enter (p : Place) (name : String) : Place :=
  if name = "" ∨ name = "." then p else if name = ".." then p.parent else p.child name

def reached (p : Place) (names : List String) : Place := names.foldl enter p

def passed (p : Place) : List String → List Place
  | [] => []
  | name :: rest => p :: (p.enter name).passed rest

def start (path : String) : Place := ⟨if path.toList.head? = some '/' then .top else .above 0, []⟩

end Place

structure Directory where
  files : List (Place × Array UInt8)
  folders : List Place
  deriving DecidableEq, Repr

namespace Directory

inductive Entry where
  | file (content : Array UInt8)
  | folder
  deriving DecidableEq, Repr

def empty : Directory := ⟨[], []⟩

def names (path : String) : List String := path.splitOn "/"

def write (d : Directory) (path : String) (content : Array UInt8) : Directory :=
  ⟨((Place.start path).reached (names path), content) :: d.files,
    (Place.start path).passed (names path) ++ d.folders⟩

def ofFiles (files : List (String × Array UInt8)) : Directory :=
  files.foldl (fun d (path, content) => d.write path content) empty

def entry? (d : Directory) (p : Place) : Option Entry :=
  match d.files.lookup p with
  | some content => some (.file content)
  | none => if p ∈ d.folders then some .folder else none

def longestName : Nat := 255

def longestPath : Nat := 4095

/-- Follows names from a directory. One that ends at a directory leads to nothing to be read. -/
def follow (d : Directory) (p : Place) : List String → Except LoadError (Array UInt8)
  | [] => .error .notMappable
  | name :: rest =>
    if name = "" ∨ name = "." ∨ name = ".." then d.follow (p.enter name) rest
    else if longestName < (utf8 name).length then .error .nameTooLong
    else
      match d.entry? (p.child name) with
      | none => .error .notFound
      | some .folder => d.follow (p.child name) rest
      | some (.file content) => if rest = [] then .ok content else .error .notADirectory

def load (d : Directory) (path : String) : Except LoadError (Array UInt8) :=
  if '\x00' ∈ path.toList then .error .nulInName
  else if path = "" then .error .notFound
  else if longestPath < (utf8 path).length then .error .nameTooLong
  else d.follow (Place.start path) (names path)

end Directory

end Lexis
