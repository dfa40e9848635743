import SplitPackages.Text.Pieces

/-!
# Directories

A `Directory` is a working directory held in memory: text files by their paths,
which bring the directories that they are in along. A path is followed segment
by segment, where empty segments and single dots stay, and two dots go up.
Nothing is known outside of the directory but the directories it is in.
-/

namespace SplitPackages.CommandLine

inductive FileError where
  | missing
  | isDirectory
  | notDirectory
  | other (text : String)
  deriving DecidableEq, Repr

def FileError.message : FileError → String
  | missing => "No such file or directory (os error 2)"
  | isDirectory => "Is a directory (os error 21)"
  | notDirectory => "Not a directory (os error 20)"
  | other text => text

structure Directory where
  files : List (String × String)

namespace Directory

def segments (path : String) : List (List Char) := path.toList.splitOn '/'

def location (name : String) : List (List Char) :=
  (segments name).filter fun s => s ≠ [] && s ≠ ['.']

/-- What is at a place: the text of a file, or nothing for a directory. -/
inductive Entry where
  | file (text : String)
  | directory

/-- What is at a place, which is given from the working directory down. -/
def entry? (d : Directory) (place : List (List Char)) : Option Entry :=
  match d.files.find? fun f => location f.1 = place with
  | some f => some (.file f.2)
  | none => if d.files.any fun f => place.isPrefixOf (location f.1) then some .directory else none

inductive Position where
  /-- So many directories above the working directory. -/
  | above (levels : Nat)
  /-- Below the working directory, the last segment first. -/
  | below (segments : List (List Char))

namespace Position

def up : Position → Position
  | above levels => above (levels + 1)
  | below [] => above 1
  | below (_ :: segments) => below segments

end Position

/-- Follows the segments of a path through directories. -/
def walk (d : Directory) : Position → List (List Char) → Except FileError Entry
  | _, [] => .ok .directory
  | p, segment :: rest =>
    if segment = [] || segment = ['.'] then walk d p rest
    else if segment = ['.', '.'] then walk d p.up rest
    else
      match p with
      | .above _ => .error .missing
      | .below segments =>
        match d.entry? (segment :: segments).reverse with
        | none => .error .missing
        | some .directory => walk d (.below (segment :: segments)) rest
        | some (.file text) => if rest.isEmpty then .ok (.file text) else .error .notDirectory

def read (d : Directory) (path : String) : Except FileError String :=
  let start := if path.toList.head? = some '/' then Position.above 0 else Position.below []
  match d.walk start (segments path) with
  | .ok (.file text) => .ok text
  | .ok .directory => .error .isDirectory
  | .error e => .error e

end Directory

end SplitPackages.CommandLine
