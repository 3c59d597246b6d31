/-
Where a run takes its sources from: the text of a file, why there is none, and
directories that are kept in memory.
-/
namespace MipsImage
namespace CommandLine

/-- Why a file cannot be read. -/
inductive ReadError where
  | notFound
  /-- A path goes on behind a file. -/
  | notADirectory
  /-- A path ends at a directory. -/
  | isADirectory
  | notUtf8
  | other (reason : String)
  deriving DecidableEq, Repr

namespace ReadError

def message : ReadError → String
  | notFound => "No such file or directory (os error 2)"
  | notADirectory => "Not a directory (os error 20)"
  | isADirectory => "Is a directory (os error 21)"
  | notUtf8 => "stream did not contain valid UTF-8"
  | other reason => reason

end ReadError

/-- The text of a file. -/
def decodeFile (bytes : ByteArray) : Except ReadError String :=
  match String.fromUTF8? bytes with
  | some text => .ok text
  | none => .error .notUtf8

/-! ## Directories

A place in a directory is the list of names that lead to it.  A path leads to a
place too, but by way of more names: an empty one, as between two slashes, and a
single dot stay where they are, and two dots go back. -/

/-- A directory of files, each at its place.  Directories within it are there for
the files in them and need no entry. -/
structure Directory where
  files : List (List String × ByteArray)

/-- Whether a name in a path leads nowhere. -/
def staysPut (name : String) : Bool :=
  name == "" || name == "."

namespace Directory

def ofFiles (files : List (String × ByteArray)) : Directory :=
  { files := files.map fun (name, contents) =>
      ((name.splitOn "/").filter fun part => !staysPut part, contents) }

/-- The file at a place.  Of two entered there it is the later one. -/
def fileAt? (d : Directory) (place : List String) : Option ByteArray :=
  d.files.reverse.lookup place

/-- Whether a place is the directory itself or on the way to a file. -/
def isDirectory (d : Directory) (place : List String) : Bool :=
  place.isEmpty || d.files.any fun (found, _) => place != found && place.isPrefixOf found

/-- What is wrong with a place that is no directory. -/
def noDirectory (d : Directory) (place : List String) : ReadError :=
  if (d.fileAt? place).isSome then .notADirectory else .notFound

/-- Follow the names of a path from a place.  Each name is looked up in a
directory, the last one included, and nothing above the directory is found. -/
def walk (d : Directory) (place : List String) : List String → Except ReadError (List String)
  | [] => .ok place
  | name :: rest =>
    if !d.isDirectory place then .error (d.noDirectory place)
    else if staysPut name then d.walk place rest
    else if name = ".." then
      if place.isEmpty then .error .notFound else d.walk place.dropLast rest
    else d.walk (place ++ [name]) rest

/-- The text of the file that a path leads to.  An empty path leads nowhere, and
an absolute one leads out of the directory. -/
def read (d : Directory) (path : String) : Except ReadError String :=
  match path.toList with
  | [] | '/' :: _ => .error .notFound
  | _ =>
    match d.walk [] (path.splitOn "/") with
    | .error e => .error e
    | .ok place =>
      match d.fileAt? place with
      | some contents => decodeFile contents
      | none => .error (if d.isDirectory place then .isADirectory else .notFound)

end Directory
end CommandLine
end MipsImage
