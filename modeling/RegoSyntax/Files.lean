/-
# RegoSyntax.Files — a directory of files in memory.

The command line reads files through a function from paths to contents, so that everything it does
is a function of its arguments and of the files there are.  `Files` is a directory given by the
names of the files in it and below it; `Files.read` follows a path the way a file system does.
-/
import RegoSyntax.Text.Utf8

namespace RegoSyntax

/-- A reason why a file cannot be read. -/
inductive ReadFailure where
  | notFound
  | denied
  | isDirectory
  | notDirectory
  | notText
  | other (text : String)
deriving DecidableEq, Repr

/-- How a file system words a failure. -/
def ReadFailure.systemText : ReadFailure → String
  | notFound => "No such file or directory (os error 2)"
  | denied => "Permission denied (os error 13)"
  | isDirectory => "Is a directory (os error 21)"
  | notDirectory => "Not a directory (os error 20)"
  | notText => "stream did not contain valid UTF-8"
  | other text => text

/-- A way to read files: the text at a path, or why there is none. -/
abbrev FileReader : Type := String → Except ReadFailure String

/-- A directory: the contents of the files in it and below it, by their path from there. -/
structure Files where
  contents : List (List String × List UInt8)

namespace Files

/-- The segments of a path; the empty ones stand for a slash too many. -/
def segments (path : String) : List String := path.splitOn "/"

/-- A directory, from the paths of its files. -/
def ofList (files : List (String × List UInt8)) : Files :=
  ⟨files.map fun (path, bytes) => (segments path, bytes)⟩

/-- The contents of the file at a path. -/
def file? (fs : Files) (path : List String) : Option (List UInt8) :=
  (fs.contents.find? (·.1 == path)).map (·.2)

/-- Whether a path is a directory: the whole one, or one that a file is below. -/
def isDirectory (fs : Files) (path : List String) : Bool :=
  path.isEmpty || fs.contents.any fun (p, _) => path.isPrefixOf p && path != p

/-- Follow the segments of a path from a place.  Only directories are passed through, and the
place above the directory is unknown. -/
def follow (fs : Files) : (place : List String) → List String → Except ReadFailure (List String)
  | place, [] => .ok place
  | place, s :: rest =>
    if (fs.file? place).isSome then .error .notDirectory
    else if !fs.isDirectory place then .error .notFound
    else if s == "" || s == "." then follow fs place rest
    else if s == ".." then
      if place.isEmpty then .error .notFound else follow fs place.dropLast rest
    else follow fs (place ++ [s]) rest

/-- The text of the file at a path. -/
def read (fs : Files) : FileReader := fun path => do
  if path.isEmpty || path.startsWith "/" then throw .notFound
  let place ← fs.follow [] (segments path)
  match fs.file? place with
  | some bytes =>
    match Text.decode? bytes with
    | some text => return text
    | none => throw .notText
  | none => throw (if fs.isDirectory place then .isDirectory else .notFound)

end Files

end RegoSyntax
