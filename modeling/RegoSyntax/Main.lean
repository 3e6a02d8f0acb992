/-
# RegoSyntax.Main — the program.

Every argument that can be read as a file is read beforehand; all else is `Outcome.ofArgs`.
-/
import RegoSyntax.Command

open RegoSyntax

/-- The failure that an error of the file system stands for. -/
def readFailure : IO.Error → ReadFailure
  | .noFileOrDirectory .. => .notFound
  | .permissionDenied .. => .denied
  | .inappropriateType .. => .isDirectory
  | e => .other (toString e)

/-- Read a file. -/
def readFile (path : String) : IO (Except ReadFailure String) := do
  try
    let bytes ← IO.FS.readBinFile path
    match String.fromUTF8? bytes with
    | some text => return .ok text
    | none => return .error .notText
  catch e => return .error (readFailure e)

def main (args : List String) : IO UInt32 := do
  let contents ← args.mapM fun path => do return (path, ← readFile path)
  let read : FileReader := fun path =>
    ((contents.find? (·.1 == path)).map (·.2)).getD (.error .notFound)
  let outcome := Outcome.ofArgs read args
  IO.print outcome.stdout
  IO.eprint outcome.stderr
  return outcome.code.toUInt32
