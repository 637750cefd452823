import MusicPart.CommandLine
import MusicPart.Quantity.Binary64

/-!
# The program

Files are read before the run, one for each argument that names one. A directory can be opened but
holds no text.
-/

namespace MusicPart.CommandLine

def contentOf (handle : IO.FS.Handle) : IO Text :=
  (fun bytes => bytes.data.toList) <$> handle.readBinToEnd <|> pure []

def readFile? (path : String) : IO (Option Text) :=
  (do return some (← contentOf (← IO.FS.Handle.mk path .read))) <|> pure none

def readFiles (paths : List String) : IO (List (Text × Text)) := do
  let contents ← paths.mapM fun path => do
    return (← readFile? path).map fun content => (Text.ofString path, content)
  return contents.filterMap id

/-- Whether the file was written. -/
def save (s : Saving) : IO Bool :=
  match String.fromUTF8? s.path.toByteArray with
  | none => pure false
  | some path =>
      (do IO.FS.writeBinFile path s.content.toByteArray; return true) <|> pure false

def saveAll (saving : Option Saving) : IO Bool :=
  match saving with
  | none => pure true
  | some s => save s

end MusicPart.CommandLine

open MusicPart in
def main (args : List String) : IO UInt32 := do
  let read ← CommandLine.readFiles args
  let files : CommandLine.Files := fun path => (read.find? (·.1 == path)).map (·.2)
  let outcome := CommandLine.run Float files (args.map Text.ofString)
  let outcome := outcome.settle (← CommandLine.saveAll outcome.saving)
  (← IO.getStderr).write outcome.errors.toByteArray
  (← IO.getStdout).write outcome.output.toByteArray
  return outcome.code.toUInt32
