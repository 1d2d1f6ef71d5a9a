import NorFlash.Tool

/-!
# Main — the tool on real files

The files that the arguments name are read into a workspace, the tool runs as
a function, and changed files, log lines and output are written out.
-/

namespace NorFlash.Main

/-- Directories on the way to a path, by their own paths. -/
def parents (path : String) : List String :=
  let parts := Text.pieces '/' path.toList
  (List.range parts.length).filterMap fun n =>
    let front := String.ofList (Text.joined '/' (parts.take n))
    if front = "" then none else some front

/-- Add a file or directory to the workspace, if the path leads to one. -/
def gather (w : Workspace) (path : String) : IO Workspace := do
  try
    let bytes ← IO.FS.readBinFile path
    return { w with files := (FileName.ofPath path, bytes.toList) :: w.files }
  catch
    | .inappropriateType .. =>
      return { w with directories := FileName.ofPath path :: w.directories }
    | _ => return w

/-- The workspace that an invocation needs. -/
def prepare (i : Invocation) : IO Workspace := do
  let paths := Tool.inputs i ++ Tool.outputs i
  (paths.flatMap parents ++ paths).foldlM gather {}

/-- Write the files that a run changed. -/
def writeBack (i : Invocation) (before after : Workspace) : IO Unit := do
  for path in Tool.outputs i do
    let name := FileName.ofPath path
    if after.find? name != before.find? name then
      match after.find? name with
      | some bytes => IO.FS.writeBinFile path (ByteArray.mk bytes.toArray)
      | none => pure ()

end NorFlash.Main

open NorFlash in
/-- The command line tool. -/
def main (arguments : List String) : IO UInt32 := do
  let invocation := (CommandLine.parse arguments).toOption
  let w ← match invocation with
    | some i => Main.prepare i
    | none => pure {}
  let outcome := Tool.run arguments w
  for m in outcome.log do
    IO.eprintln ("[" ++ m.line ++ "]")
  if let some i := invocation then
    Main.writeBack i w outcome.workspace
  IO.print outcome.stdout
  IO.eprint outcome.stderr
  return UInt32.ofNat outcome.exitCode
