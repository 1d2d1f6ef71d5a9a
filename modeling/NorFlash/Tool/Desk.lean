import NorFlash.Backend
import NorFlash.Session

/-!
# Desk — what a command works on

A command has an attached flash, a workspace and a place to print to. It may
fail; what it printed and wrote before stays.
-/

namespace NorFlash

/-- What a command works on; what was printed last comes first. -/
structure Desk where
  flash : Flash
  workspace : Workspace
  printed : List String := []

/-- A command of the tool. -/
abbrev Command := ExceptT ToolError (StateT Desk Proc)

namespace Command

variable {α : Type}

/-- Print a text. -/
def print (text : String) : Command Unit :=
  modify fun d => { d with printed := text :: d.printed }

/-- Go on with a result, or fail. -/
def ofResult (r : Except ToolError α) : Command α :=
  ExceptT.mk (pure r)

/-- Run an operation of the flash. -/
def onFlash (x : FlashProc α) : Command α :=
  ExceptT.lift fun d => do
    let (a, flash) ← x d.flash
    return (a, { d with flash })

/-- Read a file of the workspace. -/
def readFile (path : String) : Command Bytes := do
  ofResult (((← get).workspace.read path).mapError .file)

/-- Write a file of the workspace. -/
def writeFile (path : String) (bytes : Bytes) : Command Unit := do
  let workspace ← ofResult (((← get).workspace.write path bytes).mapError .file)
  modify ({ · with workspace })

/-- Move a session to `offset` and do something in it. -/
def startingAt (offset : UInt64) (body : Session.Call (Except ToolError α)) (s : Session) :
    FlashProc (Except ToolError α) :=
  match s.seek (.start offset) with
  | .error e => pure (.error (.session e))
  | .ok s => Prod.fst <$> body.run s

/-- Do something in a session that starts at `offset`; the session is closed
in every case. -/
def withSession (offset : UInt64) (body : Session.Call (Except ToolError α)) :
    Command α := do
  let result ← onFlash do
    match ← Session.openOn with
    | .error e => pure (.error (.driver e))
    | .ok s =>
      let result ← startingAt offset body s
      Session.close
      pure result
  ofResult result

end Command

end NorFlash
