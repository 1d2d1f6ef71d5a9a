import NorFlash.CommandLine
import NorFlash.Tool.Commands

/-!
# Tool — from arguments to output

`Tool.run` is the tool as a function: arguments and a workspace give an exit
code, what is printed, log lines and the workspace afterwards.
-/

namespace NorFlash.Tool

/-- What a run of the tool leaves behind. -/
structure Outcome where
  exitCode : Nat := 0
  stdout : String := ""
  stderr : String := ""
  log : List Message := []
  workspace : Workspace

/-- The text that help shows. -/
def helpText : String :=
  "QSPI NOR flash controller tool\n\n" ++
  "Usage: qspiflash [OPTIONS] <COMMAND>\n\n" ++
  "Commands:\n" ++
  "  info           Show the detected flash\n" ++
  "  read           Read flash contents to a file\n" ++
  "  write          Write a file to flash\n" ++
  "  erase          Erase one 4, 32 or 64 KiB page\n" ++
  "  list-backends  List the backends\n" ++
  "  help           Show this text\n\n" ++
  "Options:\n" ++
  "  -v, --verbose          Log more (repeat for still more)\n" ++
  "      --tuning <TUNING>  TOML file with controller tuning values\n" ++
  "  -h, --help             Show this text\n" ++
  "  -V, --version          Show the version\n\n" ++
  "Backends: " ++ Backend.names ++ "\n"

/-- The text that the version option shows. -/
def versionText : String := "qspiflash 0.1.0\n"

/-- The text that a command line that is not understood is answered with. -/
def usageText : String :=
  "error: the arguments were not understood\n\nFor more information, try '--help'.\n"

/-- The log lines that a verbosity lets through. -/
def ruleFor (verbose : Nat) : RecordingRule where
  threshold := some (match verbose with
    | 0 => .info
    | 1 => .debug
    | _ => .trace)

/-- The outcome of a failed run. -/
def failed (message : String) (w : Workspace) (printed : String := "")
    (log : List Message := []) : Outcome where
  exitCode := 1
  stdout := printed
  stderr := "Error: " ++ message ++ "\n"
  log
  workspace := w

/-- Open the backend, attach and carry out a command. -/
def onBackend (backend : String) (tuning : Tuning) (rule : RecordingRule) (w : Workspace)
    (command : Command Unit) : Outcome :=
  match Backend.openDevice backend w with
  | .error e => failed e.message w
  | .ok device =>
    let work : Proc (Except ToolError Unit × List String × Workspace) := do
      match ← (Backend.attach device.imageLen tuning).run with
      | .error e => return (.error e, [], w)
      | .ok flash =>
        let (result, desk) ← command.run.run { flash, workspace := w }
        return (result, desk.printed, desk.workspace)
    let (ending, recording) :=
      work.run (Emulator.block.recorded rule) { inner := device.emulator }
    let log := recording.log.reverse
    match ending with
    | none => failed "a bounds check failed" w "" log
    | some (result, printed, w) =>
      let stdout := String.join printed.reverse
      match result with
      | .ok () => { stdout, log, workspace := w }
      | .error e => failed e.message w stdout log

/-- Carry out a request. -/
def perform (request : Request) (tuning : Tuning) (rule : RecordingRule) (w : Workspace) :
    Outcome :=
  match request with
  | .info backend => onBackend backend tuning rule w Command.info
  | .read backend output offset length =>
    onBackend backend tuning rule w (Command.read output (UInt64.ofNat offset) length)
  | .write backend input offset verify =>
    onBackend backend tuning rule w (Command.write input (UInt64.ofNat offset) verify)
  | .erase backend offset size =>
    onBackend backend tuning rule w (Command.erase (UInt64.ofNat offset) size)
  | .listBackends => { stdout := Command.backendList, workspace := w }

/-- Carry out an invocation. -/
def invoke (i : Invocation) (w : Workspace) : Outcome :=
  let rule := ruleFor i.verbose
  match i.tuning with
  | none => perform i.request {} rule w
  | some path =>
    match Tuning.load w path with
    | .error fault => failed (ToolError.tuning fault).message w
    | .ok tuning =>
      let outcome := perform i.request tuning rule w
      { outcome with log := .tuningLoaded path :: outcome.log }

/-- Run the tool. -/
def run (arguments : List String) (w : Workspace) : Outcome :=
  match CommandLine.parse arguments with
  | .ok i => invoke i w
  | .error .help => { stdout := helpText, workspace := w }
  | .error .version => { stdout := versionText, workspace := w }
  | .error .usage => { exitCode := 2, stderr := usageText, workspace := w }

/-! ## Files a run needs -/

/-- The image file that a backend text names. -/
def imagePaths (backend : String) : List String :=
  (BackendText.parse backend.toList).options.filterMap fun (key, value) =>
    if key = "image".toList then some (String.ofList value) else none

/-- The backend of a request. -/
def backendOf : Request → List String
  | .info backend | .read backend .. | .write backend .. | .erase backend .. => [backend]
  | .listBackends => []

/-- Paths that an invocation may read. -/
def inputs (i : Invocation) : List String :=
  let input := match i.request with
    | .write _ input _ _ => [input]
    | _ => []
  i.tuning.toList ++ input ++ (backendOf i.request).flatMap imagePaths

/-- Paths that an invocation may write. -/
def outputs (i : Invocation) : List String :=
  match i.request with
  | .read _ output _ _ => [output]
  | _ => []

end NorFlash.Tool
