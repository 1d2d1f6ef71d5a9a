import NorFlash.Emulator
import NorFlash.Flash
import NorFlash.Tuning.Document
import NorFlash.Workspace

/-!
# Backend — where a register block comes from

A backend is named by a text: a name, and behind a colon options
`key=value` between commas. Two backends exist: the emulator, and a window of
physical memory.
-/

namespace NorFlash

/-! ## Backend texts -/

/-- A backend text, taken apart. -/
structure BackendText where
  name : List Char
  options : List (List Char × List Char)
  deriving DecidableEq, Repr

namespace BackendText

/-- Take a text apart: the name ends at the first colon; each piece between
commas that holds an equals sign is an option, cut at the first one. -/
def parse (text : List Char) : BackendText :=
  match Text.splitFirst? ':' text with
  | some (name, options) =>
    { name, options := (Text.pieces ',' options).filterMap (Text.splitFirst? '=') }
  | none => { name := text, options := [] }

/-- Put a text together. -/
def render (b : BackendText) : List Char :=
  b.name ++ ':' :: Text.joined ',' (b.options.map fun (key, value) => key ++ '=' :: value)

end BackendText

/-! ## Errors of the tool -/

/-- What is wrong with the value of a backend option. -/
inductive OptionFault where
  | number (refusal : Numeral.Refusal)
  | unknownVendor (name : String)
  | codeTooLarge
  deriving DecidableEq, Repr

/-- The wording of a fault. -/
def OptionFault.message : OptionFault → String
  | number refusal => refusal.message
  | unknownVendor name => "unknown vendor '" ++ name ++ "'"
  | codeTooLarge => "capacity code must fit in one byte"

/-- Why a window of physical memory cannot be used. -/
inductive WindowFault where
  | tooSmall (size : Nat)
  | unaligned (base : UInt64)
  | notMappable (fault : FileFault)
  deriving DecidableEq, Repr

/-- The wording of a fault. -/
def WindowFault.message : WindowFault → String
  | tooSmall size =>
    "mapping of " ++ Numeral.hexWord size ++ " bytes is smaller than the " ++
      Numeral.hexWord registerBlockSize ++ " byte register block"
  | unaligned base => "base address " ++ Numeral.hexWord base.toNat ++ " is not 32-bit aligned"
  | notMappable fault => "failed to open /dev/mem: " ++ fault.message

/-- Why a tuning file cannot be used. -/
inductive TuningFault where
  | unreadable (path : String) (fault : FileFault)
  | refused (refusal : Tuning.Document.Refusal)
  deriving DecidableEq, Repr

/-- The wording of a fault. -/
def TuningFault.message : TuningFault → String
  | unreadable path fault =>
    "failed to read tuning file '" ++ path ++ "': " ++ fault.message
  | refused refusal => refusal.message

/-- Load a tuning from a file of the workspace. -/
def Tuning.load (w : Workspace) (path : String) : Except TuningFault Tuning := do
  let text ← (w.readText path).mapError (.unreadable path)
  (Document.read text).mapError .refused

/-- Why a command of the tool failed. -/
inductive ToolError where
  | unknownBackend (name : String)
  | unknownOption (key : String)
  | invalidOption (key : String) (fault : OptionFault)
  | missingOption (key : String)
  | driver (error : Error)
  | tuning (fault : TuningFault)
  | window (fault : WindowFault)
  | session (error : IoError)
  | file (fault : FileFault)
  | outOfRange (offset : UInt64) (capacity : Nat)
  | verifyFailed (offset : UInt64)
  deriving DecidableEq, Repr

/-! ## Opening -/

namespace Backend

/-- Names and descriptions of the backends. -/
def all : List (String × String) :=
  [("dummy",
      "In-memory controller emulator (vendor=<name>,code=<id>,fifo=<depth>,image=<file>)"),
    ("physmap",
      "Register block mapped through /dev/mem (base=<addr>[,len=<size>]) - requires root")]

/-- The names of the backends, as a list for users. -/
def names : String :=
  String.intercalate ", " (all.map (·.1))

/-- An option with its key and value as strings. -/
abbrev Setting := String × String

/-- The number that an option gives. -/
def number (s : Setting) : Except ToolError Nat :=
  (Numeral.read s.2).mapError fun refusal => .invalidOption s.1 (.number refusal)

/-- The emulator that options describe, and its image file. -/
structure EmulatorPlan where
  config : EmulatorConfig := {}
  image : Option String := none
  deriving DecidableEq, Repr

/-- Take one option of the emulator. -/
def EmulatorPlan.set (plan : EmulatorPlan) (s : Setting) : Except ToolError EmulatorPlan := do
  match s.1 with
  | "vendor" =>
    match Vendor.ofName? s.2 with
    | some vendor => return { plan with config := { plan.config with vendorId := vendor.id } }
    | none => throw (.invalidOption s.1 (.unknownVendor s.2))
  | "code" =>
    let code ← number s
    if code < 256 then
      return { plan with config := { plan.config with capacityCode := UInt8.ofNat code } }
    else
      throw (.invalidOption s.1 .codeTooLarge)
  | "fifo" =>
    return { plan with config := { plan.config with fifoDepth := ← number s } }
  | "image" => return { plan with image := some s.2 }
  | key => throw (.unknownOption key)

/-- The window that options describe. -/
structure WindowPlan where
  base : Option UInt64 := none
  size : Nat := registerBlockSize
  deriving DecidableEq, Repr

/-- Take one option of the window. -/
def WindowPlan.set (plan : WindowPlan) (s : Setting) : Except ToolError WindowPlan := do
  match s.1 with
  | "base" => return { plan with base := some (UInt64.ofNat (← number s)) }
  | "len" => return { plan with size := ← number s }
  | key => throw (.unknownOption key)

/-- Why a window cannot be opened. A window that could be mapped is refused
all the same, as physical memory is out of reach here. -/
def WindowPlan.refuse (plan : WindowPlan) : ToolError :=
  match plan.base with
  | none => .missingOption "base"
  | some base =>
    if plan.size < registerBlockSize then .window (.tooSmall plan.size)
    else if base.toNat % 4 ≠ 0 then .window (.unaligned base)
    else .window (.notMappable .notFound)

/-- A device that a backend opened: an emulator, and the length of the image
that was loaded into it. -/
structure Device where
  emulator : Emulator
  imageLen : Option Nat := none

/-- Build the emulator and load its image. -/
def EmulatorPlan.build (plan : EmulatorPlan) (w : Workspace) : Except ToolError Device := do
  let e := Emulator.ofConfig plan.config
  match plan.image with
  | none => return { emulator := e }
  | some path =>
    let image ← (w.read path).mapError .file
    return { emulator := (e.load 0 0 image).1, imageLen := some image.length }

/-- Open the device that a backend text describes. -/
def openDevice (text : String) (w : Workspace) : Except ToolError Device := do
  let parsed := BackendText.parse text.toList
  let settings : List Setting :=
    parsed.options.map fun (key, value) => (String.ofList key, String.ofList value)
  match String.ofList parsed.name with
  | "dummy" => (← settings.foldlM EmulatorPlan.set {}).build w
  | "physmap" => throw (← settings.foldlM WindowPlan.set {}).refuse
  | name => throw (.unknownBackend name)

/-- Attach to an opened device. -/
def attach (imageLen : Option Nat) (tuning : Tuning) : ExceptT ToolError Proc Flash := do
  if let some n := imageLen then
    Proc.log (.imageLoaded n)
  let flash ← ExceptT.adapt .driver (Flash.attach tuning)
  Proc.log (.flashOpened flash.vendor flash.capacity flash.fifoDepth)
  return flash

end Backend

/-- The wording of an error of the tool. -/
def ToolError.message : ToolError → String
  | unknownBackend name => "unknown backend '" ++ name ++ "' (available: " ++ Backend.names ++ ")"
  | unknownOption key => "unknown backend option '" ++ key ++ "'"
  | invalidOption key fault =>
    "invalid value for backend option '" ++ key ++ "': " ++ fault.message
  | missingOption key => "missing backend option '" ++ key ++ "'"
  | driver error => error.message
  | tuning fault => fault.message
  | window fault => fault.message
  | session error => "I/O error: " ++ error.message
  | file fault => "I/O error: " ++ fault.message
  | outOfRange offset capacity =>
    "offset " ++ Numeral.hexWord offset.toNat ++ " is beyond the flash size " ++
      Numeral.hexWord capacity
  | verifyFailed offset => "verification failed at offset " ++ Numeral.hexWord offset.toNat

end NorFlash
