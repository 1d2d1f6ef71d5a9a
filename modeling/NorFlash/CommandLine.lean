import NorFlash.Numeral
import NorFlash.Text

/-!
# CommandLine — arguments of the tool

Arguments are read from left to right. Options ahead of the subcommand belong
to the tool, those behind it to the subcommand; verbosity and the tuning file
may stand in either place, and the later place wins. An option with a value is
settled when the next one begins, so its faults come up there.
-/

namespace NorFlash

/-! ## Invocations -/

/-- What the tool is asked to do. -/
inductive Request where
  | info (backend : String)
  | read (backend output : String) (offset : Nat) (length : Option Nat)
  | write (backend input : String) (offset : Nat) (verify : Bool)
  | erase (backend : String) (offset size : Nat)
  | listBackends
  deriving DecidableEq, Repr

/-- A command line that was understood. -/
structure Invocation where
  verbose : Nat
  tuning : Option String
  request : Request
  deriving DecidableEq, Repr

namespace CommandLine

/-- Why arguments give no invocation. -/
inductive Stop where
  | help
  | version
  | usage
  deriving DecidableEq, Repr

/-- The subcommands. -/
inductive Subcommand where
  | info
  | read
  | write
  | erase
  | listBackends
  deriving DecidableEq, Repr

/-- The subcommand of this name. -/
def Subcommand.ofName? (name : String) : Option Subcommand :=
  match name with
  | "info" => some info
  | "read" => some read
  | "write" => some write
  | "erase" => some erase
  | "list-backends" => some listBackends
  | _ => none

/-- Options with a value. -/
inductive Key where
  | backend
  | output
  | input
  | offset
  | length
  | size
  | tuning
  deriving DecidableEq, Repr

/-- Options without a value. -/
inductive Switch where
  | verbose
  | verify
  | help
  | version
  deriving DecidableEq, Repr

/-- An option. -/
inductive Item where
  | key (k : Key)
  | switch (s : Switch)
  deriving DecidableEq, Repr

/-- An option with its spellings. -/
structure Spelling where
  item : Item
  long : String
  short : Option Char := none
  deriving DecidableEq, Repr

/-- Options that may stand anywhere. -/
def everywhere : List Spelling :=
  [⟨.switch .verbose, "verbose", some 'v'⟩, ⟨.key .tuning, "tuning", none⟩,
    ⟨.switch .help, "help", some 'h'⟩]

def backendOption : Spelling := ⟨.key .backend, "backend", some 'b'⟩

def offsetOption : Spelling := ⟨.key .offset, "offset", none⟩

/-- The options of a subcommand, or of the tool itself. -/
def spellings : Option Subcommand → List Spelling
  | none => ⟨.switch .version, "version", some 'V'⟩ :: everywhere
  | some .info => backendOption :: everywhere
  | some .read =>
    [backendOption, ⟨.key .output, "output", some 'o'⟩, offsetOption,
      ⟨.key .length, "length", some 'l'⟩] ++ everywhere
  | some .write =>
    [backendOption, ⟨.key .input, "input", some 'i'⟩, offsetOption,
      ⟨.switch .verify, "verify", none⟩] ++ everywhere
  | some .erase => [backendOption, offsetOption, ⟨.key .size, "size", none⟩] ++ everywhere
  | some .listBackends => everywhere

/-! ## Reading one place -/

/-- What has been read so far. -/
structure Reading where
  /-- Settled options. -/
  values : List (Key × String) := []
  verbose : Nat := 0
  verify : Bool := false
  /-- The option that is not settled yet, with its value if that has come. -/
  pending : Option (Key × Option String) := none
  deriving DecidableEq, Repr

/-- A value that its option takes: numbers are numerals, paths are not
empty. -/
def isValid (k : Key) (value : String) : Bool :=
  match k with
  | .backend => true
  | .output | .input | .tuning => value != ""
  | .offset | .length | .size =>
    match Numeral.read value with
    | .ok _ => true
    | .error _ => false

namespace Reading

/-- The value of an option. -/
def value? (r : Reading) (k : Key) : Option String := r.values.lookup k

/-- Settle the pending option: it must have a value, a valid one, and come for
the first time. -/
def settle (r : Reading) : Except Stop Reading :=
  match r.pending with
  | none => .ok r
  | some (_, none) => .error .usage
  | some (k, some value) =>
    if (r.value? k).isSome || !isValid k value then .error .usage
    else .ok { r with values := (k, value) :: r.values, pending := none }

/-- Take an option without a value. -/
def switch (r : Reading) (s : Switch) : Except Stop Reading := do
  let r ← r.settle
  match s with
  | .help => throw .help
  | .version => throw .version
  | .verbose => return { r with verbose := min 255 (r.verbose + 1) }
  | .verify => if r.verify then throw .usage else return { r with verify := true }

/-- Begin an option with a value. -/
def begin (r : Reading) (k : Key) : Except Stop Reading := do
  return { ← r.settle with pending := some (k, none) }

/-- Take an option with a value that is attached to it. -/
def attach (r : Reading) (k : Key) (value : String) : Except Stop Reading := do
  let r ← r.settle
  settle { r with pending := some (k, some value) }

/-- The pending option waits for its value. -/
def awaitsValue (r : Reading) : Bool := r.pending.any (·.2.isNone)

/-- Give the pending option its value. -/
def give (r : Reading) (value : String) : Reading :=
  { r with pending := r.pending.map fun (k, _) => (k, some value) }

end Reading

/-- Take the options of a cluster of short ones. -/
def readCluster (options : List Spelling) : List Char → Reading → Except Stop Reading
  | [], r => .ok r
  | c :: rest, r =>
    match options.find? (·.short == some c) with
    | none => .error .usage
    | some ⟨.switch s, _, _⟩ => do readCluster options rest (← r.switch s)
    | some ⟨.key k, _, _⟩ =>
      match rest with
      | [] => r.begin k
      | '=' :: value => r.attach k (String.ofList value)
      | value => r.attach k (String.ofList value)

/-- Take a long option, with its value if one is attached. -/
def readLong (options : List Spelling) (name : List Char) (value : Option (List Char))
    (r : Reading) : Except Stop Reading :=
  match options.find? (·.long.toList == name) with
  | none => .error .usage
  | some ⟨.switch s, _, _⟩ => if value.isSome then .error .usage else r.switch s
  | some ⟨.key k, _, _⟩ =>
    match value with
    | none => r.begin k
    | some value => r.attach k (String.ofList value)

/-- An argument that looks like an option: a hyphen and something behind it. -/
def looksLikeOption : List Char → Bool
  | '-' :: _ :: _ => true
  | _ => false

/-- Take an argument that looks like an option. -/
def readOption (options : List Spelling) (argument : List Char) (r : Reading) :
    Except Stop Reading :=
  match argument with
  | '-' :: '-' :: long =>
    match Text.splitFirst? '=' long with
    | some (name, value) => readLong options name (some value) r
    | none => readLong options long none r
  | '-' :: cluster => readCluster options cluster r
  | _ => .error .usage

/-! ## Subcommands -/

/-- Read the arguments of a subcommand. Behind a lone double hyphen nothing
may follow. -/
def readRest (options : List Spelling) : List String → Reading → Except Stop Reading
  | [], r => r.settle
  | argument :: rest, r =>
    let text := argument.toList
    if argument = "--" then
      if rest.isEmpty then r.settle else .error .usage
    else if looksLikeOption text then do
      readRest options rest (← readOption options text r)
    else if r.awaitsValue then
      readRest options rest (r.give argument)
    else
      .error .usage

/-- A required value. -/
def required (r : Reading) (k : Key) : Except Stop String :=
  match r.value? k with
  | some value => .ok value
  | none => .error .usage

/-- The number an option gives, if it was given. -/
def number? (r : Reading) (k : Key) : Option Nat :=
  (r.value? k).bind fun value => (Numeral.read value).toOption

/-- The request of a subcommand. -/
def request (s : Subcommand) (r : Reading) : Except Stop Request := do
  let offset := (number? r .offset).getD 0
  match s with
  | .info => return .info (← required r .backend)
  | .read =>
    return .read (← required r .backend) (← required r .output) offset (number? r .length)
  | .write =>
    return .write (← required r .backend) (← required r .input) offset r.verify
  | .erase =>
    let backend ← required r .backend
    let _ ← required r .offset
    return .erase backend offset ((number? r .size).getD 0x1000)
  | .listBackends => return .listBackends

/-- What help about these names leads to: one subcommand at most has help. -/
def helpOn : List String → Stop
  | [] => .help
  | [name] => if name = "help" ∨ (Subcommand.ofName? name).isSome then .help else .usage
  | _ => .usage

/-- Read the arguments behind the subcommand; `outer` was read ahead of it. -/
def readSubcommand (s : Subcommand) (outer : Reading) (arguments : List String) :
    Except Stop Invocation := do
  let inner ← readRest (spellings (some s)) arguments {}
  let request ← request s inner
  let outer ← outer.settle
  return {
    verbose := if inner.verbose = 0 then outer.verbose else inner.verbose
    tuning := (inner.value? .tuning).or (outer.value? .tuning)
    request }

/-- Read arguments up to the subcommand, and the subcommand. -/
def readArguments : List String → Reading → Except Stop Invocation
  | [], r => do
    let _ ← r.settle
    throw .usage
  | argument :: rest, r =>
    if argument = "--" then .error .usage
    else if looksLikeOption argument.toList then do
      readArguments rest (← readOption (spellings none) argument.toList r)
    else if r.awaitsValue then
      readArguments rest (r.give argument)
    else if argument = "help" then .error (helpOn rest)
    else
      match Subcommand.ofName? argument with
      | some s => readSubcommand s r rest
      | none => .error .usage

/-- Understand the arguments of the tool. -/
def parse (arguments : List String) : Except Stop Invocation :=
  readArguments arguments {}

end CommandLine

end NorFlash
