import NorFlash.Bytes
import NorFlash.Text

/-!
# Workspace — the files a command sees

A workspace is the working directory of a command: files by name, where the
parts of a name between slashes are directories. The name of an absolute path
begins with an empty part, and one that leaves the workspace upwards with `..`
for each level. A path is looked up part by part; a failed look-up has a cause.
-/

namespace NorFlash

/-- Why a path cannot be read or written. -/
inductive FileFault where
  | notFound
  | isDirectory
  | notDirectory
  | nameTooLong
  | notText
  /-- The path holds a NUL, which no file name can. -/
  | nulInPath
  /-- Any other cause, in the words of the system. -/
  | system (text : String)
  deriving DecidableEq, Repr

/-- The wording of a fault. -/
def FileFault.message : FileFault → String
  | notFound => "No such file or directory (os error 2)"
  | isDirectory => "Is a directory (os error 21)"
  | notDirectory => "Not a directory (os error 20)"
  | nameTooLong => "File name too long (os error 36)"
  | notText => "stream did not contain valid UTF-8"
  | nulInPath => "file name contained an unexpected NUL byte"
  | system text => text

/-- A file name, taken apart at its slashes. -/
abbrev FileName := List (List Char)

/-- The most bytes that a part of a file name has. -/
def FileName.partLimit : Nat := 255

/-- A path has fewer bytes than these. -/
def FileName.pathLimit : Nat := 4096

/-- A name that only leads upwards, level by level, from the workspace. -/
def FileName.isAbove (name : FileName) : Bool :=
  name.all (· == ['.', '.'])

/-- A name of something that lies in the workspace. -/
def FileName.isInside (name : FileName) : Bool :=
  match name.head? with
  | some part => part != [] && part != ['.', '.']
  | none => true

/-- The directory that holds a directory. The root holds itself, and the
workspace lies in a directory of its own, level by level. -/
def FileName.parent (name : FileName) : FileName :=
  if name = [[]] then [[]]
  else if name.isAbove then name ++ [['.', '.']]
  else name.dropLast

theorem FileName.isAbove_parent {name : FileName} (h : name.isAbove = true) :
    name.parent.isAbove = true := by
  have hr : name ≠ [[]] := by rintro rfl; exact absurd h (by decide)
  have hp : name.parent = name ++ [['.', '.']] := by simp [FileName.parent, h, hr]
  rw [hp]
  simpa [FileName.isAbove] using h

/-- The name after one more part of a path: `.` and nothing stay, and `..`
goes up. -/
def FileName.step (name : FileName) (part : List Char) : FileName :=
  if part = [] ∨ part = ['.'] then name
  else if part = ['.', '.'] then name.parent
  else name ++ [part]

/-- The name that a path spells, if all its parts are in place. -/
def FileName.ofPath (path : String) : FileName :=
  match Text.pieces '/' path.toList with
  | [] :: parts => parts.foldl FileName.step [[]]
  | parts => parts.foldl FileName.step []

/-- Files by name, and directories that need not hold one of them. -/
structure Workspace where
  files : List (FileName × Bytes) := []
  directories : List FileName := []
  deriving DecidableEq, Repr

namespace Workspace

/-- The bytes of a file. -/
def find? (w : Workspace) (name : FileName) : Option Bytes :=
  w.files.lookup name

/-- A directory: the workspace itself and what it lies in, the root, a known
one, or one that holds a file. -/
def isDirectory (w : Workspace) (name : FileName) : Bool :=
  name.isAbove || name == [[]] || w.directories.contains name ||
    w.files.any fun (other, _) =>
      name.length < other.length && other.take name.length == name

/-- Follow the parts of a path from a directory. The last part may be missing,
but each must fit into a name. -/
def follow (w : Workspace) : (at_ : FileName) → List (List Char) → Except FileFault FileName
  | at_, [] => .ok at_
  | at_, part :: rest =>
    if w.isDirectory at_ then
      if FileName.partLimit < (part.map Char.utf8Size).sum then .error .nameTooLong
      else follow w (FileName.step at_ part) rest
    else if (w.find? at_).isSome then .error .notDirectory
    else .error .notFound

/-- The file name that the parts of a path mean. -/
def resolve (w : Workspace) : List (List Char) → Except FileFault FileName
  | [[]] => .error .notFound
  | [] :: parts => w.follow [[]] parts
  | parts => w.follow [] parts

/-- The parts of a path. -/
def partsOf (path : String) : Except FileFault (List (List Char)) :=
  if path.toList.contains '\x00' then .error .nulInPath
  else if FileName.pathLimit ≤ path.utf8ByteSize then .error .nameTooLong
  else .ok (Text.pieces '/' path.toList)

/-- The parts ahead of the last, in a path with slashes at its end. Such a path
means a directory. -/
def holderParts? (parts : List (List Char)) : Option (List (List Char)) :=
  if 1 < parts.length ∧ parts.getLast? = some [] then
    some (parts.reverse.dropWhile (·.isEmpty)).tail.reverse
  else
    none

/-- Read a file. -/
def read (w : Workspace) (path : String) : Except FileFault Bytes := do
  let name ← w.resolve (← partsOf path)
  if w.isDirectory name then throw .isDirectory
  else
    match w.find? name with
    | some bytes => return bytes
    | none => throw .notFound

/-- Read a file by its full path, where `home` is the path of the workspace.
The full path has to fit the limit as a whole; an absolute path has no home in
front of it. -/
def readUnder (w : Workspace) (home path : String) : Except FileFault Bytes :=
  if path.toList.head? = some '/' then w.read path
  else if FileName.pathLimit ≤ home.utf8ByteSize + 1 + path.utf8ByteSize then .error .nameTooLong
  else w.read path

theorem readUnder_eq_read {w : Workspace} {home path : String}
    (h : home.utf8ByteSize + 1 + path.utf8ByteSize < FileName.pathLimit) :
    w.readUnder home path = w.read path := by
  simp [readUnder, Nat.not_le.mpr h]

/-- Create a file or replace it. -/
def write (w : Workspace) (path : String) (bytes : Bytes) : Except FileFault Workspace := do
  let parts ← partsOf path
  match holderParts? parts with
  | some holder =>
    let _ ← w.resolve (holder ++ [['.']])
    throw .isDirectory
  | none =>
    let name ← w.resolve parts
    if w.isDirectory name then throw .isDirectory
    else return { w with files := (name, bytes) :: w.files.filter (·.1 != name) }

/-- Read a file of text. -/
def readText (w : Workspace) (path : String) : Except FileFault String := do
  match String.fromUTF8? (ByteArray.mk (← w.read path).toArray) with
  | some text => return text
  | none => throw .notText

/-- A workspace with these files. -/
def ofFiles (files : List (String × Bytes)) : Workspace where
  files := files.map fun (path, bytes) => (FileName.ofPath path, bytes)

end Workspace

end NorFlash
