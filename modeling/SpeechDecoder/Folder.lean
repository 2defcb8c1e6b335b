/-!
# Folders

A program reads and writes the files of one folder.  A path names a file: its parts are divided by
slashes, an empty part and `.` stay in a folder, and `..` leaves it for the one around.  There are
no folders within the folder; of those around it, and of the root, only the files written by way of
the path are known.  A path holds no character NUL, and its size and that of its parts are limited.

* `resolve` says what a path leads to.
* `readText` and `write` read and write a file.  The last write of a file counts, whatever path it
  was written by.
* `extension?` is the extension of the file that a path names.
-/

namespace SpeechDecoder

/-- **What goes wrong with a file.** -/
inductive FileError where
  | notFound
  | isDirectory
  /-- A file stands where the path needs a folder. -/
  | notDirectory
  /-- The path holds a character that no path may hold. -/
  | badPath
  /-- The path or a part of it is too long. -/
  | longPath
  | notUtf8
  deriving DecidableEq, Repr

/-- **A folder, as it is seen from the one at hand.** -/
inductive Level where
  /-- So many levels up; the folder at hand is none up. -/
  | up (levels : Nat)
  /-- The folder around all others. -/
  | root
  deriving DecidableEq, Repr

/-- The folder around a folder; the root is around itself. -/
def Level.parent : Level → Level
  | up n => up (n + 1)
  | root => root

/-- **The place of a file.** -/
structure Place where
  level : Level
  name : List Char
  deriving DecidableEq, Repr

/-- **What a path leads to.** -/
inductive Target where
  /-- A folder. -/
  | folder
  /-- The place of a file, and whether the path goes on as if there were a folder. -/
  | file (place : Place) (slash : Bool)
  deriving DecidableEq, Repr

/-- **A folder:** its files, the latest written first. -/
structure Folder where
  files : List (Place × ByteArray)

namespace Folder

/-- A folder without files. -/
def empty : Folder := ⟨[]⟩

/-- **The parts of a path** between its slashes; there is at least one. -/
def parts : List Char → List (List Char)
  | [] => [[]]
  | c :: cs =>
    if c = '/' then [] :: parts cs
    else
      match parts cs with
      | [] => [[c]]
      | w :: ws => (c :: w) :: ws

/-- The greatest size of a path, in bytes. -/
def maxPathSize : Nat := 4095

/-- The greatest size of a part of a path, in bytes. -/
def maxPartSize : Nat := 255

/-- Whether the name of a place is too long for a file. -/
def isTooLong (p : Place) : Bool := maxPartSize < (String.ofList p.name).utf8ByteSize

/-- What is wrong where no file is. -/
def missing (p : Place) : FileError := if isTooLong p then .longPath else .notFound

variable (d : Folder)

/-- What is wrong with a part that is not the last one: it is missing, or it is no folder. -/
def noFolder (p : Place) : FileError :=
  if (d.files.lookup p).isSome then .notDirectory else missing p

/-- Follows the parts of a path from a folder on. -/
def walk (l : Level) : List (List Char) → Except FileError Target
  | [] => .ok .folder
  | w :: rest =>
    if w = [] ∨ w = ['.'] then walk l rest
    else if w = ['.', '.'] then walk l.parent rest
    else if rest = [] then .ok (.file ⟨l, w⟩ false)
    else if rest.all List.isEmpty then .ok (.file ⟨l, w⟩ true)
    else .error (d.noFolder ⟨l, w⟩)

/-- **What a path leads to.**  One that begins with a slash starts at the root. -/
def resolve (path : String) : Except FileError Target :=
  if path.toList.contains '\x00' then .error .badPath
  else if maxPathSize < path.utf8ByteSize then .error .longPath
  else d.walk (if path.toList.head? = some '/' then .root else .up 0) (parts path.toList)

/-- **The text of a file.** -/
def readText (path : String) : Except FileError String := do
  match ← d.resolve path with
  | .folder => throw .isDirectory
  | .file place slash =>
    match d.files.lookup place with
    | none => throw (missing place)
    | some bytes =>
      if slash then throw .notDirectory
      else
        match String.fromUTF8? bytes with
        | none => throw .notUtf8
        | some text => return text

/-- **The folder with a file written.** -/
def write (path : String) (bytes : ByteArray) : Except FileError Folder := do
  match ← d.resolve path with
  | .folder | .file _ true => throw .isDirectory
  | .file place false =>
    if isTooLong place then throw .longPath
    else return ⟨(place, bytes) :: d.files⟩

/-- The last part of a path. -/
def lastPart (path : String) : List Char := ((parts path.toList).getLast?).getD []

/-- **The extension of a file:** what follows the last dot of its name, unless the dot is the first
character or there is none. -/
def extension? (path : String) : Option String :=
  let backwards := (lastPart path).reverse
  match backwards.dropWhile (· != '.') with
  | [] | [_] => none
  | _ => some (String.ofList (backwards.takeWhile (· != '.')).reverse)

end Folder

end SpeechDecoder
