/-!
# Strings in TOML texts

A string stands between quotes (`"`, with escapes) or apostrophes (`'`, without), on one line
between one of them, on several between three.  Every function takes a string off the front of a
text, after the opening mark, and gives back the rest.
-/

namespace SpeechDecoder.Toml

/-- Blanks within a line. -/
def isBlank (c : Char) : Bool := c == ' ' || c == '\t'

/-- The text after its leading blanks. -/
def skipBlanks (cs : List Char) : List Char := cs.dropWhile isBlank

/-- A character that may stand in a comment: a tab, printable ASCII, or anything beyond ASCII. -/
def isPlain (c : Char) : Bool :=
  c == '\t' || (32 ≤ c.toNat && c.toNat ≤ 126) || 128 ≤ c.toNat

/-- The rest of a text after the end of a line. -/
def newLine? : List Char → Option (List Char)
  | '\n' :: cs => some cs
  | '\r' :: '\n' :: cs => some cs
  | _ => none

/-- The text without the end of a line at its front. -/
def skipNewLine (cs : List Char) : List Char := (newLine? cs).getD cs

/-- The value of a hexadecimal digit. -/
def hexValue? (c : Char) : Option Nat :=
  if c.isDigit then some (c.toNat - '0'.toNat)
  else if 'a' ≤ c ∧ c ≤ 'f' then some (c.toNat - 'a'.toNat + 10)
  else if 'A' ≤ c ∧ c ≤ 'F' then some (c.toNat - 'A'.toNat + 10)
  else none

/-- The character with the number that so many hexadecimal digits name. -/
def scanHex (count : Nat) (cs : List Char) : Option (Char × List Char) := do
  let ds ← (cs.take count).mapM hexValue?
  if ds.length < count then none
  else
    let n := ds.foldl (fun n d => 16 * n + d) 0
    if n < 0xD800 ∨ 0xE000 ≤ n ∧ n < 0x110000 then return (Char.ofNat n, cs.drop count) else none

/-- The character that an escape names, after its backslash. -/
def scanEscape : List Char → Option (Char × List Char)
  | 'b' :: cs => some ('\x08', cs)
  | 't' :: cs => some ('\t', cs)
  | 'n' :: cs => some ('\n', cs)
  | 'f' :: cs => some ('\x0c', cs)
  | 'r' :: cs => some ('\r', cs)
  | '\"' :: cs => some ('\"', cs)
  | '\\' :: cs => some ('\\', cs)
  | 'u' :: cs => scanHex 4 cs
  | 'U' :: cs => scanHex 8 cs
  | _ => none

/-- One more character in front of what is scanned. -/
def andThen (c : Char) (r : Option (List Char × List Char)) : Option (List Char × List Char) :=
  r.map fun (s, rest) => (c :: s, rest)

/-- A string between quotes on one line. -/
def scanBasic : Nat → List Char → Option (List Char × List Char)
  | 0, _ => none
  | fuel + 1, cs =>
    match cs with
    | '\"' :: cs => some ([], cs)
    | '\\' :: cs => do
      let (c, cs) ← scanEscape cs
      andThen c (scanBasic fuel cs)
    | c :: cs => if isPlain c then andThen c (scanBasic fuel cs) else none
    | [] => none

/-- A string between apostrophes on one line. -/
def scanLiteral : List Char → Option (List Char × List Char)
  | '\'' :: cs => some ([], cs)
  | c :: cs => if isPlain c then andThen c (scanLiteral cs) else none
  | [] => none

/-- Up to two marks that stand right before the closing three, which are read already: the marks
that follow them belong to the string. -/
def closing (mark : Char) : List Char → List Char × List Char
  | a :: b :: cs =>
    if a = mark then if b = mark then ([mark, mark], cs) else ([mark], b :: cs) else ([], a :: b :: cs)
  | [a] => if a = mark then ([mark], []) else ([], [a])
  | [] => ([], [])

/-- The text after the blanks and line ends at its front. -/
def skipBreaks : List Char → List Char
  | '\r' :: '\n' :: cs => skipBreaks cs
  | c :: cs => if isBlank c || c == '\n' then skipBreaks cs else c :: cs
  | [] => []

/-- The text after a backslash at the end of a line: the blanks and line ends there are skipped. -/
def joinLines? (cs : List Char) : Option (List Char) :=
  (newLine? (skipBlanks cs)).map skipBreaks

/-- A string between three quotes. -/
def scanLongBasic : Nat → List Char → Option (List Char × List Char)
  | 0, _ => none
  | fuel + 1, cs =>
    match cs with
    | '\"' :: '\"' :: '\"' :: cs => some (closing '\"' cs)
    | '\\' :: cs =>
      match joinLines? cs with
      | some cs => scanLongBasic fuel cs
      | none => do
        let (c, cs) ← scanEscape cs
        andThen c (scanLongBasic fuel cs)
    | c :: cs' =>
      match newLine? cs with
      | some cs => andThen '\n' (scanLongBasic fuel cs)
      | none => if isPlain c then andThen c (scanLongBasic fuel cs') else none
    | [] => none

/-- A string between three apostrophes. -/
def scanLongLiteral : Nat → List Char → Option (List Char × List Char)
  | 0, _ => none
  | fuel + 1, cs =>
    match cs with
    | '\'' :: '\'' :: '\'' :: cs => some (closing '\'' cs)
    | c :: cs' =>
      match newLine? cs with
      | some cs => andThen '\n' (scanLongLiteral fuel cs)
      | none => if isPlain c then andThen c (scanLongLiteral fuel cs') else none
    | [] => none

/-- **The string at the front of a text,** from its opening mark on. -/
def scanString (cs : List Char) : Option (String × List Char) :=
  let scanned := match cs with
    | '\"' :: '\"' :: '\"' :: cs => scanLongBasic (cs.length + 1) (skipNewLine cs)
    | '\'' :: '\'' :: '\'' :: cs => scanLongLiteral (cs.length + 1) (skipNewLine cs)
    | '\"' :: cs => scanBasic (cs.length + 1) cs
    | '\'' :: cs => scanLiteral cs
    | _ => none
  scanned.map fun (s, rest) => (String.ofList s, rest)

/-! ## Keys -/

/-- A character of a key without quotes. -/
def isBare (c : Char) : Bool := c.isAlphanum || c == '_' || c == '-'

/-- A part of a key. -/
def scanKeyPart (cs : List Char) : Option (String × List Char) :=
  match cs with
  | '\"' :: cs => (scanBasic (cs.length + 1) cs).map fun (s, rest) => (String.ofList s, rest)
  | '\'' :: cs => (scanLiteral cs).map fun (s, rest) => (String.ofList s, rest)
  | cs =>
    match cs.takeWhile isBare with
    | [] => none
    | s => some (String.ofList s, cs.dropWhile isBare)

/-- The parts of a key, with the blanks around them. -/
def scanKeyParts : Nat → List Char → Option (List String × List Char)
  | 0, _ => none
  | fuel + 1, cs => do
    let (part, cs) ← scanKeyPart (skipBlanks cs)
    match skipBlanks cs with
    | '.' :: cs =>
      let (parts, cs) ← scanKeyParts fuel cs
      return (part :: parts, cs)
    | cs => return ([part], cs)

/-- How many parts a key may have. -/
def maxKeyParts : Nat := 79

/-- **The key at the front of a text:** the parts before the last, and the last part. -/
def scanKey (cs : List Char) : Option ((List String × String) × List Char) := do
  let (parts, rest) ← scanKeyParts (cs.length + 1) cs
  if maxKeyParts < parts.length then none
  return ((parts.dropLast, ← parts.getLast?), rest)

end SpeechDecoder.Toml
