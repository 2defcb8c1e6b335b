import SpeechDecoder.Json.Value

/-!
# Reading JSON

`Json.parse?` reads the value of a text; nothing but blanks may stand around it.  Every function
takes what it reads off the front of the text and gives back the rest.
-/

namespace SpeechDecoder.Json

open Decimal

/-- Blanks between the parts of a text. -/
def isBlank (c : Char) : Bool := c == ' ' || c == '\n' || c == '\t' || c == '\r'

/-- The text after its leading blanks. -/
def skipBlanks (cs : List Char) : List Char := cs.dropWhile isBlank

/-! ## Strings -/

/-- The value of a hexadecimal digit. -/
def hexValue? (c : Char) : Option Nat :=
  if c.isDigit then some (c.toNat - '0'.toNat)
  else if 'a' ≤ c ∧ c ≤ 'f' then some (c.toNat - 'a'.toNat + 10)
  else if 'A' ≤ c ∧ c ≤ 'F' then some (c.toNat - 'A'.toNat + 10)
  else none

/-- The number of four hexadecimal digits. -/
def hexUnit? (a b c d : Char) : Option Nat := do
  return (← hexValue? a) * 4096 + (← hexValue? b) * 256 + (← hexValue? c) * 16 + (← hexValue? d)

/-- What a letter after a backslash stands for. -/
def escaped? : Char → Option Char
  | '\"' => some '\"'
  | '\\' => some '\\'
  | '/' => some '/'
  | 'b' => some '\x08'
  | 'f' => some '\x0c'
  | 'n' => some '\n'
  | 'r' => some '\r'
  | 't' => some '\t'
  | _ => none

/-- The units of a string up to its closing quote: the scalar values of characters, and of escapes
with four digits whatever these say. -/
def scanUnits : List Char → Option (List Nat × List Char)
  | [] => none
  | '\"' :: cs => some ([], cs)
  | '\\' :: 'u' :: a :: b :: c :: d :: cs => do
    let unit ← hexUnit? a b c d
    let (units, rest) ← scanUnits cs
    return (unit :: units, rest)
  | '\\' :: c :: cs => do
    let ch ← escaped? c
    let (units, rest) ← scanUnits cs
    return (ch.toNat :: units, rest)
  | c :: cs =>
    if c = '\\' ∨ c.toNat < 32 then none
    else do
      let (units, rest) ← scanUnits cs
      return (c.toNat :: units, rest)

/-- The characters that units stand for.  A high surrogate joins with the low one after it; a
surrogate alone stands for nothing. -/
def joinUnits : List Nat → Option (List Char)
  | [] => some []
  | [u] => if 0xD800 ≤ u ∧ u < 0xE000 then none else some [Char.ofNat u]
  | u :: v :: rest =>
    if 0xD800 ≤ u ∧ u < 0xDC00 then
      if 0xDC00 ≤ v ∧ v < 0xE000 then
        (joinUnits rest).map (Char.ofNat (0x10000 + (u - 0xD800) * 0x400 + (v - 0xDC00)) :: ·)
      else none
    else if 0xDC00 ≤ u ∧ u < 0xE000 then none
    else (joinUnits (v :: rest)).map (Char.ofNat u :: ·)

/-- The string at the front of a text, after its opening quote. -/
def scanString (cs : List Char) : Option (Option String × List Char) :=
  (scanUnits cs).map fun (units, rest) => ((joinUnits units).map String.ofList, rest)

/-! ## Values -/

/-- The rest of a text after a word. -/
def expect (word : List Char) (cs : List Char) : Option (List Char) :=
  if word.isPrefixOf cs then some (cs.drop word.length) else none

mutual

/-- The value at the front of a text. -/
def scanValue : Nat → List Char → Option (Json × List Char)
  | 0, _ => none
  | fuel + 1, cs =>
    match skipBlanks cs with
    | 'n' :: rest => (expect ['u', 'l', 'l'] rest).map fun rest => (null, rest)
    | 't' :: rest => (expect ['r', 'u', 'e'] rest).map fun rest => (bool true, rest)
    | 'f' :: rest => (expect ['a', 'l', 's', 'e'] rest).map fun rest => (bool false, rest)
    | '\"' :: rest => (scanString rest).map fun (s, rest) => (string s, rest)
    | '[' :: rest =>
      match skipBlanks rest with
      | ']' :: rest => some (array [], rest)
      | rest => (scanItems fuel rest).map fun (items, rest) => (array items, rest)
    | '\x7b' :: rest =>
      match skipBlanks rest with
      | '\x7d' :: rest => some (object [], rest)
      | rest => (scanMembers fuel rest).map fun (members, rest) => (object members, rest)
    | rest => (Numeral.scan rest).map fun (n, rest) => (number n, rest)

/-- The items of an array, at least one, and its closing bracket. -/
def scanItems : Nat → List Char → Option (List Json × List Char)
  | 0, _ => none
  | fuel + 1, cs => do
    let (v, cs) ← scanValue fuel cs
    match skipBlanks cs with
    | ',' :: cs =>
      let (items, cs) ← scanItems fuel cs
      return (v :: items, cs)
    | ']' :: cs => return ([v], cs)
    | _ => none

/-- The members of an object, at least one, and its closing brace. -/
def scanMembers : Nat → List Char → Option (List (Option String × Json) × List Char)
  | 0, _ => none
  | fuel + 1, cs =>
    match skipBlanks cs with
    | '\"' :: cs => do
      let (name, cs) ← scanString cs
      match skipBlanks cs with
      | ':' :: cs =>
        let (v, cs) ← scanValue fuel cs
        match skipBlanks cs with
        | ',' :: cs =>
          let (members, cs) ← scanMembers fuel cs
          return ((name, v) :: members, cs)
        | '\x7d' :: cs => return ([(name, v)], cs)
        | _ => none
      | _ => none
    | _ => none

end

/-- **The value of a text.**  Between two steps inwards at least one character is read, which bounds
the depth. -/
def parse? (text : String) : Option Json := do
  let cs := text.toList
  let (v, rest) ← scanValue (2 * cs.length + 2) cs
  if (skipBlanks rest).isEmpty then return v else none

end SpeechDecoder.Json
