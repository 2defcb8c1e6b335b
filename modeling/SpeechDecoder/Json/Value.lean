import SpeechDecoder.Decimal.Numeral

/-!
# JSON values

The tree of a JSON text.  Numbers stay as they are written and members stay in their order,
repeated names included.  A string whose escapes name half of a surrogate pair has no text; it is
still a string, and no reader of a value accepts it.

`Json.pretty` writes a value on several lines, two spaces to a level.
-/

namespace SpeechDecoder

open Decimal

/-- **A JSON value.** -/
inductive Json where
  | null
  | bool (b : Bool)
  | number (n : Numeral)
  /-- A string, or the absence of a text for it. -/
  | string (text : Option String)
  | array (items : List Json)
  | object (members : List (Option String × Json))
  deriving Repr

namespace Json

/-- A string with a text. -/
def text (s : String) : Json := string (some s)

/-- A whole number. -/
def int (i : Int) : Json := number (.ofInt i)

/-- An object with named members. -/
def record (members : List (String × Json)) : Json :=
  object (members.map fun (name, v) => (some name, v))

/-! ## Writing -/

/-- The hexadecimal digit of a number below 16. -/
def hexDigit (n : Nat) : Char := Nat.digitChar n

/-- A character within a string: quotes, backslashes and control characters are escaped. -/
def escape (c : Char) : List Char :=
  match c with
  | '\"' => ['\\', '\"']
  | '\\' => ['\\', '\\']
  | '\n' => ['\\', 'n']
  | '\r' => ['\\', 'r']
  | '\t' => ['\\', 't']
  | '\x08' => ['\\', 'b']
  | '\x0c' => ['\\', 'f']
  | c =>
    if c.toNat < 32 then ['\\', 'u', '0', '0', hexDigit (c.toNat / 16), hexDigit (c.toNat % 16)]
    else [c]

/-- A string with its quotes. -/
def quote (s : Option String) : List Char :=
  '\"' :: (s.getD "").toList.flatMap escape ++ ['\"']

/-- A new line, indented by so many levels. -/
def newLine (level : Nat) : List Char := '\n' :: List.replicate (2 * level) ' '

/-- Entries on lines of their own between brackets, which stay together if there is no entry. -/
def block (level : Nat) (left right : Char) (entries : List (List Char)) : List Char :=
  match entries with
  | [] => [left, right]
  | first :: rest =>
    left :: newLine (level + 1) ++ first ++
      rest.flatMap (fun e => ',' :: newLine (level + 1) ++ e) ++ newLine level ++ [right]

mutual

/-- The text of a value at a level. -/
def prettyAt (level : Nat) : Json → List Char
  | null => ['n', 'u', 'l', 'l']
  | bool true => ['t', 'r', 'u', 'e']
  | bool false => ['f', 'a', 'l', 's', 'e']
  | number n => n.text
  | string s => quote s
  | array items => block level '[' ']' (prettyItems (level + 1) items)
  | object members => block level '\x7b' '\x7d' (prettyMembers (level + 1) members)

/-- The texts of the items of an array. -/
def prettyItems (level : Nat) : List Json → List (List Char)
  | [] => []
  | v :: rest => prettyAt level v :: prettyItems level rest

/-- The texts of the members of an object. -/
def prettyMembers (level : Nat) : List (Option String × Json) → List (List Char)
  | [] => []
  | (name, v) :: rest => (quote name ++ ':' :: ' ' :: prettyAt level v) :: prettyMembers level rest

end

/-- **The text of a value** on several lines. -/
def pretty (v : Json) : String := String.ofList (prettyAt 0 v)

end Json

end SpeechDecoder
