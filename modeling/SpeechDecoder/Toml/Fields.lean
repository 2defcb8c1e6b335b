import SpeechDecoder.Toml.Reader

/-!
# Records in TOML values

A record is written as a table whose entries are its fields, among others, or as the array of its
fields in their order, where the last ones may be left off and more items are passed over.  The
content of a case (`Toml.case?`) may be a record too; its table has no other entries
(`Toml.exactFields?`).
-/

namespace SpeechDecoder.Toml

/-- **The fields of a record,** in the order of their names. -/
def fields? (names : List String) : Toml → Option (List (Option Toml))
  | table entries => some (names.map fun name => entries.lookup name)
  | array items =>
    some (((items.take names.length).map some) ++ List.replicate (names.length - items.length) none)
  | _ => none

/-- The fields of a record without other entries. -/
def exactFields? (names : List String) (v : Toml) : Option (List (Option Toml)) :=
  match v with
  | table entries => if entries.all fun e => names.contains e.1 then fields? names v else none
  | _ => fields? names v

/-- **The name and the content of a case;** a name alone has no content. -/
def case? : Toml → Option (String × Option Toml)
  | string name => some (name, none)
  | table [(name, content)] => some (name, some content)
  | _ => none

/-- A case without content, which may be spelled out as an empty table or array. -/
def noContent? : Option Toml → Option Unit
  | none | some (table []) | some (array []) => some ()
  | _ => none

/-- The items of an array. -/
def items? : Toml → Option (List Toml)
  | array items => some items
  | _ => none

/-- A whole number within a range. -/
def natBelow? (bound : Nat) : Toml → Option Nat
  | integer (.ofNat n) => if n < bound then some n else none
  | _ => none

/-- A number as a score: an integer is rounded once, a floating-point number twice. -/
def score? : Toml → Option Score
  | integer i => some (.ofWhole i)
  | float x => some (.ofDouble x)
  | _ => none

/-- A truth value. -/
def bool? : Toml → Option Bool
  | boolean b => some b
  | _ => none

end SpeechDecoder.Toml
