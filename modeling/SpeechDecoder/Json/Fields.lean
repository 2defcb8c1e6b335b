import SpeechDecoder.Json.Number

/-!
# Records in JSON values

A record is written as an object whose members are its fields, in any order and among others, or as
the array of its fields in their order, where the last ones may be left off.  `Json.fields?` gives
the values of the fields, of which each may be missing; a field that is given twice is an error.

A choice between cases is written as the name of the case, or as an object with the name and the
content of the case (`Json.case?`).
-/

namespace SpeechDecoder.Json

/-- The member with a name: `some none` if there is none, nothing if there are several. -/
def member? (name : String) (members : List (Option String × Json)) : Option (Option Json) :=
  match members.filter fun m => m.1 == some name with
  | [] => some none
  | [(_, v)] => some (some v)
  | _ => none

/-- **The fields of a record,** in the order of their names. -/
def fields? (names : List String) : Json → Option (List (Option Json))
  | object members =>
    if members.any fun m => m.1.isNone then none
    else names.mapM fun name => member? name members
  | array items =>
    if items.length ≤ names.length then
      some (items.map some ++ List.replicate (names.length - items.length) none)
    else none
  | _ => none

/-- **The name and the content of a case;** a name alone has no content. -/
def case? : Json → Option (String × Option Json)
  | string (some name) => some (name, none)
  | object [(some name, content)] => some (name, some content)
  | _ => none

/-- A case without content, which may be spelled out as null. -/
def noContent? : Option Json → Option Unit
  | none | some null => some ()
  | _ => none

/-- The items of an array. -/
def items? : Json → Option (List Json)
  | array items => some items
  | _ => none

/-- A whole number within a range. -/
def natBelow? (bound : Nat) : Json → Option Nat
  | number n => n.natBelow? bound
  | _ => none

/-- A number as a score. -/
def score? : Json → Option Score
  | number n => n.score?
  | _ => none

end SpeechDecoder.Json
