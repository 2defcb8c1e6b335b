/-!
# TOML values

The tree of a TOML text.  Tables written in any of the three ways (under a header, through dotted
keys, inline) are tables, and lists of tables are arrays.  Dates and times are recognized but not
looked into.

A text defines its tables bit by bit.  `Node` is a table under definition, which remembers how each
of its parts came to be, since that decides what may still be added: `Node.put` adds a value under a
dotted key, and `Node.openTable` and `Node.openElement` add what stands under a header.
-/

namespace SpeechDecoder

/-- **A TOML value.** -/
inductive Toml where
  | string (s : String)
  | integer (i : Int)
  | float (x : Float)
  | boolean (b : Bool)
  | datetime
  | array (items : List Toml)
  | table (entries : List (String × Toml))

namespace Toml

/-- **How a table came to be.** -/
inductive Origin where
  /-- It stands under its own header. -/
  | header
  /-- It was named on the way to the header of another table. -/
  | passedBy
  /-- It was named in a dotted key. -/
  | dottedKey
  deriving DecidableEq, Repr

/-- **A part of a table under definition.** -/
inductive Node where
  | value (v : Toml)
  | table (origin : Origin) (entries : List (String × Node))
  /-- The elements of a list of tables, in their order. -/
  | tables (elements : List (List (String × Node)))

/-- The entries of a table under definition. -/
abbrev Entries := List (String × Node)

namespace Node

/-- Replaces the entry of a key, or appends one, unless `f` refuses. -/
def update (key : String) (f : Option Node → Option Node) : Entries → Option Entries
  | [] => (f none).map fun n => [(key, n)]
  | (k, n) :: rest =>
    if k = key then (f (some n)).map fun n' => (k, n') :: rest
    else (update key f rest).map ((k, n) :: ·)

/-- Changes the last element of a list of tables, unless `f` refuses. -/
def updateLast (f : Entries → Option Entries) : List Entries → Option (List Entries)
  | [] => none
  | [e] => (f e).map fun e' => [e']
  | e :: rest => (updateLast f rest).map (e :: ·)

/-- **Adds a value under a dotted key,** whose last part is `key`.  A table with a header of its own
is not extended this way, and the value itself goes into a table that dotted keys made. -/
def put (key : String) (v : Toml) : List String → Entries → Option Entries
  | [] => update key fun
    | none => some (.value v)
    | some _ => none
  | k :: path => update k fun
    | none => (put key v path []).map (.table .dottedKey)
    | some (.table origin entries) =>
      if origin = .header ∨ path.isEmpty ∧ origin ≠ .dottedKey then none
      else (put key v path entries).map (.table origin)
    | some (.tables elements) =>
      if path.isEmpty then none else (updateLast (put key v path) elements).map .tables
    | some (.value _) => none

/-- **Goes to the table with a path,** and through the last element of a list of tables; what is
missing on the way is made. -/
def within (f : Entries → Option Entries) : List String → Entries → Option Entries
  | [] => f
  | k :: path => update k fun
    | none => (within f path []).map (.table .passedBy)
    | some (.table origin entries) => (within f path entries).map (.table origin)
    | some (.tables elements) => (updateLast (within f path) elements).map .tables
    | some (.value _) => none

/-- A table under its header: it must be new, or only passed by before. -/
def openTable (key : String) (fill : Entries → Option Entries) : Entries → Option Entries :=
  update key fun
    | none => (fill []).map (.table .header)
    | some (.table .passedBy entries) => (fill entries).map (.table .header)
    | some _ => none

/-- One more element of a list of tables. -/
def openElement (key : String) (fill : Entries → Option Entries) : Entries → Option Entries :=
  update key fun
    | none => (fill []).map fun e => .tables [e]
    | some (.tables elements) => (fill []).map fun e => .tables (elements ++ [e])
    | some _ => none

mutual

/-- The value of a finished part. -/
def finish : Node → Toml
  | value v => v
  | table _ entries => .table (finishEntries entries)
  | tables elements => .array (finishElements elements)

/-- The values of finished entries. -/
def finishEntries : List (String × Node) → List (String × Toml)
  | [] => []
  | (k, n) :: rest => (k, finish n) :: finishEntries rest

/-- The tables of a finished list. -/
def finishElements : List (List (String × Node)) → List Toml
  | [] => []
  | e :: rest => .table (finishEntries e) :: finishElements rest

end

end Node

/-- A key and a value, as they are written: the parts of the key before the last, the last part. -/
structure Pair where
  path : List String
  key : String
  value : Toml

/-- Adds some pairs to a table. -/
def Entries.addPairs (pairs : List Pair) (entries : Entries) : Option Entries :=
  pairs.foldlM (fun es p => Node.put p.key p.value p.path es) entries

/-- The table of the pairs between braces. -/
def ofPairs? (pairs : List Pair) : Option Toml :=
  (Entries.addPairs pairs []).map fun es => .table (Node.finishEntries es)

/-- **A header with the pairs under it.** -/
structure Section where
  /-- Whether it opens one more element of a list. -/
  isElement : Bool
  path : List String
  key : String
  pairs : List Pair

/-- Adds what stands under a header. -/
def Entries.addSection (entries : Entries) (s : Section) : Option Entries :=
  let fill := Entries.addPairs s.pairs
  Node.within (if s.isElement then Node.openElement s.key fill else Node.openTable s.key fill)
    s.path entries

/-- **The table of a document:** the pairs before the first header, then the sections. -/
def ofSections? (pairs : List Pair) (sections : List Section) : Option Toml := do
  let es ← sections.foldlM Entries.addSection (← Entries.addPairs pairs [])
  return .table (Node.finishEntries es)

end Toml

end SpeechDecoder
