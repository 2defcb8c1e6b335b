import SpeechDecoder.Toml.Scalar

/-!
# Reading TOML

`Toml.parse?` reads the table of a text.  A text is a sequence of lines: blank ones, comments,
headers and pairs.  Values are read by `scanValue`; arrays may go over several lines, with comments,
and end in a comma, tables between braces may not.  Brackets and braces go `maxDepth` levels deep at
most.
-/

namespace SpeechDecoder.Toml

/-- The text after the comment at its front, if there is one. -/
def skipComment : List Char → List Char
  | '#' :: cs => cs.dropWhile isPlain
  | cs => cs

/-- The text after blanks, comments and line ends; a comment must end with its line. -/
def skipLines : Nat → List Char → Option (List Char)
  | 0, _ => none
  | fuel + 1, cs =>
    match skipBlanks cs with
    | '#' :: cs => (newLine? (cs.dropWhile isPlain)).bind (skipLines fuel)
    | cs =>
      match newLine? cs with
      | some cs => skipLines fuel cs
      | none => some cs

/-- Skips blanks, comments and line ends. -/
def skipSpace (cs : List Char) : Option (List Char) := skipLines (cs.length + 1) cs

/-- The rest of a text after a word. -/
def scanWord (word : List Char) (v : Toml) (cs : List Char) : Option (Toml × List Char) :=
  if word.isPrefixOf cs then some (v, cs.drop word.length) else none

/-- How many levels of brackets and braces a value may have. -/
def maxDepth : Nat := 79

mutual

/-- The value at the front of a text, which may go so many levels deep. -/
def scanValue (depth : Nat) : Nat → List Char → Option (Toml × List Char)
  | 0, _ => none
  | fuel + 1, cs =>
    match cs with
    | '[' :: rest => do
      if depth = 0 then none
      let (items, rest) ← scanItems (depth - 1) fuel rest
      return (.array items, rest)
    | '\x7b' :: rest => do
      if depth = 0 then none
      match skipBlanks rest with
      | '\x7d' :: rest => return (.table [], rest)
      | rest =>
        let (pairs, rest) ← scanPairs (depth - 1) fuel rest
        return (← ofPairs? pairs, rest)
    | '\"' :: _ => (scanString cs).map fun (s, rest) => (.string s, rest)
    | '\'' :: _ => (scanString cs).map fun (s, rest) => (.string s, rest)
    | 't' :: _ => scanWord ['t', 'r', 'u', 'e'] (.boolean true) cs
    | 'f' :: _ => scanWord ['f', 'a', 'l', 's', 'e'] (.boolean false) cs
    | _ => scanNumberOrTime cs

/-- The items of an array, and its closing bracket. -/
def scanItems (depth : Nat) : Nat → List Char → Option (List Toml × List Char)
  | 0, _ => none
  | fuel + 1, cs => do
    match ← skipSpace cs with
    | ']' :: cs => return ([], cs)
    | cs =>
      let (v, cs) ← scanValue depth fuel cs
      match ← skipSpace cs with
      | ',' :: cs =>
        let (items, cs) ← scanItems depth fuel cs
        return (v :: items, cs)
      | ']' :: cs => return ([v], cs)
      | _ => none

/-- The pairs of a table between braces, at least one, and its closing brace. -/
def scanPairs (depth : Nat) : Nat → List Char → Option (List Pair × List Char)
  | 0, _ => none
  | fuel + 1, cs => do
    let ((path, key), cs) ← scanKey cs
    let cs ← expect '=' cs
    let (v, cs) ← scanValue depth fuel (skipBlanks cs)
    match skipBlanks cs with
    | ',' :: cs =>
      let (pairs, cs) ← scanPairs depth fuel cs
      return (⟨path, key, v⟩ :: pairs, cs)
    | '\x7d' :: cs => return ([⟨path, key, v⟩], cs)
    | _ => none

end

/-- The end of a line, or of the text, after blanks and a comment. -/
def endLine (cs : List Char) : Option (List Char) :=
  match skipComment (skipBlanks cs) with
  | [] => some []
  | cs => newLine? cs

/-- A pair and the end of its line. -/
def scanPair (cs : List Char) : Option (Pair × List Char) := do
  let ((path, key), cs) ← scanKey cs
  let cs ← expect '=' cs
  let cs := skipBlanks cs
  let (v, cs) ← scanValue maxDepth (2 * cs.length + 2) cs
  return (⟨path, key, v⟩, ← endLine cs)

/-- A header, after its first bracket, and the end of its line. -/
def scanHeader (cs : List Char) : Option (Section × List Char) :=
  match cs with
  | '[' :: cs => do
    let ((path, key), cs) ← scanKey cs
    let cs ← expect ']' (← expect ']' cs)
    return (⟨true, path, key, []⟩, ← endLine cs)
  | cs => do
    let ((path, key), cs) ← scanKey cs
    let cs ← expect ']' cs
    return (⟨false, path, key, []⟩, ← endLine cs)

/-- The pairs before the first header, and the sections. -/
def scanLines : Nat → List Char → Option (List Pair × List Section)
  | 0, _ => none
  | fuel + 1, cs =>
    match skipBlanks cs with
    | [] => some ([], [])
    | '#' :: cs => (endLine ('#' :: cs)).bind (scanLines fuel)
    | '[' :: cs => do
      let (header, cs) ← scanHeader cs
      let (pairs, sections) ← scanLines fuel cs
      return ([], { header with pairs } :: sections)
    | cs =>
      match newLine? cs with
      | some cs => scanLines fuel cs
      | none => do
        let (pair, cs) ← scanPair cs
        let (pairs, sections) ← scanLines fuel cs
        return (pair :: pairs, sections)

/-- **The table of a text,** after the mark of its byte order, if it has one. -/
def parse? (text : String) : Option Toml := do
  let cs := match text.toList with
    | '\uFEFF' :: cs => cs
    | cs => cs
  let (pairs, sections) ← scanLines (cs.length + 1) cs
  ofSections? pairs sections

end SpeechDecoder.Toml
