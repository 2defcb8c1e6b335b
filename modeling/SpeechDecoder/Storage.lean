import SpeechDecoder.Folder
import SpeechDecoder.Graph.Text

/-!
# Graphs and score tables in files

* `Folder.loadGraph` reads a graph in the format that the extension of the file names; the file is
  read before its extension is looked at.
* `Folder.loadTable` reads a score table, a JSON array of frames, from any file.
* `Folder.saveGraph` writes a graph as JSON.
-/

namespace SpeechDecoder

/-- **Why a file was not loaded or saved.** -/
inductive StorageError where
  | file (error : FileError)
  | graph (error : Graph.ReadError)
  /-- The file is not a score table. -/
  | malformedTable
  | unsupportedFormat (extension : String)
  deriving DecidableEq

/-- **The message of an extension that names no format.** -/
def StorageError.unsupportedMessage (extension : String) : String :=
  "unsupported file format: " ++ extension

namespace Folder

variable (d : Folder)

/-- The format that an extension names. -/
def format? : Option String → Option Graph.TextFormat
  | some "toml" => some .toml
  | some "json" => some .json
  | _ => none

/-- **Loads a graph.** -/
def loadGraph (path : String) : Except StorageError Graph := do
  let text ← (d.readText path).mapError .file
  match format? (extension? path) with
  | some format => (Graph.ofText format text).mapError .graph
  | none => throw (.unsupportedFormat ((extension? path).getD "<none>"))

/-- **Saves a graph.** -/
def saveGraph (path : String) (g : Graph) : Except StorageError Folder :=
  (d.write path g.toText.toUTF8).mapError .file

/-- A score table. -/
def tableOfJson? (v : Json) : Option (List (List Score)) := do
  (← v.items?).mapM fun row => do (← row.items?).mapM Json.score?

/-- **Loads a score table.** -/
def loadTable (path : String) : Except StorageError (List (List Score)) := do
  let text ← (d.readText path).mapError .file
  match (Json.parse? text).bind tableOfJson? with
  | some table => return table
  | none => throw .malformedTable

end Folder

end SpeechDecoder
