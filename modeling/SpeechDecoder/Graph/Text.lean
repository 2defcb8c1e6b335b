import SpeechDecoder.Graph.Toml

/-!
# Graphs in texts

A graph can be read from a TOML or a JSON text, and written as JSON.  A text is malformed if it does
not follow its format or does not describe a graph; a description may still have a defect.
-/

namespace SpeechDecoder.Graph

/-- **A format for graphs.** -/
inductive TextFormat where
  | toml
  | json
  deriving DecidableEq, Repr

/-- **Why no graph was read.** -/
inductive ReadError where
  | malformed (format : TextFormat)
  | defective (error : GraphError)
  deriving DecidableEq

/-- The description that a text holds. -/
def TextFormat.describe? (format : TextFormat) (text : String) : Option Description :=
  match format with
  | .toml => (Toml.parse? text).bind Description.ofToml?
  | .json => (Json.parse? text).bind Description.ofJson?

/-- **The graph that a text describes.** -/
def ofText (format : TextFormat) (text : String) : Except ReadError Graph :=
  match format.describe? text with
  | none => .error (.malformed format)
  | some d => (ofDescription d).mapError .defective

/-- **The JSON text of a graph.** -/
def toText (g : Graph) : String := g.describe.toJson.pretty

end SpeechDecoder.Graph
