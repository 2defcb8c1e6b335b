import SpeechDecoder.Decimal.Rounding
import SpeechDecoder.Graph.Builder
import SpeechDecoder.Beam
import SpeechDecoder.Lattice
import SpeechDecoder.Acoustics
import SpeechDecoder.Lookahead
import SpeechDecoder.Expansion.Basic
import SpeechDecoder.Settings.Basic
import SpeechDecoder.Search.Basic
import SpeechDecoder.Search.Utterance
import SpeechDecoder.Json.Number
import SpeechDecoder.Json.Reader
import SpeechDecoder.Graph.Json
import SpeechDecoder.Toml.Reader
import SpeechDecoder.Graph.Text
import SpeechDecoder.Settings.Registry
import SpeechDecoder.Storage
import SpeechDecoder.Proofs.Search.Exact
import SpeechDecoder.Proofs.Search.Threads
import SpeechDecoder.Proofs.Search.Earned
import SpeechDecoder.Proofs.Search.Lockstep
import SpeechDecoder.Proofs.Search.Unweighted
import SpeechDecoder.Proofs.Search.Utterance
import SpeechDecoder.Proofs.Search.Penalty
import SpeechDecoder.Proofs.Search.Restart
import SpeechDecoder.Proofs.Search.Edges
import SpeechDecoder.Proofs.Search.Acyclic
import SpeechDecoder.Proofs.Search.Compaction
import SpeechDecoder.Proofs.Search.Memo
import SpeechDecoder.Proofs.Search.Stored
import SpeechDecoder.Proofs.Search.Order
import SpeechDecoder.Proofs.Decimal.Numeral
import SpeechDecoder.Proofs.Json.Text
import SpeechDecoder.Proofs.Graph.Json
import SpeechDecoder.Proofs.Storage
import SpeechDecoder.Proofs.Score.Double
import SpeechDecoder.Proofs.Decimal.Basin
import SpeechDecoder.Proofs.Decimal.Grid
import SpeechDecoder.Proofs.Decimal.Margin
import SpeechDecoder.Proofs.Decimal.Reading
import SpeechDecoder.Proofs.Settings.Registry
import SpeechDecoder.Proofs.Search.Roster
import SpeechDecoder.Proofs.Expansion.Passages
import SpeechDecoder.Proofs.Expansion.WordBeam
import SpeechDecoder.Proofs.Search.Results
import SpeechDecoder.Proofs.Expansion.Gathered
import SpeechDecoder.Proofs.Search.Gathered
import SpeechDecoder.Proofs.Expansion.Silence
import SpeechDecoder.Proofs.Search.Selection
import SpeechDecoder.Proofs.Expansion.Checked
import SpeechDecoder.Proofs.Lookahead.Standing
import SpeechDecoder.Proofs.Graph.Lowering
import SpeechDecoder.Proofs.Lattice.Purged
import SpeechDecoder.Proofs.Search.Purged
import SpeechDecoder.Proofs.Search.Finished
import SpeechDecoder.Proofs.Search.Chronicle
import SpeechDecoder.Proofs.Search.Scored
import SpeechDecoder.Proofs.Expansion.Taken
import SpeechDecoder.Proofs.Search.Taken
import SpeechDecoder.Proofs.Expansion.Threshold
import SpeechDecoder.Proofs.Search.Peak
