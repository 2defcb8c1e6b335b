import SpeechDecoder.Beam

/-!
# Settings

What a decoder can be told: the settings of the search and the beams of its two passes.  Each part
is checked by a `validate`, which reports the first value that cannot be used.
-/

namespace SpeechDecoder

/-- **The settings of a search.** -/
structure SearchSettings where
  /-- How many frames the fast match runs ahead. -/
  window : Nat
  /-- What the penalty of a phone is multiplied with before it is added to a score. -/
  penaltyWeight : Score
  /-- How far below the best word of a frame a word may be. -/
  wordMargin : Score
  /-- Frames that are multiples of this number are scored but not grown; 0 for none. -/
  skipInterval : Nat
  checkStateOrder : Bool
  buildLattice : Bool
  maxLatticeEdges : Nat
  /-- How many frames the acoustic score of a token is extrapolated by before it is grown. -/
  acousticLookahead : Score
  /-- Whether paths keep all their tokens, or only words. -/
  keepAllTokens : Bool
  deriving DecidableEq

/-- **The settings of a decoder.** -/
structure Settings where
  search : SearchSettings
  main : BeamWidths
  fastMatch : BeamWidths
  deriving DecidableEq

/-- **Why settings are refused.** -/
inductive SettingsError where
  /-- The text is not a settings text. -/
  | malformed
  | window (size : Nat)
  | penaltyWeight
  /-- A margin, by the name of its field, is positive or not a number. -/
  | margin (field : String)
  | latticeEdges
  | acousticLookahead
  | alreadyInitialized
  deriving DecidableEq, Repr

namespace SettingsError

/-- The message of a value that cannot be used. -/
def invalid (field reason : String) : String :=
  "invalid value for " ++ field ++ ": " ++ reason

/-- **The message of an error.** -/
def message : SettingsError → String
  | malformed => "the text is not a settings text"
  | window n => invalid "search.lookahead_window" <|
      "unsupported lookahead window size " ++ toString n ++ ", value in range [1..10] is expected"
  | penaltyWeight => invalid "search.lookahead_penalty_weight" "must be finite and non-negative"
  | margin field => invalid field "must be zero or negative"
  | latticeEdges => invalid "search.max_lattice_edges" "must be positive"
  | acousticLookahead => invalid "search.acoustic_lookahead_frames" "must be finite and non-negative"
  | alreadyInitialized => "settings already initialized"

end SettingsError

/-- The greatest number of frames that the fast match may run ahead. -/
def maxWindow : Nat := 10

/-- Accepts the sizes from 1 to `maxWindow`. -/
def checkWindow (size : Nat) : Except SettingsError Unit :=
  if 1 ≤ size ∧ size ≤ maxWindow then .ok () else .error (.window size)

/-- Accepts a margin that is not positive. -/
def checkMargin (field : String) (margin : Score) : Except SettingsError Unit :=
  if margin.isNaN || Score.certain < margin then .error (.margin field) else .ok ()

/-- Accepts a factor that is finite and not negative. -/
def checkFactor (error : SettingsError) (factor : Score) : Except SettingsError Unit :=
  if !factor.isFinite || factor < Score.certain then .error error else .ok ()

/-- Checks the beam of a section of the settings. -/
def BeamWidths.validate (w : BeamWidths) (section_ : String) : Except SettingsError Unit :=
  checkMargin (section_ ++ ".relative_beam_width") w.margin

/-- **Checks the settings of a search.** -/
def SearchSettings.validate (s : SearchSettings) : Except SettingsError Unit := do
  checkWindow s.window
  checkFactor .penaltyWeight s.penaltyWeight
  checkMargin "search.relative_word_beam_width" s.wordMargin
  if s.maxLatticeEdges = 0 then throw .latticeEdges
  checkFactor .acousticLookahead s.acousticLookahead

namespace Settings

/-- The section of the beam of the main pass. -/
def mainSection : String := "active_list"

/-- The section of the beam of the fast match. -/
def fastMatchSection : String := "fast_match_active_list"

/-- Checks both beams. -/
def validateBeams (s : Settings) : Except SettingsError Unit := do
  s.main.validate mainSection
  s.fastMatch.validate fastMatchSection

/-- **Checks all settings:** the search first, then the beams. -/
def validate (s : Settings) : Except SettingsError Unit := do
  s.search.validate
  s.validateBeams

end Settings

end SpeechDecoder
