import SpeechDecoder.Settings.Basic
import SpeechDecoder.Toml.Fields

/-!
# Settings in texts

Settings are read from a TOML text with one table for the search and one for the beam of each pass.
No field may be left out.  `Settings.ofText` reads settings and checks them; `defaultText` holds the
settings of a decoder that was told nothing else.
-/

namespace SpeechDecoder

open SpeechDecoder (Toml)

/-- The bound of counts. -/
def countBound : Nat := UInt64.size

/-- The bound of the skip interval. -/
def intervalBound : Nat := UInt32.size

/-- **The settings of a search,** if the value holds them. -/
def SearchSettings.ofToml? (v : Toml) : Option SearchSettings := do
  match ← v.fields? ["lookahead_window", "lookahead_penalty_weight", "relative_word_beam_width",
    "grow_skip_interval", "check_state_order", "build_word_lattice", "max_lattice_edges",
    "acoustic_lookahead_frames", "keep_all_tokens"] with
  | [some window, some weight, some margin, some interval, some check, some lattice, some edges,
      some lookahead, some keep] =>
    return {
      window := ← window.natBelow? countBound
      penaltyWeight := ← weight.score?
      wordMargin := ← margin.score?
      skipInterval := ← interval.natBelow? intervalBound
      checkStateOrder := ← check.bool?
      buildLattice := ← lattice.bool?
      maxLatticeEdges := ← edges.natBelow? countBound
      acousticLookahead := ← lookahead.score?
      keepAllTokens := ← keep.bool? }
  | _ => none

/-- **The widths of a beam,** if the value holds them. -/
def BeamWidths.ofToml? (v : Toml) : Option BeamWidths := do
  match ← v.fields? ["absolute_beam_width", "relative_beam_width"] with
  | [some count, some margin] => return ⟨← count.natBelow? countBound, ← margin.score?⟩
  | _ => none

namespace Settings

/-- The section of the search. -/
def searchSection : String := "search"

/-- Settings, if the value holds them. -/
def ofToml? (v : Toml) : Option Settings := do
  match ← v.fields? [searchSection, mainSection, fastMatchSection] with
  | [some search, some main, some fastMatch] =>
    return ⟨← SearchSettings.ofToml? search, ← BeamWidths.ofToml? main,
      ← BeamWidths.ofToml? fastMatch⟩
  | _ => none

/-- **The settings of a text,** checked. -/
def ofText (text : String) : Except SettingsError Settings :=
  match (Toml.parse? text).bind ofToml? with
  | none => .error .malformed
  | some s => s.validate.map fun _ => s

/-- The lines of the default settings. -/
def defaultLines : List String :=
  [
    "# Beam widths and scores are natural-log probabilities.",
    "",
    "[search]",
    "lookahead_window = 5",
    "lookahead_penalty_weight = 1.0",
    "# -inf disables the word beam.",
    "relative_word_beam_width = -inf",
    "grow_skip_interval = 0",
    "check_state_order = false",
    "build_word_lattice = true",
    "max_lattice_edges = 100",
    "acoustic_lookahead_frames = 0.0",
    "keep_all_tokens = false",
    "",
    "[active_list]",
    "absolute_beam_width = 2000",
    "relative_beam_width = -180.0",
    "",
    "[fast_match_active_list]",
    "absolute_beam_width = 500",
    "relative_beam_width = -120.0"
  ]

/-- **The text of the default settings.** -/
def defaultText : String := String.join (defaultLines.map (· ++ "\n"))

end Settings

end SpeechDecoder
