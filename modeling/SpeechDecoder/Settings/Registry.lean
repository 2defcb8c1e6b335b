import SpeechDecoder.Settings.Text

/-!
# The settings of a process

A process may be given one settings text of its own, once.  The settings themselves are read at
their first use, from that text or else from the default one, and stay what they are from then on.
-/

namespace SpeechDecoder

/-- **The settings that a process holds.** -/
structure SettingsRegistry where
  /-- The text it was given. -/
  custom : Option String
  /-- The settings since their first use. -/
  current : Option Settings
  deriving DecidableEq

namespace SettingsRegistry

/-- Nothing given, nothing used. -/
def empty : SettingsRegistry := ⟨none, none⟩

variable (r : SettingsRegistry)

/-- **Gives a text.**  It must be a good one, and the first. -/
def setText (text : String) : Except SettingsError Unit × SettingsRegistry :=
  match Settings.ofText text with
  | .error e => (.error e, r)
  | .ok _ =>
    match r.custom with
    | some _ => (.error .alreadyInitialized, r)
    | none => (.ok (), { r with custom := some text })

/-- **The settings,** read at their first use. -/
def use : Except SettingsError Settings × SettingsRegistry :=
  match r.current with
  | some s => (.ok s, r)
  | none =>
    match Settings.ofText (r.custom.getD Settings.defaultText) with
    | .error e => (.error e, r)
    | .ok s => (.ok s, { r with current := some s })

end SettingsRegistry

end SpeechDecoder
