import Mathlib.Data.List.TakeWhile
import SpeechDecoder.Settings.Registry

/-!
# When a given settings text takes effect

A process gives settings texts and uses its settings, in any order.  A given text and the settings
are each set once, by different requests, and `setText` looks only at the text: after the first use
it still accepts a text, which then has no effect on any later use.

* the default text: `ofText_defaultText`;
* the state after any requests, by a step lemma and a run lemma: `Recalls.step`, `recalls_after`;
* which texts are accepted, what is answered from then on, and that neither a refused text nor one
  that is accepted after the first use changes an answer: `settings_after`.
-/

namespace SpeechDecoder

/-! ## The default text -/

/-- The table of the characters of a text. -/
def Toml.ofChars? (cs : List Char) : Option Toml := do
  let cs := match cs with
    | '\uFEFF' :: cs => cs
    | cs => cs
  let (pairs, sections) ← scanLines (cs.length + 1) cs
  ofSections? pairs sections

theorem Toml.parse?_eq {text : String} {cs : List Char} (h : text.toList = cs) :
    Toml.parse? text = Toml.ofChars? cs :=
  h ▸ rfl

namespace Settings

/-- The text of lines, each with its end. -/
def textOf (lines : List String) : String := String.join (lines.map (· ++ "\n"))

/-- The characters of lines, each with its end. -/
def charsOf (lines : List String) : List Char := lines.flatMap fun l => l.toList ++ ['\n']

theorem toList_textOf (lines : List String) : (textOf lines).toList = charsOf lines := by
  simp [textOf, charsOf, List.flatMap_map]

/-- **Settings are read** from the characters of their lines, and kept if they are good ones. -/
theorem ofText_textOf {lines : List String} {s : Settings}
    (h : (Toml.ofChars? (charsOf lines)).bind ofToml? = some s) (hs : s.validate = .ok ()) :
    ofText (textOf lines) = .ok s := by
  rw [← Toml.parse?_eq (toList_textOf lines)] at h
  simp only [ofText, h, hs]
  rfl

/-- The settings of a decoder that was told nothing else. -/
def defaults : Settings where
  search :=
    { window := 5, penaltyWeight := .ofBits 0x3F800000, wordMargin := .impossible, skipInterval := 0,
      checkStateOrder := false, buildLattice := true, maxLatticeEdges := 100,
      acousticLookahead := .certain, keepAllTokens := false }
  main := ⟨2000, .ofBits 0xC3340000⟩
  fastMatch := ⟨500, .ofBits 0xC2F00000⟩

/-- **The default text holds good settings.** -/
theorem ofText_defaultText : ofText defaultText = .ok defaults := by
  have hread : (Toml.ofChars? (charsOf defaultLines)).bind ofToml? = some defaults := by
    decide +kernel
  exact ofText_textOf hread (by decide +kernel)

end Settings

namespace SettingsRegistry

open Settings (ofText defaultText)

/-! ## Requests -/

/-- **What a process asks of its settings.** -/
inductive Request where
  | give (text : String)
  | use
  deriving DecidableEq

variable {r : SettingsRegistry} {before later : List Request} {text : String}

/-- What is held after a request. -/
def step (r : SettingsRegistry) : Request → SettingsRegistry
  | .give text => (r.setText text).2
  | .use => r.use.2

/-- **What is held after some requests.** -/
def after (r : SettingsRegistry) (requests : List Request) : SettingsRegistry :=
  requests.foldl step r

/-- A text that settings can be read from. -/
def IsGood (text : String) : Prop := (ofText text).isOk

instance : DecidablePred IsGood := fun text => inferInstanceAs (Decidable ((ofText text).isOk = true))

/-- The text that a request gives, if it is a good one. -/
def good? : Request → Option String
  | .give text => if IsGood text then some text else none
  | .use => none

/-- The first good text that is given. -/
def firstGood (requests : List Request) : Option String := requests.findSome? good?

/-- **The text in force:** the first good one that is given before the first use, else the default
one. -/
def inForce (requests : List Request) : String :=
  (firstGood (requests.takeWhile (· ≠ .use))).getD defaultText

theorem isGood_iff : IsGood text ↔ ∃ s, ofText text = .ok s := by
  unfold IsGood
  cases ofText text <;> simp [Except.isOk, Except.toBool]

theorem isGood_of_good? {q : Request} (h : good? q = some text) : IsGood text := by
  cases q with
  | use => simp [good?] at h
  | give t =>
    obtain ⟨ht, heq⟩ := Option.ite_none_right_eq_some.1 h
    exact Option.some.inj heq ▸ ht

theorem firstGood_eq_none : firstGood before = none ↔ ∀ t, .give t ∈ before → ¬ IsGood t := by
  rw [firstGood, List.findSome?_eq_none_iff]
  refine ⟨fun h t ht hgood => ?_, fun h q hq => ?_⟩
  · simpa [good?, hgood] using h _ ht
  · cases q with
    | use => rfl
    | give t => exact if_neg (h t hq)

theorem isGood_of_firstGood (h : firstGood before = some text) : IsGood text := by
  obtain ⟨q, -, hq⟩ := List.exists_of_findSome?_eq_some h
  exact isGood_of_good? hq

theorem forall_ne_use (h : .use ∉ before) : ∀ q ∈ before, decide (q ≠ .use) = true := by
  intro q hq
  exact decide_eq_true fun hu => h (hu ▸ hq)

theorem inForce_of_unused (h : .use ∉ before) :
    inForce before = (firstGood before).getD defaultText := by
  rw [inForce, List.takeWhile_eq_self_iff.2 (forall_ne_use h)]

theorem inForce_append_use (h : .use ∉ before) :
    inForce (before ++ .use :: later) = inForce before := by
  rw [inForce_of_unused h, inForce, List.takeWhile_append_of_pos (forall_ne_use h)]
  simp

/-- From the first use on, the text in force stays. -/
theorem inForce_append (h : .use ∈ before) : inForce (before ++ later) = inForce before := by
  obtain ⟨a, b, rfl, ha⟩ := List.eq_append_cons_of_mem h
  rw [List.append_assoc, List.cons_append, inForce_append_use ha, inForce_append_use ha]

/-- A good text that is the first one comes into force if nothing was used before it. -/
theorem inForce_append_give (h : .use ∉ before) (hnone : firstGood before = none)
    (hgood : IsGood text) : inForce (before ++ .give text :: later) = text := by
  rw [inForce, List.takeWhile_append_of_pos (forall_ne_use h)]
  unfold firstGood at hnone ⊢
  simp [List.findSome?_append, hnone, good?, hgood]

theorem isGood_defaultText : IsGood defaultText := isGood_iff.2 ⟨_, Settings.ofText_defaultText⟩

theorem isGood_inForce (before : List Request) : IsGood (inForce before) := by
  unfold inForce
  cases h : firstGood (before.takeWhile (· ≠ .use)) with
  | none => simpa only [Option.getD_none] using isGood_defaultText
  | some t => simpa only [Option.getD_some] using isGood_of_firstGood h

/-! ## One request -/

/-- A text is kept if it is the first good one. -/
theorem custom_setText : (r.setText text).2.custom =
    r.custom.or (if IsGood text then some text else none) := by
  unfold setText
  cases hs : ofText text with
  | error e =>
    have hbad : ¬ IsGood text := by simp [isGood_iff, hs]
    simp [hbad]
  | ok s =>
    have hgood : IsGood text := isGood_iff.2 ⟨s, hs⟩
    cases hc : r.custom <;> simp [hc, hgood]

theorem current_setText : (r.setText text).2.current = r.current := by
  unfold setText
  split
  · rfl
  · split <;> rfl

/-- **A text is accepted** if it is good and none was before. -/
theorem setText_accepts : (r.setText text).1 = .ok () ↔ IsGood text ∧ r.custom = none := by
  unfold setText
  cases hs : ofText text with
  | error e =>
    have hbad : ¬ IsGood text := by simp [isGood_iff, hs]
    simp [hbad]
  | ok s =>
    have hgood : IsGood text := isGood_iff.2 ⟨s, hs⟩
    cases hc : r.custom <;> simp [hgood]

/-- A refused text leaves what is held as it is. -/
theorem setText_refuses (h : (r.setText text).1 ≠ .ok ()) : (r.setText text).2 = r := by
  unfold setText at h ⊢
  split
  · rfl
  · split
    · rfl
    · rename_i hs _ hc
      simp [hs, hc] at h

/-- The first use reads the text that was given, or else the default one. -/
theorem use_eq_of_unused {s : Settings} (h : r.current = none)
    (hs : ofText (r.custom.getD defaultText) = .ok s) :
    r.use = (.ok s, { r with current := some s }) := by
  simp [use, h, hs]

theorem use_eq_of_used {s : Settings} (h : r.current = some s) : r.use = (.ok s, r) := by
  simp [use, h]

/-! ## Any requests -/

/-- **What a registry recalls of the requests before:** the first good text, and from the first use
on the settings of the text in force. -/
structure Recalls (before : List Request) (r : SettingsRegistry) : Prop where
  custom : r.custom = firstGood before
  unused : .use ∉ before → r.current = none
  used : .use ∈ before → ∃ s, r.current = some s ∧ ofText (inForce before) = .ok s

namespace Recalls

theorem start : Recalls [] empty where
  custom := rfl
  unused := fun _ => rfl
  used := fun h => absurd h (List.not_mem_nil)

/-- **A use answers the settings of the text in force.** -/
theorem answer (h : Recalls before r) : ∃ s, ofText (inForce before) = .ok s ∧
    r.use = (.ok s, { r with current := some s }) := by
  by_cases hu : .use ∈ before
  · obtain ⟨s, hcur, hs⟩ := h.used hu
    refine ⟨s, hs, ?_⟩
    rw [use_eq_of_used hcur, ← hcur]
  · obtain ⟨s, hs⟩ := isGood_iff.1 (isGood_inForce before)
    refine ⟨s, hs, use_eq_of_unused (h.unused hu) ?_⟩
    rw [h.custom, ← inForce_of_unused hu]
    exact hs

/-- One more request is recalled too. -/
theorem step (h : Recalls before r) (q : Request) : Recalls (before ++ [q]) (r.step q) := by
  cases q with
  | give t =>
    have hu : .use ∈ before ++ [.give t] → .use ∈ before := by simp
    refine ⟨?_, fun hnot => ?_, fun hin => ?_⟩
    · rw [SettingsRegistry.step, custom_setText, h.custom, firstGood, firstGood,
        List.findSome?_append]
      simp [good?]
    · rw [SettingsRegistry.step, current_setText]
      exact h.unused fun hin => hnot (List.mem_append_left _ hin)
    · rw [SettingsRegistry.step, current_setText, inForce_append (hu hin)]
      exact h.used (hu hin)
  | use =>
    obtain ⟨s, hs, huse⟩ := h.answer
    have hforce : inForce (before ++ [.use]) = inForce before := by
      by_cases hin : .use ∈ before
      · exact inForce_append hin
      · exact inForce_append_use hin
    refine ⟨?_, fun hnot => absurd (by simp) hnot, fun _ => ⟨s, ?_, hforce ▸ hs⟩⟩
    · rw [SettingsRegistry.step, huse, h.custom, firstGood, firstGood, List.findSome?_append]
      exact Option.or_none.symm
    · rw [SettingsRegistry.step, huse]

/-- More requests are recalled too. -/
theorem after (h : Recalls before r) (later : List Request) :
    Recalls (before ++ later) (r.after later) := by
  induction later generalizing before r with
  | nil => simpa [SettingsRegistry.after] using h
  | cons q rest ih => simpa [SettingsRegistry.after] using ih (h.step q)

end Recalls

theorem recalls_after (before : List Request) : Recalls before (empty.after before) :=
  Recalls.start.after before

/-- **Settings are what they were at their first use.**  A text is accepted if it is the first good
one that is given.  Every use answers the settings of the text in force: the accepted one if it was
given before the first use, else the default one.  A text that is refused, and one that comes after
the first use though it is accepted, change no later answer. -/
theorem settings_after (before : List Request) :
    (∃ s, ofText (inForce before) = .ok s ∧ (empty.after before).use.1 = .ok s) ∧
    (∀ text, ((empty.after before).setText text).1 = .ok () ↔
      IsGood text ∧ ∀ t, .give t ∈ before → ¬ IsGood t) ∧
    (∀ text, ((empty.after before).setText text).1 ≠ .ok () →
      ((empty.after before).setText text).2 = empty.after before) ∧
    (∀ text, ((empty.after before).setText text).1 = .ok () → .use ∉ before → ∀ later,
      (empty.after (before ++ .give text :: later)).use.1 = ofText text) ∧
    (.use ∈ before → ∀ later,
      (empty.after (before ++ later)).use.1 = (empty.after before).use.1) := by
  have hb := recalls_after before
  obtain ⟨s, hs, huse⟩ := hb.answer
  refine ⟨⟨s, hs, by rw [huse]⟩, fun text => ?_, fun text => setText_refuses,
    fun text hok hu later => ?_, fun hu later => ?_⟩
  · rw [setText_accepts, hb.custom, firstGood_eq_none]
  · obtain ⟨s', hs', huse'⟩ := (recalls_after (before ++ .give text :: later)).answer
    obtain ⟨hgood, hnone⟩ := setText_accepts.1 hok
    rw [huse', ← hs', inForce_append_give hu (hb.custom ▸ hnone) hgood]
  · obtain ⟨s', hs', huse'⟩ := (recalls_after (before ++ later)).answer
    rw [inForce_append hu, hs] at hs'
    rw [huse, huse', hs']

/-- The lines of the default text, with a window of three frames. -/
def narrowLines : List String := Settings.defaultLines.set 3 "lookahead_window = 3"

/-- **A text given after the first use is accepted,** and the settings stay the default ones. -/
theorem settings_after_use :
    ((empty.after [.use]).setText (Settings.textOf narrowLines)).1 = .ok () ∧
    ofText (Settings.textOf narrowLines) =
      .ok { Settings.defaults with search.window := 3 } ∧
    (empty.after [.use, .give (Settings.textOf narrowLines)]).use.1 = .ok Settings.defaults := by
  obtain ⟨⟨s, hs, huse⟩, haccepts, -, -, hstays⟩ := settings_after [.use]
  have hnarrow : ofText (Settings.textOf narrowLines) =
      .ok { Settings.defaults with search.window := 3 } :=
    Settings.ofText_textOf (by decide +kernel) (by decide +kernel)
  have hforce : inForce [.use] = defaultText := by simp [inForce, firstGood]
  rw [hforce, Settings.ofText_defaultText] at hs
  have hlater := hstays (by simp) [.give (Settings.textOf narrowLines)]
  rw [List.singleton_append, huse, ← hs] at hlater
  exact ⟨(haccepts _).2 ⟨isGood_iff.2 ⟨_, hnarrow⟩, by simp⟩, hnarrow, hlater⟩

end SettingsRegistry

end SpeechDecoder
