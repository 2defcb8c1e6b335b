import SpeechDecoder.Proofs.Search.Pairing
import SpeechDecoder.Proofs.Search.Turns

/-!
# Searches that give penalties no weight

A search that weights penalties by zero cuts nothing on account of its window, so it never learns
what its fast match does.  All that the fast match could still do to it is to halt it, and a fast
match halts nowhere.

* `led_ready`: two fast matches may do what they like as long as they can go on.
* `perform_eq_of_unweighted`: whatever fast matches two such searches have, they give the same
  answers and stand in the same place.
-/

namespace SpeechDecoder.Search

variable {settings : SearchSettings} {main fast fast' : Pass} {cache cache' : MixtureCache}
  {window size size' : Nat} {s₀ s₀' : Search}

/-- Two fast matches that can go on, each on its own pass. -/
def BothReady (size : Nat) (fast : Pass) (size' : Nat) (fast' : Pass) (f f' : FastMatch) : Prop :=
  f.Ready size fast ∧ f'.Ready size' fast'

/-- **No start and no step of a fast match halts a search,** and without weight its window counts
for nothing. -/
theorem led_ready {weight : Score} (hweight : ¬ Score.certain < weight) :
    Led weight (BothReady size fast size' fast') where
  reset := by
    rintro f f' ⟨h, h'⟩
    obtain ⟨next, hreset, hready, -⟩ := h.reset
    obtain ⟨next', hreset', hready', -⟩ := h'.reset
    rw [hreset, hreset']
    exact ⟨hready, hready'⟩
  step := by
    rintro f f' ⟨h, h'⟩
    obtain ⟨next, hstep, hready⟩ := h.step
    obtain ⟨next', hstep', hready'⟩ := h'.step
    rw [hstep, hstep']
    exact ⟨hready.dropOldest, hready'.dropOldest⟩
  window _ _ _ hpositive := absurd hpositive hweight

/-- Two searches that wait for their first utterance. -/
theorem beside_new (h : Search.new settings main fast cache = .ok s₀)
    (h' : Search.new { settings with window } main fast' cache' = .ok s₀')
    (hfast : fast.pruner.Selects) (hfast' : fast'.pruner.Selects) :
    Beside settings window (BothReady settings.window fast window fast') s₀ s₀' := by
  have hready := (fastMatch_new h hfast).1
  have hready' := (fastMatch_new h' hfast').1
  obtain ⟨-, f, -, rfl⟩ := exists_of_new h
  obtain ⟨-, f', -, rfl⟩ := exists_of_new h'
  exact ⟨rfl, ⟨_, f', rfl⟩, hready, hready'⟩

/-- **Without weight the fast match has no influence.**  Let two searches with the same main pass
and the same settings, in which penalties have no positive weight, have fast matches on whatever
passes and with windows of whatever sizes.  To the same calls they give the same answers, and after
them they differ in nothing but the fast matches, their sizes and their caches: tokens, beam, final
tokens, alternates, tokens on states, frame and counts are the same. -/
theorem perform_eq_of_unweighted (hweight : ¬ Score.certain < settings.penaltyWeight)
    (h : Search.new settings main fast cache = .ok s₀)
    (h' : Search.new { settings with window } main fast' cache' = .ok s₀')
    (hfast : fast.pruner.Selects) (hfast' : fast'.pruner.Selects) (calls : List Call) :
    let s := s₀.after calls
    let s' := s₀'.after calls
    (∀ c, (s'.perform c).1 = (s.perform c).1) ∧
      s' = { s with
        settings := { s.settings with window }, cache := s'.cache, fastMatch := s'.fastMatch } := by
  intro s s'
  have hled : Led settings.penaltyWeight (BothReady settings.window fast window fast') :=
    led_ready hweight
  have hpairing := hled.pairing window
  have hbeside : Beside settings window _ s s' :=
    hpairing.after calls (beside_new h h' hfast hfast')
  refine ⟨fun c => (hpairing.perform hbeside c).1, ?_⟩
  obtain ⟨cache, fastMatch, hs'⟩ := hbeside.apart
  rw [hs', hbeside.told]

/-- A pass over the word loop that hears nothing and keeps one token. -/
def deafPass : Pass := { WordLoop.pass with source := .ofRows #[] false, widths := ⟨1, .certain⟩ }

/-- The search over the word loop whose fast match hears nothing. -/
def deafLoop : Search :=
  { WordLoop.search false with
    settings := { WordLoop.settings false with window := 3 }
    fastMatch := ⟨deafPass, 3, .empty, .empty deafPass.widths, [], 0, false, 0⟩ }

theorem deafLoop_eq : Search.new { WordLoop.settings false with window := 3 } WordLoop.pass deafPass
    none = .ok deafLoop :=
  rfl

/-- A fast match that has ended says nothing of the search, which goes on. -/
theorem perform_eq_of_unweighted_deafLoop :
    let s := (WordLoop.search false).after [.start, .recognize 1]
    let s' := deafLoop.after [.start, .recognize 1]
    s'.fastMatch.ended = true ∧ s.fastMatch.ended = false ∧ s.store.size = 9 ∧
      s'.store = s.store ∧ (s'.perform (.recognize 1)).1 = (s.perform (.recognize 1)).1 := by
  intro s s'
  obtain ⟨hanswer, hs'⟩ := perform_eq_of_unweighted (by decide +kernel) (WordLoop.search_eq false)
    deafLoop_eq Pruner.selects_byWidths Pruner.selects_byWidths [.start, .recognize 1]
  have hstore := congrArg Search.store hs'
  exact ⟨by decide +kernel, by decide +kernel, by decide +kernel, hstore, hanswer (.recognize 1)⟩

end SpeechDecoder.Search
