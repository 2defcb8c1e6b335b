import SpeechDecoder.Proofs.Search.Chronicle
import SpeechDecoder.Proofs.Search.Edges

/-!
# The count of scored tokens

The count of scored tokens goes up by the whole beam before the source is asked for a frame.  While
a row of the table is left, every token of the beam hears it, and the count is right.  At the end of
the table nothing is scored, and the beam is counted all the same, in the call that comes to the end
and in every call after it.

* `scoresAdded` counts the scores that a frame adds, and `Hears` says what they do to the store.
* `Tallied` is the invariant, and `tokensScored_after` the theorem about an utterance.
-/

namespace SpeechDecoder.Search

/-- The row of the next frame, if one is left. -/
def row? (s : Search) : Option (Array Score) := s.pass.source.rows[s.pass.source.cursor]?

/-- **The scores that the next frame adds:** one for every emitting token of the beam, if a row is
left. -/
def scoresAdded (s : Search) : Nat :=
  if s.row?.isSome then s.beam.tokens.countP fun id => (s.store.get? id).any (·.kind.isEmitting)
  else 0

/-- **What the next frame does to the store:** every token of the beam hears the row that is left,
once, and nothing happens if none is. -/
structure Hears (s : Search) (store : Store) : Prop where
  row : ∀ row, s.row? = some row → Store.Heard row s.beam.tokens s.store store
  noRow : s.row? = none → store = s.store

variable {s : Search} {size : Nat} {fast : Pass}

/-- **Scoring a frame.** -/
theorem exists_hears (hnodup : s.beam.tokens.Nodup)
    (hstored : ∀ id ∈ s.beam.tokens, id < s.store.size) : ∃ outcome source store,
      s.pass.source.scoreFrame s.store s.beam.tokens = .ok (outcome, source, store) ∧
        s.Hears store := by
  obtain ⟨⟨outcome, source, store⟩, hx⟩ := s.pass.source.exists_scoreFrame hstored
  refine ⟨outcome, source, store, hx, fun row hrow => ?_, fun hrow => ?_⟩
  · rcases AcousticSource.scoreFrame_eq_ok hx with ⟨hnone, -⟩ | ⟨row', hrow', -, -, hsize, hget, -⟩
    · rw [row?, hnone] at hrow
      cases hrow
    · cases hrow'.symm.trans hrow
      refine ⟨hsize, fun id hid => ?_, fun id hid => ?_⟩
      · rw [hget id, List.count_eq_one_of_mem hnodup hid]
        rfl
      · rw [hget id, List.count_eq_zero_of_not_mem hid]
        cases s.store.get? id <;> rfl
  · rcases AcousticSource.scoreFrame_eq_ok hx with ⟨-, hstore, -⟩ | ⟨row', hrow', -⟩
    · exact hstore
    · rw [row?, hrow'] at hrow
      cases hrow

/-- **The beam is counted:** it is what hears the row, and what is counted too much if there is
none. -/
theorem length_beam_eq (hs : s.Sealed size fast) (hc : s.Counted) :
    s.beam.tokens.length = s.scoresAdded + if s.row?.isNone then s.beam.tokens.length else 0 := by
  unfold scoresAdded
  cases s.row? with
  | none => simp
  | some row =>
    have hall : ∀ id ∈ s.beam.tokens, (s.store.get? id).any (·.kind.isEmitting) = true := by
      intro id hid
      obtain ⟨t, ht⟩ := Store.exists_get? (hs.primed.stored id hid)
      rw [ht]
      exact (hc.latest id hid t ht).1
    simp [List.countP_eq_length.2 hall]

/-! ## The count -/

/-- Growing a frame scores nothing. -/
theorem grow_tokensScored (s : Search) :
    Outcome (fun t => t.stats.tokensScored = s.stats.tokensScored)
      (fun h => h.state.stats.tokensScored = s.stats.tokensScored) s.grow := by
  rw [grow_eq]
  split
  · rfl
  · split <;> rfl

/-- **A frame counts the beam,** whatever becomes of it. -/
theorem stepFrame_tokensScored (hstored : ∀ id ∈ s.beam.tokens, id < s.store.size) :
    Outcome (fun r => r.2.stats.tokensScored = s.stats.tokensScored + s.beam.tokens.length)
      (fun h => h.state.stats.tokensScored = s.stats.tokensScored + s.beam.tokens.length)
      s.stepFrame := by
  obtain ⟨⟨outcome, source, store⟩, hx⟩ := s.pass.source.exists_scoreFrame hstored
  rw [stepFrame_eq, hx]
  cases outcome with
  | exhausted => rfl
  | streamEnd => rfl
  | scored best =>
    dsimp only
    split
    · rfl
    · split
      · rfl
      · exact (grow_tokensScored _).map _ fun _ h => h

/-- Nothing is counted at the start of an utterance. -/
theorem start_tokensScored (s : Search) :
    Outcome (fun t => t.stats.tokensScored = 0) (fun h => h.state.stats.tokensScored = 0) s.start := by
  rw [start_eq]
  split
  · rfl
  · split
    · rfl
    · exact grow_tokensScored _

/-- **The invariant:** the count is the sum of the beams of all turns. -/
structure Tallied (size : Nat) (fast : Pass) (log : List Search) (s : Search) : Prop where
  counted : s.Counted
  turns : ∀ t ∈ log, t.Sealed size fast ∧ t.Counted
  total : s.stats.tokensScored = (log.map fun t => t.beam.tokens.length).sum

theorem tallied_chronicled : Chronicled size fast (Tallied size fast) where
  aside log s fastMatch memo streamEnded h :=
    ⟨counted_kept.aside [] s fastMatch memo streamEnded h.counted, h.turns, h.total⟩
  purge log s lattice h hl := ⟨counted_kept.purge [] s lattice h.counted hl, h.turns, h.total⟩
  stepFrame log t h hs := by
    have hturns : ∀ u ∈ log ++ [t], u.Sealed size fast ∧ u.Counted := by
      intro u hu
      rcases List.mem_append.1 hu with hu | hu
      · exact h.turns u hu
      · exact List.mem_singleton.1 hu ▸ ⟨hs, h.counted⟩
    have hsum : ((log ++ [t]).map fun t => t.beam.tokens.length).sum =
        t.stats.tokensScored + t.beam.tokens.length := by
      simp [h.total]
    exact (h.counted.stepFrame.both (stepFrame_tokensScored hs.primed.stored)).mono
      (fun _ ⟨hcounted, hcount⟩ => ⟨hcounted, hturns, hcount.trans hsum.symm⟩)
      fun _ ⟨hcounted, hcount⟩ => ⟨hcounted, hturns, hcount.trans hsum.symm⟩

/-- **Some turns:** the beams of all of them are the scores that were added, with the beams of those
in which no row was left. -/
theorem sum_length_beam : ∀ {log : List Search}, (∀ t ∈ log, t.Sealed size fast ∧ t.Counted) →
    (log.map fun t => t.beam.tokens.length).sum = (log.map scoresAdded).sum +
      ((log.filter fun t => t.row?.isNone).map fun t => t.beam.tokens.length).sum
  | [], _ => rfl
  | t :: log, h => by
    obtain ⟨hs, hc⟩ := h t (by simp)
    have hfirst := length_beam_eq hs hc
    have hrest := sum_length_beam fun u hu => h u (List.mem_cons_of_mem _ hu)
    rw [List.map_cons, List.sum_cons, List.map_cons, List.sum_cons, hrest, List.filter_cons]
    split at hfirst
    · next hnone =>
      rw [if_pos hnone, List.map_cons, List.sum_cons]
      omega
    · next hsome =>
      rw [if_neg hsome]
      omega

/-- **What the count of scored tokens counts.**  Let an utterance be started after whatever calls,
and let some frames be decoded.  In every turn, each token of the beam hears the row that is left,
once, or nothing is scored as none is left.  The count is the number of the scores that were added,
and of the tokens of the beam in every turn that came after the end of the table.  So it is the
number of the scores if and only if the beam was empty in all of these. -/
theorem tokensScored_after {settings : SearchSettings} {main : Pass} {cache : MixtureCache}
    {s₀ : Search} (h : Search.new settings main fast cache = .ok s₀) (hmain : main.pruner.Selects)
    (hfast : fast.pruner.Selects) (calls : List Call) (frames : List Nat) :
    let s₁ := s₀.after (calls ++ [.start])
    let turns := s₁.turns frames
    let s := s₁.after (frames.map .recognize)
    (∀ t ∈ turns, ∃ outcome source store,
      t.pass.source.scoreFrame t.store t.beam.tokens = .ok (outcome, source, store) ∧
        t.Hears store) ∧
      s.stats.tokensScored = (turns.map scoresAdded).sum +
        ((turns.filter fun t => t.row?.isNone).map fun t => t.beam.tokens.length).sum ∧
      (s.stats.tokensScored = (turns.map scoresAdded).sum ↔
        ∀ t ∈ turns, t.row? = none → t.beam.tokens = []) := by
  intro s₁ turns s
  have hs₁ : s₁ = ((s₀.after calls).perform .start).2 := by
    simp [s₁, after]
  have hcounted := counted_kept.after (calls ++ [.start]) [] (counted_new h hmain)
  have hsealed := (sealed_new h hmain hfast).after (calls ++ [.start])
  have hzero : s₁.stats.tokensScored = 0 :=
    hs₁ ▸ perform_start (Q := fun t => t.stats.tokensScored = 0) (start_tokensScored _)
  have hfirst : Tallied settings.window fast [] s₁ := ⟨hcounted, fun t ht => (by cases ht), hzero⟩
  obtain ⟨-, hturns, hcount⟩ := tallied_chronicled.after frames hfirst hsealed
  rw [List.nil_append] at hturns hcount
  have hsplit := hcount.trans (sum_length_beam hturns)
  refine ⟨fun t ht => ?_, hsplit, ?_⟩
  · obtain ⟨hs, hc⟩ := hturns t ht
    exact exists_hears hc.beam_nodup hs.primed.stored
  · rw [show s.stats.tokensScored = _ from hsplit, Nat.add_eq_left, List.sum_eq_zero_iff]
    simp only [List.forall_mem_map, List.mem_filter, Option.isNone_iff_eq_none,
      List.length_eq_zero_iff, and_imp]
    rfl

/-- The two frames of the word loop add one score each.  The third turn comes to the end of the table
and counts the beam of one token, and so does the one of the next call. -/
theorem tokensScored_after_wordLoop :
    let s₁ := (WordLoop.search false).after [.start]
    let s := s₁.after [.recognize 3, .recognize 3]
    ((s₁.turns [3, 3]).map scoresAdded).sum = 2 ∧ s.stats.tokensScored = 4 ∧
      ¬ ∀ t ∈ s₁.turns [3, 3], t.row? = none → t.beam.tokens = [] := by
  intro s₁ s
  obtain ⟨-, -, hexact⟩ := tokensScored_after (WordLoop.search_eq false) Pruner.selects_byWidths
    Pruner.selects_byWidths [] [3, 3]
  have hadded : ((s₁.turns [3, 3]).map scoresAdded).sum = 2 := by decide +kernel
  have hcount : s.stats.tokensScored = 4 := by decide +kernel
  refine ⟨hadded, hcount, fun hempty => ?_⟩
  have hequal : s.stats.tokensScored = ((s₁.turns [3, 3]).map scoresAdded).sum := hexact.2 hempty
  rw [hadded, hcount] at hequal
  omega

end SpeechDecoder.Search
