import SpeechDecoder.Proofs.Search.Stored

/-!
# What the turns of an utterance leave behind

An invariant that speaks of all turns of the utterance so far, each as the frame found it, is carried
through the calls of the utterance.  In every turn the search finds what it refers to.

* `Chronicled` is what such an invariant has to survive.
* `Chronicled.after` is the induction over the turns and the calls.
-/

namespace SpeechDecoder.Search

/-- **What an invariant has to survive that speaks of the turns so far.** -/
structure Chronicled (size : Nat) (fast : Pass) (P : List Search → Search → Prop) : Prop where
  /-- The fast match, the penalties and the end of the stream are no concern of it. -/
  aside : ∀ log s fastMatch memo streamEnded, P log s →
    P log { s with fastMatch, memo, streamEnded }
  purge : ∀ log s lattice, P log s → s.lattice.purgeIn s.store = .ok lattice →
    P log { s with lattice }
  stepFrame : ∀ log t, P log t → t.Sealed size fast →
    Outcome (fun r => P (log ++ [t]) r.2) (fun h => P (log ++ [t]) h.state) t.stepFrame

variable {size : Nat} {fast : Pass} {P : List Search → Search → Prop}

/-- **Up to so many turns,** by induction on their number. -/
theorem Chronicled.stepFrames (hP : Chronicled size fast P) : ∀ (n : Nat) {s : Search}
    {log : List Search}, P log s → s.Sealed size fast →
    Outcome (fun r => P (log ++ turnsOf n s) r.2) (fun h => P (log ++ turnsOf n s) h.state)
      (Search.stepFrames n s)
  | 0, s, log, h, _ => by
    rw [turnsOf, List.append_nil]
    exact h
  | n + 1, s, log, h, hs => by
    obtain ⟨next, hnext, hready⟩ := hs.ready.step
    have hahead := hs.aside hready.dropOldest s.memo.forget s.streamEnded
    have hframe := (hP.stepFrame log _
      (hP.aside log s next.dropOldest s.memo.forget s.streamEnded h) hahead).both hahead.stepFrame
    rw [stepFrames_succ]
    unfold turnsOf
    rw [lookAhead_eq, hnext]
    simp only [bind, Except.bind]
    generalize ({ s with fastMatch := next.dropOldest, memo := s.memo.forget } : Search) = t
      at hframe
    cases hx : t.stepFrame with
    | error err => exact (hframe.of_error hx).1
    | ok r =>
      obtain ⟨done, u⟩ := r
      obtain ⟨hu, hsealed⟩ := hframe.of_ok hx
      cases done with
      | true => exact hu
      | false =>
        rw [List.append_cons]
        exact hP.stepFrames n hu hsealed

/-- **One call.** -/
theorem Chronicled.recognize (hP : Chronicled size fast P) {s : Search} {log : List Search}
    (h : P log s) (hs : s.Sealed size fast) (n : Nat) :
    P (log ++ s.turnsIn n) (s.perform (.recognize n)).2 := by
  refine perform_recognize (Q := P (log ++ s.turnsIn n)) ?_
  rw [recognize_eq]
  unfold turnsIn
  cases hi : s.initial with
  | none =>
    rw [Option.isSome_none, if_neg Bool.false_ne_true, List.append_nil]
    exact h
  | some initial =>
    have hframes := hP.stepFrames n (hP.aside log s s.fastMatch s.memo false h)
      (hs.aside hs.ready s.memo false)
    rw [Option.isSome_some, if_pos rfl]
    rw [hi] at hframes
    exact hframes.bind fun r hr =>
      conclude_outcome initial r hr fun lattice _ hl => hP.purge _ _ lattice hr hl

/-- **Some calls,** by induction on them. -/
theorem Chronicled.after (hP : Chronicled size fast P) : ∀ (frames : List Nat) {s : Search}
    {log : List Search}, P log s → s.Sealed size fast →
    P (log ++ s.turns frames) (s.after (frames.map .recognize))
  | [], s, log, h, _ => by
    rw [turns, List.append_nil]
    exact h
  | n :: frames, s, log, h, hs => by
    rw [turns, ← List.append_assoc]
    exact hP.after frames (hP.recognize h hs n) (hs.perform _).2

end SpeechDecoder.Search
