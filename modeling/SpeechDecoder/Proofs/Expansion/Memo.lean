import SpeechDecoder.Proofs.Expansion.Trials
import SpeechDecoder.Proofs.Lookahead

/-!
# The penalties that an expansion asks for

An expansion asks for penalties where it tests an arc, and always for those of the window that it
was told.  `run_memo` says which penalties are known after it, also where it is halted.
-/

namespace SpeechDecoder.Expansion

/-- The window whose penalties are asked for, if any are. -/
def Asks (g : Growth) (w : Window) : Prop := ∀ c, g.phoneCut = some c → c.window = w

variable {g : Growth} {e : Expansion} {w : Window}

/-- **A test asks for the penalty of one phone,** or of none. -/
theorem memo_cut (hg : Asks g w) (e : Expansion) (source kind : StateKind) (score : Score) :
    (e.cut g source kind score).2.memo =
      e.memo.askAll w (Trial.tested g source kind).toList := by
  unfold Expansion.cut Trial.tested
  cases hc : g.phoneCut with
  | none => rfl
  | some c =>
    cases (if source.entersPhones then kind.phone? else none) with
    | none => rfl
    | some p =>
      rw [← hg c hc]
      dsimp only
      split <;> rfl

/-- The penalties that are known are those that were asked for. -/
theorem follows_memo (hg : Asks g w) (m : PenaltyMemo) :
    Follows g (fun log e => e.memo = m.askAll w (log.filterMap (Trial.phone? g)))
      fun log h => h.state.memo = m.askAll w (log.filterMap (Trial.phone? g)) where
  follow log e t source link arc h _ _ := by
    unfold trial?
    cases ht : g.graph.state? arc.target with
    | none =>
      rw [follow_lost ht, Option.map_none, Option.toList_none, List.append_nil]
      exact h
    | some target =>
      have hcut := memo_cut hg e t.kind target.kind (t.score + arc.probability)
      have hasked : m.askAll w ((log ++ [(⟨t, source, arc, target,
          (e.cut g t.kind target.kind (t.score + arc.probability)).1⟩ : Trial)]).filterMap
            (Trial.phone? g)) =
          (e.cut g t.kind target.kind (t.score + arc.probability)).2.memo := by
        rw [hcut, h, List.filterMap_append, PenaltyMemo.askAll_append]
        rfl
      obtain ⟨isCut, memo, heq, ⟨-, hx⟩ | ⟨-, -, -, hx⟩ | ⟨-, -, hx⟩⟩ :=
        follow_cases ht e t source link
      all_goals rw [hx, Option.map_some, Option.toList_some, hasked, heq]
      · exact rfl
      · exact rfl
      · exact Outcome.mapError ((arrive_keeps g _ link arc target.kind _).mono
          (fun _ h' => h'.2.2.1) fun _ _ => rfl)
  rest _ _ _ _ _ h := h
  lost _ _ _ h := h

/-- **The penalties that are known after an expansion** are those of the arcs that it tested. -/
theorem run_memo (hg : Asks g w) (e : Expansion) (seeds : List Nat) :
    Outcome
      (fun e' => e'.memo = e.memo.askAll w ((e.trials g seeds).filterMap (Trial.phone? g)))
      (fun h => h.state.memo = e.memo.askAll w ((e.trials g seeds).filterMap (Trial.phone? g)))
      (e.run g seeds) :=
  (follows_memo hg e.memo).run rfl seeds

end SpeechDecoder.Expansion
