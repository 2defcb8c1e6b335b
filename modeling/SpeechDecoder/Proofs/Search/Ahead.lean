import SpeechDecoder.Proofs.Search.Abreast

/-!
# The frames that are still to be scored

How many frames a search goes on to score, until the utterance is done, does not depend on how the
frames are cut into calls.  A frame that is scored uses up a row of the table, so there are no more
of them than rows; and once a frame was not scored, none is any more.

* `framesAhead` counts them, with one more frame than there are rows.
* `stepFrames_ahead` says how some frames change the count.
-/

namespace SpeechDecoder.Search

/-- **How many frames are scored** from here on, until the utterance is done. -/
def framesAhead (s : Search) : Nat :=
  (scoringsOf (s.pass.source.rows.size + 1) { s with streamEnded := false }).length

variable {s t u : Search}

theorem eq_of_live (h : s.streamEnded = false) : { s with streamEnded := false } = s := by
  cases s
  cases h
  rfl

/-! ## One frame -/

/-- **A frame is scored or the utterance is done.**  A frame that is scored uses up a row. -/
theorem stepFrame_cases {done : Bool} (h : s.stepFrame = .ok (done, t)) :
    done = true ∧ s.scoring? = none ∧ t.frame = s.frame ∨
    done = false ∧ (∃ x, s.scoring? = some x) ∧ t.frame = s.frame + 1 ∧
      t.streamEnded = s.streamEnded ∧ s.pass.source.cursor < s.pass.source.rows.size ∧
      t.pass.source = { s.pass.source with cursor := s.pass.source.cursor + 1 } := by
  rw [stepFrame_eq] at h
  unfold scoring?
  cases hx : s.pass.source.scoreFrame s.store s.beam.tokens with
  | error f =>
    rw [hx] at h
    cases h
  | ok r =>
    obtain ⟨outcome, source, store⟩ := r
    rw [hx] at h
    cases outcome with
    | exhausted =>
      cases h
      exact .inl ⟨rfl, rfl, rfl⟩
    | streamEnd =>
      cases h
      exact .inl ⟨rfl, rfl, rfl⟩
    | scored best =>
      dsimp only at h
      rcases AcousticSource.scoreFrame_eq_ok hx with ⟨-, -, hno, -⟩ | ⟨row, hrow, rfl, -⟩
      · exact absurd rfl (hno best)
      have hlt := (Array.getElem?_eq_some_iff.1 hrow).1
      split at h
      · cases h
      · split at h
        · cases h
          exact .inr ⟨rfl, ⟨_, rfl⟩, rfl, rfl, hlt, rfl⟩
        · next beam _ _ =>
          have hspares := grow_spares ((s.heard { s.pass.source with
            cursor := s.pass.source.cursor + 1 } store).moved beam)
          generalize hg : grow _ = x at h hspares
          cases x with
          | error err => cases h
          | ok s' =>
            cases h
            refine .inr ⟨rfl, ⟨_, rfl⟩, hspares.frame, hspares.streamEnded, hlt, ?_⟩
            rw [hspares.pass]
            rfl

/-- **Once the utterance is done,** no frame is scored any more. -/
theorem scoring?_of_done (h : s.stepFrame = .ok (true, t)) (hpass : u.pass = t.pass)
    (hstore : u.store = t.store) (hbeam : u.beam = t.beam) : u.scoring? = none := by
  have hagain : ∀ outcome source store, (∀ best, outcome ≠ .scored best) →
      s.pass.source.scoreFrame s.store s.beam.tokens = .ok (outcome, source, store) →
      t.pass.source = source → t.store = store → t.beam = s.beam → u.scoring? = none := by
    intro outcome source store hno hx hsource ht hb
    unfold scoring?
    rw [hpass, hstore, hbeam, hsource, ht, hb]
    cases hy : source.scoreFrame store s.beam.tokens with
    | error f => rfl
    | ok r =>
      obtain ⟨outcome', source', store'⟩ := r
      cases outcome' with
      | scored best => exact absurd hy (AcousticSource.not_scored_again hx hno)
      | exhausted => rfl
      | streamEnd => rfl
  rw [stepFrame_eq] at h
  cases hx : s.pass.source.scoreFrame s.store s.beam.tokens with
  | error f =>
    rw [hx] at h
    cases h
  | ok r =>
    obtain ⟨outcome, source, store⟩ := r
    rw [hx] at h
    cases outcome with
    | exhausted =>
      cases h
      exact hagain _ _ _ (by simp) hx rfl rfl rfl
    | streamEnd =>
      cases h
      exact hagain _ _ _ (by simp) hx rfl rfl rfl
    | scored best =>
      dsimp only at h
      split at h
      · cases h
      · split at h
        · cases h
        · generalize grow _ = x at h
          cases x <;> cases h

/-! ## Some frames -/

/-- **One more frame than there are rows** is enough to come to the end: every frame before it uses
up a row. -/
theorem stepFrames_done (n : Nat) {s t : Search} {done : Bool}
    (hle : s.pass.source.rows.size ≤ n + s.pass.source.cursor)
    (h : stepFrames (n + 1) s = .ok (done, t)) : done = true := by
  induction n generalizing s with
  | zero =>
    obtain ⟨s₁, first, u, ha, hx, hrest⟩ := stepFrames_succ_eq_ok h
    obtain ⟨fastMatch, -, rfl⟩ := lookAhead_eq_ok ha
    rcases stepFrame_cases hx with ⟨rfl, -⟩ | ⟨rfl, -, -, -, hlt, -⟩
    · exact hrest.elim (fun h => h.2.1) fun h => by cases h.1
    · dsimp only at hlt
      omega
  | succ n ih =>
    obtain ⟨s₁, first, u, ha, hx, hrest⟩ := stepFrames_succ_eq_ok h
    obtain ⟨fastMatch, -, rfl⟩ := lookAhead_eq_ok ha
    obtain ⟨-, hdone, -⟩ | ⟨rfl, hlater⟩ := hrest
    · exact hdone
    · rcases stepFrame_cases hx with ⟨hfalse, -⟩ | ⟨-, -, -, -, -, hsource⟩
      · cases hfalse
      · refine ih ?_ hlater
        rw [hsource]
        dsimp only
        omega

/-- **Frames beyond the end** make no difference. -/
theorem stepFrames_of_le {m n : Nat} (hm : s.pass.source.rows.size < m + s.pass.source.cursor)
    (hpos : 0 < m) (hle : m ≤ n) : stepFrames n s = stepFrames m s := by
  obtain ⟨k, rfl⟩ := Nat.exists_eq_add_of_le hle
  rw [stepFrames_add]
  cases hx : stepFrames m s with
  | error err => rfl
  | ok r =>
    obtain ⟨done, t⟩ := r
    obtain ⟨m, rfl⟩ := Nat.exists_eq_succ_of_ne_zero (Nat.pos_iff_ne_zero.1 hpos)
    have hdone : done = true := stepFrames_done m (by omega) hx
    rw [hdone]
    rfl

theorem scoringsOf_succ {n : Nat} {s₁ : Search} {first : Bool} (ha : s.lookAhead = .ok s₁)
    (hx : s₁.stepFrame = .ok (first, u)) : scoringsOf (n + 1) s =
      s₁.scoring?.toList ++ if first then [] else scoringsOf n u := by
  conv_lhs => unfold scoringsOf
  simp only [ha, hx]
  cases first <;> rfl

/-- Nothing is scored beyond the end. -/
theorem scoringsOf_of_le (m n : Nat) {s : Search}
    (hm : s.pass.source.rows.size ≤ m + s.pass.source.cursor) (hle : m ≤ n) :
    scoringsOf (n + 1) s = scoringsOf (m + 1) s := by
  induction m generalizing n s with
  | zero =>
    cases ha : s.lookAhead with
    | error err => simp only [scoringsOf, ha]
    | ok s₁ =>
      cases hx : s₁.stepFrame with
      | error err => simp only [scoringsOf, ha, hx]
      | ok r =>
        obtain ⟨first, u⟩ := r
        rw [scoringsOf_succ ha hx, scoringsOf_succ ha hx]
        cases first with
        | true => rfl
        | false =>
          obtain ⟨fastMatch, -, rfl⟩ := lookAhead_eq_ok ha
          rcases stepFrame_cases hx with ⟨hfalse, -⟩ | ⟨-, -, -, -, hlt, -⟩
          · cases hfalse
          · dsimp only at hlt
            omega
  | succ m ih =>
    cases ha : s.lookAhead with
    | error err => simp only [scoringsOf, ha]
    | ok s₁ =>
      cases hx : s₁.stepFrame with
      | error err => simp only [scoringsOf, ha, hx]
      | ok r =>
        obtain ⟨first, u⟩ := r
        rw [scoringsOf_succ ha hx, scoringsOf_succ ha hx]
        cases first with
        | true => rfl
        | false =>
          obtain ⟨fastMatch, -, rfl⟩ := lookAhead_eq_ok ha
          obtain ⟨n, rfl⟩ := Nat.exists_eq_succ_of_ne_zero (show n ≠ 0 by omega)
          rcases stepFrame_cases hx with ⟨hfalse, -⟩ | ⟨-, -, -, -, -, hsource⟩
          · cases hfalse
          · refine congrArg _ (ih n ?_ (Nat.le_of_succ_le_succ hle))
            rw [hsource]
            dsimp only
            omega

/-- **One frame.** -/
theorem framesAhead_step (hlive : s.streamEnded = false) {s₁ : Search} {first : Bool}
    (ha : s.lookAhead = .ok s₁) (hx : s₁.stepFrame = .ok (first, u)) :
    first = true ∧ s.framesAhead = 0 ∧ u.framesAhead = 0 ∨
    first = false ∧ s.framesAhead = u.framesAhead + 1 := by
  have hsource : s₁.pass.source = s.pass.source ∧ s₁.streamEnded = false := by
    obtain ⟨fastMatch, -, rfl⟩ := lookAhead_eq_ok ha
    exact ⟨rfl, hlive⟩
  have hsplit : s.framesAhead = s₁.scoring?.toList.length +
      (if first then [] else scoringsOf s.pass.source.rows.size u).length := by
    unfold framesAhead
    rw [eq_of_live hlive, scoringsOf_succ ha hx, List.length_append]
  rcases stepFrame_cases hx with ⟨rfl, hnone, -⟩ | ⟨rfl, ⟨x, hsome⟩, -, hu, hlt, hrows⟩
  · refine .inl ⟨rfl, by rw [hsplit, hnone]; rfl, ?_⟩
    unfold framesAhead
    cases hb : ({ u with streamEnded := false } : Search).lookAhead with
    | error err => simp only [scoringsOf, hb, List.length_nil]
    | ok u₁ =>
      have hsilent : u₁.scoring? = none := by
        obtain ⟨fastMatch, -, rfl⟩ := lookAhead_eq_ok hb
        exact scoring?_of_done hx rfl rfl rfl
      cases hy : u₁.stepFrame with
      | error err => simp [scoringsOf, hb, hy, hsilent]
      | ok r =>
        obtain ⟨again, v⟩ := r
        rw [scoringsOf_succ hb hy, hsilent]
        rcases stepFrame_cases hy with ⟨rfl, -⟩ | ⟨-, ⟨x, hsome⟩, -⟩
        · rfl
        · rw [hsilent] at hsome
          cases hsome
  · refine .inr ⟨rfl, ?_⟩
    obtain ⟨n, hn⟩ := Nat.exists_eq_succ_of_ne_zero (show s.pass.source.rows.size ≠ 0 by
      rw [← hsource.1]
      omega)
    have hlater : u.framesAhead = (scoringsOf s.pass.source.rows.size u).length := by
      unfold framesAhead
      rw [eq_of_live (hu.trans hsource.2), hrows]
      dsimp only
      rw [hsource.1, hn, scoringsOf_of_le n (n + 1) ?_ (Nat.le_succ n)]
      rw [hrows]
      dsimp only
      rw [hsource.1, hn]
      omega
    rw [hsplit, hsome, hlater, Option.toList_some, List.length_singleton, if_neg Bool.false_ne_true,
      Nat.add_comm]

/-- **Some frames** use up what is ahead, and the frames of the search count them. -/
theorem stepFrames_ahead : ∀ (n : Nat) {s t : Search} {done : Bool}, s.streamEnded = false →
    stepFrames n s = .ok (done, t) →
    done = true ∧ s.framesAhead < n ∧ t.frame = s.frame + s.framesAhead ∧ t.framesAhead = 0 ∨
    done = false ∧ s.framesAhead = n + t.framesAhead ∧ t.frame = s.frame + n ∧
      t.streamEnded = false
  | 0, s, t, done, hlive, h => by
    cases h
    exact .inr ⟨rfl, (Nat.zero_add _).symm, rfl, hlive⟩
  | n + 1, s, t, done, hlive, h => by
    obtain ⟨s₁, first, u, ha, hx, hrest⟩ := stepFrames_succ_eq_ok h
    have hsame : s₁.frame = s.frame ∧ s₁.streamEnded = false := by
      obtain ⟨fastMatch, -, rfl⟩ := lookAhead_eq_ok ha
      exact ⟨rfl, hlive⟩
    rcases framesAhead_step hlive ha hx with ⟨rfl, hs, hu⟩ | ⟨rfl, hs⟩
    · obtain ⟨-, rfl, rfl⟩ | ⟨hfalse, -⟩ := hrest
      · rcases stepFrame_cases hx with ⟨-, -, hframe⟩ | ⟨hfalse, -⟩
        · exact .inl ⟨rfl, by omega, by omega, hu⟩
        · cases hfalse
      · cases hfalse
    · obtain ⟨htrue, -⟩ | ⟨-, hlater⟩ := hrest
      · cases htrue
      · rcases stepFrame_cases hx with ⟨hfalse, -⟩ | ⟨-, -, hframe, hu, -⟩
        · cases hfalse
        · rcases stepFrames_ahead n (hu.trans hsame.2) hlater with
            ⟨rfl, hlt, ht, hzero⟩ | ⟨rfl, heq, ht, hlive'⟩
          · exact .inl ⟨rfl, by omega, by omega, hzero⟩
          · exact .inr ⟨rfl, by omega, by omega, hlive'⟩

/-- The count does not look at the lattice. -/
theorem framesAhead_lattice (h : s.Tidy) (lattice : Lattice) :
    ({ s with lattice } : Search).framesAhead = s.framesAhead := by
  have hbegin : ({ s with streamEnded := false } : Search).Tidy :=
    ⟨h.selects, h.fits, h.closed, h.noted⟩
  exact congrArg List.length ((hbegin.abreast lattice).scoringsOf_eq _)

end SpeechDecoder.Search
