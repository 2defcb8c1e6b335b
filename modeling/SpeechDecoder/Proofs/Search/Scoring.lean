import SpeechDecoder.Acoustics
import SpeechDecoder.Proofs.Beam
import SpeechDecoder.Proofs.Outcome
import SpeechDecoder.Proofs.Token.Collapse
import Mathlib.Logic.Function.Iterate

/-!
# Scoring a frame

What a row of the table does to the tokens of a list (`Token.heard`).  A scored frame changes
nothing about a token but its score and its acoustic score, and it scores a token as often as the
list names it.

* `scoreFrame_cases` says what becomes of the source and of the answer, `scoreFrame_eq_ok` what
  becomes of the tokens.
* `scoreFrame_scored` and `scoreFrame_idle` are its cases for a list without repetitions: every
  token hears the row once (`Store.Heard`), or no token emits and nothing changes.
* `scoreFrame_renamed`: tokens that are numbered differently are scored alike.
-/

namespace SpeechDecoder

/-- **A token after a row of the table:** an emitting one is scored. -/
def Token.heard (row : Array Score) (t : Token) : Token :=
  match t.kind.phone? with
  | some p => t.scored (AcousticSource.likelihood row p)
  | none => t

namespace Token

variable (row : Array Score) (t : Token) (n : Nat)

@[simp] theorem heard_state : (t.heard row).state = t.state := by
  unfold heard
  split <;> rfl

@[simp] theorem heard_kind : (t.heard row).kind = t.kind := by
  unfold heard
  split <;> rfl

@[simp] theorem heard_frame : (t.heard row).frame = t.frame := by
  unfold heard
  split <;> rfl

@[simp] theorem heard_predecessor : (t.heard row).predecessor = t.predecessor := by
  unfold heard
  split <;> rfl

@[simp] theorem heard_insertion : (t.heard row).insertion = t.insertion := by
  unfold heard
  split <;> rfl

@[simp] theorem heard_language : (t.heard row).language = t.language := by
  unfold heard
  split <;> rfl

theorem heard_of_not_emitting (h : t.kind.isEmitting = false) : t.heard row = t := by
  unfold heard
  cases hp : t.kind.phone? with
  | none => rfl
  | some p =>
    rw [StateKind.isEmitting_iff.2 ⟨p, hp⟩] at h
    cases h

theorem score_heard {p : Nat} (h : t.kind = .emitting p) :
    (t.heard row).score = t.score + AcousticSource.likelihood row p := by
  unfold heard
  rw [h]
  rfl

/-- Whatever a row does not change, no number of rows does. -/
theorem iterate_heard {β : Type} (f : Token → β) (hf : ∀ t : Token, f (t.heard row) = f t) :
    ∀ (n : Nat) (t : Token), f ((heard row)^[n] t) = f t
  | 0, _ => rfl
  | n + 1, t => by rw [Function.iterate_succ_apply, iterate_heard f hf n, hf]

end Token

/-- **A store whose tokens of a list have heard a row.** -/
structure Store.Heard (row : Array Score) (ids : List Nat) (a a' : Store) : Prop where
  size_eq : a'.size = a.size
  of_mem : ∀ id ∈ ids, a'.get? id = (a.get? id).map (Token.heard row)
  of_not_mem : ∀ id ∉ ids, a'.get? id = a.get? id

/-- Where a token of the store that has heard the row comes from. -/
theorem Store.Heard.exists_get? {row : Array Score} {ids : List Nat} {a a' : Store}
    (h : Store.Heard row ids a a') {id : Nat} {t' : Token} (ht' : a'.get? id = some t') :
    ∃ t, a.get? id = some t ∧ t'.state = t.state ∧ t'.kind = t.kind ∧
      t'.predecessor = t.predecessor ∧
      (id ∈ ids ∧ t' = t.heard row ∨ id ∉ ids ∧ t' = t) := by
  by_cases hid : id ∈ ids
  · rw [h.of_mem id hid, Option.map_eq_some_iff] at ht'
    obtain ⟨t, ht, rfl⟩ := ht'
    exact ⟨t, ht, by simp, by simp, by simp, .inl ⟨hid, rfl⟩⟩
  · rw [h.of_not_mem id hid] at ht'
    exact ⟨t', ht', rfl, rfl, rfl, .inr ⟨hid, rfl⟩⟩

namespace AcousticSource

variable {row : Array Score} {src : AcousticSource}

/-- Scoring one token. -/
theorem scoreToken_eq_ok {id : Nat} {a a' : Store} {best best' : Option (Nat × Score)}
    (h : scoreToken row (a, best) id = .ok (a', best')) :
    id < a.size ∧ a'.size = a.size ∧
      (∀ x, a'.get? x = if x = id then (a.get? x).map (Token.heard row) else a.get? x) ∧
      (best' = none → best = none ∧ ∀ t, a.get? id = some t → t.kind.isEmitting = false) := by
  cases hg : a.get? id with
  | none => simp [scoreToken, Store.get, hg, bind, Except.bind] at h
  | some t =>
    have hid := Store.lt_size_of_get? hg
    unfold scoreToken at h
    rw [Store.get_eq_ok hg] at h
    cases hp : t.kind.phone? with
    | none =>
      simp only [bind, Except.bind, pure, Except.pure, hp] at h
      cases h
      have hk : t.kind.isEmitting = false := by
        rw [Bool.eq_false_iff]
        intro hk
        obtain ⟨p, hp'⟩ := StateKind.isEmitting_iff.1 hk
        rw [hp] at hp'
        cases hp'
      refine ⟨hid, rfl, fun x => ?_, fun hb => ⟨hb, fun u hu => ?_⟩⟩
      · split_ifs with hx
        · rw [hx, hg, Option.map_some, Token.heard_of_not_emitting row t hk]
        · rfl
      · cases hu
        exact hk
    | some p =>
      simp only [bind, Except.bind, pure, Except.pure, hp] at h
      cases h
      refine ⟨hid, Store.size_set _ _ _, fun x => ?_, fun hb => ?_⟩
      · rw [Store.get?_set]
        by_cases hx : x = id
        · rw [if_pos hx.symm, if_pos hid, if_pos hx, hx, hg, Option.map_some]
          simp [Token.heard, hp]
        · rw [if_neg (Ne.symm hx), if_neg hx]
      · split at hb
        · cases hb
        · split_ifs at hb

/-- **Scoring the tokens of a list,** by induction on it. -/
theorem foldlM_scoreToken {ids : List Nat} {a a' : Store} {best best' : Option (Nat × Score)}
    (h : ids.foldlM (scoreToken row) (a, best) = .ok (a', best')) :
    (∀ id ∈ ids, id < a.size) ∧ a'.size = a.size ∧
      (∀ x, a'.get? x = (a.get? x).map (Token.heard row)^[ids.count x]) ∧
      (best' = none → ∀ id ∈ ids, ∀ t, a.get? id = some t → t.kind.isEmitting = false) := by
  suffices hbest : (∀ id ∈ ids, id < a.size) ∧ a'.size = a.size ∧
      (∀ x, a'.get? x = (a.get? x).map (Token.heard row)^[ids.count x]) ∧
      (best' = none → best = none ∧
        ∀ id ∈ ids, ∀ t, a.get? id = some t → t.kind.isEmitting = false) from
    ⟨hbest.1, hbest.2.1, hbest.2.2.1, fun h => (hbest.2.2.2 h).2⟩
  induction ids generalizing a best with
  | nil =>
    cases h
    refine ⟨by simp, rfl, fun x => ?_, fun h => ⟨h, by simp⟩⟩
    cases a'.get? x <;> rfl
  | cons id ids ih =>
    rw [List.foldlM_cons] at h
    cases hs : scoreToken row (a, best) id with
    | error f =>
      rw [hs] at h
      cases h
    | ok r =>
      obtain ⟨a₁, best₁⟩ := r
      rw [hs] at h
      obtain ⟨hid, hsize₁, hget₁, hbest₁⟩ := scoreToken_eq_ok hs
      obtain ⟨hlt, hsize, hget, hbest⟩ := ih h
      refine ⟨fun x hx => ?_, hsize.trans hsize₁, fun x => ?_, fun hb => ?_⟩
      · rcases List.mem_cons.1 hx with rfl | hx
        · exact hid
        · exact hsize₁ ▸ hlt x hx
      · rw [hget x, hget₁ x, List.count_cons]
        by_cases hx : x = id
        · subst hx
          rw [if_pos rfl, if_pos (by simp), Option.map_map, Function.iterate_succ]
        · rw [if_neg hx, if_neg (by simpa using Ne.symm hx), Nat.add_zero]
      · obtain ⟨hb₁, hrest⟩ := hbest hb
        obtain ⟨hb₀, hfirst⟩ := hbest₁ hb₁
        refine ⟨hb₀, fun x hx t ht => ?_⟩
        by_cases hxi : x = id
        · exact hfirst t (hxi ▸ ht)
        · rcases List.mem_cons.1 hx with hx | hx
          · exact absurd hx hxi
          · exact hrest x hx t (by rw [hget₁ x, if_neg hxi, ht])

theorem usedUp_ne_scored (src : AcousticSource) (best : Nat) : src.usedUp ≠ .scored best := by
  unfold usedUp
  split <;> simp

/-- **What a frame is answered with:** at the end of the table that there is no more, and else with
the best of the tokens that emit, if there is one. -/
theorem scoreFrame_cases {ids : List Nat} {a a' : Store} {outcome : ScoreOutcome}
    {src' : AcousticSource} (h : src.scoreFrame a ids = .ok (outcome, src', a')) :
    src.rows[src.cursor]? = none ∧ a' = a ∧
        (src.endReported = true ∧ outcome = .streamEnd ∧ src' = src ∨
          src.endReported = false ∧ outcome = src.usedUp ∧ src' = { src with endReported := true }) ∨
      ∃ row best, src.rows[src.cursor]? = some row ∧
        ids.foldlM (scoreToken row) (a, none) = .ok (a', best) ∧
        src' = { src with cursor := src.cursor + 1 } ∧
        (best = none ∧ outcome = src.usedUp ∨ ∃ b, best = some b ∧ outcome = .scored b.1) := by
  unfold scoreFrame at h
  cases hrow : src.rows[src.cursor]? with
  | none =>
    rw [hrow] at h
    refine .inl ⟨rfl, ?_⟩
    cases hend : src.endReported with
    | true =>
      simp only [hend, if_true] at h
      cases h
      exact ⟨rfl, .inl ⟨rfl, rfl, rfl⟩⟩
    | false =>
      simp only [hend, Bool.false_eq_true, if_false] at h
      cases h
      exact ⟨rfl, .inr ⟨rfl, rfl, rfl⟩⟩
  | some row =>
    cases hf : ids.foldlM (scoreToken row) (a, none) with
    | error f => simp [hrow, hf, bind, Except.bind] at h
    | ok r =>
      obtain ⟨a₁, best⟩ := r
      simp only [hrow, hf, bind, Except.bind, pure, Except.pure] at h
      cases best with
      | none =>
        cases h
        exact .inr ⟨row, none, rfl, hf, rfl, .inl ⟨rfl, rfl⟩⟩
      | some b =>
        cases h
        exact .inr ⟨row, some b, rfl, hf, rfl, .inr ⟨b, rfl, rfl⟩⟩

/-- **What becomes of a frame:** at the end of the table nothing, and else every token of the list
hears the row.  No token emits if nothing was scored. -/
theorem scoreFrame_eq_ok {ids : List Nat} {a a' : Store} {outcome : ScoreOutcome}
    {src' : AcousticSource} (h : src.scoreFrame a ids = .ok (outcome, src', a')) :
    (src.rows[src.cursor]? = none ∧ a' = a ∧ (∀ best, outcome ≠ .scored best) ∧
      src'.rows = src.rows ∧ src'.cursor = src.cursor) ∨
    ∃ row, src.rows[src.cursor]? = some row ∧ src' = { src with cursor := src.cursor + 1 } ∧
      (∀ id ∈ ids, id < a.size) ∧ a'.size = a.size ∧
      (∀ x, a'.get? x = (a.get? x).map (Token.heard row)^[ids.count x]) ∧
      ((∀ best, outcome ≠ .scored best) →
        ∀ id ∈ ids, ∀ t, a.get? id = some t → t.kind.isEmitting = false) := by
  rcases scoreFrame_cases h with ⟨hrow, rfl, ⟨-, rfl, rfl⟩ | ⟨-, rfl, rfl⟩⟩ |
    ⟨row, best, hrow, hf, rfl, hbest⟩
  · exact .inl ⟨hrow, rfl, by simp, rfl, rfl⟩
  · exact .inl ⟨hrow, rfl, usedUp_ne_scored src, rfl, rfl⟩
  · obtain ⟨hlt, hsize, hget, hnone⟩ := foldlM_scoreToken hf
    refine .inr ⟨row, hrow, rfl, hlt, hsize, hget, fun hno => ?_⟩
    rcases hbest with ⟨rfl, -⟩ | ⟨b, -, rfl⟩
    · exact hnone rfl
    · exact absurd rfl (hno b.1)

/-- **A frame that was scored:** every token of the list hears the row of the cursor. -/
theorem scoreFrame_scored {ids : List Nat} (hids : ids.Nodup) {a a' : Store} {best : Nat}
    {src' : AcousticSource} (h : src.scoreFrame a ids = .ok (.scored best, src', a')) :
    ∃ row, src.rows[src.cursor]? = some row ∧ src'.rows = src.rows ∧
      src'.cursor = src.cursor + 1 ∧ (∀ id ∈ ids, id < a.size) ∧ Store.Heard row ids a a' := by
  rcases scoreFrame_eq_ok h with ⟨-, -, hno, -⟩ | ⟨row, hrow, rfl, hlt, hsize, hget, -⟩
  · exact absurd rfl (hno best)
  · refine ⟨row, hrow, rfl, rfl, hlt, hsize, fun id hid => ?_, fun id hid => ?_⟩
    · rw [hget id, List.count_eq_one_of_mem hids hid]
      rfl
    · rw [hget id, List.count_eq_zero_of_not_mem hid]
      cases a.get? id <;> rfl

/-- **A frame that was not scored** changes no token if all of them emit. -/
theorem scoreFrame_idle {ids : List Nat} {a a' : Store} {outcome : ScoreOutcome}
    {src' : AcousticSource} (h : src.scoreFrame a ids = .ok (outcome, src', a'))
    (hno : ∀ best, outcome ≠ .scored best)
    (hemit : ∀ id ∈ ids, ∀ t, a.get? id = some t → t.kind.isEmitting = true) :
    a' = a ∧ src'.rows = src.rows ∧ (src'.cursor = src.cursor ∨ ids = []) := by
  rcases scoreFrame_eq_ok h with ⟨-, ha, -, hrows, hcursor⟩ | ⟨row, -, rfl, hlt, -, hget, hsilent⟩
  · exact ⟨ha, hrows, .inl hcursor⟩
  · have hnil : ids = [] := by
      rw [List.eq_nil_iff_forall_not_mem]
      intro id hid
      obtain ⟨t, ht⟩ := Store.exists_get? (hlt id hid)
      have hk := hemit id hid t ht
      rw [hsilent hno id hid t ht] at hk
      cases hk
    refine ⟨Store.ext_get? fun id => ?_, rfl, .inr hnil⟩
    rw [hget id, hnil]
    cases a.get? id <;> rfl

/-- A row says nothing about tokens that do not emit. -/
theorem foldlM_scoreToken_silent {ids : List Nat} {a a' : Store} {best : Option (Nat × Score)}
    (hsilent : ∀ id ∈ ids, ∀ t, a.get? id = some t → t.kind.isEmitting = false)
    (h : ids.foldlM (scoreToken row) (a, none) = .ok (a', best)) : best = none := by
  induction ids with
  | nil =>
    cases h
    rfl
  | cons id ids ih =>
    rw [List.foldlM_cons] at h
    cases hg : a.get? id with
    | none => simp [scoreToken, Store.get, hg, bind, Except.bind] at h
    | some t =>
      have hphone : t.kind.phone? = none := by
        have hk := hsilent id (by simp) t hg
        cases hp : t.kind.phone? with
        | none => rfl
        | some p =>
          rw [StateKind.isEmitting_iff.2 ⟨p, hp⟩] at hk
          cases hk
      have hstep : scoreToken row (a, none) id = .ok (a, none) := by
        simp [scoreToken, Store.get_eq_ok hg, hphone, bind, Except.bind, pure, Except.pure]
      rw [hstep] at h
      exact ih (fun x hx => hsilent x (by simp [hx])) h

/-- **A frame without emitting tokens** is not scored. -/
theorem scoreFrame_silent {ids : List Nat} {a a' : Store} {best : Nat} {src' : AcousticSource}
    (hsilent : ∀ id ∈ ids, ∀ t, a.get? id = some t → t.kind.isEmitting = false) :
    src.scoreFrame a ids ≠ .ok (.scored best, src', a') := by
  intro h
  unfold scoreFrame at h
  split at h
  · split at h
    · cases h
    · simp [usedUp_ne_scored] at h
  · next row _ =>
    cases hf : ids.foldlM (scoreToken row) (a, none) with
    | error f => simp [hf, bind, Except.bind] at h
    | ok r =>
      obtain ⟨a₁, b⟩ := r
      have hb : b = none := foldlM_scoreToken_silent hsilent hf
      subst hb
      simp [hf, bind, Except.bind, pure, Except.pure, usedUp_ne_scored] at h

/-- A frame without tokens is not scored. -/
theorem scoreFrame_nil {a a' : Store} {best : Nat} {src' : AcousticSource} :
    src.scoreFrame a [] ≠ .ok (.scored best, src', a') :=
  scoreFrame_silent fun _ h => by cases h

/-- **Whatever a row does not change about a token,** a frame does not change either. -/
theorem map_scoreFrame {ids : List Nat} {a a' : Store} {outcome : ScoreOutcome}
    {src' : AcousticSource} (h : src.scoreFrame a ids = .ok (outcome, src', a')) {β : Type}
    (f : Token → β) (hf : ∀ row (t : Token), f (t.heard row) = f t) (x : Nat) :
    (a'.get? x).map f = (a.get? x).map f := by
  rcases scoreFrame_eq_ok h with ⟨-, rfl, -⟩ | ⟨row, -, -, -, -, hget, -⟩
  · rfl
  · rw [hget x, Option.map_map]
    exact congrArg (fun k => (a.get? x).map k) (funext (Token.iterate_heard row f (hf row) _))

/-- **Once a frame was not scored,** the next one of the same tokens is not scored either. -/
theorem not_scored_again {ids : List Nat} {a a' : Store} {outcome : ScoreOutcome}
    {src' : AcousticSource} (h : src.scoreFrame a ids = .ok (outcome, src', a'))
    (hno : ∀ best, outcome ≠ .scored best) {best : Nat} {src'' : AcousticSource} {a'' : Store} :
    src'.scoreFrame a' ids ≠ .ok (.scored best, src'', a'') := by
  rcases scoreFrame_eq_ok h with ⟨hrow, rfl, -, hrows, hcursor⟩ | ⟨row, -, -, -, -, -, hsilent⟩
  · intro hagain
    rcases scoreFrame_eq_ok hagain with ⟨-, -, hno', -⟩ | ⟨row, hrow', -⟩
    · exact hno' best rfl
    · rw [hrows, hcursor, hrow] at hrow'
      cases hrow'
  · refine scoreFrame_silent fun id hid t' ht' => ?_
    have hmap := map_scoreFrame h Token.kind (fun row t => by simp) id
    rw [ht', Option.map_some, eq_comm, Option.map_eq_some_iff] at hmap
    obtain ⟨t, ht, hk⟩ := hmap
    rw [← hk]
    exact hsilent hno id hid t ht

/-- Only tokens that wait for a row are scored. -/
theorem get?_scoreFrame {ids : List Nat} {a a' : Store} {outcome : ScoreOutcome}
    {src' : AcousticSource} (h : src.scoreFrame a ids = .ok (outcome, src', a')) {id : Nat}
    (hid : id ∉ ids) : a'.get? id = a.get? id := by
  rcases scoreFrame_eq_ok h with ⟨-, rfl, -⟩ | ⟨row, -, -, -, -, hget, -⟩
  · rfl
  · rw [hget id, List.count_eq_zero_of_not_mem hid]
    cases a.get? id <;> rfl

theorem size_scoreFrame {ids : List Nat} {a a' : Store} {outcome : ScoreOutcome}
    {src' : AcousticSource} (h : src.scoreFrame a ids = .ok (outcome, src', a')) :
    a'.size = a.size := by
  rcases scoreFrame_eq_ok h with ⟨-, rfl, -⟩ | ⟨row, -, -, -, hsize, -⟩
  · rfl
  · exact hsize

/-- **Scoring stored tokens** meets no fault. -/
theorem exists_scoreFrame (src : AcousticSource) {ids : List Nat} {a : Store}
    (h : ∀ id ∈ ids, id < a.size) : ∃ r, src.scoreFrame a ids = .ok r := by
  unfold scoreFrame
  split
  · split <;> exact ⟨_, rfl⟩
  · next row _ =>
    have hfold := Outcome.foldlM (H := fun _ => False)
      (I := fun acc : Store × Option (Nat × Score) => acc.1.size = a.size) (f := scoreToken row)
      (l := ids) (fun acc id hid hsize => by
        obtain ⟨t, ht⟩ := Store.exists_get? (a := acc.1) (by rw [hsize]; exact h id hid)
        unfold scoreToken
        rw [Store.get_eq_ok ht]
        simp only [bind, Except.bind]
        split
        · exact hsize
        · exact (Store.size_set _ _ _).trans hsize) (a, none) rfl
    cases hf : ids.foldlM (scoreToken row) (a, none) with
    | error err => exact (hfold.of_error hf).elim
    | ok r =>
      obtain ⟨a', best⟩ := r
      cases best <;> exact ⟨_, rfl⟩

end AcousticSource

/-! ## Stores that number their tokens differently -/

/-- A fault under other numbers. -/
def Fault.renamed (ρ : Nat → Nat) : Fault → Fault
  | token id => token (ρ id)
  | state s => state s
  | endless id => endless (ρ id)

/-- The answer to a frame under other numbers. -/
def ScoreOutcome.renamed (ρ : Nat → Nat) : ScoreOutcome → ScoreOutcome
  | scored best => scored (ρ best)
  | exhausted => exhausted
  | streamEnd => streamEnd

theorem Fault.renamed_id : ∀ f : Fault, f.renamed id = f
  | token _ => rfl
  | state _ => rfl
  | endless _ => rfl

theorem ScoreOutcome.renamed_id : ∀ o : ScoreOutcome, o.renamed id = o
  | scored _ => rfl
  | exhausted => rfl
  | streamEnd => rfl

namespace AcousticSource

variable {ρ : Nat → Nat} {row : Array Score} {a a' : Store}

theorem scoreToken_renamed (h : a.Renamed ρ a') (best : Option (Nat × Score)) (id : Nat) :
    Matched (fun r r' => r.1.Renamed ρ r'.1 ∧ r'.2 = Beam.renamedBest ρ r.2)
      (fun f f' => f' = f.renamed ρ) (scoreToken row (a, best) id)
      (scoreToken row (a', Beam.renamedBest ρ best) (ρ id)) := by
  unfold scoreToken
  cases hg : a.get? id with
  | none => simp [Store.get, hg, h.get?_eq_none hg, bind, Except.bind, Matched, Fault.renamed]
  | some t =>
    obtain ⟨t', ht', heq⟩ := h.exists_get? hg
    obtain ⟨hst, hkind, hscore, -, hins, hlang, hframe⟩ := Store.detached_eq_iff.1 heq
    rw [Store.get_eq_ok hg, Store.get_eq_ok ht']
    simp only [bind, Except.bind, pure, Except.pure, hkind]
    cases hp : t.kind.phone? with
    | none => exact ⟨h, rfl⟩
    | some p =>
      have hscored : (t'.scored (likelihood row p)).detached =
          (t.scored (likelihood row p)).detached :=
        Store.detached_eq_iff.2 ⟨hst, hkind, congrArg (· + likelihood row p) hscore, rfl, hins,
          hlang, hframe⟩
      refine ⟨h.set hscored id, ?_⟩
      rw [(Store.detached_eq_iff.1 hscored).2.2.1]
      cases best with
      | none => rfl
      | some b =>
        simp only [Beam.renamedBest, Option.map_some]
        split_ifs <;> rfl

/-- **Scoring goes by the tokens.** -/
theorem scoreFrame_renamed (src : AcousticSource) (h : a.Renamed ρ a') (ids : List Nat) :
    Matched (fun r r' => r'.1 = r.1.renamed ρ ∧ r'.2.1 = r.2.1 ∧ r.2.2.Renamed ρ r'.2.2)
      (fun f f' => f' = f.renamed ρ) (src.scoreFrame a ids) (src.scoreFrame a' (ids.map ρ)) := by
  have husedUp : src.usedUp = src.usedUp.renamed ρ := by
    unfold usedUp
    split <;> rfl
  unfold scoreFrame
  split
  · split
    · exact ⟨rfl, rfl, h⟩
    · exact ⟨husedUp, rfl, h⟩
  · next row _ =>
    rw [List.foldlM_map]
    have hfold := Matched.foldlM (l := ids) (f := scoreToken row)
      (k := fun acc id => scoreToken row acc (ρ id)) (S := fun f f' => f' = f.renamed ρ)
      (R := fun r r' => r.1.Renamed ρ r'.1 ∧ r'.2 = Beam.renamedBest ρ r.2)
      (fun ⟨b, best⟩ ⟨b', best'⟩ id _ ⟨hb, hbest⟩ => by
        cases hbest
        exact scoreToken_renamed hb best id)
      (a, none) (a', none) ⟨h, rfl⟩
    refine hfold.bind fun ⟨b, best⟩ ⟨b', best'⟩ ⟨hb, hbest⟩ => ?_
    cases hbest
    cases best with
    | none => exact ⟨husedUp, rfl, hb⟩
    | some x => exact ⟨rfl, rfl, hb⟩

/-- Scoring does not look at predecessors. -/
theorem scoreFrame_alike (src : AcousticSource) (ids : List Nat) (h : a.Alike a') :
    Matched (fun r r' => r'.1 = r.1 ∧ r'.2.1 = r.2.1 ∧ r.2.2.Alike r'.2.2) (fun f f' => f' = f)
      (src.scoreFrame a ids) (src.scoreFrame a' ids) := by
  have hmatched := src.scoreFrame_renamed h.renamed ids
  rw [List.map_id] at hmatched
  exact hmatched.mono (fun r _ ⟨hout, hsource, hb⟩ => ⟨hout.trans r.1.renamed_id, hsource, hb.alike⟩)
    fun f _ hf => hf.trans f.renamed_id

end AcousticSource

end SpeechDecoder
