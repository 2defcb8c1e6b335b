import SpeechDecoder.Proofs.Search.Grow

/-!
# The fast match

The fast match halts nowhere: it checks no order, and a beam whose tokens are stored is all that it
needs (`Ready`).  So it goes on frame by frame until a frame is not scored, and what its window holds
is told by how many steps were made and how many records were dropped (`Ran`).

* `compact_ok` says what is left of a store and a beam.
* `Ready.step` are the three things that a step can do; `framesAhead` counts the frames that are
  still to be scored.
* `Ready.reset` and `Ran.step` say which frames are in the window.
-/

namespace SpeechDecoder.FastMatch

open Expansion (Fits Sound)

/-! ## Compaction -/

theorem mapM_get {a : Store} : ∀ {ids : List Nat}, (∀ id ∈ ids, id < a.size) →
    ∃ kept : List Token, ids.mapM a.get = .ok kept ∧ kept.length = ids.length ∧
      ∀ i : Nat, kept[i]? = ids[i]?.bind a.get?
  | [], _ => ⟨[], rfl, rfl, fun _ => rfl⟩
  | id :: ids, h => by
    obtain ⟨t, ht⟩ := Store.exists_get? (h id (by simp))
    obtain ⟨kept, hkept, hlength, hget⟩ := mapM_get fun x hx => h x (List.mem_cons_of_mem id hx)
    refine ⟨t :: kept, ?_, by simp [hlength], fun i => ?_⟩
    · rw [List.mapM_cons, Store.get_eq_ok ht, hkept]
      rfl
    · cases i with
      | zero => simp [ht]
      | succ i => simpa using hget i

/-- Tokens that are appended one after the other. -/
theorem foldl_push (score : Nat → Score) : ∀ (ids : List Nat) (b : Beam),
    let b' := ids.foldl (fun b id => b.push id (score id)) b
    b'.tokens = b.tokens ++ ids ∧ b'.widths = b.widths
  | [], b => ⟨(List.append_nil _).symm, rfl⟩
  | id :: ids, b => by
    obtain ⟨htokens, hwidths⟩ := foldl_push score ids (b.push id (score id))
    refine ⟨?_, ?_⟩
    · rw [List.foldl_cons, htokens, Beam.tokens_push]
      simp
    · rw [List.foldl_cons, hwidths]
      exact Beam.widths_note _ _ _

/-- **The tokens of a beam,** numbered and appended in their order. -/
theorem compact_eq {a : Store} {b : Beam} (h : ∀ id ∈ b.tokens, id < a.size) :
    ∃ a', compact a b = .ok (a', (List.range a'.size).foldl (fun b id => b.push id (a'.score id))
        (.empty b.widths)) ∧ a'.size = b.tokens.length ∧
      ∀ i : Nat, a'.get? i = (b.tokens[i]?.bind a.get?).map Token.detached := by
  obtain ⟨kept, hkept, hlength, hget⟩ := mapM_get h
  have hretain : a.retain b.tokens = .ok ⟨(kept.map Token.detached).toArray⟩ := by
    unfold Store.retain
    rw [hkept]
    rfl
  refine ⟨_, by unfold compact; rw [hretain]; rfl, ?_, fun i => ?_⟩
  · simp [Store.size, hlength]
  · rw [← hget i]
    simp [Store.get?]

/-- What is left of a beam whose tokens are stored. -/
theorem compact_ok {a : Store} {b : Beam} (h : ∀ id ∈ b.tokens, id < a.size) :
    ∃ a' b', compact a b = .ok (a', b') ∧
      (∀ i : Nat, a'.get? i = (b.tokens[i]?.bind a.get?).map Token.detached) ∧
      b'.tokens = List.range a'.size ∧ b'.widths = b.widths := by
  obtain ⟨a', hcompact, -, hget⟩ := compact_eq h
  obtain ⟨htokens, hwidths⟩ := foldl_push a'.score (List.range a'.size) (.empty b.widths)
  exact ⟨a', _, hcompact, hget, htokens, hwidths⟩

/-- A compacted store holds the tokens of the beam. -/
theorem exists_of_compact {a a' : Store} {b : Beam}
    (h : ∀ i : Nat, a'.get? i = (b.tokens[i]?.bind a.get?).map Token.detached) {i : Nat} {t' : Token}
    (ht' : a'.get? i = some t') :
    ∃ id t, id ∈ b.tokens ∧ a.get? id = some t ∧ t' = t.detached := by
  rw [h i, Option.map_eq_some_iff] at ht'
  obtain ⟨t, ht, rfl⟩ := ht'
  obtain ⟨id, hid, hget⟩ := Option.bind_eq_some_iff.1 ht
  exact ⟨id, t, List.mem_of_getElem? hid, hget, rfl⟩

/-! ## Growing a frame -/

/-- **A fast match on a given pass** whose beam is stored. -/
structure Ready (size : Nat) (fast : Pass) (f : FastMatch) : Prop where
  windowSize : f.windowSize = size
  graph : f.pass.graph = fast.graph
  pruner : f.pass.pruner = fast.pruner
  widths : f.pass.widths = fast.widths
  rows : f.pass.source.rows = fast.source.rows
  selects : fast.pruner.Selects
  fits : Fits fast.graph f.store
  stored : ∀ id ∈ f.beam.tokens, id < f.store.size

variable {size : Nat} {fast : Pass} {f f' : FastMatch}

/-- The fast match with the tokens that were grown, and with the evidence of those that they grew
from. -/
def grown (f : FastMatch) (seeds : List Nat) (store : Store) (beam : Beam) : FastMatch :=
  { f with store, beam, window := f.window ++ [f.evidence seeds] }

theorem grow_eq (f : FastMatch) : f.grow =
    match f.beam.seeds f.store .certain with
    | .error err => .error (.dangling err)
    | .ok seeds =>
      match (Expansion.start f.store (.empty f.pass.widths) (.empty 0) .empty).run f.growth seeds with
      | .error h => .error h.error
      | .ok e =>
        match compact e.store e.next with
        | .error err => .error (.dangling err)
        | .ok (store, beam) => .ok (f.grown seeds store beam) := by
  unfold grow
  cases f.beam.seeds f.store .certain with
  | error err => rfl
  | ok seeds =>
    simp only [bind, Except.bind, mapError_ok]
    cases (Expansion.start f.store (.empty f.pass.widths) (.empty 0) .empty).run f.growth seeds with
    | error h => rfl
    | ok e =>
      simp only [mapError_ok]
      cases compact e.store e.next <;> rfl

/-- **Growing a frame** is not halted. -/
theorem Ready.grow (h : f.Ready size fast) : ∃ done e store beam,
    Sound f.growth f.store done e ∧ e.queue = [] ∧
    (Expansion.start f.store (.empty f.pass.widths) (.empty 0) .empty).run f.growth
      (f.beam.worthExpanding f.store .certain) = .ok e ∧
    compact e.store e.next = .ok (store, beam) ∧
    f.grow = .ok (f.grown (f.beam.worthExpanding f.store .certain) store beam) ∧
    (f.grown (f.beam.worthExpanding f.store .certain) store beam).Ready size fast := by
  have hgraph : f.growth.graph = fast.graph := h.graph
  have hfits : Fits f.growth.graph f.store := by
    rw [hgraph]
    exact h.fits
  have hold : ∀ id ∈ f.beam.worthExpanding f.store .certain, id < f.store.size :=
    fun id hid => h.stored id (Beam.mem_worthExpanding hid)
  have hrun := (Sound.start hfits f.pass.widths (.empty 0) .empty).run hold
  rw [grow_eq, Beam.seeds_of_lt h.stored]
  dsimp only
  cases hx : (Expansion.start f.store (.empty f.pass.widths) (.empty 0) .empty).run f.growth
      (f.beam.worthExpanding f.store .certain) with
  | error err =>
    obtain ⟨⟨horder, -⟩, -⟩ := hrun.of_error hx
    cases horder
  | ok e =>
    obtain ⟨done, hsound, hqueue⟩ := hrun.of_ok hx
    obtain ⟨store, beam, hcompact, hget, htokens, -⟩ := compact_ok fun id hid => hsound.next_lt hid
    refine ⟨done, e, store, beam, hsound, hqueue, rfl, hcompact, by simp only [hcompact],
      h.windowSize, h.graph, h.pruner, h.widths, h.rows, h.selects, fun i t' ht' => ?_,
      fun i hi => ?_⟩
    · obtain ⟨id, t, -, ht, rfl⟩ := exists_of_compact hget ht'
      exact hgraph ▸ hsound.fits id t ht
    · rw [show (f.grown (f.beam.worthExpanding f.store .certain) store beam).beam = beam from rfl,
        htokens] at hi
      exact List.mem_range.1 hi

/-! ## One step -/

/-- The fast match after its source was asked for a frame. -/
def heard (f : FastMatch) (source : AcousticSource) (store : Store) : FastMatch :=
  { f with pass := { f.pass with source }, store, steps := f.steps + 1 }

/-- The fast match in the next frame, with the beam that the pruner left. -/
def moved (f : FastMatch) (beam : Beam) : FastMatch := { f with beam, frame := f.frame + 1 }

theorem step_eq (f : FastMatch) : f.step =
    if f.ended then .ok f
    else
      match f.pass.source.scoreFrame f.store f.beam.tokens with
      | .error err => .error (.dangling err)
      | .ok (.exhausted, source, store) => .ok { f.heard source store with ended := true }
      | .ok (.streamEnd, source, store) => .ok { f.heard source store with ended := true }
      | .ok (.scored _, source, store) =>
        match f.pass.pruner store f.beam with
        | .error err => .error (.dangling err)
        | .ok beam => ((f.heard source store).moved beam).grow := by
  unfold step
  split
  · rfl
  · cases hx : f.pass.source.scoreFrame f.store f.beam.tokens with
    | error err => rfl
    | ok r =>
      obtain ⟨outcome, source, store⟩ := r
      cases outcome with
      | exhausted => rfl
      | streamEnd => rfl
      | scored best =>
        simp only [mapError_ok, bind, Except.bind]
        cases f.pass.pruner store f.beam <;> rfl

/-- The next frame is scored. -/
def Scores (f : FastMatch) : Prop :=
  f.ended = false ∧ ∃ best source store,
    f.pass.source.scoreFrame f.store f.beam.tokens = .ok (.scored best, source, store)

instance (f : FastMatch) : Decidable f.Scores :=
  match hx : f.pass.source.scoreFrame f.store f.beam.tokens with
  | .ok (.scored best, source, store) =>
    decidable_of_iff (f.ended = false) ⟨fun h => ⟨h, best, source, store, hx⟩, fun h => h.1⟩
  | .ok (.exhausted, _, _) => .isFalse fun ⟨_, _, _, _, h⟩ => by rw [hx] at h; cases h
  | .ok (.streamEnd, _, _) => .isFalse fun ⟨_, _, _, _, h⟩ => by rw [hx] at h; cases h
  | .error _ => .isFalse fun ⟨_, _, _, _, h⟩ => by rw [hx] at h; cases h

/-- **A frame that is scored:** what the row, the pruner and the growth make of it. -/
theorem Ready.step_scored (h : f.Ready size fast) (hs : f.Scores) :
    ∃ best source store beam next,
      f.pass.source.scoreFrame f.store f.beam.tokens = .ok (.scored best, source, store) ∧
      f.pass.pruner store f.beam = .ok beam ∧ beam.tokens.Subperm f.beam.tokens ∧
      ((f.heard source store).moved beam).Ready size fast ∧
      ((f.heard source store).moved beam).grow = .ok next ∧ f.step = .ok next ∧
      next.Ready size fast := by
  obtain ⟨hended, best, source, store, hx⟩ := hs
  obtain ⟨beam, hprune, hsub⟩ := h.selects store f.beam fun id hid =>
    (AcousticSource.size_scoreFrame hx).symm ▸ h.stored id hid
  rw [← h.pruner] at hprune
  have hready : ((f.heard source store).moved beam).Ready size fast := by
    refine ⟨h.windowSize, h.graph, h.pruner, h.widths, Eq.trans ?_ h.rows, h.selects,
      AcousticSource.fits_scoreFrame hx h.fits, fun id hid => ?_⟩
    · rcases AcousticSource.scoreFrame_eq_ok hx with ⟨-, -, -, hrows, -⟩ | ⟨row, -, rfl, -⟩
      · exact hrows
      · rfl
    · exact (AcousticSource.size_scoreFrame hx).symm ▸ h.stored id (hsub.subset hid)
  obtain ⟨_, _, _, _, -, -, -, -, hgrow, hnext⟩ := hready.grow
  refine ⟨best, source, store, beam, _, hx, hprune, hsub, hready, hgrow, ?_, hnext⟩
  rw [step_eq, hx, hended]
  simp only [hprune]
  exact hgrow

/-- **A frame that is not scored** is the end, which changes no record. -/
theorem Ready.step_idle (h : f.Ready size fast) (hs : ¬ f.Scores) : ∃ next, f.step = .ok next ∧
    next.Ready size fast ∧ next.ended = true ∧ next.frame = f.frame ∧ next.window = f.window ∧
    next.steps = if f.ended then f.steps else f.steps + 1 := by
  rw [step_eq]
  cases hended : f.ended with
  | true => exact ⟨f, rfl, h, hended, rfl, rfl, rfl⟩
  | false =>
    have hend : ∀ {outcome source store},
        f.pass.source.scoreFrame f.store f.beam.tokens = .ok (outcome, source, store) →
        Ready size fast { f.heard source store with ended := true } := by
      intro outcome source store hx
      have hsize := AcousticSource.size_scoreFrame hx
      refine ⟨h.windowSize, h.graph, h.pruner, h.widths, Eq.trans ?_ h.rows, h.selects,
        AcousticSource.fits_scoreFrame hx h.fits, fun id hid => hsize.symm ▸ h.stored id hid⟩
      rcases AcousticSource.scoreFrame_eq_ok hx with ⟨-, -, -, hrows, -⟩ | ⟨row, -, rfl, -⟩
      · exact hrows
      · rfl
    obtain ⟨r, hx⟩ := AcousticSource.exists_scoreFrame f.pass.source h.stored
    obtain ⟨outcome, source, store⟩ := r
    cases outcome with
    | scored best => exact absurd ⟨hended, best, source, store, hx⟩ hs
    | exhausted =>
      rw [hx]
      exact ⟨_, rfl, hend hx, rfl, rfl, rfl, rfl⟩
    | streamEnd =>
      rw [hx]
      exact ⟨_, rfl, hend hx, rfl, rfl, rfl, rfl⟩

/-- **A step** is not halted. -/
theorem Ready.step (h : f.Ready size fast) : ∃ next, f.step = .ok next ∧ next.Ready size fast := by
  by_cases hs : f.Scores
  · obtain ⟨_, _, _, _, next, -, -, -, -, -, hstep, hnext⟩ := h.step_scored hs
    exact ⟨next, hstep, hnext⟩
  · obtain ⟨next, hstep, hnext, -⟩ := h.step_idle hs
    exact ⟨next, hstep, hnext⟩

/-! ## The frames ahead -/

/-- How many frames are scored in up to so many steps. -/
def framesFrom : Nat → FastMatch → Nat
  | 0, _ => 0
  | n + 1, f =>
    if f.Scores then
      match f.step with
      | .ok next => framesFrom n next + 1
      | .error _ => 1
    else 0

/-- **How many frames are scored** from here on; every one of them uses up a row. -/
def framesAhead (f : FastMatch) : Nat := framesFrom f.pass.source.rows.size f

/-- The evidence of a frame is marked with it. -/
theorem frame_evidence (f : FastMatch) (seeds : List Nat) : (f.evidence seeds).frame = f.frame := by
  unfold evidence
  refine List.foldlRecOn seeds _ (motive := fun e : Evidence => e.frame = f.frame) rfl
    fun e he id _ => ?_
  unfold observeToken
  split
  · exact he
  · split
    · exact he
    · unfold Evidence.observe
      split <;> exact he

/-- What a frame that is scored does to the schedule. -/
theorem Ready.advance (h : f.Ready size fast) (hs : f.Scores) : ∃ next, f.step = .ok next ∧
    next.Ready size fast ∧ next.ended = false ∧ next.frame = f.frame + 1 ∧
    next.steps = f.steps + 1 ∧
    Window.frames next.window = Window.frames f.window ++ [f.frame + 1] ∧
    f.pass.source.cursor < f.pass.source.rows.size ∧
    next.pass.source = { f.pass.source with cursor := f.pass.source.cursor + 1 } := by
  obtain ⟨best, source, store, beam, next, hx, -, -, hready, hgrow, hstep, hnext⟩ := h.step_scored hs
  obtain ⟨_, _, store', beam', -, -, -, -, hgrown, -⟩ := hready.grow
  rw [hgrown] at hgrow
  cases hgrow
  rcases AcousticSource.scoreFrame_eq_ok hx with ⟨-, -, hno, -⟩ | ⟨row, hrow, rfl, -⟩
  · exact absurd rfl (hno best)
  · refine ⟨_, hstep, hnext, hs.1, rfl, rfl, ?_, (Array.getElem?_eq_some_iff.1 hrow).1, rfl⟩
    simp [Window.frames, grown, heard, moved, frame_evidence]

/-- Nothing is scored beyond the last row. -/
theorem Ready.framesFrom_of_le (m n : Nat) {f : FastMatch} (h : f.Ready size fast)
    (hm : f.pass.source.rows.size ≤ m + f.pass.source.cursor) (hle : m ≤ n) :
    framesFrom n f = framesFrom m f := by
  induction m generalizing n f with
  | zero =>
    cases n with
    | zero => rfl
    | succ n =>
      refine if_neg fun hs => ?_
      obtain ⟨_, -, -, -, -, -, -, hlt, -⟩ := h.advance hs
      omega
  | succ m ih =>
    obtain ⟨n, rfl⟩ := Nat.exists_eq_succ_of_ne_zero (show n ≠ 0 by omega)
    unfold framesFrom
    split_ifs with hs
    · obtain ⟨next, hstep, hnext, -, -, -, -, -, hsource⟩ := h.advance hs
      rw [hstep]
      refine congrArg (· + 1) (ih n hnext ?_ (Nat.le_of_succ_le_succ hle))
      rw [hsource]
      dsimp only
      omega
    · rfl

/-- **One frame** uses up one of those that are ahead. -/
theorem Ready.framesAhead_step (h : f.Ready size fast) (hs : f.Scores) {next : FastMatch}
    (hstep : f.step = .ok next) : f.framesAhead = next.framesAhead + 1 := by
  obtain ⟨_, hstep', hnext, -, -, -, -, hlt, hsource⟩ := h.advance hs
  rw [hstep] at hstep'
  cases hstep'
  obtain ⟨n, hn⟩ := Nat.exists_eq_succ_of_ne_zero (show f.pass.source.rows.size ≠ 0 by omega)
  unfold framesAhead
  rw [hsource]
  dsimp only
  rw [hn, framesFrom, if_pos hs, hstep]
  refine congrArg (· + 1) (hnext.framesFrom_of_le n (n + 1) ?_ (Nat.le_succ n)).symm
  rw [hsource]
  dsimp only
  omega

theorem framesAhead_of_not_scores (hs : ¬ f.Scores) : f.framesAhead = 0 := by
  unfold framesAhead
  cases f.pass.source.rows.size with
  | zero => rfl
  | succ n => exact if_neg hs

/-- Growing a frame does not look at the records. -/
theorem grow_window (f : FastMatch) (window : Window) : ∃ later,
    ({ f with window } : FastMatch).grow = f.grow.map fun next => { next with window := later } := by
  refine ⟨window ++ [f.evidence (f.beam.worthExpanding f.store .certain)], ?_⟩
  rw [grow_eq, grow_eq]
  dsimp only
  rw [show ({ f with window } : FastMatch).growth = f.growth from rfl]
  cases hseeds : f.beam.seeds f.store .certain with
  | error err => rfl
  | ok seeds =>
    obtain rfl := (Beam.seeds_eq_ok hseeds).2
    dsimp only
    cases (Expansion.start f.store (.empty f.pass.widths) (.empty 0) .empty).run f.growth
        (f.beam.worthExpanding f.store .certain) with
    | error h => rfl
    | ok e =>
      dsimp only
      cases compact e.store e.next <;> rfl

theorem step_window (f : FastMatch) (window : Window) : ∃ later,
    ({ f with window } : FastMatch).step = f.step.map fun next => { next with window := later } := by
  rw [step_eq, step_eq]
  dsimp only
  split
  · exact ⟨window, rfl⟩
  · cases hx : f.pass.source.scoreFrame f.store f.beam.tokens with
    | error err => exact ⟨window, rfl⟩
    | ok r =>
      obtain ⟨outcome, source, store⟩ := r
      cases outcome with
      | exhausted => exact ⟨window, rfl⟩
      | streamEnd => exact ⟨window, rfl⟩
      | scored best =>
        dsimp only
        cases hp : f.pass.pruner store f.beam with
        | error err => exact ⟨window, rfl⟩
        | ok beam => exact grow_window ((f.heard source store).moved beam) window

theorem framesFrom_window : ∀ (n : Nat) (f : FastMatch) (window : Window),
    framesFrom n { f with window } = framesFrom n f
  | 0, _, _ => rfl
  | n + 1, f, window => by
    obtain ⟨later, hstep⟩ := f.step_window window
    have hscores : ({ f with window } : FastMatch).Scores ↔ f.Scores := Iff.rfl
    simp only [framesFrom, hscores, hstep]
    cases f.step with
    | error err => rfl
    | ok next => simp only [Except.map, framesFrom_window n next later]

/-! ## The schedule -/

/-- **After `taken` steps of an utterance of `total` frames,** with `dropped` records dropped. -/
structure Ran (total taken dropped : Nat) (f : FastMatch) : Prop where
  frame : f.frame = min taken total
  steps : f.steps = min taken (total + 1)
  ended : f.ended = true ↔ total < taken
  /-- What is not scored yet. -/
  ahead : f.ended = false → f.frame + f.framesAhead = total
  window : Window.frames f.window = List.range' dropped (min taken total + 1 - dropped)

variable {total taken dropped : Nat}

/-- **One more step.** -/
theorem Ran.step (h : f.Ran total taken dropped) (hf : f.Ready size fast)
    (hle : dropped ≤ taken + 1) : ∃ next, f.step = .ok next ∧ next.Ready size fast ∧
      next.Ran total (taken + 1) dropped := by
  obtain ⟨hframe, hsteps, hended, hahead, hwindow⟩ := h
  by_cases hs : f.Scores
  · obtain ⟨next, hstep, hnext, hlive, hframe', hsteps', hwindow', -, -⟩ := hf.advance hs
    have hcount := hf.framesAhead_step hs hstep
    have hsum := hahead hs.1
    have hlt : ¬ total < taken := fun hlt => by simp [hs.1] at hended; omega
    refine ⟨next, hstep, hnext, by omega, by omega, ?_, fun _ => by omega, ?_⟩
    · rw [hlive]
      exact iff_of_false (by simp) (by omega)
    · rw [hwindow', hwindow, show min (taken + 1) total + 1 - dropped =
        min taken total + 1 - dropped + 1 by omega, List.range'_concat]
      congr 2
      omega
  · obtain ⟨next, hstep, hnext, hend, hframe', hwindow', hsteps'⟩ := hf.step_idle hs
    have hnone := framesAhead_of_not_scores hs
    refine ⟨next, hstep, hnext, ?_⟩
    cases hlive : f.ended with
    | true =>
      have hlt := hended.1 hlive
      rw [hlive] at hsteps'
      refine ⟨by omega, by rw [hsteps', if_pos rfl]; omega, by simp only [hend, true_iff]; omega,
        fun hl => by simp [hend] at hl, ?_⟩
      rw [hwindow', hwindow]
      congr 1
      omega
    | false =>
      have hle' : ¬ total < taken := fun hlt => by simp [hended.2 hlt] at hlive
      have hsum := hahead hlive
      rw [hlive] at hsteps'
      refine ⟨by omega, by rw [hsteps', if_neg (by simp)]; omega,
        by simp only [hend, true_iff]; omega, fun hl => by simp [hend] at hl, ?_⟩
      rw [hwindow', hwindow]
      congr 1
      omega

/-- One record less. -/
theorem Ran.dropOldest (h : f.Ran total taken dropped) :
    f.dropOldest.Ran total taken (dropped + 1) := by
  refine ⟨h.frame, h.steps, h.ended, fun hlive => ?_, ?_⟩
  · rw [show f.dropOldest.framesAhead = f.framesAhead from framesFrom_window _ f _]
    exact h.ahead hlive
  · have hwindow : Window.frames f.dropOldest.window = (Window.frames f.window).drop 1 :=
      List.map_drop
    rw [hwindow, h.window, List.drop_one, List.tail_range', Nat.sub_sub]

theorem Ready.dropOldest (h : f.Ready size fast) : f.dropOldest.Ready size fast :=
  ⟨h.windowSize, h.graph, h.pruner, h.widths, h.rows, h.selects, h.fits, h.stored⟩

/-- **Some more steps.** -/
theorem Ran.stepMany : ∀ (n : Nat) {f : FastMatch} {taken : Nat}, f.Ran total taken dropped →
    f.Ready size fast → dropped ≤ taken + 1 → ∃ next, stepMany n f = .ok next ∧
      next.Ready size fast ∧ next.Ran total (taken + n) dropped
  | 0, f, _, h, hf, _ => ⟨f, rfl, hf, h⟩
  | n + 1, f, taken, h, hf, hle => by
    obtain ⟨next, hstep, hnext, hran⟩ := h.step hf hle
    obtain ⟨last, hmany, hlast⟩ := Ran.stepMany n hran hnext (by omega)
    refine ⟨last, ?_, by rwa [show taken + (n + 1) = taken + 1 + n by omega]⟩
    unfold FastMatch.stepMany
    rw [hstep]
    exact hmany

/-! ## The start of an utterance -/

/-- The fast match at the start of an utterance, before its first frame is grown. -/
def begun (f : FastMatch) (seed : Token) : FastMatch :=
  { f with
    pass := { f.pass with source := f.pass.source.rewind }
    store := Store.empty.push seed
    beam := f.pass.seedBeam
    window := []
    frame := 0
    ended := false
    steps := 0 }

/-- The fast match in its first frame. -/
def first (f : FastMatch) : Except SearchError FastMatch :=
  match f.pass.seed with
  | .error err => .error err
  | .ok seed => (f.begun seed).grow

theorem reset_eq (f : FastMatch) : f.reset = f.first >>= FastMatch.stepMany (f.windowSize - 1) := by
  unfold reset first
  cases f.pass.seed <;> rfl

/-- **How many frames the fast match scores** in an utterance. -/
def frameCount (f : FastMatch) : Nat :=
  match f.first with
  | .error _ => 0
  | .ok next => next.framesAhead

theorem Ready.begun (h : f.Ready size fast) {seed : Token} (hseed : f.pass.seed = .ok seed) :
    (f.begun seed).Ready size fast := by
  obtain ⟨st, hst, rfl⟩ := Pass.seed_eq_ok hseed
  refine ⟨h.windowSize, h.graph, h.pruner, h.widths, h.rows, h.selects,
    Expansion.fits_single ⟨st, h.graph ▸ hst, rfl⟩ 0, fun id hid => ?_⟩
  have htokens : f.pass.seedBeam.tokens = [0] := Beam.tokens_push _ _ _
  rw [show (f.begun (.seed f.pass.graph.initial st.kind 0)).beam = f.pass.seedBeam from rfl,
    htokens] at hid
  rw [List.mem_singleton.1 hid]
  exact Nat.zero_lt_one

/-- **An utterance** may start in whatever state the fast match is: it starts from an empty store. -/
theorem ready_begun (f : FastMatch) (hselects : f.pass.pruner.Selects) {seed : Token}
    (hseed : f.pass.seed = .ok seed) : (f.begun seed).Ready f.windowSize f.pass := by
  have hempty : ({ f with store := .empty, beam := .empty f.pass.widths } : FastMatch).Ready
      f.windowSize f.pass := by
    refine ⟨rfl, rfl, rfl, rfl, rfl, hselects, fun id t ht => ?_, fun id hid => by cases hid⟩
    simp [Store.get?, Store.empty] at ht
  exact hempty.begun hseed

/-- **The first frame** is recorded. -/
theorem Ready.first (h : f.Ready size fast) : ∃ next, f.first = .ok next ∧
    next.Ready size fast ∧ next.Ran f.frameCount 0 0 := by
  obtain ⟨seed, hseed⟩ := f.pass.exists_seed
  obtain ⟨_, _, store, beam, -, -, -, -, hgrow, hnext⟩ := (h.begun hseed).grow
  have hfirst : f.first = (f.begun seed).grow := by
    unfold FastMatch.first
    rw [hseed]
  rw [hgrow] at hfirst
  refine ⟨_, hfirst, hnext, ?_⟩
  unfold frameCount
  rw [hfirst]
  refine ⟨(Nat.zero_min _).symm, (Nat.zero_min _).symm,
    iff_of_false (by simp [grown, FastMatch.begun]) (Nat.not_lt_zero _), fun _ => Nat.zero_add _, ?_⟩
  simp [Window.frames, grown, FastMatch.begun, frame_evidence]

/-- **The start of an utterance** runs ahead to fill the window. -/
theorem Ready.reset (h : f.Ready size fast) : ∃ next, f.reset = .ok next ∧
    next.Ready size fast ∧ next.Ran f.frameCount (size - 1) 0 := by
  obtain ⟨next, hfirst, hnext, hran⟩ := h.first
  obtain ⟨last, hmany, hlast, hran'⟩ := hran.stepMany (size - 1) hnext (Nat.zero_le _)
  rw [Nat.zero_add] at hran'
  refine ⟨last, ?_, hlast, hran'⟩
  rw [reset_eq, hfirst, h.windowSize]
  exact hmany

/-- **A fast match that waits for its first utterance.** -/
theorem new_eq_ok {f : FastMatch} (h : FastMatch.new size fast = .ok f) :
    checkWindow size = .ok () ∧ f = ⟨fast, size, .empty, .empty fast.widths, [], 0, false, 0⟩ := by
  unfold FastMatch.new at h
  cases hw : checkWindow size with
  | error err => simp [hw, bind, Except.bind] at h
  | ok u =>
    simp only [hw, bind, Except.bind, pure, Except.pure] at h
    cases h
    exact ⟨rfl, rfl⟩

theorem ready_new {f : FastMatch} (h : FastMatch.new size fast = .ok f)
    (hselects : fast.pruner.Selects) : f.Ready size fast := by
  obtain ⟨-, rfl⟩ := new_eq_ok h
  refine ⟨rfl, rfl, rfl, rfl, rfl, hselects, fun id t ht => ?_, fun id hid => ?_⟩
  · simp [Store.get?, Store.empty] at ht
  · cases hid

end SpeechDecoder.FastMatch
