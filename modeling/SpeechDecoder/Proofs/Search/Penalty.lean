import SpeechDecoder.Proofs.Search.Evidence
import SpeechDecoder.Proofs.Search.Trials

/-!
# The lookahead penalty

The penalty of a phone is what the walks over the graph of the fast match say about it in the frames
of the window, if nothing is cut from the fast match.

* `turning_recalls` is the invariant: the penalties that are known are those of the window, also
  where a turn was halted.
* `penalties_after` is the theorem.  It is about walks, which leave no final state; paths that do are
  never followed (`not_penalties_trail`).
-/

namespace SpeechDecoder.Search

variable {s t : Search} {k : Nat}

/-! ## The penalties that are known -/

theorem recalls_grow (h : s.memo.Recalls s.fastMatch.window) :
    Outcome (fun t => t.memo.Recalls s.fastMatch.window)
      (fun h => h.state.memo.Recalls s.fastMatch.window) s.grow :=
  (memo_grow s).mono (fun _ h' => h' ▸ h.askAll _) fun _ h' => h' ▸ h.askAll _

/-- **One frame** leaves the fast match alone, and asks for penalties of its window only. -/
theorem recalls_stepFrame (h : s.memo.Recalls s.fastMatch.window) :
    Outcome (fun r => r.2.fastMatch = s.fastMatch ∧ r.2.memo.Recalls s.fastMatch.window)
      (fun h => h.state.fastMatch = s.fastMatch ∧ h.state.memo.Recalls s.fastMatch.window)
      s.stepFrame :=
  (memo_stepFrame s).mono (fun _ h' => ⟨h'.1, h'.2 ▸ h.askAll _⟩)
    fun _ h' => ⟨h'.1, h'.2 ▸ h.askAll _⟩

/-- **The penalties that are known are those of the window,** in every turn. -/
theorem turning_recalls {P : Nat → FastMatch → Prop}
    (hstep : ∀ k f, P k f → ∃ next, f.step = .ok next ∧ P (k + 1) next.dropOldest) :
    Turning (fun _ => False) (fun k s => P k s.fastMatch ∧ s.memo.Recalls s.fastMatch.window)
      fun _ _ => True where
  live _ _ h := h
  turn k s h _ := by
    obtain ⟨next, hnext, hP⟩ := hstep k s.fastMatch h.1
    refine ⟨_, by rw [lookAhead_eq, hnext], trivial, (recalls_stepFrame (PenaltyMemo.recalls_forget
      s.memo next.dropOldest.window)).mono (fun r hr => ?_) fun err herr => .inr ?_⟩
    · rw [hr.1]
      exact ⟨hP, hr.2⟩
    · rw [herr.1]
      exact ⟨hP, herr.2⟩
  purge _ _ _ h _ := h

/-- **The start of an utterance,** finished or halted. -/
theorem recalls_start {f : FastMatch} (hreset : s.fastMatch.reset = .ok f) :
    (s.perform .start).2.fastMatch = f ∧ (s.perform .start).2.memo.Recalls f.window := by
  refine perform_start (Q := fun t => t.fastMatch = f ∧ t.memo.Recalls f.window) ?_
  obtain ⟨seed, hseed⟩ := s.pass.exists_seed
  rw [start_eq, hreset, hseed]
  exact ((grow_spares (s.begun f seed)).mono (fun _ h => h.fastMatch) fun _ h => h.fastMatch).both
    (recalls_grow (PenaltyMemo.recalls_empty f.window))

/-! ## The penalties of the walks -/

variable {size : Nat} {fast : Pass}

/-- **A fast match that cuts nothing,** after `k` turns of an utterance of `total` frames. -/
structure Attuned (size : Nat) (fast : Pass) (total k : Nat) (f : FastMatch) : Prop where
  ready : f.Ready size fast
  ran : f.Ran total (k + (size - 1)) k
  exact : f.Exact fast

theorem Attuned.step (h : FastMatch.Whole fast) {total : Nat} {f : FastMatch}
    (hf : Attuned size fast total k f) :
    ∃ next, f.step = .ok next ∧ Attuned size fast total (k + 1) next.dropOldest := by
  obtain ⟨next, hstep, hready, hran⟩ := hf.ran.step hf.ready (by omega)
  obtain ⟨next', hstep', hexact⟩ := hf.exact.step h hf.ready
  rw [hstep] at hstep'
  cases hstep'
  refine ⟨next, hstep, hready.dropOldest, ?_, hexact.dropOldest⟩
  rw [show k + 1 + (size - 1) = k + (size - 1) + 1 by omega]
  exact hran.dropOldest

/-- **The lookahead penalty is the evidence of the next frames.**  Let nothing be cut from the fast
match, let it score `F` frames, and let the window have size `w`.  After `k` turns, however they are
cut into calls and whether or not they were halted, the penalty of a phone is its best standing in
the frames from `k` up to `k + w - 1` or to the last one; and it stands in a frame where the walks
over the graph of the fast match put it. -/
theorem penalties_after {settings : SearchSettings} {main : Pass} {cache : MixtureCache}
    {s₀ : Search} (h : Search.new settings main fast cache = .ok s₀) (hwhole : FastMatch.Whole fast)
    (calls : List Call) (frames : List Nat) :
    let s₁ := ((s₀.after calls).perform .start).2
    let s := s₁.after (frames.map .recognize)
    let w := settings.window
    let F := (s₀.after calls).fastMatch.frameCount
    let k := (s₁.turns frames).length
    fast.graph.Penalties fast.source.rows (fast.graph.Walk fast.source.rows)
      (List.range' k (min (k + w) (F + 1) - k)) fun p => (s.penalty p).1 := by
  intro s₁ s w F k
  obtain ⟨hready, hwindow⟩ := fastMatch_new h (hwhole.pruner ▸ Pruner.selects_byWidths)
  have hkept := ready_after calls hready
  obtain ⟨f, hreset, hf, hran⟩ := hkept.reset
  obtain ⟨f', hreset', hexact⟩ := hwhole.reset hkept
  rw [hreset] at hreset'
  cases hreset'
  obtain ⟨hfast, hrecalls⟩ := recalls_start hreset
  have hattuned : Attuned w fast F 0 s₁.fastMatch := by
    rw [show s₁.fastMatch = f from hfast]
    exact ⟨hf, (Nat.zero_add (w - 1)).symm ▸ hran, hexact⟩
  obtain ⟨⟨hafter, hmemo⟩, -⟩ := (turning_recalls fun k f hf => Attuned.step hwhole hf).after frames
    (k := 0) (s := s₁) ⟨hattuned, by rw [hfast]; exact hrecalls⟩ fun _ _ => id
  rw [Nat.zero_add] at hafter
  have hframes : Window.frames s.fastMatch.window =
      List.range' k (min (k + w) (F + 1) - k) := by
    rw [hafter.ran.window]
    congr 1
    omega
  have hpenalty : (fun p => (s.penalty p).1) = Window.penalty s.fastMatch.window := by
    funext p
    exact (hmemo.ask p).1
  rw [hpenalty, ← hframes]
  exact Window.penalties (by rw [hframes]; exact List.nodup_range') hafter.exact.told

theorem whole_wordLoop : FastMatch.Whole WordLoop.pass where
  pruner := rfl
  widths := rfl
  proper := Graph.proper_of_le_certain (by unfold Score.IsNumber; decide) (by decide)

/-- After the first turn of the word loop both of its frames say how its phone stands: nothing is
better. -/
theorem penalties_after_wordLoop :
    WordLoop.graph.Penalties WordLoop.pass.source.rows
        (WordLoop.graph.Walk WordLoop.pass.source.rows) [1, 2]
        (fun p => ((wideLoop.after [.start, .recognize 1]).penalty p).1) ∧
      ((wideLoop.after [.start, .recognize 1]).penalty 0).1 = .certain := by
  have hcount : wideLoop.fastMatch.frameCount = 2 := by decide +kernel
  have hturns : ((wideLoop.perform .start).2.turns [1]).length = 1 := by decide +kernel
  have hpenalties := penalties_after wideLoop_eq whole_wordLoop [] [1]
  simp only [show wideLoop.after [] = wideLoop from rfl, hcount, hturns] at hpenalties
  exact ⟨hpenalties, by decide +kernel⟩

/-! ## Final states -/

/-- Two phones, the second one behind a final state. -/
def detour : Graph where
  initial := 0
  states := #[⟨.branch, 0, [.new 1 .certain, .new 2 .certain]⟩,
    ⟨.emitting 0, 5, [.new 1 .certain]⟩, ⟨.final, 4, [.new 3 .certain]⟩, .ofKind (.emitting 1)]
  initial_lt := by decide
  sound := by unfold State.Sound; decide

/-- Two frames in which both phones are certain. -/
def detourPass : Pass where
  graph := detour
  source := .ofRows #[#[.certain, .certain], #[.certain, .certain]] false
  pruner := .byWidths
  widths := ⟨0, .impossible⟩

/-- The search over the two phones. -/
def detourSearch : Search :=
  { WordLoop.search false with
    pass := detourPass
    fastMatch := { (WordLoop.search false).fastMatch with pass := detourPass } }

theorem detourSearch_eq : Search.new (WordLoop.settings false) detourPass detourPass none =
    .ok detourSearch :=
  rfl

theorem detour_isNumber :
    ∀ source ∈ detour.states.toList, ∀ arc ∈ source.arcs, arc.probability.IsNumber := by
  unfold Score.IsNumber
  decide

/-- No score of a trail is positive. -/
theorem detour_trail_le {t q : Nat} {x : Score}
    (h : detour.Trail detourPass.source.rows t q x) : x ≤ .certain :=
  h.le_certain detour_isNumber (by decide)

theorem detour_heard_le {u p : Nat} {x : Score}
    (h : detour.Heard detourPass.source.rows (detour.Trail detourPass.source.rows) u p x) :
    x ≤ .certain := by
  cases h with
  | initial => exact Score.le_rfl Score.isNumber_certain
  | charged hw hs hp hr =>
    exact Score.add_le_certain (detour_trail_le hw) (Graph.likelihood_le_certain (by decide) hr)

/-- **Paths over final states do not count:** the theorem is false of trails in place of walks. -/
theorem not_penalties_trail :
    ¬ ∀ (settings : SearchSettings) (main fast : Pass) (cache : MixtureCache) (s₀ : Search),
      Search.new settings main fast cache = .ok s₀ → fast.pruner = .byWidths →
      fast.widths = ⟨0, .impossible⟩ →
      (∀ source ∈ fast.graph.states.toList, ∀ arc ∈ source.arcs, arc.probability.IsNumber) →
      (∀ t q x, fast.graph.Trail fast.source.rows t q x → x < Score.infinity) →
      (∀ u p x, fast.graph.Heard fast.source.rows (fast.graph.Trail fast.source.rows) u p x →
        x < Score.infinity) →
      ∀ (calls : List Call) (frames : List Nat),
        let s₁ := ((s₀.after calls).perform .start).2
        let s := s₁.after (frames.map .recognize)
        let w := settings.window
        let F := (s₀.after calls).fastMatch.frameCount
        let k := (s₁.turns frames).length
        fast.graph.Penalties fast.source.rows (fast.graph.Trail fast.source.rows)
          (List.range' k (min (k + w) (F + 1) - k)) fun p => (s.penalty p).1 := by
  intro hall
  have hcount : detourSearch.fastMatch.frameCount = 2 := by decide +kernel
  have hturns : ((detourSearch.perform .start).2.turns [1]).length = 1 := by decide +kernel
  have hpenalty : (((detourSearch.perform .start).2.after ([1].map .recognize)).penalty 1).1 =
      .impossible := by decide +kernel
  have hpenalties := hall _ _ _ _ _ detourSearch_eq rfl rfl detour_isNumber
    (fun _ _ _ h => Score.lt_infinity_of_le (detour_trail_le h) Score.certain_lt_infinity)
    (fun _ _ _ h => Score.lt_infinity_of_le (detour_heard_le h) Score.certain_lt_infinity) [] [1]
  simp only [show detourSearch.after [] = detourSearch from rfl, hcount, hturns] at hpenalties
  replace hpenalties : detour.Penalties detourPass.source.rows
    (detour.Trail detourPass.source.rows) [1] _ := hpenalties
  obtain ⟨best, top, hspec, hvalue⟩ := hpenalties
  obtain ⟨hmax, hle, q, hq⟩ := hspec 1 (by decide)
  -- the trail over the final state has score zero, and no other one is better
  have hheard : detour.Heard detourPass.source.rows (detour.Trail detourPass.source.rows) 1 1 _ :=
    .charged (.pass (.first rfl (.tail _ (.head _))) rfl rfl (.head _)) rfl rfl rfl
  have hleast : Score.certain ≤ best 1 1 := Score.le_trans (by decide) ((hmax 1).2 _ hheard)
  have hgreatest : ∀ p, best 1 p ≤ .certain := by
    intro p
    rcases (hmax p).1 with h | ⟨h, -⟩
    · exact detour_heard_le h
    · rw [h]
      exact Score.impossible_le Score.isNumber_certain
  have hbest := Score.eq_zero_of_le hleast (hgreatest 1)
  have htop := Score.eq_zero_of_le (Score.le_trans hleast (hle 1)) (hq ▸ hgreatest q)
  have hkept : [1].filter (fun u => decide (Score.impossible < best u 1)) = [1] := by
    have hlt : Score.impossible < best 1 1 := by
      rcases hbest with hb | hb <;> rw [hb] <;> decide
    simp [hlt]
  have hone := hpenalty.symm.trans (hvalue 1)
  rw [hkept, List.map_singleton] at hone
  rcases hbest with hb | hb <;> rcases htop with ht | ht <;> rw [hb, ht] at hone <;>
    exact absurd hone (by decide)

end SpeechDecoder.Search
