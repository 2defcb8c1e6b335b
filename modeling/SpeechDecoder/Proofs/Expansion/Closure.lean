import SpeechDecoder.Proofs.Expansion.Frame

/-!
# An expansion leaves nothing out

What arrives in a frame where nothing is cut but by the beam.  `W s x` says that the score `x` may
arrive on the state `s`.  In the end every arc of a token that was expanded is `Handled`: the state
that it leads to is held by a token that is as good, unless the beam refused the arrival.

* `Reaching` is the invariant, with the tokens whose arcs have been followed.
* `Reaching.run` is the frame, and `Finished.passed` what it amounts to for every state that emits
  nothing.
-/

namespace SpeechDecoder.Expansion

/-- **Nothing is cut but by the beam,** and what may arrive goes on from there. -/
structure Free (g : Growth) (widths : BeamWidths) (W : Nat → Score → Prop) : Prop where
  phoneCut : g.phoneCut = none
  checkStateOrder : g.checkStateOrder = false
  wordMargin : g.wordMargin = .impossible
  margin_le : widths.margin ≤ .certain
  finite : ∀ s x, W s x → x < Score.infinity
  pass : ∀ s x source arc, W s x → g.graph.state? s = some source →
    source.kind.isEmitting = false → source.kind.isFinal = false → arc ∈ source.arcs →
    W arc.target (x + arc.probability)

/-- What a token sends over its arcs may arrive. -/
def Feeds (g : Growth) (W : Nat → Score → Prop) (u : Token) : Prop :=
  u.kind.isFinal = false → ∀ source arc, g.graph.state? u.state = some source →
    arc ∈ source.arcs → W arc.target (u.score + arc.probability)

/-- **A state is held by a token with at least this score.** -/
def Beats (e : Expansion) (s : Nat) (x : Score) : Prop :=
  ∃ id t, e.resident? s = some id ∧ e.store.get? id = some t ∧ x ≤ t.score

/-- **The beam refuses a score:** nothing is on the emitting state, and the score is below the
threshold. -/
def Refused (g : Growth) (e : Expansion) (s : Nat) (x : Score) : Prop :=
  (∃ target, g.graph.state? s = some target ∧ target.kind.isEmitting = true) ∧
    e.resident? s = none ∧ x < e.next.threshold

def Handled (g : Growth) (e : Expansion) (s : Nat) (x : Score) : Prop :=
  Beats e s x ∨ Refused g e s x

/-- Every arc of a token is handled. -/
def Relaxed (g : Growth) (e : Expansion) (u : Token) : Prop :=
  u.kind.isFinal = false → ∀ source arc, g.graph.state? u.state = some source →
    arc ∈ source.arcs → Handled g e arc.target (u.score + arc.probability)

/-- **The invariant:** `work` are the tokens whose arcs have been followed. -/
structure Reaching (g : Growth) (base : Store) (W : Nat → Score → Prop) (widths : BeamWidths)
    (seeds done work : List Nat) (e : Expansion) : Prop where
  sound : Sound g base done e
  attained : ∀ id t, base.size ≤ id → e.store.get? id = some t → W t.state t.score
  /-- The best score of the beam is that of an arrival. -/
  noted : e.next.best = none ∨ ∃ s source, W s e.next.bestScore ∧ g.graph.state? s = some source ∧
    source.kind.isEmitting = true
  widths_eq : e.next.widths = widths
  settled : ∀ c ∈ work, Settled base done c
  relaxed : ∀ c ∈ work, ∀ u, e.store.get? c = some u → Relaxed g e u
  /-- A state is marked for a seed or for an expanded token. -/
  opened : ∀ s ∈ e.expanded, ∃ c u, (c ∈ done ∨ c ∈ seeds) ∧ e.store.get? c = some u ∧ u.state = s

variable {g : Growth} {base : Store} {W : Nat → Score → Prop} {widths : BeamWidths}
  {seeds done work : List Nat} {e e' : Expansion}

/-! ## Later is no worse -/

theorem Beats.mono {s : Nat} {x y : Score} (h : Beats e s y) (hxy : x ≤ y) : Beats e s x := by
  obtain ⟨id, t, hid, ht, hy⟩ := h
  exact ⟨id, t, hid, ht, Score.le_trans hxy hy⟩

theorem Handled.mono {s : Nat} {x y : Score} (h : Handled g e s y) (hxy : x ≤ y) :
    Handled g e s x := by
  rcases h with h | ⟨htarget, hnone, hlt⟩
  · exact .inl (h.mono hxy)
  · exact .inr ⟨htarget, hnone, Score.lt_of_le_of_lt hxy hlt⟩

/-- **What is handled stays so** if no state is left, the threshold does not sink, and the first
token on an emitting state is not below the threshold. -/
theorem Handled.later {s : Nat} {x : Score} (h : Handled g e s x)
    (hbeats : ∀ s x, Beats e s x → Beats e' s x) (hle : e.next.threshold ≤ e'.next.threshold)
    (hfirst : ∀ s target, g.graph.state? s = some target → target.kind.isEmitting = true →
      e.resident? s = none → e'.resident? s = none ∨ Beats e' s e.next.threshold) :
    Handled g e' s x := by
  rcases h with h | ⟨⟨target, ht, he⟩, hnone, hlt⟩
  · exact .inl (hbeats s x h)
  · rcases hfirst s target ht he hnone with hnone' | hbeats'
    · exact .inr ⟨⟨target, ht, he⟩, hnone', Score.lt_of_lt_of_le hlt hle⟩
    · exact .inl (hbeats'.mono (Score.le_of_lt hlt))

theorem Relaxed.later {u : Token} (h : Relaxed g e u)
    (hlater : ∀ s x, Handled g e s x → Handled g e' s x) : Relaxed g e' u :=
  fun hf source arc hs ha => hlater _ _ (h hf source arc hs ha)

/-! ## The threshold -/

/-- The best score of the beam is below infinity. -/
theorem Reaching.bestScore_lt (h : Reaching g base W widths seeds done work e)
    (hfree : Free g widths W) : e.next.bestScore < Score.infinity := by
  rcases h.noted with hnone | ⟨s, source, hw, -⟩
  · unfold Beam.bestScore
    rw [hnone]
    decide
  · exact hfree.finite _ _ hw

theorem Reaching.isNumber_threshold (h : Reaching g base W widths seeds done work e)
    (hfree : Free g widths W) : e.next.threshold.IsNumber := by
  unfold Beam.threshold
  rw [h.widths_eq]
  exact Score.isNumber_add (h.bestScore_lt hfree)
    (Score.lt_infinity_of_le hfree.margin_le Score.certain_lt_infinity)

/-- **An arrival does not lower the threshold:** it is noted if its state emits. -/
theorem Reaching.threshold_le (h : Reaching g base W widths seeds done work e)
    (hfree : Free g widths W) {next : Beam} {emits : Bool} {id : Nat} {x : Score}
    (hbest : next.best = if emits then (e.next.note id x).best else e.next.best)
    (hwidths : next.widths = e.next.widths) (hx : x < Score.infinity) :
    e.next.threshold ≤ next.threshold := by
  have hold := h.bestScore_lt hfree
  have hle : e.next.bestScore ≤ next.bestScore ∧ next.bestScore < Score.infinity := by
    cases emits with
    | false =>
      rw [Beam.bestScore_eq hbest]
      exact ⟨Score.le_rfl (Score.isNumber_of_lt_infinity hold), hold⟩
    | true =>
      rw [show next.bestScore = (e.next.note id x).bestScore from Beam.bestScore_eq hbest]
      exact ⟨Beam.bestScore_le_note (Score.isNumber_of_lt_infinity hold)
        (Score.isNumber_of_lt_infinity hx), Beam.bestScore_note_lt hold hx id⟩
  exact Beam.threshold_le (h.widths_eq ▸ hfree.margin_le) hwidths hle.1 hle.2

/-! ## Arrivals -/

/-- **The invariant after a token was written** that had not been settled: what was handled still
is. -/
theorem Reaching.write (h : Reaching g base W widths seeds done work e) (hfree : Free g widths W)
    (hseeds : ∀ c ∈ seeds, c < base.size) (hsound : Sound g base done e')
    (hstay : ∀ c, Settled base done c → e'.store.get? c = e.store.get? c)
    (hexpanded : e'.expanded = e.expanded) {s : Nat} {target : State} {x : Score} (id : Nat)
    (ht : g.graph.state? s = some target) (hw : W s x)
    (hwrote : ∀ id t, base.size ≤ id → e'.store.get? id = some t →
      e.store.get? id = some t ∨ W t.state t.score)
    (hbest : e'.next.best =
      if target.kind.isEmitting then (e.next.note id x).best else e.next.best)
    (hwidths : e'.next.widths = e.next.widths)
    (hbeats : ∀ s y, Beats e s y → Beats e' s y)
    (hfirst : ∀ s target, g.graph.state? s = some target → target.kind.isEmitting = true →
      e.resident? s = none → e'.resident? s = none ∨ Beats e' s e.next.threshold) :
    Reaching g base W widths seeds done work e' ∧ ∀ s y, Handled g e s y → Handled g e' s y := by
  have hlater : ∀ s y, Handled g e s y → Handled g e' s y := fun s y hh =>
    hh.later hbeats (h.threshold_le hfree hbest hwidths (hfree.finite _ _ hw)) hfirst
  refine ⟨⟨hsound, fun id t hid ht => ?_, ?_, hwidths ▸ h.widths_eq, h.settled, fun c hc u hu => ?_,
    fun s hs => ?_⟩, hlater⟩
  · exact (hwrote id t hid ht).elim (h.attained id t hid) fun hw => hw
  · split_ifs at hbest with he
    · rcases Beam.bestScore_note e.next id x with heq | heq
      · rw [Beam.bestScore_eq (hbest.trans heq), hbest.trans heq]
        exact h.noted
      · exact .inr ⟨s, target, by rwa [Beam.bestScore_eq hbest, heq], ht, he⟩
    · rw [Beam.bestScore_eq hbest, hbest]
      exact h.noted
  · exact (h.relaxed c hc u (hstay c (h.settled c hc) ▸ hu)).later hlater
  · obtain ⟨c, u, hc, hu, hus⟩ := h.opened s (hexpanded ▸ hs)
    exact ⟨c, u, hc, (hstay c (hc.elim .inr fun hc => .inl (hseeds c hc))).trans hu, hus⟩

/-- **A first arrival** is handled, and what was handled still is. -/
theorem Reaching.settle (h : Reaching g base W widths seeds done work e) (hfree : Free g widths W)
    (hseeds : ∀ c ∈ seeds, c < base.size) {link : Option Nat} {target : State} {arc : Arc}
    {x : Score} (hres : e.resident? arc.target = none)
    (ht : g.graph.state? arc.target = some target) (hw : W arc.target x)
    (hsound : Sound g base done (e.settle g link arc target.kind x))
    (hstay : ∀ c, Settled base done c →
      (e.settle g link arc target.kind x).store.get? c = e.store.get? c) :
    Handled g (e.settle g link arc target.kind x) arc.target x ∧
      Reaching g base W widths seeds done work (e.settle g link arc target.kind x) ∧
      ∀ s y, Handled g e s y → Handled g (e.settle g link arc target.kind x) s y := by
  have hnum := Score.isNumber_of_lt_infinity (hfree.finite _ _ hw)
  cases hadm : (target.kind.isEmitting && !e.next.admits x) with
  | true =>
    rw [settle_refused hadm]
    simp only [Bool.and_eq_true, Bool.not_eq_true', Beam.admits, decide_eq_false_iff_not] at hadm
    exact ⟨.inr ⟨⟨target, ht, hadm.1⟩, hres,
      Score.lt_of_not_le hnum (h.isNumber_threshold hfree) hadm.2⟩, h, fun _ _ h => h⟩
  | false =>
    obtain ⟨bestWord, created, heq⟩ := settle_eq (g := g) hadm link arc
    have hself : ∀ y, y ≤ x → Beats (e.settle g link arc target.kind x) arc.target y := by
      intro y hy
      rw [heq]
      exact ⟨e.store.size, .entering link arc target.kind x g.frame,
        (lookup_cons_eq _ _ _ _).trans (if_pos rfl), (Store.get?_push _ _ _).trans (if_pos rfl), hy⟩
    rw [heq] at hsound hstay hself ⊢
    refine ⟨.inl (hself x (Score.le_rfl hnum)), h.write hfree hseeds hsound hstay rfl
      e.store.size ht hw (fun id t _ hget => ?_) ?_ ?_ ?_ ?_⟩
    · rw [Store.get?_push] at hget
      split_ifs at hget
      · cases hget
        exact .inr hw
      · exact .inl hget
    · dsimp only
      split_ifs
      · exact Beam.best_push _ _ _
      · rfl
    · dsimp only
      split_ifs
      · exact Beam.widths_note _ _ _
      · rfl
    · rintro s y ⟨id, t, hid, hget, hy⟩
      have hne : s ≠ arc.target := by
        rintro rfl
        rw [hres] at hid
        cases hid
      exact ⟨id, t, (lookup_cons_eq _ _ _ _).trans ((if_neg hne).trans hid),
        (get?_push_of_lt (Store.lt_size_of_get? hget)).trans hget, hy⟩
    · intro s target' ht' he hnone
      by_cases hs : s = arc.target
      · subst hs
        rw [ht] at ht'
        cases ht'
        exact .inr (hself _ (by simpa [he, Beam.admits] using hadm))
      · exact .inl ((lookup_cons_eq _ _ _ _).trans ((if_neg hs).trans hnone))

/-- **A later arrival** is handled, and what was handled still is. -/
theorem Reaching.contest (h : Reaching g base W widths seeds done work e) (hfree : Free g widths W)
    (hseeds : ∀ c ∈ seeds, c < base.size) {link : Option Nat} {target : State} {arc : Arc}
    {x : Score} {id : Nat} {t : Token} (hres : e.resident? arc.target = some id)
    (hget : e.store.get? id = some t) (ht : g.graph.state? arc.target = some target)
    (hw : W arc.target x)
    (hsound : Sound g base done (e.contest g link arc target.kind x id t))
    (hstay : ∀ c, Settled base done c →
      (e.contest g link arc target.kind x id t).store.get? c = e.store.get? c) :
    Handled g (e.contest g link arc target.kind x id t) arc.target x ∧
      Reaching g base W widths seeds done work (e.contest g link arc target.kind x id t) ∧
      ∀ s y, Handled g e s y → Handled g (e.contest g link arc target.kind x id t) s y := by
  have hnum := Score.isNumber_of_lt_infinity (hfree.finite _ _ hw)
  obtain ⟨hid, t', hget', hst⟩ := h.sound.resident_new _ _ hres
  rw [hget] at hget'
  cases hget'
  by_cases hlt : t.score < x
  · obtain ⟨lattice, bestWord, heq⟩ := contest_better (g := g) (e := e) hlt link arc target.kind id
    have hput : ∀ i, (e.store.set id (t.rerouted link arc x g.frame)).get? i =
        if id = i then some (t.rerouted link arc x g.frame) else e.store.get? i := by
      intro i
      rw [Store.get?_set, if_pos (Store.lt_size_of_get? hget)]
    rw [heq] at hsound hstay ⊢
    refine ⟨.inl ⟨id, t.rerouted link arc x g.frame, hres, (hput id).trans (if_pos rfl),
      Score.le_rfl hnum⟩, h.write hfree hseeds hsound hstay rfl id ht hw
      (fun i v _ hv => ?_) ?_ ?_ ?_ fun _ _ _ _ hnone => .inl hnone⟩
    · rw [hput] at hv
      split_ifs at hv
      · cases hv
        rw [← hst] at hw
        exact .inr hw
      · exact .inl hv
    · dsimp only
      split_ifs <;> rfl
    · dsimp only
      split_ifs
      · exact Beam.widths_note _ _ _
      · rfl
    · rintro s y ⟨i, v, hi, hv, hy⟩
      by_cases hii : id = i
      · subst hii
        rw [hget] at hv
        cases hv
        exact ⟨id, t.rerouted link arc x g.frame, hi, (hput id).trans (if_pos rfl),
          Score.le_trans hy (Score.le_of_lt hlt)⟩
      · exact ⟨i, v, hi, (hput i).trans ((if_neg hii).trans hv), hy⟩
  · obtain ⟨lattice, heq⟩ := contest_worse (g := g) (e := e) hlt link arc target.kind id
    rw [heq] at hsound ⊢
    have hold := Score.isNumber_of_lt_infinity (hfree.finite _ _ (h.attained id t hid hget))
    exact ⟨.inl ⟨id, t, hres, hget, Score.le_of_not_lt hnum hold hlt⟩, { h with sound := hsound },
      fun _ _ h => h⟩

/-- **An arrival** is handled, and what was handled still is. -/
theorem Reaching.arrive (h : Reaching g base W widths seeds done work e) (hfree : Free g widths W)
    (hseeds : ∀ c ∈ seeds, c < base.size) {c : Nat} {u : Token} (hl : Leads g base done e c u)
    {source target : State} {arc : Arc} (hs : g.graph.state? u.state = some source)
    (harc : arc ∈ source.arcs) (ht : g.graph.state? arc.target = some target)
    (hw : W arc.target (u.score + arc.probability)) :
    ∃ e', e.arrive g (Store.link g.keepAllTokens c u) arc target.kind (u.score + arc.probability) =
        .ok e' ∧ Reaching g base W widths seeds done work e' ∧ Leads g base done e' c u ∧
      Handled g e' arc.target (u.score + arc.probability) ∧
      ∀ s x, Handled g e s x → Handled g e' s x := by
  obtain ⟨e', he, hsound, hl', hstay⟩ := hl.arrive h.sound hs harc ht
  refine ⟨e', he, ?_⟩
  rcases h.sound.arrive_cases ht he with ⟨hres, rfl⟩ | ⟨id, t, hres, -, hget, -, -, rfl⟩
  · obtain ⟨hhandled, hreach, hlater⟩ := h.settle hfree hseeds hres ht hw hsound hstay
    exact ⟨hreach, hl', hhandled, hlater⟩
  · obtain ⟨hhandled, hreach, hlater⟩ := h.contest hfree hseeds hres hget ht hw hsound hstay
    exact ⟨hreach, hl', hhandled, hlater⟩

/-! ## Following the arcs of a token -/

/-- **Following an arc:** it is not cut, so its arrival is handled. -/
theorem Reaching.follow (h : Reaching g base W widths seeds done work e) (hfree : Free g widths W)
    (hseeds : ∀ c ∈ seeds, c < base.size) {c : Nat} {u : Token} (hl : Leads g base done e c u)
    {source : State} {arc : Arc} (hs : g.graph.state? u.state = some source)
    (harc : arc ∈ source.arcs) (hw : W arc.target (u.score + arc.probability)) :
    ∃ e', e.follow g u source (Store.link g.keepAllTokens c u) arc = .ok e' ∧
      Reaching g base W widths seeds done work e' ∧ Leads g base done e' c u ∧
      Handled g e' arc.target (u.score + arc.probability) ∧
      ∀ s x, Handled g e s x → Handled g e' s x := by
  obtain ⟨target, ht, -⟩ := exists_target hs harc
  have hrule := hl.follow_rule (P := fun e' => Reaching g base W widths seeds done work e' ∧
      Leads g base done e' c u ∧ Handled g e' arc.target (u.score + arc.probability) ∧
      ∀ s x, Handled g e s x → Handled g e' s x) (H := fun _ => False) h.sound hs harc ht
    (fun _ hcut => ?_) (fun _ hcheck => ?_) fun memo e' he' _ _ _ => ?_
  · exact hrule.exists_ok
  · rw [cut_of_none hfree.phoneCut] at hcut
    cases hcut
  · rw [hfree.checkStateOrder] at hcheck
    cases hcheck
  · have hmemo : Reaching g base W widths seeds done work { e with memo } :=
      { h with sound := h.sound.memo memo }
    obtain ⟨e₁, he₁, hrest⟩ := hmemo.arrive hfree hseeds (hl.memo memo) hs harc ht hw
    cases he₁.symm.trans he'
    exact hrest

/-- Once its arcs are handled, a settled token is among those that were worked off. -/
theorem Reaching.workOff (h : Reaching g base W widths seeds done work e) {c : Nat} {u : Token}
    (hc : Settled base done c) (hu : e.store.get? c = some u) (hrelaxed : Relaxed g e u) :
    Reaching g base W widths seeds done (c :: work) e := by
  refine { h with settled := fun d hd => ?_, relaxed := fun d hd v hv => ?_ }
  · rcases List.mem_cons.1 hd with rfl | hd
    · exact hc
    · exact h.settled d hd
  · rcases List.mem_cons.1 hd with rfl | hd
    · rw [hu] at hv
      cases hv
      exact hrelaxed
    · exact h.relaxed d hd v hv

/-- **Expanding a settled token:** all of its arcs are handled then. -/
theorem Reaching.expandToken (h : Reaching g base W widths seeds done work e) (hfree : Free g widths W)
    (hseeds : ∀ c ∈ seeds, c < base.size) {c : Nat} {u : Token} (hc : Settled base done c)
    (hu : e.store.get? c = some u)
    (hlead : ∀ d ∈ done, ∀ t, e.store.get? d = some t → ¬ t.score < u.score)
    (hfeeds : Feeds g W u) :
    Outcome (Reaching g base W widths seeds done (c :: work)) (fun _ => False)
      (e.expandToken g c u) := by
  rcases h.sound.expandToken_cases hc hu hlead with
    ⟨hfinal, hx⟩ | ⟨-, -, hpoor, -⟩ | ⟨hl, -, source, hs, hx⟩
  · have hresult : Reaching g base W widths seeds done work { e with results := e.results ++ [c] } :=
      { h with sound := h.sound.results _ }
    rw [hx]
    refine hresult.workOff hc hu fun hf => ?_
    rw [hfinal] at hf
    cases hf
  · rw [hfree.wordMargin] at hpoor
    exact absurd hpoor (Score.not_lt_add_impossible _ _)
  · have harcs := Outcome.foldlM_rest (H := fun _ => False)
      (I := fun rest e' => Reaching g base W widths seeds done work e' ∧ Leads g base done e' c u ∧
        ∃ followed, source.arcs = followed ++ rest ∧ ∀ arc ∈ followed,
          Handled g e' arc.target (u.score + arc.probability))
      (f := fun e' arc => e'.follow g u source (Store.link g.keepAllTokens c u) arc)
      (fun arc rest e' ⟨h', hl, followed, harcs, hall⟩ => by
        have harc : arc ∈ source.arcs := by rw [harcs]; simp
        obtain ⟨e'', he, h'', hl', hhandled, hlater⟩ := h'.follow hfree hseeds hl hs harc
          (hfeeds hl.notFinal source arc hs harc)
        rw [he]
        refine ⟨h'', hl', followed ++ [arc], by simp [harcs], fun arc' harc' => ?_⟩
        rcases List.mem_append.1 harc' with harc' | harc'
        · exact hlater _ _ (hall arc' harc')
        · rw [List.mem_singleton.1 harc']
          exact hhandled) source.arcs e ⟨h, hl, [], rfl, by simp⟩
    rw [hx]
    refine harcs.imp fun e' ⟨h', hl, followed, hall, hhandled⟩ => h'.workOff hc hl.get ?_
    intro _ source' arc hs' harc
    rw [hs] at hs'
    cases hs'
    rw [List.append_nil] at hall
    exact hhandled arc (hall ▸ harc)

/-! ## Seeds -/

/-- **What a frame may start from:** tokens on emitting states, or the one that an utterance starts
from. -/
structure Seeded (g : Growth) (base : Store) (W : Nat → Score → Prop) (seeds : List Nat) :
    Prop where
  old : ∀ c ∈ seeds, c < base.size
  feeds : ∀ c ∈ seeds, ∀ u, base.get? c = some u → Feeds g W u
  /-- A state that emits nothing is only started from alone, and nothing that returns to it is
  better. -/
  alone : ∀ c ∈ seeds, ∀ u, base.get? c = some u → u.kind.isEmitting = false →
    seeds = [c] ∧ ∀ x, W u.state x → x ≤ u.score

/-- **Expanding a seed.** -/
theorem Reaching.expandSeed (h : Reaching g base W widths seeds [] work e) (hfree : Free g widths W)
    (hseeds : Seeded g base W seeds) {c : Nat} (hc : c ∈ seeds)
    (hfirst : seeds = [c] → e.expanded = []) :
    Outcome (Reaching g base W widths seeds [] (c :: work)) (fun _ => False)
      (e.expandSeed g c) := by
  obtain ⟨u, hu⟩ := Store.exists_get? (hseeds.old c hc)
  have hu' : e.store.get? c = some u := (h.sound.old c (hseeds.old c hc)).trans hu
  rcases expandSeed_cases hu' g with ⟨hidle, hmem, -⟩ | ⟨e', ho, hx⟩
  · rw [hfirst (hseeds.alone c hc u hu hidle).1] at hmem
    cases hmem
  · have hopen : Reaching g base W widths seeds [] work e' := by
      have hsound := h.sound.opens hu' ho
      cases ho with
      | emitting _ => exact h
      | idle hidle _ =>
        have hnone := hfirst (hseeds.alone c hc u hu hidle).1
        refine { h with sound := hsound, opened := fun s hs => ⟨c, u, .inr hc, hu', ?_⟩ }
        rw [hnone] at hs
        exact (List.mem_singleton.1 hs).symm
    obtain ⟨expanded, rfl⟩ := ho.eq
    rw [hx]
    exact hopen.expandToken hfree hseeds.old (.inl (hseeds.old c hc)) hu' (fun _ hd => by cases hd)
      (hseeds.feeds c hc u hu)

/-- **Expanding the seeds,** by induction on them. -/
theorem Reaching.expandSeeds (h : Reaching g base W widths seeds [] [] e) (hfree : Free g widths W)
    (hseeds : Seeded g base W seeds) (hnone : e.expanded = []) :
    Outcome (Reaching g base W widths seeds [] seeds.reverse) (fun _ => False)
      (seeds.foldlM (fun e id => e.expandSeed g id) e) := by
  have hall := Outcome.foldlM_rest (H := fun _ => False)
    (I := fun rest e' => ∃ pre, seeds = pre ++ rest ∧
      Reaching g base W widths seeds [] pre.reverse e' ∧ (pre = [] → e'.expanded = []))
    (f := fun e' id => e'.expandSeed g id)
    (fun c rest e' ⟨pre, hpre, h', hfirst⟩ => by
      have hnext := h'.expandSeed hfree hseeds (c := c) (by rw [hpre]; simp) fun hone => by
        rw [hone] at hpre
        refine hfirst (List.eq_nil_of_length_eq_zero ?_)
        have := congrArg List.length hpre
        simp only [List.length_append, List.length_cons, List.length_nil] at this
        omega
      refine hnext.imp fun e'' h'' => ⟨pre ++ [c], by simp [hpre], ?_, by simp⟩
      rw [List.reverse_append]
      exact h'') seeds e ⟨[], rfl, h, fun _ => hnone⟩
  refine hall.imp fun e' ⟨pre, hpre, h', _⟩ => ?_
  rw [List.append_nil] at hpre
  subst hpre
  exact h'

/-! ## A whole frame -/

/-- An expansion that has not begun. -/
theorem Reaching.start (hfits : Fits g.graph base) (lattice : Lattice) (memo : PenaltyMemo) :
    Reaching g base W widths seeds [] []
      (Expansion.start base (.empty widths) lattice memo) where
  sound := .start hfits _ lattice memo
  attained id t hid ht := by
    exact absurd (Store.lt_size_of_get? ht) (Nat.not_lt.2 hid)
  noted := .inl rfl
  widths_eq := rfl
  settled _ hc := by cases hc
  relaxed _ hc := by cases hc
  opened _ hs := by cases hs

/-- Taking the best entry of the queue opens its state. -/
theorem Reaching.pop (h : Reaching g base W widths seeds done work e) {p : Pending}
    {rest : List Pending} (hq : e.queue.dropWhile e.isStale = p :: rest) {t : Token}
    (ht : e.store.get? p.token = some t) :
    Reaching g base W widths seeds (p.token :: done) work
      { e with queue := rest, expanded := t.state :: e.expanded } where
  sound := (h.sound.pop hq ht).1
  attained := h.attained
  noted := h.noted
  widths_eq := h.widths_eq
  settled c hc := (h.settled c hc).mono fun _ hd => List.mem_cons_of_mem _ hd
  relaxed := h.relaxed
  opened s hs := by
    rcases List.mem_cons.1 hs with rfl | hs
    · exact ⟨p.token, t, .inl (by simp), ht, rfl⟩
    · obtain ⟨c, u, hc, hu⟩ := h.opened s hs
      exact ⟨c, u, hc.imp_left (List.mem_cons_of_mem _), hu⟩

/-- **Where an expansion ends:** the queue is empty, and every marked state was worked on. -/
def Finished (g : Growth) (base : Store) (W : Nat → Score → Prop) (widths : BeamWidths)
    (seeds : List Nat) (e : Expansion) : Prop :=
  ∃ done, Reaching g base W widths seeds done (done ++ seeds.reverse) e ∧ e.queue = []

/-- **Expanding a frame** comes to its end, whatever the graph. -/
theorem Reaching.run (h : Reaching g base W widths seeds [] [] e) (hfree : Free g widths W)
    (hseeds : Seeded g base W seeds) (hnone : e.expanded = []) :
    Outcome (Finished g base W widths seeds) (fun _ => False) (e.run g seeds) := by
  refine (h.expandSeeds hfree hseeds hnone).bind fun e' h' => ?_
  refine drain_rule (I := fun done e => Reaching g base W widths seeds done (done ++ seeds.reverse) e)
    (fun _ _ h => h.sound) (fun done e p rest t h hq ht => ?_)
    (fun done e h hq => { h with sound := h.sound.clear hq }) _ h' (by omega)
  obtain ⟨hnew, u, hu, he, -⟩ := h.sound.queued p (mem_of_fresh hq)
  rw [ht] at hu
  cases hu
  refine (h.pop hq ht).expandToken hfree hseeds.old (.inr (by simp)) ht (h.sound.pop hq ht).2 ?_
  intro hf source arc hs ha
  obtain ⟨st, hst, hk⟩ := h.sound.fits _ _ ht
  rw [hs] at hst
  cases hst
  exact hfree.pass _ _ _ _ (h.attained _ _ hnew ht) hs (hk ▸ he) (hk ▸ hf) ha

/-- **What the seeds lead to** is handled in the end. -/
theorem Finished.seeded (h : Finished g base W widths seeds e) (hseeds : Seeded g base W seeds)
    {c : Nat} (hc : c ∈ seeds) {u : Token} (hu : base.get? c = some u) :
    Relaxed g e u := by
  obtain ⟨done, h, -⟩ := h
  exact h.relaxed c (by simp [hc]) u ((h.sound.old c (hseeds.old c hc)).trans hu)

/-- **What a state leads to that emits nothing** is handled in the end, and so is whatever is no
better. -/
theorem Finished.passed (h : Finished g base W widths seeds e) (hfree : Free g widths W)
    (hseeds : Seeded g base W seeds) {s : Nat} {x : Score} (hbeats : Beats e s x) {source : State}
    {arc : Arc} (hs : g.graph.state? s = some source) (he : source.kind.isEmitting = false)
    (hf : source.kind.isFinal = false) (ha : arc ∈ source.arcs)
    (hx : (x + arc.probability).IsNumber) :
    Handled g e arc.target (x + arc.probability) := by
  obtain ⟨done, h, hqueue⟩ := h
  obtain ⟨id, t, hid, ht, hle⟩ := hbeats
  obtain ⟨hnew, t', ht', rfl⟩ := h.sound.resident_new _ _ hid
  rw [ht] at ht'
  cases ht'
  have hkind : ∀ {c : Nat} {u : Token}, e.store.get? c = some u → u.state = t.state →
      u.kind = source.kind := by
    intro c u hu hst
    obtain ⟨st, hst', hk⟩ := h.sound.fits c u hu
    rw [hst, hs] at hst'
    cases hst'
    exact hk
  -- the state was marked, for this token or for the seed that it cannot beat
  have hopen : t.state ∈ e.expanded := by
    by_contra hno
    have := h.sound.waiting id t hnew ht (hkind ht rfl ▸ he) hno
    rw [hqueue] at this
    cases this
  obtain ⟨c, u, hc, hu, hst⟩ := h.opened _ hopen
  have hscore : x ≤ u.score ∧ W arc.target (u.score + arc.probability) := by
    rcases hc with hc | hc
    · obtain ⟨u', hcnew, hu'⟩ := h.sound.chained.mem c hc
      have hres := h.sound.resident_of c u hcnew hu
      rw [hst, hid] at hres
      cases hres
      rw [ht] at hu
      cases hu
      exact ⟨hle, hfree.pass _ _ _ _ (h.attained id t hnew ht) hs he hf ha⟩
    · have hold := h.sound.old c (hseeds.old c hc)
      obtain ⟨-, hbest⟩ := hseeds.alone c hc u (hold ▸ hu) (hkind hu hst ▸ he)
      exact ⟨Score.le_trans hle (hbest _ (hst ▸ h.attained id t hnew ht)),
        hseeds.feeds c hc u (hold ▸ hu) (hkind hu hst ▸ hf) source arc (hst ▸ hs) ha⟩
  have hrelaxed := h.relaxed c (by simpa using hc) u hu (hkind hu hst ▸ hf) source arc
    (hst ▸ hs) ha
  exact hrelaxed.mono (Score.add_le_add_right hscore.1 _ hx
    (Score.isNumber_of_lt_infinity (hfree.finite _ _ hscore.2)))

end SpeechDecoder.Expansion
