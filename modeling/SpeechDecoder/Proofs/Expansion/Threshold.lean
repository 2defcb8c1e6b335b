import SpeechDecoder.Proofs.Expansion.Checked
import SpeechDecoder.Proofs.Expansion.Peak

/-!
# The threshold of a frame

What a frame admits and cuts is told by the threshold of its beam, the best score of the beam plus
the margin.  While the beam fills, its best score rises and so does the threshold.

* `thresholds` are those that a frame goes through: before every arc that it tries and at its end,
  also if it is halted.  The beam is changed by arrivals only, so these are all.
* `keeps_above` is the step: an arrival does not lower the threshold.  No score of a frame is infinite
  if none was before (`Sound.lt_infinity`), so the best score can be compared with what is noted.
* `Climbs` says that thresholds never fall; `Climbs.append` are two steps, `Climbs.of_le` is one in
  which at most the last arc changes the beam, and the other lemmas follow the expansion of a frame
  up to `climbs_run`.
-/

namespace SpeechDecoder

namespace Store

/-- **No score of a store** is positive infinity or not a number. -/
def Bounded (a : Store) : Prop := ∀ id < a.size, a.score id < .infinity

instance (a : Store) : Decidable a.Bounded :=
  inferInstanceAs (Decidable (∀ id < a.size, a.score id < .infinity))

theorem Bounded.of_get? {a : Store} (h : a.Bounded) {id : Nat} {t : Token}
    (ht : a.get? id = some t) : t.score < .infinity := by
  have hlt := h id (lt_size_of_get? ht)
  rwa [score, ht] at hlt

end Store

namespace Beam

variable {a : Store} {b : Beam} {w : BeamWidths} {low : Score}

/-- **A beam of given widths whose threshold is not below `low`.**  Its best score is the greatest
of its tokens. -/
structure Above (w : BeamWidths) (low : Score) (a : Store) (b : Beam) : Prop where
  floor : low ≤ b.threshold
  widths : b.widths = w
  peak : b.Peak a.score

theorem Above.self (h : b.Above w low a) : b.Above w b.threshold a :=
  ⟨Score.le_rfl (Score.le_iff.1 h.floor).2.1, h.widths, h.peak⟩

theorem above_empty (hmargin : w.margin ≤ .certain) (a : Store) :
    (Beam.empty w).Above w (Beam.empty w).threshold a := by
  have hm := Score.lt_infinity_of_le hmargin Score.certain_lt_infinity
  exact ⟨Score.le_rfl (Score.isNumber_add (x := .impossible) (by decide) hm), rfl, peak_empty _ _⟩

end Beam

namespace Expansion

/-- The expansion that a computation leaves, finished or halted. -/
def left : Except (Halted Expansion) Expansion → Expansion
  | .ok e => e
  | .error h => h.state

/-- The thresholds of a beam, of the beams at some moments after it, and of the last one. -/
def levels (b : Beam) (log : List Moment) (out : Except (Halted Expansion) Expansion) :
    List Score :=
  b.threshold :: (log.map fun m => m.before.next.threshold) ++ [(left out).next.threshold]

/-- **The thresholds that the expansion of a frame goes through.** -/
def thresholds (g : Growth) (e : Expansion) (seeds : List Nat) : List Score :=
  levels e.next (e.moments g seeds) (e.run g seeds)

/-- **The thresholds never fall.** -/
def Climbs (b : Beam) (log : List Moment) (out : Except (Halted Expansion) Expansion) : Prop :=
  (levels b log out).Pairwise (· ≤ ·)

variable {g : Growth} {base : Store} {done : List Nat} {e e' : Expansion} {c : Nat} {u : Token}
  {w : BeamWidths} {low : Score} {b : Beam} {log : List Moment}
  {x : Except (Halted Expansion) Expansion}

theorem left_of_outcome {P : Expansion → Prop} (h : Outcome P (fun h => P h.state) x) :
    P (left x) := by
  cases x with
  | ok e => exact h
  | error err => exact h

/-! ## An arrival -/

/-- **What an arrival does to the beam:** at most, it notes its score. -/
theorem Sound.next_arrive (h : Sound g base done e) {link : Option Nat} {arc : Arc} {target : State}
    {score : Score} (ht : g.graph.state? arc.target = some target)
    (he : e.arrive g link arc target.kind score = .ok e') :
    e'.next.widths = e.next.widths ∧ (e'.next.best = e.next.best ∨
      score.IsNumber ∧ ∃ id, e'.next.best = (e.next.note id score).best) := by
  rcases h.arrive_cases ht he with ⟨-, rfl⟩ | ⟨id, t, -, -, -, -, -, rfl⟩
  · cases hadm : (target.kind.isEmitting && !e.next.admits score) with
    | true =>
      rw [settle_refused hadm]
      exact ⟨rfl, .inl rfl⟩
    | false =>
      obtain ⟨_, _, heq⟩ := settle_eq (g := g) (e := e) hadm link arc
      rw [heq]
      dsimp only
      split
      · next hemit =>
        have hadmits : e.next.threshold ≤ score := by simpa [hemit, Beam.admits] using hadm
        exact ⟨Beam.widths_note _ _ _,
          .inr ⟨(Score.le_iff.1 hadmits).2.1, _, Beam.best_push _ _ _⟩⟩
      · exact ⟨rfl, .inl rfl⟩
  · by_cases hlt : t.score < score
    · obtain ⟨_, _, heq⟩ := contest_better (g := g) (e := e) hlt link arc target.kind id
      rw [heq]
      dsimp only
      split
      · exact ⟨Beam.widths_note _ _ _, .inr ⟨(Score.lt_iff.1 hlt).2.1, id, rfl⟩⟩
      · exact ⟨rfl, .inl rfl⟩
    · obtain ⟨_, heq⟩ := contest_worse (g := g) (e := e) hlt link arc target.kind id
      rw [heq]
      exact ⟨rfl, .inl rfl⟩

/-- An arrival keeps the widths. -/
theorem keeps_widths (g : Growth) (base : Store) (w : BeamWidths) :
    Keeps g base fun _ b => b.widths = w :=
  fun _ _ _ _ _ _ _ h ht he _ hwidths => (h.next_arrive ht he).1.trans hwidths

/-- **No score of a frame is infinite** if none was before, as no arc raises a score. -/
theorem Sound.lt_infinity (h : Sound g base done e) (hbase : base.Bounded) {id : Nat} {t : Token}
    (ht : e.store.get? id = some t) (hnumber : t.score.IsNumber) : t.score < .infinity := by
  refine h.inherits (P := fun x => x.IsNumber → x < .infinity)
    (fun _ _ ht _ => hbase.of_get? ht) (fun x p hp hx hsum => ?_) ht hnumber
  have hle := Score.add_le_self hp hsum
  exact Score.lt_infinity_of_le hle (hx (Score.le_iff.1 hle).2.1)

theorem Sound.bestScore_lt (h : Sound g base done e) (hbase : base.Bounded)
    (hpeak : e.next.Peak e.store.score) : e.next.bestScore < .infinity := by
  by_cases hnone : e.next.best = none
  · unfold Beam.bestScore
    rw [hnone]
    decide
  · have hnumber := hpeak.isNumber hnone
    obtain ⟨id, hid, hbest⟩ := hpeak.attained hnone
    obtain ⟨-, t, ht, -⟩ := (h.mem_next id).1 hid
    rw [show e.store.score id = t.score by unfold Store.score; rw [ht]] at hbest
    rw [hbest] at hnumber ⊢
    exact h.lt_infinity hbase ht hnumber

/-- **An arrival does not lower the threshold.** -/
theorem keeps_above (g : Growth) (hbase : base.Bounded) (hmargin : w.margin ≤ .certain)
    (low : Score) : Keeps g base (Beam.Above w low) := by
  intro done e e' link arc target score h ht he h' ⟨hfloor, hwidths, hpeak⟩
  have hpeak' := keeps_peak g base done e e' link arc target score h ht he h' hpeak
  have hold := h.bestScore_lt hbase hpeak
  have hnew := h'.bestScore_lt hbase hpeak'
  obtain ⟨hsame, hbest⟩ := h.next_arrive ht he
  have hle : e.next.bestScore ≤ e'.next.bestScore := by
    rcases hbest with heq | ⟨hnumber, id, heq⟩
    · rw [Beam.bestScore_eq heq]
      exact Score.le_rfl (Score.isNumber_of_lt_infinity hold)
    · rw [show e'.next.bestScore = (e.next.note id score).bestScore from Beam.bestScore_eq heq]
      exact Beam.bestScore_le_note (Score.isNumber_of_lt_infinity hold) hnumber
  exact ⟨Score.le_trans hfloor (Beam.threshold_le (hwidths ▸ hmargin) hsame hle hnew),
    hsame.trans hwidths, hpeak'⟩

/-! ## Steps -/

/-- **One step:** the beam is what it was until the end. -/
theorem Climbs.of_le (hlog : ∀ m ∈ log, m.before.next = b)
    (hle : b.threshold ≤ (left x).next.threshold) : Climbs b log x := by
  have hsame : ∀ y ∈ b.threshold :: log.map fun m => m.before.next.threshold, y = b.threshold := by
    intro y hy
    rcases List.mem_cons.1 hy with rfl | hy
    · rfl
    · obtain ⟨m, hm, rfl⟩ := List.mem_map.1 hy
      rw [hlog m hm]
  refine List.pairwise_append.2 ⟨List.pairwise_of_forall_mem_list fun y hy z hz => ?_,
    List.pairwise_singleton _ _, fun y hy z hz => ?_⟩
  · rw [hsame y hy, hsame z hz]
    exact Score.le_rfl (Score.le_iff.1 hle).1
  · rw [hsame y hy, List.mem_singleton.1 hz]
    exact hle

/-- Where no arc is tried. -/
theorem Climbs.nil (h : (left x).next.Above w low base) : Climbs (left x).next [] x :=
  .of_le (fun m hm => by cases hm) h.self.floor

/-- **Two steps.** -/
theorem Climbs.append {later : List Moment} (h : Climbs b log (.ok e)) (hlater : Climbs e.next later x) :
    Climbs b (log ++ later) x := by
  obtain ⟨hfirst, -, hmiddle⟩ := List.pairwise_append.1 h
  obtain ⟨hlast, hrest⟩ := List.pairwise_cons.1 hlater
  have hall := List.pairwise_append.2 ⟨hfirst, hrest, fun y hy z hz =>
    Score.le_trans (hmiddle y hy _ (List.mem_singleton_self _)) (hlast z hz)⟩
  unfold Climbs levels
  rw [List.map_append, List.cons_append, List.append_assoc]
  exact hall

/-! ## The expansion of a frame -/

section Climbs

variable (hkeeps : ∀ low, Keeps g base (Beam.Above w low))

include hkeeps

/-- **The arcs of a settled token.** -/
theorem Climbs.arcs {source : State} (hs : g.graph.state? u.state = some source)
    (h : Sound g base done e) (hl : Leads g base done e c u) (habove : e.next.Above w low e.store) :
    Climbs e.next (momentsOver g u source (Store.link g.keepAllTokens c u) source.arcs e)
      (source.arcs.foldlM
        (fun e arc => follow g e u source (Store.link g.keepAllTokens c u) arc) e) := by
  refine (outcome_iff (R := Climbs e.next _)).1 ((over_rule
    (J := fun log e' => (Sound g base done e' ∧ Leads g base done e' c u ∧
      e'.next.Above w low e'.store) ∧ Climbs e.next log (.ok e'))
    (H := fun log err => Climbs e.next log (.error err))
    (fun log e arc harc hJ => ?_) ⟨⟨h, hl, habove⟩, .nil (x := .ok e) habove⟩).imp fun _ h => h.2)
  obtain ⟨⟨h, hl, habove⟩, hlog⟩ := hJ
  have hone : Climbs e.next (e.moment? g u source arc).toList
      (e.follow g u source (Store.link g.keepAllTokens c u) arc) := by
    refine .of_le (fun m hm => by rw [before_of_mem_moment? hm]) ?_
    exact (left_of_outcome (P := fun e' => e'.next.Above w e.next.threshold e'.store)
      ((hkeeps _).follow h hl hs harc habove.self)).floor
  have hclimbs := outcome_iff.2 (hlog.append hone)
  exact (((h.follow hl hs harc).both ((hkeeps low).follow h hl hs harc habove)).both hclimbs).mono
    (fun e' h' => ⟨⟨h'.1.1.1, h'.1.1.2, h'.1.2⟩, h'.2⟩) fun err herr => herr.2

/-- **Expanding a settled token.** -/
theorem Climbs.expandToken (h : Sound g base done e) (hc : Settled base done c)
    (hu : e.store.get? c = some u)
    (hlead : ∀ d ∈ done, ∀ t, e.store.get? d = some t → ¬ t.score < u.score)
    (habove : e.next.Above w low e.store) :
    Climbs e.next (e.momentsOfToken g c u) (e.expandToken g c u) := by
  rcases h.taking_cases hc hu hlead with
    ⟨-, hnone, hx⟩ | ⟨-, hnone, hx⟩ | ⟨hl, -, source, hs, htried, hx⟩
  · rw [hnone, hx]
    exact .nil (x := .ok { e with results := e.results ++ [c] }) habove
  · rw [hnone, hx]
    exact .nil (x := .ok e) habove
  · rw [htried, hx]
    exact Climbs.arcs hkeeps hs h hl habove

/-- **One more token.** -/
theorem Climbs.take {taken : List Taking} (h : Sound g base done e) (hc : Settled base done c)
    (hu : e.store.get? c = some u)
    (hlead : ∀ d ∈ done, ∀ t, e.store.get? d = some t → ¬ t.score < u.score)
    (habove : e.next.Above w low e.store)
    (hclimbs : Climbs b (taken.flatMap Taking.moments) (.ok e)) (entry : Option Pending) :
    Outcome
      (fun e' => e'.next.Above w low e'.store ∧
        Climbs b ((taken ++ [e.taking g entry c u]).flatMap Taking.moments) (.ok e'))
      (fun err => Climbs b ((taken ++ [e.taking g entry c u]).flatMap Taking.moments) (.error err))
      (e.expandToken g c u) := by
  have hall := outcome_iff.2 (hclimbs.append (Climbs.expandToken hkeeps h hc hu hlead habove))
  rw [List.flatMap_append, List.flatMap_singleton]
  exact (((hkeeps low).expandToken h hc hu hlead habove).both hall).mono (fun _ h => ⟨h.1.2, h.2⟩)
    fun _ h => h.2

/-- **A frame.** -/
theorem Climbs.rule {seeds : List Nat} (hseeds : ∀ c ∈ seeds, c < base.size) (b : Beam) :
    FrameRule g base seeds
      (fun log e => e.next.Above w low e.store ∧ Climbs b (log.flatMap Taking.moments) (.ok e))
      fun log err => Climbs b (log.flatMap Taking.moments) (.error err) where
  seed log e e' id t hsound h _ hid ht ho := by
    have hopen := hsound.opens ht ho
    obtain ⟨expanded, rfl⟩ := ho.eq
    exact Climbs.take hkeeps hopen (.inl (hseeds id hid)) ht (fun _ hd => by cases hd) h.1 h.2 none
  round log e p rest t hsound h hq ht e' he' := by
    subst he'
    obtain ⟨hpop, hlead⟩ := hsound.pop hq ht
    exact Climbs.take hkeeps hpop (.inr (by simp)) ht hlead h.1 h.2 (some p)
  clear _ _ h _ := h

end Climbs

/-- **The threshold never falls while a frame is expanded,** also if the frame is halted. -/
theorem climbs_run (hfits : Fits g.graph base) (hbase : base.Bounded)
    (hmargin : w.margin ≤ .certain) (lattice : Lattice) (memo : PenaltyMemo) {seeds : List Nat}
    (hseeds : ∀ c ∈ seeds, c < base.size) :
    ((Expansion.start base (.empty w) lattice memo).thresholds g seeds).Pairwise (· ≤ ·) := by
  have hkeeps := keeps_above g hbase hmargin
  have hsound : Sound g base [] (.start base (.empty w) lattice memo) := .start hfits w lattice memo
  have habove := Beam.above_empty hmargin base
  have hnow : Climbs (.empty w) [] (.ok (Expansion.start base (.empty w) lattice memo)) :=
    .nil (x := .ok (Expansion.start base (.empty w) lattice memo)) habove
  have hrun := (Climbs.rule hkeeps hseeds (.empty w)).run hsound hseeds ⟨habove, hnow⟩
  exact outcome_iff.1 (hrun.imp fun _ h => h.1.2)

end Expansion

end SpeechDecoder
