import SpeechDecoder.Proofs.Expansion.Led
import SpeechDecoder.Proofs.Score.Zero

/-!
# The best score of a beam

While a beam fills, its best score is noted as the scores come, and a score that is raised later is
noted again.  In the end it is the greatest score of the tokens (`Expansion.peak_run`).  So it does
not depend on the order in which the tokens came: two beams whose tokens have the same scores have
the same best one, down to the sign of a zero (`Beam.Peak.bestScore_eq`).

* `Beam.Peak` is the invariant.
* `Expansion.Keeps.run` says that a frame keeps whatever an arrival keeps, also if it is halted; the
  best score is kept by a first arrival (`Expansion.peak_settle`) and by a later one
  (`Expansion.peak_contest`).
* `Expansion.Sound.inherits` says what the scores of a frame have from those before it.
-/

namespace SpeechDecoder

namespace Beam

/-- **The best score of a beam** is the greatest score of its tokens. -/
structure Peak (score : Nat → Score) (b : Beam) : Prop where
  below : ∀ id ∈ b.tokens, score id ≤ b.bestScore
  nil : b.best = none → b.tokens = []
  attained : b.best ≠ none → ∃ id ∈ b.tokens, b.bestScore = score id

variable {score score' : Nat → Score} {b b' : Beam}

theorem peak_empty (score : Nat → Score) (widths : BeamWidths) : Peak score (.empty widths) :=
  ⟨fun _ h => (by cases h), fun _ => rfl, fun hne => absurd rfl hne⟩

theorem Peak.congr (h : Peak score b) (heq : ∀ id ∈ b.tokens, score' id = score id) :
    Peak score' b where
  below id hid := heq id hid ▸ h.below id hid
  nil := h.nil
  attained hne := by
    obtain ⟨id, hid, hbest⟩ := h.attained hne
    exact ⟨id, hid, hbest.trans (heq id hid).symm⟩

/-- Whether a score is noted. -/
theorem note_cases (b : Beam) (id : Nat) (x : Score) :
    (b.bestScore < x ∨ b.best = none) ∧ (b.note id x).best = some (id, x) ∨
      ¬ b.bestScore < x ∧ b.best ≠ none ∧ b.note id x = b := by
  unfold note
  by_cases hlt : b.bestScore < x
  · simp [hlt]
  · cases hbest : b.best with
    | none => simp
    | some _ => simp [hlt]

theorem bestScore_of_best {id : Nat} {x : Score} (h : b.best = some (id, x)) : b.bestScore = x := by
  unfold bestScore
  rw [h]

/-- The best score of a beam with tokens is a number. -/
theorem Peak.isNumber (h : Peak score b) (hne : b.best ≠ none) : b.bestScore.IsNumber := by
  obtain ⟨id, hid, -⟩ := h.attained hne
  exact (Score.le_iff.1 (h.below id hid)).2.1

/-- **A token that is appended.** -/
theorem Peak.push (h : Peak score b) {id : Nat} (hnumber : (score id).IsNumber) :
    Peak score (b.push id (score id)) := by
  have htokens := tokens_push b id (score id)
  rcases note_cases { b with tokens := b.tokens ++ [id] } id (score id) with
    ⟨hnoted, hbest⟩ | ⟨hlt, hne, hsame⟩
  · have hscore : (b.push id (score id)).bestScore = score id := bestScore_of_best hbest
    refine ⟨fun x hx => ?_, fun hnone => ?_, fun _ => ⟨id, by simp [htokens], hscore⟩⟩
    · rw [hscore]
      rw [htokens, List.mem_append, List.mem_singleton] at hx
      rcases hx with hx | rfl
      · rcases hnoted with hlt | hnone
        · exact Score.le_trans (h.below x hx) (Score.le_of_lt hlt)
        · rw [h.nil hnone] at hx
          cases hx
      · exact Score.le_rfl hnumber
    · rw [show (b.push id (score id)).best = some (id, score id) from hbest] at hnone
      cases hnone
  · have hbest : (b.push id (score id)).best = b.best := by
      unfold Beam.push
      rw [hsame]
    have hscore : (b.push id (score id)).bestScore = b.bestScore := bestScore_eq hbest
    refine ⟨fun x hx => ?_, fun hnone => absurd (hbest ▸ hnone) hne, fun _ => ?_⟩
    · rw [hscore]
      rw [htokens, List.mem_append, List.mem_singleton] at hx
      rcases hx with hx | rfl
      · exact h.below x hx
      · exact Score.le_of_not_lt hnumber (h.isNumber hne) hlt
    · obtain ⟨x, hx, hbestx⟩ := h.attained hne
      exact ⟨x, by simp [htokens, hx], hscore.trans hbestx⟩

/-- **A score of the beam that is raised** is noted again. -/
theorem Peak.raise (h : Peak score b) {id : Nat} (hid : id ∈ b.tokens)
    (hother : ∀ x, x ≠ id → score' x = score x) (hlt : score id < score' id) :
    Peak score' (b.note id (score' id)) := by
  obtain ⟨hnumber, hnumber', -⟩ := Score.lt_iff.1 hlt
  have hne : b.best ≠ none := fun hnone => by
    rw [h.nil hnone] at hid
    cases hid
  have htokens := tokens_note b id (score' id)
  rcases note_cases b id (score' id) with ⟨hnoted, hbest⟩ | ⟨hbelow, -, hsame⟩
  · have hscore := bestScore_of_best hbest
    refine ⟨fun x hx => ?_, fun hnone => ?_, fun _ => ⟨id, htokens ▸ hid, hscore⟩⟩
    · rw [hscore]
      by_cases hxid : x = id
      · rw [hxid]
        exact Score.le_rfl hnumber'
      · rw [hother x hxid]
        exact Score.le_trans (h.below x (htokens ▸ hx))
          (Score.le_of_lt (hnoted.resolve_right hne))
    · rw [hbest] at hnone
      cases hnone
  · have hle : score' id ≤ b.bestScore := Score.le_of_not_lt hnumber' (h.isNumber hne) hbelow
    rw [hsame]
    refine ⟨fun x hx => ?_, h.nil, fun _ => ?_⟩
    · by_cases hxid : x = id
      · rwa [hxid]
      · rw [hother x hxid]
        exact h.below x hx
    · obtain ⟨x, hx, hbestx⟩ := h.attained hne
      -- the best token is another one, since its score was not raised
      have hxid : x ≠ id := by
        rintro rfl
        rw [hbestx] at hle
        exact Score.not_lt_of_le hle hlt
      exact ⟨x, hx, hbestx.trans (hother x hxid).symm⟩

/-- Tokens that are appended one after the other. -/
theorem Peak.foldl_push : ∀ {ids : List Nat} {b : Beam}, Peak score b →
    (∀ id ∈ ids, (score id).IsNumber) →
    Peak score (ids.foldl (fun b id => b.push id (score id)) b)
  | [], _, h, _ => h
  | id :: ids, _, h, hnumber => by
    rw [List.foldl_cons]
    exact Peak.foldl_push (h.push (hnumber id (by simp))) fun x hx => hnumber x (by simp [hx])

/-- **Beams with the same scores** have the same best score. -/
theorem Peak.bestScore_eq (h : Peak score b) (h' : Peak score' b')
    (hle : ∀ id ∈ b.tokens, ∃ id' ∈ b'.tokens, score' id' = score id)
    (hge : ∀ id' ∈ b'.tokens, ∃ id ∈ b.tokens, score id = score' id')
    (hzero : ∀ id ∈ b.tokens, score id ≠ Score.negativeZero) : b'.bestScore = b.bestScore := by
  by_cases hnone : b.best = none
  · have hnone' : b'.best = none := by
      by_contra hne
      obtain ⟨id', hid', -⟩ := h'.attained hne
      obtain ⟨id, hid, -⟩ := hge id' hid'
      rw [h.nil hnone] at hid
      cases hid
    exact Beam.bestScore_eq (hnone'.trans hnone.symm)
  · obtain ⟨id, hid, hbest⟩ := h.attained hnone
    obtain ⟨id', hid', heq⟩ := hle id hid
    have hne : b'.best ≠ none := fun hnone' => by
      rw [h'.nil hnone'] at hid'
      cases hid'
    obtain ⟨x', hx', hbest'⟩ := h'.attained hne
    obtain ⟨x, hx, heq'⟩ := hge x' hx'
    have hup : b.bestScore ≤ b'.bestScore := by
      rw [hbest, ← heq]
      exact h'.below id' hid'
    have hdown : b'.bestScore ≤ b.bestScore := by
      rw [hbest', ← heq']
      exact h.below x hx
    refine Score.eq_of_level ?_ ?_ (le_antisymm (Score.le_iff.1 hdown).2.2 (Score.le_iff.1 hup).2.2)
    · rw [hbest', ← heq']
      exact hzero x hx
    · rw [hbest]
      exact hzero id hid

end Beam

namespace Expansion

variable {g : Growth} {base : Store} {done : List Nat} {e e' : Expansion}

/-! ## What an arrival keeps -/

/-- **An arrival keeps what is said of the store and the beam,** wherever it comes from. -/
def Keeps (g : Growth) (base : Store) (I : Store → Beam → Prop) : Prop :=
  ∀ (done : List Nat) (e e' : Expansion) (link : Option Nat) (arc : Arc) (target : State)
    (score : Score), Sound g base done e → g.graph.state? arc.target = some target →
    e.arrive g link arc target.kind score = .ok e' → Sound g base done e' → I e.store e.next →
    I e'.store e'.next

section Keeps

variable {I : Store → Beam → Prop}

theorem Keeps.follow (hkeeps : Keeps g base I) (h : Sound g base done e) {c : Nat} {u : Token}
    (hl : Leads g base done e c u) {source : State} (hs : g.graph.state? u.state = some source)
    {arc : Arc} (harc : arc ∈ source.arcs) (hI : I e.store e.next) :
    Outcome (fun e' => I e'.store e'.next) (fun h => I h.state.store h.state.next)
      (e.follow g u source (Store.link g.keepAllTokens c u) arc) := by
  obtain ⟨target, ht, -⟩ := exists_target hs harc
  refine hl.follow_rule h hs harc ht (fun _ _ => hI) (fun _ _ => hI) ?_
  exact fun memo _ he₁ hsound _ _ => hkeeps _ _ _ _ _ _ _ (h.memo memo) ht he₁ hsound hI

theorem Keeps.expandToken (hkeeps : Keeps g base I) (h : Sound g base done e) {c : Nat} {u : Token}
    (hc : Settled base done c) (hu : e.store.get? c = some u)
    (hlead : ∀ d ∈ done, ∀ t, e.store.get? d = some t → ¬ t.score < u.score)
    (hI : I e.store e.next) :
    Outcome (fun e' => Sound g base done e' ∧ I e'.store e'.next)
      (fun h => I h.state.store h.state.next) (e.expandToken g c u) := by
  refine ((h.expandToken hc hu hlead).both ?_).mono (fun _ h => h) fun _ h => h.2
  rcases h.expandToken_cases hc hu hlead with ⟨-, hx⟩ | ⟨-, -, -, hx⟩ | ⟨hl, -, source, hs, hx⟩
  · rw [hx]
    exact hI
  · rw [hx]
    exact hI
  · have harcs := Outcome.foldlM (H := fun h => I h.state.store h.state.next)
      (I := fun e' => (Sound g base done e' ∧ Leads g base done e' c u) ∧ I e'.store e'.next)
      (fun e' arc harc he' => ((he'.1.1.follow he'.1.2 hs harc).both
        (hkeeps.follow he'.1.1 he'.1.2 hs harc he'.2)).mono (fun _ h => h) fun _ h => h.2) e
      ⟨⟨h, hl⟩, hI⟩
    rw [hx]
    exact harcs.imp fun _ h => h.2

theorem Keeps.rule (hkeeps : Keeps g base I) {seeds : List Nat} (hseeds : ∀ id ∈ seeds, id < base.size) :
    FrameRule g base seeds (fun _ e => I e.store e.next) fun _ h => I h.state.store h.state.next where
  seed log e e' id t hsound hI _ hid ht ho := by
    have hopen := hsound.opens ht ho
    obtain ⟨expanded, rfl⟩ := ho.eq
    exact (hkeeps.expandToken hopen (.inl (hseeds id hid)) ht (fun _ hd => by cases hd) hI).imp
      fun _ h => h.2
  round log e p rest t hsound hI hq ht e' he' := by
    subst he'
    obtain ⟨hpop, hlead⟩ := hsound.pop hq ht
    exact (hkeeps.expandToken hpop (.inr (by simp)) ht hlead hI).imp fun _ h => h.2
  clear _ _ hI _ := hI

/-- **What every arrival keeps is kept by a frame,** also if the frame is halted. -/
theorem Keeps.run (hkeeps : Keeps g base I) (h : Sound g base [] e) (hI : I e.store e.next)
    {seeds : List Nat} (hseeds : ∀ id ∈ seeds, id < base.size) :
    Outcome (fun e' => I e'.store e'.next) (fun h => I h.state.store h.state.next)
      (e.run g seeds) :=
  ((hkeeps.rule hseeds).run h hseeds hI).imp fun _ h => h.1

end Keeps

/-! ## The best score of a frame -/

theorem score_push (a : Store) (t : Token) (id : Nat) :
    (a.push t).score id = if id = a.size then t.score else a.score id := by
  unfold Store.score
  rw [Store.get?_push]
  split_ifs <;> rfl

theorem score_set {a : Store} {id : Nat} (hid : id < a.size) (t : Token) (x : Nat) :
    (a.set id t).score x = if x = id then t.score else a.score x := by
  unfold Store.score
  rw [Store.get?_set]
  by_cases hx : x = id
  · rw [if_pos hx.symm, if_pos hid, if_pos hx]
  · rw [if_neg (Ne.symm hx), if_neg hx]

/-- **The first arrival on a state** is pushed if the state emits. -/
theorem peak_settle (h : Sound g base done e) (hpeak : e.next.Peak e.store.score)
    (link : Option Nat) (arc : Arc) (kind : StateKind) (score : Score) :
    (e.settle g link arc kind score).next.Peak (e.settle g link arc kind score).store.score := by
  cases hadm : (kind.isEmitting && !e.next.admits score) with
  | true =>
    rw [settle_refused hadm]
    exact hpeak
  | false =>
    obtain ⟨bestWord, created, heq⟩ := settle_eq (g := g) (e := e) hadm link arc
    have hnew : e.next.Peak (e.store.push (.entering link arc kind score g.frame)).score := by
      refine hpeak.congr fun id hid => ?_
      rw [score_push, if_neg (h.next_lt hid).ne]
    rw [heq]
    dsimp only
    split
    · next hemit =>
      have hlast : (e.store.push (.entering link arc kind score g.frame)).score e.store.size =
          score := by
        rw [score_push, if_pos rfl]
        rfl
      have hadmits : e.next.threshold ≤ score := by
        simpa [hemit, Beam.admits] using hadm
      have hpush := hnew.push (hlast.symm ▸ (Score.le_iff.1 hadmits).2.1)
      rwa [hlast] at hpush
    · exact hnew

/-- **A later arrival on a state** raises the score of a token of the beam if the state emits. -/
theorem peak_contest (h : Sound g base done e) (hpeak : e.next.Peak e.store.score) {id : Nat}
    {t : Token} (hid : base.size ≤ id) (hget : e.store.get? id = some t) (link : Option Nat)
    (arc : Arc) (score : Score) :
    (e.contest g link arc t.kind score id t).next.Peak
      (e.contest g link arc t.kind score id t).store.score := by
  by_cases hlt : t.score < score
  · obtain ⟨lattice, bestWord, heq⟩ := contest_better (g := g) (e := e) hlt link arc t.kind id
    have hscore : e.store.score id = t.score := by
      unfold Store.score
      rw [hget]
    have hset := score_set (Store.lt_size_of_get? hget) (t.rerouted link arc score g.frame)
    rw [heq]
    dsimp only
    split
    · next hemit =>
      have hmem : id ∈ e.next.tokens := (h.mem_next id).2 ⟨hid, t, hget, hemit⟩
      have hraised : (e.store.set id (t.rerouted link arc score g.frame)).score id = score := by
        rw [hset, if_pos rfl]
        rfl
      have hraise := hpeak.raise hmem (fun x hx => (hset x).trans (if_neg hx))
        (by rw [hraised, hscore]; exact hlt)
      rwa [hraised] at hraise
    · next hemit =>
      refine hpeak.congr fun x hx => ?_
      rw [hset, if_neg]
      rintro rfl
      obtain ⟨-, u, hu, hk⟩ := (h.mem_next x).1 hx
      rw [hget] at hu
      cases hu
      exact hemit hk
  · obtain ⟨lattice, heq⟩ := contest_worse (g := g) (e := e) hlt link arc t.kind id
    rw [heq]
    exact hpeak

/-- **An arrival keeps the best score** the greatest one. -/
theorem keeps_peak (g : Growth) (base : Store) :
    Keeps g base fun a b => b.Peak a.score := by
  intro done e e' link arc target score h ht he' _ hpeak
  rcases h.arrive_cases ht he' with ⟨-, rfl⟩ | ⟨id, t, -, hid, hget, -, hkind, rfl⟩
  · exact peak_settle h hpeak link arc target.kind score
  · rw [← hkind]
    exact peak_contest h hpeak hid hget link arc score

/-- **The best score of a frame** is the greatest of its tokens, also if the frame is halted. -/
theorem peak_run (hfits : Fits g.graph base) (widths : BeamWidths) (lattice : Lattice)
    (memo : PenaltyMemo) {seeds : List Nat} (hseeds : ∀ id ∈ seeds, id < base.size) :
    Outcome (fun e => e.next.Peak e.store.score) (fun h => h.state.next.Peak h.state.store.score)
      ((Expansion.start base (.empty widths) lattice memo).run g seeds) :=
  (keeps_peak g base).run (.start hfits widths lattice memo) (Beam.peak_empty _ _) hseeds

/-! ## What the scores inherit -/

/-- **What holds of all scores before a frame,** and of a sum if it holds of the score that an arc is
added to, holds of all scores of the frame: by induction on the order in which the tokens were
expanded. -/
theorem Sound.inherits {P : Score → Prop} (h : Sound g base done e)
    (hbase : ∀ id t, base.get? id = some t → P t.score)
    (hadd : ∀ x p, ¬ Score.certain < p → P x → P (x + p)) {id : Nat} {t : Token}
    (ht : e.store.get? id = some t) : P t.score := by
  have hold : ∀ id < base.size, ∀ t, e.store.get? id = some t → P t.score :=
    fun id hid t ht => hbase id t (h.old id hid ▸ ht)
  have harrived : ∀ rest, (∀ c ∈ rest, ∀ u, e.store.get? c = some u → P u.score) →
      ∀ t, Arrived g base rest e.store t → P t.score := by
    rintro rest hrest t ⟨c, u, source, arc, target, hc, hu, -, hs, harc, -, rfl⟩
    obtain ⟨-, -, hp⟩ := exists_target hs harc
    exact hadd _ _ hp (hc.elim (fun hc => hold c hc u hu) fun hc => hrest c hc u hu)
  have hdone : ∀ rest, Chained g base e.store rest → ∀ c ∈ rest, ∀ u,
      e.store.get? c = some u → P u.score := by
    intro rest
    induction rest with
    | nil => exact fun _ c hc => by cases hc
    | cons c rest ih =>
      rintro ⟨⟨t, -, ht, ht'⟩, hrest⟩ x hx u hu
      rcases List.mem_cons.1 hx with rfl | hx
      · cases ht.symm.trans hu
        exact harrived rest (ih hrest) t ht'
      · exact ih hrest x hx u hu
  rcases Nat.lt_or_ge id base.size with hid | hid
  · exact hold id hid t ht
  · exact harrived done (hdone done h.chained) t (h.arrived id t hid ht)

/-- **No score of a frame is the negative zero** if none was before. -/
theorem Sound.ne_negativeZero (h : Sound g base done e)
    (hbase : ∀ id t, base.get? id = some t → t.score ≠ Score.negativeZero) {id : Nat} {t : Token}
    (ht : e.store.get? id = some t) : t.score ≠ Score.negativeZero :=
  h.inherits (P := fun x => x ≠ Score.negativeZero) hbase
    (fun _ p _ hx => Score.add_ne_negativeZero hx p) ht

end Expansion

end SpeechDecoder
