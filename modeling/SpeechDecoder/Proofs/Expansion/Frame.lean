import SpeechDecoder.Proofs.Expansion.Sound
import SpeechDecoder.Proofs.Expansion.Trace

/-!
# The expansion of a frame

The rounds that work off the queue, and the frame as a whole.  Every round marks a state that has
not been expanded in the frame, so there are never more rounds than states, and the queue is empty
in the end.

* `Sound.pop` is the step from one round to the next.
* `drain_rule` is the induction over the rounds, for invariants that are stronger than `Sound`.
* `Sound.run` says what an expansion from a store without defects ends with.
* `FrameRule` is the induction over the course of a frame, for invariants that speak of its trace.
-/

namespace SpeechDecoder.Expansion

variable {g : Growth} {base : Store} {done : List Nat} {e : Expansion}

/-! ## The queue -/

theorem dropWhile_eq_cons {α : Type} {f : α → Bool} {x : α} {rest : List α} :
    ∀ {l : List α}, l.dropWhile f = x :: rest →
      f x = false ∧ ∃ skipped, l = skipped ++ x :: rest ∧ ∀ y ∈ skipped, f y = true
  | y :: l, h => by
    rw [List.dropWhile_cons] at h
    split_ifs at h with hy
    · obtain ⟨hx, skipped, rfl, hs⟩ := dropWhile_eq_cons h
      exact ⟨hx, y :: skipped, rfl, fun z hz => (List.mem_cons.1 hz).elim (fun h => h ▸ hy) (hs z)⟩
    · cases h
      exact ⟨by simpa using hy, [], rfl, by simp⟩

/-- The best entry is an entry of the queue. -/
theorem mem_of_fresh {p : Pending} {rest : List Pending}
    (hq : e.queue.dropWhile e.isStale = p :: rest) : p ∈ e.queue := by
  obtain ⟨-, skipped, hqueue, -⟩ := dropWhile_eq_cons hq
  rw [hqueue]
  simp

theorem isStale_eq {p : Pending} {t : Token} (ht : e.store.get? p.token = some t) :
    e.isStale p = e.expanded.contains t.state := by
  simp [Expansion.isStale, ht]

section Pop

variable {p : Pending} {rest : List Pending} {t : Token}

/-- The best entry is an entry of the queue, and its state was not expanded yet. -/
theorem popped_mem (hq : e.queue.dropWhile e.isStale = p :: rest)
    (ht : e.store.get? p.token = some t) :
    p ∈ e.queue ∧ (∀ q ∈ rest, q ∈ e.queue) ∧ t.state ∉ e.expanded := by
  obtain ⟨hfresh, skipped, hqueue, -⟩ := dropWhile_eq_cons hq
  rw [isStale_eq ht] at hfresh
  exact ⟨mem_of_fresh hq, fun q hq => by rw [hqueue]; simp [hq], by simpa using hfresh⟩

/-- Nothing that waits behind the best entry is better than its token. -/
theorem Sound.popped_best (h : Sound g base done e)
    (hq : e.queue.dropWhile e.isStale = p :: rest) (ht : e.store.get? p.token = some t) :
    rest.Pairwise (fun p q => p.notAfter q = true) ∧ ∀ q ∈ rest, ¬ t.score < q.score := by
  obtain ⟨-, u, hu, -, hrank⟩ := h.queued p (popped_mem hq ht).1
  rw [ht] at hu
  cases hu
  obtain ⟨-, skipped, hqueue, -⟩ := dropWhile_eq_cons hq
  have hsorted := h.sorted
  rw [hqueue, List.pairwise_append, List.pairwise_cons] at hsorted
  obtain ⟨-, ⟨hfirst, hrest⟩, -⟩ := hsorted
  refine ⟨hrest, fun q hq => ?_⟩
  have hpq := hfirst q hq
  simp only [Pending.notAfter, decide_eq_true_eq] at hpq
  exact Score.not_lt_of_rank_le (by omega)

/-- What is still to be expanded waits behind the best entry, since only stale entries are left
out. -/
theorem Sound.popped_waiting (h : Sound g base done e)
    (hq : e.queue.dropWhile e.isStale = p :: rest) (ht : e.store.get? p.token = some t) {id : Nat}
    {u : Token} (hid : base.size ≤ id) (hu : e.store.get? id = some u)
    (hk : u.kind.isEmitting = false) (hs : u.state ∉ t.state :: e.expanded) :
    ⟨u.score, id⟩ ∈ rest := by
  obtain ⟨-, skipped, hqueue, hskip⟩ := dropWhile_eq_cons hq
  have hw := h.waiting id u hid hu hk fun hs' => hs (List.mem_cons_of_mem _ hs')
  rw [hqueue, List.mem_append, List.mem_cons] at hw
  rcases hw with hw | hw | hw
  · have hstale := hskip _ hw
    rw [isStale_eq hu] at hstale
    exact absurd (List.mem_cons_of_mem _ (by simpa using hstale)) hs
  · rw [← hw, hu] at ht
    cases ht
    exact absurd List.mem_cons_self hs
  · exact hw

/-- **Taking the best entry of the queue** settles its token. -/
theorem Sound.pop (h : Sound g base done e) (hq : e.queue.dropWhile e.isStale = p :: rest)
    (ht : e.store.get? p.token = some t) :
    Sound g base (p.token :: done) { e with queue := rest, expanded := t.state :: e.expanded } ∧
      ∀ d ∈ p.token :: done, ∀ u, e.store.get? d = some u → ¬ u.score < t.score := by
  obtain ⟨hmem, hsub, hno⟩ := popped_mem hq ht
  obtain ⟨hrest, hbest⟩ := h.popped_best hq ht
  obtain ⟨hb, u, hu, hk, -⟩ := h.queued p hmem
  rw [ht] at hu
  cases hu
  obtain ⟨st, hst, -⟩ := h.fits _ _ ht
  refine ⟨⟨h.size_le, h.old, h.fits, h.resident_new, h.resident_of, fun id u hid hu => ?_,
    ⟨⟨t, hb, ht, h.arrived _ _ hb ht⟩, h.chained⟩, fun c hc u hu => ?_,
    List.nodup_cons.2 ⟨hno, h.expanded_nodup⟩, fun s hs => ?_, hrest,
    fun q hq => h.queued q (hsub q hq), fun id u hid hu => h.popped_waiting hq ht hid hu,
    fun c hc u hu q hq => ?_, h.next_sorted, h.mem_next⟩, fun d hd u hu => ?_⟩
  · exact (h.arrived id u hid hu).mono (fun c hc => List.mem_cons_of_mem _ hc) fun _ _ => rfl
  · rcases List.mem_cons.1 hc with rfl | hc
    · rw [ht] at hu
      cases hu
      exact ⟨hk, by simp⟩
    · exact (h.expanded_done c hc u hu).imp_right fun hs => List.mem_cons_of_mem _ hs
  · rcases List.mem_cons.1 hs with rfl | hs
    · exact lt_size_of_state? hst
    · exact h.expanded_lt s hs
  · rcases List.mem_cons.1 hc with rfl | hc
    · rw [ht] at hu
      cases hu
      exact hbest q hq
    · exact h.settled c hc u hu q (hsub q hq)
  · rcases List.mem_cons.1 hd with rfl | hd
    · rw [ht] at hu
      cases hu
      exact Score.not_lt_of_rank_le le_rfl
    · exact h.settled d hd u hu ⟨t.score, p.token⟩ (h.waiting _ _ hb ht hk hno)

end Pop

/-- An empty queue, once no entry of it is of any use. -/
theorem Sound.clear (h : Sound g base done e) (hq : e.queue.dropWhile e.isStale = []) :
    Sound g base done { e with queue := [] } := by
  refine { h with sorted := .nil, queued := ?_, waiting := fun id t hb ht hk hs => ?_, settled := ?_ }
  · exact fun p hp => by cases hp
  · rw [List.dropWhile_eq_nil_iff] at hq
    have := hq _ (h.waiting id t hb ht hk hs)
    rw [isStale_eq ht] at this
    exact absurd (by simpa using this) hs
  · exact fun c _ t _ p hp => by cases hp

/-- Following an arc marks no state. -/
theorem expanded_follow (g : Growth) (e : Expansion) (t : Token) (source : State)
    (link : Option Nat) (arc : Arc) :
    Outcome (fun e' => e'.expanded = e.expanded) (fun _ => True)
      (e.follow g t source link arc) := by
  cases ht : g.graph.state? arc.target with
  | none =>
    rw [follow_lost ht]
    trivial
  | some target =>
    obtain ⟨_, memo, -, ⟨-, hx⟩ | ⟨-, -, -, hx⟩ | ⟨-, -, hx⟩⟩ := follow_cases ht e t source link
    · rw [hx]
      exact rfl
    · rw [hx]
      trivial
    · rw [hx]
      exact Outcome.mapError ((arrive_keeps g _ link arc target.kind _).mono (fun _ h => h.1)
        fun _ _ => trivial)

/-- Expanding a token marks no state but its own. -/
theorem expanded_expandToken (g : Growth) (e : Expansion) (id : Nat) (t : Token) :
    Outcome (fun e' => e'.expanded = e.expanded) (fun _ => True) (e.expandToken g id t) := by
  rcases expandToken_cases g e id t with
    ⟨-, hx⟩ | ⟨-, -, -, hx⟩ | ⟨-, -, ⟨-, hx⟩ | ⟨source, -, hx⟩⟩
  · rw [hx]
    exact rfl
  · rw [hx]
    exact rfl
  · rw [hx]
    trivial
  · rw [hx]
    exact Outcome.foldlM (I := fun e' => e'.expanded = e.expanded)
      (fun e' arc _ he' => (expanded_follow g e' t _ _ arc).imp fun _ h => h.trans he') e rfl

/-- **The rounds of a frame.** -/
theorem drain_rule {I : List Nat → Expansion → Prop} {H : Halted Expansion → Prop}
    (hsound : ∀ done e, I done e → Sound g base done e)
    (hround : ∀ done e p rest t, I done e → e.queue.dropWhile e.isStale = p :: rest →
      e.store.get? p.token = some t → Outcome (I (p.token :: done)) H
        ({ e with queue := rest, expanded := t.state :: e.expanded }.expandToken g p.token t))
    (hclear : ∀ done e, I done e → e.queue.dropWhile e.isStale = [] →
      I done { e with queue := [] }) :
    ∀ (rounds : Nat) {done : List Nat} {e : Expansion}, I done e →
      g.graph.size < rounds + e.expanded.length →
      Outcome (fun e' => ∃ done', I done' e' ∧ e'.queue = []) H (e.drain g rounds)
  | 0, done, e, h, hlt => by
    have hsub : e.expanded ⊆ List.range g.graph.size :=
      fun s hs => List.mem_range.2 ((hsound done e h).expanded_lt s hs)
    have := (List.subperm_of_subset (hsound done e h).expanded_nodup hsub).length_le
    rw [List.length_range] at this
    omega
  | rounds + 1, done, e, h, hlt => by
    unfold Expansion.drain
    split
    · next hq => exact ⟨done, hclear done e h hq, rfl⟩
    · next p rest hq =>
      obtain ⟨-, t, ht, -⟩ := (hsound done e h).queued p (mem_of_fresh hq)
      simp only [ht]
      have hx := hround done e p rest t h hq ht
      have hmark := expanded_expandToken g { e with queue := rest, expanded := t.state :: e.expanded }
        p.token t
      refine (hx.and hmark).bind fun e' ⟨h', hm⟩ => ?_
      refine drain_rule hsound hround hclear rounds h' ?_
      rw [hm, List.length_cons]
      omega

/-! ## A whole frame -/

/-- An expansion that has not begun. -/
theorem Sound.start (hfits : Fits g.graph base) (widths : BeamWidths) (lattice : Lattice)
    (memo : PenaltyMemo) :
    Sound g base [] (Expansion.start base (.empty widths) lattice memo) := by
  have hnone : ∀ id t, base.size ≤ id → base.get? id ≠ some t := by
    intro id t hid ht
    have := Store.lt_size_of_get? ht
    omega
  refine ⟨le_rfl, fun _ _ => rfl, hfits, fun _ _ h => (by cases h), fun id t hb ht => ?_,
    fun id t hb ht => ?_, trivial, fun _ h => (by cases h), .nil, fun _ h => (by cases h), .nil,
    fun _ h => (by cases h), fun id t hb ht => ?_, fun _ h => (by cases h), .nil, fun id => ?_⟩
  · exact absurd ht (hnone id t hb)
  · exact absurd ht (hnone id t hb)
  · exact absurd ht (hnone id t hb)
  · refine iff_of_false (by simp [Expansion.start, Beam.empty]) ?_
    rintro ⟨hb, t, ht, -⟩
    exact hnone id t hb ht

/-- **Expanding a frame.** -/
theorem Sound.run (h : Sound g base [] e) {seeds : List Nat}
    (hseeds : ∀ id ∈ seeds, id < base.size) :
    Outcome (fun e' => ∃ done, Sound g base done e' ∧ e'.queue = []) (Halts g base)
      (e.run g seeds) := by
  refine (h.expandSeeds hseeds).bind fun e' he' => ?_
  refine drain_rule (fun _ _ h => h) (fun done e p rest t h hq ht => ?_) (fun _ _ h => h.clear)
    _ he' (by omega)
  obtain ⟨hpop, hlead⟩ := h.pop hq ht
  exact hpop.expandToken (.inr (by simp)) ht hlead

/-! ## The course of a frame -/

section Course

variable {seeds : List Nat} {log : List Taking} {out : Except (Halted Expansion) Expansion}
  {e₀ : Expansion}

/-- Neither a seed nor an entry of the queue leads nowhere. -/
theorem Sound.not_lost (h : Sound g base done e) (hseeds : ∀ c ∈ seeds, c < base.size) {id : Nat}
    (hid : id ∈ seeds ∨ ∃ p ∈ e.queue, p.token = id) : e.store.get? id ≠ none := by
  intro hnone
  rcases hid with hid | ⟨p, hp, rfl⟩
  · obtain ⟨t, ht⟩ := Store.exists_get? (Nat.lt_of_lt_of_le (hseeds id hid) h.size_le)
    cases ht.symm.trans hnone
  · obtain ⟨-, t, ht, -⟩ := h.queued p hp
    cases ht.symm.trans hnone

/-- **The invariant along the course of a frame.** -/
theorem Course.sound (hc : Course g seeds e₀ log out) (h : Sound g base [] e₀)
    (hseeds : ∀ c ∈ seeds, c < base.size) :
    Outcome (Sound g base (drawn log)) (Halts g base) out := by
  induction hc with
  | start => exact h
  | @seed log e e' id t _ hlog hid ht ho ih =>
    have hopen := Sound.opens (drawn_eq_nil hlog ▸ ih) ht ho
    obtain ⟨expanded, rfl⟩ := ho.eq
    rw [drawn_seed, drawn_eq_nil hlog]
    exact hopen.expandToken (.inl (hseeds id hid)) ht fun _ hd => by cases hd
  | @round log e p rest t _ hq ht ih =>
    obtain ⟨hpop, hlead⟩ := Sound.pop ih hq ht
    rw [drawn_round]
    exact hpop.expandToken (.inr (by simp)) ht hlead
  | clear _ hq ih => exact Sound.clear ih hq
  | lost _ hid ht ih => exact absurd ht (Sound.not_lost ih hseeds hid)

/-- **What an invariant has to survive** that speaks of the trace so far, as long as the frame goes on,
and what has to hold where it is halted. -/
structure FrameRule (g : Growth) (base : Store) (seeds : List Nat)
    (J : List Taking → Expansion → Prop) (H : List Taking → Halted Expansion → Prop) : Prop where
  seed : ∀ log e e' id t, Sound g base [] e → J log e → drawn log = [] → id ∈ seeds →
    e.store.get? id = some t → Opens e t e' → Outcome (J (log ++ [e'.taking g none id t]))
      (H (log ++ [e'.taking g none id t])) (e'.expandToken g id t)
  round : ∀ log e p rest t, Sound g base (drawn log) e → J log e →
    e.queue.dropWhile e.isStale = p :: rest → e.store.get? p.token = some t →
    ∀ e', e' = { e with queue := rest, expanded := t.state :: e.expanded } →
    Outcome (J (log ++ [e'.taking g (some p) p.token t]))
      (H (log ++ [e'.taking g (some p) p.token t])) (e'.expandToken g p.token t)
  clear : ∀ log e, J log e → e.queue.dropWhile e.isStale = [] → J log { e with queue := [] }

variable {J : List Taking → Expansion → Prop} {H : List Taking → Halted Expansion → Prop}

theorem FrameRule.course (hrule : FrameRule g base seeds J H) (hc : Course g seeds e₀ log out)
    (h : Sound g base [] e₀) (hseeds : ∀ c ∈ seeds, c < base.size) (hJ : J [] e₀) :
    Outcome (J log) (H log) out := by
  induction hc with
  | start => exact hJ
  | seed hc hlog hid ht ho ih =>
    have hnil := drawn_eq_nil hlog
    exact hrule.seed _ _ _ _ _ (hnil ▸ hc.sound h hseeds) ih hnil hid ht ho
  | round hc hq ht ih => exact hrule.round _ _ _ _ _ (hc.sound h hseeds) ih hq ht _ rfl
  | clear _ hq ih => exact hrule.clear _ _ ih hq
  | lost hc hid ht _ => exact absurd ht (Sound.not_lost (hc.sound h hseeds) hseeds hid)

/-- **A frame** keeps such an invariant, and its queue is empty in the end. -/
theorem FrameRule.run (hrule : FrameRule g base seeds J H) (h : Sound g base [] e)
    (hseeds : ∀ c ∈ seeds, c < base.size) (hJ : J [] e) :
    Outcome (fun e' => J (e.taken g seeds) e' ∧ Sound g base (drawn (e.taken g seeds)) e' ∧
        e'.queue = []) (H (e.taken g seeds)) (e.run g seeds) := by
  have hc := course_run g e seeds
  refine ((hrule.course hc h hseeds hJ).both ((hc.sound h hseeds).both (h.run hseeds))).mono ?_ ?_
  · rintro e' ⟨hJ', hsound, -, -, hqueue⟩
    exact ⟨hJ', hsound, hqueue⟩
  · exact fun err herr => herr.1

end Course

end SpeechDecoder.Expansion
