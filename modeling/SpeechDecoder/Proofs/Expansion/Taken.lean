import SpeechDecoder.Proofs.Expansion.Led
import SpeechDecoder.Proofs.Score.Sorted

/-!
# Expanded tokens are final

A token is expanded as a seed, or is taken from the queue.  In the queue its entry has the score that
it has at that time, since older entries come later or are worse; and from then on nothing arrives at
its state that is better.  So the tokens are taken by falling scores, and neither the score nor the
predecessor of one changes after it was taken.

* `Stays` says that a token stays as it is from some time on, also if the frame is halted, and
  `Stays.take` that the next token which is expanded leaves what is settled as it is.
* `Sound.popped_eq` says that an entry of the queue has the score of its token when it is taken.
* `Orderly` is what holds of a frame, and `Sound.orderly` says so: `Ranked.take` is the step.
-/

namespace SpeechDecoder

namespace Expansion

/-- **A token that stays as it is,** before every token that is expanded, before every arc, and at
the end, also if that is an error. -/
structure Stays (id : Nat) (t : Token) (log : List Taking)
    (out : Except (Halted Expansion) Expansion) : Prop where
  before : ∀ x ∈ log, x.before.store.get? id = some t
  within : ∀ x ∈ log, ∀ m ∈ x.moments, m.before.store.get? id = some t
  last : Outcome (fun e => e.store.get? id = some t) (fun h => h.state.store.get? id = some t) out

/-- **Tokens that are taken in order.**  The entry of one has the score that the token has, the
entries fall, and from the time when it is taken a token stays as it is.  None of them is in the beam
that the frame leaves. -/
structure Orderly (log : List Taking) (out : Except (Halted Expansion) Expansion) : Prop where
  current : ∀ x ∈ log, ∀ p ∈ x.entry, p = ⟨x.token.score, x.id⟩
  falling : (log.filterMap Taking.entry).Pairwise fun p q =>
    ¬ p.score < q.score ∧ (p.score.IsNumber → q.score.IsNumber → q.score ≤ p.score)
  stays : ∀ earlier x later, log = earlier ++ x :: later → Stays x.id x.token (x :: later) out
  settled : ∀ x ∈ log,
    Outcome (fun e => x.id ∉ e.next.tokens) (fun h => x.id ∉ h.state.next.tokens) out

variable {g : Growth} {base : Store} {done : List Nat} {e e₀ : Expansion} {c id : Nat} {t u : Token}
  {log later : List Taking} {x : Except (Halted Expansion) Expansion} {seeds : List Nat}

/-! ## A token that stays -/

/-- Where nothing is expanded. -/
theorem Stays.nil (ht : e.store.get? id = some t) : Stays id t [] (.ok e) :=
  ⟨fun y hy => (by cases hy), fun y hy => (by cases hy), ht⟩

theorem Stays.single {y : Taking} (hbefore : y.before.store.get? id = some t)
    (hwithin : ∀ m ∈ y.moments, m.before.store.get? id = some t)
    (hlast : Outcome (fun e => e.store.get? id = some t) (fun h => h.state.store.get? id = some t) x) :
    Stays id t [y] x :=
  ⟨fun _ hz => List.mem_singleton.1 hz ▸ hbefore, fun _ hz => List.mem_singleton.1 hz ▸ hwithin,
    hlast⟩

theorem Stays.clear (h : Stays id t log (.ok e)) : Stays id t log (.ok { e with queue := [] }) :=
  ⟨h.before, h.within, h.last⟩

/-- **Two steps.** -/
theorem Stays.append (h : Stays id t log (.ok e)) (h' : Stays id t later x) :
    Stays id t (log ++ later) x :=
  ⟨fun y hy => (List.mem_append.1 hy).elim (h.before y) (h'.before y),
    fun y hy => (List.mem_append.1 hy).elim (h.within y) (h'.within y), h'.last⟩

/-! ## One token -/

/-- An arc that halts the expansion has changed no token. -/
theorem store_follow_error (g : Growth) (e : Expansion) (t : Token) (source : State)
    (link : Option Nat) (arc : Arc) :
    Outcome (fun _ => True) (fun h => h.state.store = e.store) (e.follow g t source link arc) := by
  cases ht : g.graph.state? arc.target with
  | none =>
    rw [follow_lost ht]
    rfl
  | some target =>
    obtain ⟨_, memo, -, ⟨-, hx⟩ | ⟨-, -, -, hx⟩ | ⟨-, -, hx⟩⟩ := follow_cases ht e t source link
    · rw [hx]
      trivial
    · rw [hx]
      rfl
    · rw [hx]
      exact Outcome.mapError ((Outcome.trivial _).mono (fun _ _ => trivial) fun _ _ => rfl)

/-- **The arcs of a settled token** leave what is settled as it is. -/
theorem Leads.stays_arcs {source : State} (hl : Leads g base done e c u) (h : Sound g base done e)
    (hs : g.graph.state? u.state = some source) (hid : Settled base done id)
    (ht : e.store.get? id = some t) :
    Outcome
      (fun e' => (∀ m ∈ momentsOver g u source (Store.link g.keepAllTokens c u) source.arcs e,
        m.before.store.get? id = some t) ∧ e'.store.get? id = some t)
      (fun err => (∀ m ∈ momentsOver g u source (Store.link g.keepAllTokens c u) source.arcs e,
        m.before.store.get? id = some t) ∧ err.state.store.get? id = some t)
      (source.arcs.foldlM
        (fun e arc => follow g e u source (Store.link g.keepAllTokens c u) arc) e) := by
  refine (over_rule
    (J := fun log e' => (Sound g base done e' ∧ Leads g base done e' c u) ∧
      (∀ m ∈ log, m.before.store.get? id = some t) ∧ e'.store.get? id = some t)
    (H := fun log err => (∀ m ∈ log, m.before.store.get? id = some t) ∧
      err.state.store.get? id = some t)
    (fun log e arc harc hJ => ?_) ⟨⟨h, hl⟩, fun m hm => (by cases hm), ht⟩).imp fun _ h => h.2
  obtain ⟨⟨h, hl⟩, hlog, ht⟩ := hJ
  obtain ⟨target, htarget, -⟩ := exists_target hs harc
  have hmoments : ∀ m ∈ log ++ (e.moment? g u source arc).toList,
      m.before.store.get? id = some t := by
    intro m hm
    rcases List.mem_append.1 hm with hm | hm
    · exact hlog m hm
    · rw [before_of_mem_moment? hm]
      exact ht
  have hstep : Outcome (fun e' => (Sound g base done e' ∧ Leads g base done e' c u) ∧
      e'.store.get? id = some t) (fun _ => True)
      (e.follow g u source (Store.link g.keepAllTokens c u) arc) :=
    hl.follow_rule h hs harc htarget (fun memo _ => ⟨⟨h.memo memo, hl.memo memo⟩, ht⟩)
      (fun _ _ => trivial) fun memo e' _ h' hl' hstay => ⟨⟨h', hl'⟩, (hstay id hid).trans ht⟩
  refine (hstep.both (store_follow_error g e u source _ arc)).mono
    (fun e' h' => ⟨h'.1.1, hmoments, h'.1.2⟩) fun err herr => ⟨hmoments, ?_⟩
  rw [herr.2]
  exact ht

/-- **Expanding a settled token** leaves what is settled as it is. -/
theorem Sound.taking (h : Sound g base done e) (hc : Settled base done c)
    (hu : e.store.get? c = some u)
    (hlead : ∀ d ∈ done, ∀ t, e.store.get? d = some t → ¬ t.score < u.score)
    (entry : Option Pending) (hid : Settled base done id) (ht : e.store.get? id = some t) :
    Stays id t [e.taking g entry c u] (e.expandToken g c u) := by
  have hboth : Outcome
      (fun e' => (∀ m ∈ e.momentsOfToken g c u, m.before.store.get? id = some t) ∧
        e'.store.get? id = some t)
      (fun err => (∀ m ∈ e.momentsOfToken g c u, m.before.store.get? id = some t) ∧
        err.state.store.get? id = some t)
      (e.expandToken g c u) := by
    rcases h.taking_cases hc hu hlead with
      ⟨-, hnone, hx⟩ | ⟨-, hnone, hx⟩ | ⟨hl, -, source, hs, htried, hx⟩
    · rw [hnone, hx]
      exact ⟨fun m hm => (by cases hm), ht⟩
    · rw [hnone, hx]
      exact ⟨fun m hm => (by cases hm), ht⟩
    · rw [htried, hx]
      exact hl.stays_arcs h hs hid ht
  exact outcome_iff.1 (hboth.mono (fun _ h => .single ht h.1 h.2) fun _ h => .single ht h.1 h.2)

/-- **One more token** that is expanded leaves what is settled as it is. -/
theorem Stays.take (hlog : Stays id t log (.ok e₀)) (h : Sound g base done e)
    (hstore : e.store = e₀.store) (hc : Settled base done c) (hu : e.store.get? c = some u)
    (hlead : ∀ d ∈ done, ∀ t, e.store.get? d = some t → ¬ t.score < u.score)
    (entry : Option Pending) (hid : Settled base done id) :
    Stays id t (log ++ [e.taking g entry c u]) (e.expandToken g c u) := by
  have hnow : e.store.get? id = some t := hstore ▸ hlog.last
  exact hlog.append (h.taking hc hu hlead entry hid hnow)

/-! ## The order -/

/-- **The entry that is taken from the queue** has the score that its token has: that entry is in the
queue, and nothing is taken before it that is not worse than the token. -/
theorem Sound.popped_eq {p : Pending} {rest : List Pending} (h : Sound g base done e)
    (hq : e.queue.dropWhile e.isStale = p :: rest) (ht : e.store.get? p.token = some t) :
    p = ⟨t.score, p.token⟩ := by
  obtain ⟨hmem, -, hno⟩ := popped_mem hq ht
  obtain ⟨hb, u, hu, hk, hle⟩ := h.queued p hmem
  cases ht.symm.trans hu
  obtain ⟨-, skipped, hqueue, hskip⟩ := dropWhile_eq_cons hq
  have hw := h.waiting p.token t hb ht hk hno
  have hge : t.score.rank ≤ p.score.rank := by
    rw [hqueue, List.mem_append, List.mem_cons] at hw
    rcases hw with hw | hw | hw
    · have hstale := hskip _ hw
      rw [isStale_eq (p := ⟨t.score, p.token⟩) ht] at hstale
      exact absurd (by simpa using hstale) hno
    · rw [← hw]
    · have hsorted := h.sorted
      rw [hqueue, List.pairwise_append, List.pairwise_cons] at hsorted
      have hpq := hsorted.2.1.1 _ hw
      simp only [Pending.notAfter, decide_eq_true_eq] at hpq
      omega
  rw [← Score.rank_inj (le_antisymm hle hge)]

/-- **Tokens that were taken in order.**  They are settled, and stay from the time when they are
taken. -/
structure Ranked (base : Store) (log : List Taking) (out : Except (Halted Expansion) Expansion) :
    Prop where
  current : ∀ y ∈ log, ∀ p ∈ y.entry, p = ⟨y.token.score, y.id⟩
  falling : (log.filterMap Taking.entry).Pairwise fun p q => ¬ p.score < q.score
  stays : ∀ earlier y later, log = earlier ++ y :: later → Stays y.id y.token (y :: later) out
  settled : ∀ y ∈ log, y.id < base.size ∨ y.id ∈ drawn log ∧ y.token.kind.isEmitting = false

/-- What stays from the time when it is taken is at the end what it was then. -/
theorem last_of_stays
    (h : ∀ earlier y later, log = earlier ++ y :: later → Stays y.id y.token (y :: later) x)
    {y : Taking} (hy : y ∈ log) :
    Outcome (fun e => e.store.get? y.id = some y.token)
      (fun err => err.state.store.get? y.id = some y.token) x := by
  obtain ⟨earlier, later, hsplit⟩ := List.append_of_mem hy
  exact (h earlier y later hsplit).last

theorem mem_drawn : c ∈ drawn log ↔ ∃ y ∈ log, ∃ p ∈ y.entry, p.token = c := by
  unfold drawn
  simp only [List.mem_reverse, List.mem_map, List.mem_filterMap, Option.mem_def]
  constructor
  · rintro ⟨p, ⟨y, hy, hp⟩, hc⟩
    exact ⟨y, hy, p, hp, hc⟩
  · rintro ⟨y, hy, p, hp, hc⟩
    exact ⟨p, ⟨y, hy, hp⟩, hc⟩

theorem mem_drawn_append (h : c ∈ drawn log) (later : List Taking) : c ∈ drawn (log ++ later) := by
  obtain ⟨y, hy, hc⟩ := mem_drawn.1 h
  exact mem_drawn.2 ⟨y, List.mem_append_left later hy, hc⟩

theorem Ranked.nil (e : Expansion) : Ranked base [] (.ok e) :=
  ⟨fun _ hy => (by cases hy), .nil, fun _ _ _ h => (by simp at h), fun _ hy => by cases hy⟩

/-- **One more token.** -/
theorem Ranked.take (hlog : Ranked base log (.ok e₀)) {entry : Option Pending}
    (h : Sound g base (drawn (log ++ [e.taking g entry c u])) e) (hstore : e.store = e₀.store)
    (hu : e.store.get? c = some u)
    (hlead : ∀ d ∈ drawn (log ++ [e.taking g entry c u]), ∀ t, e.store.get? d = some t →
      ¬ t.score < u.score)
    (hentry : ∀ p ∈ entry, p = ⟨u.score, c⟩)
    (hc : c < base.size ∨
      c ∈ drawn (log ++ [e.taking g entry c u]) ∧ u.kind.isEmitting = false) :
    Ranked base (log ++ [e.taking g entry c u]) (e.expandToken g c u) := by
  have hold : ∀ y ∈ log, y.id < base.size ∨
      y.id ∈ drawn (log ++ [e.taking g entry c u]) ∧ y.token.kind.isEmitting = false := fun y hy =>
    (hlog.settled y hy).imp_right fun h => ⟨mem_drawn_append h.1 _, h.2⟩
  have hself : Settled base (drawn (log ++ [e.taking g entry c u])) c := hc.imp_right And.left
  refine ⟨fun y hy p hp => ?_, ?_, fun earlier y later hsplit => ?_, fun y hy => ?_⟩
  · rcases List.mem_append.1 hy with hy | hy
    · exact hlog.current y hy p hp
    · rw [List.mem_singleton.1 hy] at hp ⊢
      exact hentry p hp
  · rw [List.filterMap_append, List.pairwise_append]
    refine ⟨hlog.falling, ?_, fun q hq p hp => ?_⟩
    · cases entry <;> simp [taking]
    · -- what was taken before has the score that it had then
      obtain ⟨y, hy, hyq⟩ := List.mem_filterMap.1 hq
      obtain ⟨z, hz, hzp⟩ := List.mem_filterMap.1 hp
      rw [List.mem_singleton.1 hz] at hzp
      have hq' := hlog.current y hy q hyq
      have hget := last_of_stays hlog.stays hy
      have hmem := mem_drawn_append (mem_drawn.2 ⟨y, hy, q, hyq, rfl⟩) [e.taking g entry c u]
      rw [hentry p hzp]
      rw [hq'] at hmem ⊢
      exact hlead y.id hmem y.token (hstore ▸ hget)
  · rcases List.eq_nil_or_concat later with rfl | ⟨before, z, rfl⟩
    · obtain ⟨-, heq⟩ := List.append_inj' hsplit rfl
      cases heq
      exact h.taking hself hu hlead entry hself hu
    · rw [List.concat_eq_append, ← List.cons_append, ← List.append_assoc] at hsplit
      obtain ⟨hbefore, heq⟩ := List.append_inj' hsplit rfl
      cases heq
      rw [List.concat_eq_append, ← List.cons_append]
      exact (hlog.stays earlier y before hbefore).take h hstore hself hu hlead entry
        ((hold y (by rw [hbefore]; simp)).imp_right And.left)
  · rcases List.mem_append.1 hy with hy | hy
    · exact hold y hy
    · rw [List.mem_singleton.1 hy]
      exact hc

/-! ## A frame -/

/-- **What was there before the frame** stays as it is. -/
theorem stays_rule (hseeds : ∀ c ∈ seeds, c < base.size) (hid : id < base.size) (t : Token) :
    FrameRule g base seeds (fun log e => Stays id t log (.ok e))
      fun log err => Stays id t log (.error err) where
  seed log e e' c u hsound h _ hmem hu ho := by
    have hopen := hsound.opens hu ho
    obtain ⟨expanded, rfl⟩ := ho.eq
    exact outcome_iff.2 (h.take hopen rfl (.inl (hseeds c hmem)) hu (fun _ hd => by cases hd) none
      (.inl hid))
  round log e p rest u hsound h hq hu e' he' := by
    subst he'
    obtain ⟨hpop, hlead⟩ := hsound.pop hq hu
    exact outcome_iff.2 (h.take hpop rfl (.inr (by simp)) hu hlead (some p) (.inl hid))
  clear _ _ h _ := h.clear

theorem Sound.stays_run (h : Sound g base [] e) (hseeds : ∀ c ∈ seeds, c < base.size)
    (hid : id < base.size) (ht : e.store.get? id = some t) :
    Stays id t (e.taken g seeds) (e.run g seeds) :=
  outcome_iff.1 (((stays_rule hseeds hid t).run h hseeds (.nil ht)).imp fun _ h => h.1)

/-- **What is expanded is taken in order.** -/
theorem Ranked.rule (hseeds : ∀ c ∈ seeds, c < base.size) :
    FrameRule g base seeds (fun log e => Ranked base log (.ok e))
      fun log err => Ranked base log (.error err) where
  seed log e e' c u hsound h hnil hmem hu ho := by
    have hopen := hsound.opens hu ho
    obtain ⟨expanded, rfl⟩ := ho.eq
    have hdrawn : drawn (log ++ [taking g { e with expanded } none c u]) = [] := by
      rw [drawn_seed, hnil]
    refine outcome_iff.2 (h.take (hdrawn ▸ hopen) rfl hu (fun d hd => ?_) (fun p hp => by cases hp)
      (.inl (hseeds c hmem)))
    rw [hdrawn] at hd
    cases hd
  round log e p rest u hsound h hq hu e' he' := by
    subst he'
    obtain ⟨hpop, hlead⟩ := hsound.pop hq hu
    have hdrawn := drawn_round log { e with queue := rest, expanded := u.state :: e.expanded } p
      p.token u (g := g)
    have hidle := (hpop.expanded_done p.token (by simp) u hu).1
    refine outcome_iff.2 (h.take (hdrawn ▸ hpop) rfl hu (hdrawn ▸ hlead) (fun q hq' => ?_)
      (.inr ⟨hdrawn ▸ List.mem_cons_self, hidle⟩))
    rw [← Option.mem_some.1 hq']
    exact hsound.popped_eq hq hu
  clear _ _ h _ := ⟨h.current, h.falling, fun earlier y later hsplit =>
    (h.stays earlier y later hsplit).clear, h.settled⟩

/-- What was there before the frame, and what does not emit, is not in the beam that the frame
leaves. -/
theorem Sound.run_not_next (h : Sound g base [] e) (hseeds : ∀ c ∈ seeds, c < base.size)
    (hid : id < base.size ∨ t.kind.isEmitting = false)
    (hlast : Outcome (fun e => e.store.get? id = some t) (fun h => h.state.store.get? id = some t)
      (e.run g seeds)) :
    Outcome (fun e => id ∉ e.next.tokens) (fun h => id ∉ h.state.next.tokens) (e.run g seeds) := by
  have hout : ∀ done (e' : Expansion), Sound g base done e' → e'.store.get? id = some t →
      id ∉ e'.next.tokens := by
    intro done e' he' ht hmem
    obtain ⟨hb, u, hu, hemits⟩ := (he'.mem_next id).1 hmem
    cases ht.symm.trans hu
    rcases hid with hid | hidle
    · omega
    · rw [hidle] at hemits
      cases hemits
  exact ((h.run hseeds).both hlast).mono (fun e' ⟨⟨done, he', _⟩, ht⟩ => hout done e' he' ht)
    fun err ⟨⟨_, done, he'⟩, ht⟩ => hout done err.state he' ht

/-- **A frame expands its tokens in order.** -/
theorem Sound.orderly (h : Sound g base [] e) (hseeds : ∀ c ∈ seeds, c < base.size) :
    Orderly (e.taken g seeds) (e.run g seeds) := by
  have hranked := outcome_iff.1 (((Ranked.rule hseeds).run h hseeds (.nil e)).imp fun _ h => h.1)
  refine ⟨hranked.current, hranked.falling.imp fun {p q} hpq => ?_, hranked.stays, fun y hy => ?_⟩
  · exact ⟨hpq, fun hp hq => Score.le_of_not_lt hq hp hpq⟩
  · exact h.run_not_next hseeds ((hranked.settled y hy).imp_right And.right)
      (last_of_stays hranked.stays hy)

end Expansion

end SpeechDecoder
