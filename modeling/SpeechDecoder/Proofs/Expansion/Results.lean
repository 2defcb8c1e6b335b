import SpeechDecoder.Proofs.Expansion.Led

/-!
# The results of an expansion

Following arcs changes no result; a token becomes one when it is expanded and stands on a final
state.  It is expanded once, with the score that it ends with, and what is expanded later is no
better.

* `lasts_follow` is an arc, and `told_run` says that the results of a frame are stored.
* `Roll` is the invariant: in which order tokens were taken from the queue, which of them are
  results, and what the marked states are marked for.
* `Posted` says what the results amount to: they are the tokens on the final states that were
  reached, each of them once, by falling scores.  `posted_run` is the theorem about a frame.
-/

namespace SpeechDecoder.Expansion

variable {g : Growth} {e e' e'' : Expansion}

/-- **What an arc leaves of the results:** they stay, and so do the tokens. -/
def Lasts (e e' : Expansion) : Prop := e'.results = e.results ∧ e.store.size ≤ e'.store.size

theorem Lasts.trans (h : e.Lasts e') (h' : e'.Lasts e'') : e.Lasts e'' :=
  ⟨h'.1.trans h.1, h.2.trans h'.2⟩

/-- The results are stored. -/
def Told (e : Expansion) : Prop := ∀ id ∈ e.results, id < e.store.size

theorem Told.lasts (h : e.Told) (hl : e.Lasts e') : e'.Told := fun id hid =>
  Nat.lt_of_lt_of_le (h id (hl.1 ▸ hid)) hl.2

theorem lasts_follow (g : Growth) (e : Expansion) (t : Token) (source : State) (link : Option Nat)
    (arc : Arc) : Outcome e.Lasts (fun h => e.Lasts h.state) (e.follow g t source link arc) := by
  cases ht : g.graph.state? arc.target with
  | none =>
    rw [follow_lost ht]
    exact ⟨rfl, le_rfl⟩
  | some target =>
    obtain ⟨_, memo, -, ⟨-, hx⟩ | ⟨-, -, -, hx⟩ | ⟨-, -, hx⟩⟩ := follow_cases ht e t source link
    · rw [hx]
      exact ⟨rfl, le_rfl⟩
    · rw [hx]
      exact ⟨rfl, le_rfl⟩
    · have hmemo : e.Lasts { e with memo } := ⟨rfl, le_rfl⟩
      rw [hx]
      exact Outcome.mapError ((arrive_keeps g { e with memo } link arc target.kind _).mono
        (fun _ h => hmemo.trans ⟨h.2.1, h.2.2.2⟩) fun _ _ => hmemo)

/-- **A token that is expanded** is a result if it is final. -/
theorem told_expandToken (h : e.Told) {id : Nat} {t : Token} (ht : e.store.get? id = some t) :
    Outcome Told (fun h => h.state.Told) (e.expandToken g id t) := by
  rcases expandToken_cases g e id t with
    ⟨-, hx⟩ | ⟨-, -, -, hx⟩ | ⟨-, -, ⟨-, hx⟩ | ⟨source, -, hx⟩⟩
  · rw [hx]
    intro x hmem
    rcases List.mem_append.1 hmem with hmem | hmem
    · exact h x hmem
    · rw [List.mem_singleton.1 hmem]
      exact Store.lt_size_of_get? ht
  · rw [hx]
    exact h
  · rw [hx]
    exact h
  · rw [hx]
    exact Outcome.foldlM (I := Told) (fun e' arc _ h' =>
      (lasts_follow g e' t _ _ arc).mono (fun _ hl => h'.lasts hl) fun _ hl => h'.lasts hl) e h

theorem told_expandSeed (h : e.Told) (id : Nat) :
    Outcome Told (fun h => h.state.Told) (e.expandSeed g id) := by
  cases ht : e.store.get? id with
  | none =>
    rw [expandSeed_lost ht g]
    exact h
  | some t =>
    rcases expandSeed_cases ht g with ⟨-, -, hx⟩ | ⟨e', ho, hx⟩
    · rw [hx]
      exact h
    · obtain ⟨expanded, rfl⟩ := ho.eq
      rw [hx]
      exact told_expandToken (e := { e with expanded }) h ht

/-- The rounds of a frame, by induction on their number. -/
theorem told_drain : ∀ (rounds : Nat) {e : Expansion}, e.Told →
    Outcome Told (fun h => h.state.Told) (e.drain g rounds)
  | 0, _, h => h
  | rounds + 1, e, h => by
    unfold Expansion.drain
    split
    · exact h
    · next p rest _ =>
      split
      · exact h
      · next t ht =>
        exact (told_expandToken
          (e := { e with queue := rest, expanded := t.state :: e.expanded }) h ht).bind
            fun _ h' => told_drain rounds h'

/-- **The results of a frame are stored.** -/
theorem told_run (h : e.Told) (seeds : List Nat) :
    Outcome Told (fun h => h.state.Told) (e.run g seeds) :=
  (Outcome.foldlM (I := Told) (fun _ id _ h' => told_expandSeed h' id) e h).bind
    fun _ h' => told_drain _ h'

theorem results_expandToken (g : Growth) (e : Expansion) (id : Nat) (t : Token) :
    Outcome (fun e' => e'.results = e.results ++ if t.kind.isFinal then [id] else [])
      (fun _ => True) (e.expandToken g id t) := by
  rcases expandToken_cases g e id t with
    ⟨hfinal, hx⟩ | ⟨hfinal, -, -, hx⟩ | ⟨hfinal, -, ⟨-, hx⟩ | ⟨source, -, hx⟩⟩
  · rw [hx, hfinal]
    exact rfl
  · rw [hx, hfinal]
    exact (List.append_nil _).symm
  · rw [hx]
    trivial
  · rw [hx, hfinal]
    refine (Outcome.foldlM (I := fun e' => e'.results = e.results) (fun e' arc _ he' =>
      (lasts_follow g e' t _ _ arc).mono (fun _ hl => hl.1.trans he') fun _ _ => trivial) e rfl).imp ?_
    exact fun e' he' => he'.trans (List.append_nil _).symm

/-! ## The order of a frame -/

/-- Whether a token stands on a final state. -/
def ends (a : Store) (id : Nat) : Bool := (a.get? id).any fun t => t.kind.isFinal

variable {base : Store} {seeds done : List Nat} {c id : Nat} {t u : Token}

theorem ends_iff {a : Store} : ends a id = true ↔ ∃ t, a.get? id = some t ∧ t.kind.isFinal = true := by
  unfold ends
  cases a.get? id <;> simp

theorem score_of_get? {a : Store} (h : a.get? id = some t) : a.score id = t.score := by
  unfold Store.score
  rw [h]

/-- **What was taken from the queue,** the latest first. -/
structure Roll (g : Growth) (base : Store) (seeds done : List Nat) (e : Expansion) : Prop where
  sound : Sound g base done e
  nodup : done.Nodup
  /-- What was taken later is no better. -/
  falling : done.Pairwise fun c d => ¬ e.store.score d < e.store.score c
  /-- A state is marked for a token that was taken from the queue, or for a seed. -/
  opened : ∀ s ∈ e.expanded, ∃ c u, e.store.get? c = some u ∧ u.state = s ∧
    (c ∈ done ∨ c ∈ seeds ∧ c < base.size)

/-- The final ones of them are the results, in the order in which they were taken. -/
def Listed (done : List Nat) (e : Expansion) : Prop :=
  e.results = (done.filter (ends e.store)).reverse

/-- **Expanding a settled token** leaves everything settled where it is. -/
theorem Roll.expandToken (h : Roll g base seeds done e) (hc : Settled base done c)
    (hu : e.store.get? c = some u)
    (hlead : ∀ d ∈ done, ∀ t, e.store.get? d = some t → ¬ t.score < u.score) :
    Outcome (fun e' => Roll g base seeds done e' ∧
        done.filter (ends e'.store) = done.filter (ends e.store) ∧
        e'.results = e.results ++ if u.kind.isFinal then [c] else []) (fun _ => True)
      (e.expandToken g c u) := by
  have hexpand := ((h.sound.expandToken_stay hc hu hlead).and
    (expanded_expandToken g e c u)).and (results_expandToken g e c u)
  refine hexpand.imp ?_
  rintro e' ⟨⟨⟨hsound, hstay⟩, hexpanded⟩, hresults⟩
  refine ⟨⟨hsound, h.nodup, h.falling.imp_of_mem fun {c d} hc hd hcd => ?_, fun s hs => ?_⟩,
    List.filter_congr fun d hd => ?_, hresults⟩
  · unfold Store.score
    rw [hstay c (.inr hc), hstay d (.inr hd)]
    exact hcd
  · obtain ⟨c, u, hu, hst, hc⟩ := h.opened s (hexpanded ▸ hs)
    exact ⟨c, u, (hstay c (hc.elim .inr fun hc => .inl hc.2)).trans hu, hst, hc⟩
  · unfold ends
    rw [hstay d (.inr hd)]

/-- **Taking the best entry of the queue.** -/
theorem Roll.pop (h : Roll g base seeds done e) {p : Pending} {rest : List Pending}
    (hq : e.queue.dropWhile e.isStale = p :: rest) (ht : e.store.get? p.token = some t) :
    Roll g base seeds (p.token :: done)
      { e with queue := rest, expanded := t.state :: e.expanded } := by
  obtain ⟨hpop, hlead⟩ := h.sound.pop hq ht
  obtain ⟨-, -, hno⟩ := popped_mem hq ht
  refine ⟨hpop, List.nodup_cons.2 ⟨fun hmem => ?_, h.nodup⟩,
    List.pairwise_cons.2 ⟨fun d hd => ?_, h.falling⟩, fun s hs => ?_⟩
  · exact hno (h.sound.expanded_done _ hmem t ht).2
  · obtain ⟨u, -, hu⟩ := h.sound.chained.mem d hd
    rw [score_of_get? hu, score_of_get? ht]
    exact hlead d (List.mem_cons_of_mem _ hd) u hu
  · rcases List.mem_cons.1 hs with rfl | hs
    · exact ⟨p.token, t, ht, rfl, .inl (by simp)⟩
    · obtain ⟨c, u, hu, hst, hc⟩ := h.opened s hs
      exact ⟨c, u, hu, hst, hc.imp_left (List.mem_cons_of_mem _)⟩

/-- **Expanding a seed.** -/
theorem Roll.seed (h : Roll g base seeds [] e) (hid : id ∈ seeds) (hlt : id < base.size)
    (ht : e.store.get? id = some t) (ho : Opens e t e') :
    Outcome (fun e'' => Roll g base seeds [] e'' ∧
        e''.results = e.results ++ if t.kind.isFinal then [id] else []) (fun _ => True)
      (e'.expandToken g id t) := by
  have hroll : Roll g base seeds [] e' := by
    refine ⟨h.sound.opens ht ho, .nil, .nil, ?_⟩
    cases ho with
    | emitting _ => exact h.opened
    | idle _ _ =>
      intro s hs
      rcases List.mem_cons.1 hs with rfl | hs
      · exact ⟨id, t, ht, rfl, .inr ⟨hid, hlt⟩⟩
      · exact h.opened s hs
  have hkept : e'.store = e.store ∧ e'.results = e.results := by cases ho <;> exact ⟨rfl, rfl⟩
  refine (hroll.expandToken (.inl hlt) (hkept.1 ▸ ht) fun _ hd => by cases hd).imp ?_
  exact fun e'' h'' => ⟨h''.1, hkept.2 ▸ h''.2.2⟩

theorem Roll.start (hfits : Fits g.graph base) (widths : BeamWidths) (lattice : Lattice)
    (memo : PenaltyMemo) :
    Roll g base seeds [] (Expansion.start base (.empty widths) lattice memo) :=
  ⟨.start hfits widths lattice memo, .nil, .nil, fun _ hs => by cases hs⟩

theorem Roll.clear (h : Roll g base seeds done e) (hq : e.queue.dropWhile e.isStale = []) :
    Roll g base seeds done { e with queue := [] } :=
  ⟨h.sound.clear hq, h.nodup, h.falling, h.opened⟩

/-- **The order of a frame.** -/
theorem Roll.rule (hseeds : ∀ c ∈ seeds, c < base.size) :
    FrameRule g base seeds (fun log e => Roll g base seeds (drawn log) e) fun _ _ => True where
  seed log e e' id t _ h hnil hid ht ho := by
    rw [hnil] at h
    simp only [drawn_seed, hnil]
    exact (h.seed hid (hseeds id hid) ht ho).imp fun _ h => h.1
  round log e p rest t hsound h hq ht e' he' := by
    subst he'
    simp only [drawn_round]
    exact ((h.pop hq ht).expandToken (.inr (by simp)) ht (hsound.pop hq ht).2).imp fun _ h => h.1
  clear _ _ h hq := h.clear hq

/-- **The results of a frame,** if no seed is on a final state. -/
theorem Listed.rule (hseeds : ∀ c ∈ seeds, c < base.size ∧ ends base c = false) :
    FrameRule g base seeds (fun log e => Roll g base seeds (drawn log) e ∧ Listed (drawn log) e)
      fun _ _ => True where
  seed log e e' id t _ h hnil hid ht ho := by
    obtain ⟨hlt, hends⟩ := hseeds id hid
    -- the seed is no result
    have hfinal : t.kind.isFinal = false := by
      rw [← Bool.not_eq_true]
      intro hf
      rw [ends_iff.2 ⟨t, h.1.sound.old id hlt ▸ ht, hf⟩] at hends
      cases hends
    rw [hnil] at h
    simp only [drawn_seed, hnil]
    refine (h.1.seed hid hlt ht ho).imp fun e'' h'' => ⟨h''.1, ?_⟩
    unfold Listed
    rw [h''.2, hfinal, h.2]
    rfl
  round log e p rest t hsound h hq ht e' he' := by
    subst he'
    simp only [drawn_round]
    refine ((h.1.pop hq ht).expandToken (.inr (by simp)) ht (hsound.pop hq ht).2).imp ?_
    rintro e' ⟨h', hfilter, hresults⟩
    refine ⟨h', ?_⟩
    have hends : ends e.store p.token = t.kind.isFinal := by
      unfold ends
      rw [ht, Option.any_some]
    unfold Listed
    rw [hfilter, hresults, h.2, List.filter_cons, hends]
    split
    · exact (List.reverse_cons ..).symm
    · exact List.append_nil _
  clear _ _ h hq := ⟨h.1.clear hq, h.2⟩

/-! ## What the results amount to -/

/-- A token that stands on a final state. -/
def Reaches (graph : Graph) (on : Nat → Option Nat) (id : Nat) : Prop :=
  ∃ s st, graph.state? s = some st ∧ st.kind.isFinal = true ∧ on s = some id

/-- **The results are the tokens on final states,** each of them once and by falling scores. -/
structure Posted (graph : Graph) (a : Store) (on : Nat → Option Nat) (results : List Nat) :
    Prop where
  mem : ∀ id, id ∈ results ↔ Reaches graph on id
  nodup : results.Nodup
  falling : results.Pairwise fun x y => ¬ a.score x < a.score y
  stored : ∀ id ∈ results, ∃ t, a.get? id = some t ∧ t.kind.isFinal = true

/-- **A token that emits nothing is taken from the queue,** unless a seed is on its state. -/
theorem Roll.mem_done (h : Roll g base seeds done e) (hqueue : e.queue = []) (hid : base.size ≤ id)
    (ht : e.store.get? id = some t) (hidle : t.kind.isEmitting = false)
    (hseeds : ∀ c ∈ seeds, ∀ u, base.get? c = some u → u.state ≠ t.state) : id ∈ done := by
  have hopen : t.state ∈ e.expanded := by
    by_contra hno
    have := h.sound.waiting id t hid ht hidle hno
    rw [hqueue] at this
    cases this
  obtain ⟨c, u, hu, hst, hc | ⟨hc, hlt⟩⟩ := h.opened _ hopen
  · obtain ⟨_, hnew, -⟩ := h.sound.chained.mem c hc
    have hres := h.sound.resident_of c u hnew hu
    rw [hst, h.sound.resident_of id t hid ht] at hres
    exact Option.some.inj hres ▸ hc
  · exact absurd hst (hseeds c hc u (h.sound.old c hlt ▸ hu))

/-- **The results of a frame** that no seed on a final state starts. -/
theorem posted_run (hfits : Fits g.graph base) (widths : BeamWidths) (lattice : Lattice)
    (memo : PenaltyMemo) (hseeds : ∀ c ∈ seeds, c < base.size ∧ ends base c = false) :
    Outcome (fun e => Posted g.graph e.store e.resident? e.results) (fun _ => True)
      ((Expansion.start base (.empty widths) lattice memo).run g seeds) := by
  refine ((Listed.rule hseeds).run (.start hfits widths lattice memo) (fun c hc => (hseeds c hc).1)
    ⟨.start hfits widths lattice memo, rfl⟩).imp ?_
  rintro e ⟨⟨h, hlisted⟩, -, hqueue⟩
  have hmem : ∀ id, id ∈ e.results ↔ id ∈ drawn _ ∧ ends e.store id = true := fun id => by
    rw [hlisted, List.mem_reverse, List.mem_filter]
  refine ⟨fun id => ⟨fun hid => ?_, ?_⟩, ?_, ?_, fun id hid => ends_iff.1 ((hmem id).1 hid).2⟩
  · obtain ⟨hdone, hends⟩ := (hmem id).1 hid
    obtain ⟨t, ht, hfinal⟩ := ends_iff.1 hends
    obtain ⟨_, hnew, -⟩ := h.sound.chained.mem id hdone
    obtain ⟨st, hst, hkind⟩ := h.sound.fits id t ht
    exact ⟨t.state, st, hst, hkind ▸ hfinal, h.sound.resident_of id t hnew ht⟩
  · rintro ⟨s, st, hs, hfinal, hon⟩
    obtain ⟨hid, t, ht, rfl⟩ := h.sound.resident_new s id hon
    obtain ⟨st', hst', hkind⟩ := h.sound.fits id t ht
    rw [hs] at hst'
    cases hst'
    have hends : t.kind.isFinal = true := hkind ▸ hfinal
    refine (hmem id).2 ⟨h.mem_done hqueue hid ht (StateKind.isEmitting_of_isFinal hends)
      fun c hc u hu hst => ?_, ends_iff.2 ⟨t, ht, hends⟩⟩
    -- a seed on this state would be on a final state
    obtain ⟨st', hst', hkind'⟩ := hfits c u hu
    rw [hst, hs] at hst'
    cases hst'
    have hno := (hseeds c hc).2
    rw [ends_iff.2 ⟨u, hu, hkind' ▸ hfinal⟩] at hno
    cases hno
  · rw [hlisted, List.nodup_reverse]
    exact h.nodup.filter _
  · rw [hlisted, List.pairwise_reverse]
    exact h.falling.filter _

end SpeechDecoder.Expansion
