import SpeechDecoder.Proofs.Expansion.Results
import SpeechDecoder.Proofs.Expansion.Roster
import SpeechDecoder.Proofs.Expansion.Taken
import SpeechDecoder.Proofs.Score.Greatest

/-!
# The word beam

A word is led on unless it is too far below the best word so far, and more words may be reached
after that was decided.  Still it is as if the best word of the whole frame had been known: words
are taken from the queue by falling scores, and no arc raises a score, so once a word has been
taken, none that arrives later is better than the best one so far (`Judged.late`).

* `Judged` is the invariant, for the words that the trace of the frame lists; `Judged.arrive` and
  `Judged.expandToken` carry it through an arrival and the expansion of a token, and `Judged.rule`
  through a frame.
* `Judged.isPoor_eq` says that a word was judged as the best word of the whole frame would have it,
  and `filter_taken` that the trace lists it once.
* `led_words` is the theorem about a frame: which arcs the trace lists with a word.
-/

namespace SpeechDecoder.Expansion

variable {g : Growth} {base : Store} {seeds done : List Nat} {log : List Taking}
  {e e' : Expansion} {c id : Nat} {t u : Token}

/-! ## Arrivals -/

/-- **What an arrival writes:** nothing, or the token on its state, which is new or was worse. -/
theorem Sound.arrive_writes (h : Sound g base done e) {link : Option Nat} {arc : Arc}
    {target : State} {score : Score} (ht : g.graph.state? arc.target = some target)
    (he : e.arrive g link arc target.kind score = .ok e') :
    (∀ id, e'.store.get? id = e.store.get? id) ∧ e'.bestWord = e.bestWord ∨
      ∃ id t, base.size ≤ id ∧ t.kind = target.kind ∧ t.score = score ∧
        (∀ old, e.store.get? id = some old → old.kind = target.kind ∧ old.score < score) ∧
        (∀ x, e'.store.get? x = if x = id then some t else e.store.get? x) ∧
        e'.bestWord = raised e.bestWord target.kind score := by
  rcases h.arrive_cases ht he with ⟨-, rfl⟩ | ⟨id, t, -, hid, hget, -, hkind, rfl⟩
  · rw [store_settle, bestWord_settle]
    split_ifs with hadm
    · have hw := StateKind.isWord_of_isEmitting (Bool.and_eq_true_iff.1 hadm).1
      exact .inl ⟨fun _ => rfl, raised_of_not_isWord hw _ _⟩
    · refine .inr ⟨e.store.size, _, h.size_le, rfl, rfl, fun old hold => ?_,
        fun x => Store.get?_push _ _ _, rfl⟩
      exact absurd (Store.lt_size_of_get? hold) (lt_irrefl _)
  · rw [store_contest, bestWord_contest]
    split_ifs with hlt
    · refine .inr ⟨id, t.rerouted link arc score g.frame, hid, hkind, rfl, fun old hold => ?_,
        fun x => ?_, rfl⟩
      · rw [hget] at hold
        cases hold
        exact ⟨hkind, hlt⟩
      · rw [Store.get?_set, if_pos (Store.lt_size_of_get? hget)]
        simp only [eq_comm]
    · exact .inl ⟨fun _ => rfl, rfl⟩

/-! ## The invariant -/

/-- **A word of the frame** with a score. -/
def WordScore (base a : Store) (x : Score) : Prop :=
  ∃ id t, base.size ≤ id ∧ a.get? id = some t ∧ t.kind.isWord = true ∧ t.score = x

/-- **The invariant:** the words that were taken from the queue were judged by the best word, whatever
was reached since. -/
structure Judged (g : Growth) (base : Store) (done : List Nat) (log : List Taking) (e : Expansion) :
    Prop where
  sound : Sound g base done e
  finite : ∀ id t, base.size ≤ id → e.store.get? id = some t → t.score < Score.infinity
  below : ∀ x, WordScore base e.store x → x ≤ e.bestWord
  attained : e.bestWord = .impossible ∨ WordScore base e.store e.bestWord
  judged : ∀ x ∈ log, ∀ p ∈ x.entry, x.id ∈ done ∧ e.store.get? x.id = some x.token ∧
    (x.token.kind.isWord = true → x.before.bestWord = e.bestWord)

theorem Judged.isNumber_bestWord (h : Judged g base done log e) : e.bestWord < Score.infinity := by
  rcases h.attained with hnone | ⟨id, t, hid, ht, -, heq⟩
  · rw [hnone]
    decide
  · rw [← heq]
    exact h.finite id t hid ht

/-- What does not concern the tokens, the best word and the log keeps the invariant. -/
theorem Judged.congr (h : Judged g base done log e) (hsound : Sound g base done e')
    (hstore : e'.store = e.store) (hbest : e'.bestWord = e.bestWord) :
    Judged g base done log e' := by
  refine ⟨hsound, ?_, ?_, ?_, ?_⟩
  · rw [hstore]
    exact h.finite
  · rw [hstore, hbest]
    exact h.below
  · rw [hstore, hbest]
    exact h.attained
  · rw [hstore, hbest]
    exact h.judged

/-- **Once a word has been taken from the queue,** nothing that arrives is better than the best
word so far. -/
theorem Judged.late (h : Judged g base done log e) (hl : Leads g base done e c u)
    (hu : u.score < Score.infinity) {p : Score} (hp : p ≤ .certain) {d : Nat} (hd : d ∈ done)
    (ht : e.store.get? d = some t) (hword : t.kind.isWord = true) :
    ¬ e.bestWord < u.score + p := by
  obtain ⟨-, hnew, -⟩ := h.sound.chained.mem d hd
  have hle : u.score ≤ t.score :=
    Score.le_of_not_lt (Score.isNumber_of_lt_infinity hu)
      (Score.isNumber_of_lt_infinity (h.finite d t hnew ht)) (hl.lead d hd t ht)
  have hsum : u.score + p ≤ u.score :=
    Score.add_le_self (Score.not_lt_of_le hp)
      (Score.isNumber_of_lt_infinity (Score.add_lt_infinity hu hp))
  exact Score.not_lt_of_le
    (Score.le_trans (Score.le_trans hsum hle) (h.below _ ⟨d, t, hnew, ht, hword, rfl⟩))

/-- **An arrival.** -/
theorem Judged.arrive (h : Judged g base done log e) (hl : Leads g base done e c u)
    (hu : u.score < Score.infinity) {arc : Arc} {target : State}
    (harc : arc.probability ≤ .certain) (ht : g.graph.state? arc.target = some target)
    {link : Option Nat}
    (he : e.arrive g link arc target.kind (u.score + arc.probability) = .ok e')
    (hsound : Sound g base done e')
    (hstay : ∀ d, Settled base done d → e'.store.get? d = e.store.get? d) :
    Judged g base done log e' := by
  have hfinite := Score.add_lt_infinity hu harc
  have hnumber := Score.isNumber_of_lt_infinity hfinite
  have hbest := Score.isNumber_of_lt_infinity h.isNumber_bestWord
  rcases h.sound.arrive_writes ht he with ⟨hget, heq⟩ | ⟨id, t, hid, hkind, hscore, hold, hget, heq⟩
  · have hstore : e'.store = e.store := Store.ext_get? hget
    exact h.congr hsound hstore heq
  -- the words of the frame are those from before, and the one that arrives if it is a word
  have hwords : ∀ x, WordScore base e'.store x →
      WordScore base e.store x ∨ target.kind.isWord = true ∧ x = u.score + arc.probability := by
    rintro x ⟨d, v, hd, hv, hword, rfl⟩
    rw [hget d] at hv
    split_ifs at hv
    · cases hv
      exact .inr ⟨hkind ▸ hword, hscore⟩
    · exact .inl ⟨d, v, hd, hv, hword, rfl⟩
  have hnew : target.kind.isWord = true →
      WordScore base e'.store (u.score + arc.probability) := fun hword =>
    ⟨id, t, hid, (hget id).trans (if_pos rfl), hkind ▸ hword, hscore⟩
  refine ⟨hsound, fun d v hd hv => ?_, fun x hx => ?_, ?_, fun x hx p hp => ?_⟩
  · rw [hget d] at hv
    split_ifs at hv
    · cases hv
      exact hscore ▸ hfinite
    · exact h.finite d v hd hv
  · rw [heq]
    unfold raised
    rcases hwords x hx with hx | ⟨hword, rfl⟩
    · split_ifs with hr
      · rw [Bool.and_eq_true, decide_eq_true_eq] at hr
        exact Score.le_trans (h.below x hx) (Score.le_of_lt hr.2)
      · exact h.below x hx
    · rw [hword, Bool.true_and]
      split_ifs with hr
      · exact Score.le_rfl hnumber
      · exact Score.le_of_not_lt hnumber hbest (by simpa using hr)
  · rw [heq]
    unfold raised
    split_ifs with hr
    · exact .inr (hnew (Bool.and_eq_true_iff.1 hr).1)
    · refine h.attained.imp_right ?_
      rintro ⟨d, v, hd, hv, hword, hvbest⟩
      -- the best word is another one, since it was not raised
      have hne : d ≠ id := by
        rintro rfl
        obtain ⟨hk, hlt⟩ := hold v hv
        rw [← hk, hword, Bool.true_and, ← hvbest, decide_eq_true_eq] at hr
        exact hr hlt
      exact ⟨d, v, hd, (hget d).trans ((if_neg hne).trans hv), hword, hvbest⟩
  · obtain ⟨hd, hv, hjudged⟩ := h.judged x hx p hp
    refine ⟨hd, (hstay x.id (.inr hd)).trans hv, fun hword => (hjudged hword).trans ?_⟩
    rw [heq]
    unfold raised
    rw [if_neg]
    simp [h.late hl hu harc hd hv hword]

/-- **Expanding a settled token.** -/
theorem Judged.expandToken (h : Judged g base done log e)
    (harcs : ∀ source ∈ g.graph.states.toList, ∀ arc ∈ source.arcs, arc.probability.IsNumber)
    (hc : Settled base done c) (hget : e.store.get? c = some u) (hu : u.score < Score.infinity)
    (hlead : ∀ d ∈ done, ∀ t, e.store.get? d = some t → ¬ t.score < u.score) :
    Outcome (Judged g base done log) (fun _ => True) (e.expandToken g c u) := by
  rcases h.sound.expandToken_cases hc hget hlead with
    ⟨-, hx⟩ | ⟨-, -, -, hx⟩ | ⟨hl, -, source, hs, hx⟩
  · rw [hx]
    exact h.congr (h.sound.results _) rfl rfl
  · rw [hx]
    exact h
  · have hmem : source ∈ g.graph.states.toList := Array.mem_def.1 (Array.mem_of_getElem? hs)
    rw [hx]
    refine (hl.arcs_rule (I := fun _ e => Judged g base done log e) h.sound hs ?_ ?_ h).imp
      fun _ h => h.2.2.1
    · exact fun _ _ _ e memo _ _ h => h.congr (h.sound.memo memo) rfl rfl
    · intro _ arc target e memo e' harc ht hsound hl h he hsound' hstay
      obtain ⟨-, -, hp⟩ := exists_target hs harc
      have hmemo : Judged g base done log { e with memo } := h.congr (hsound.memo memo) rfl rfl
      exact hmemo.arrive (hl.memo memo) hu
        (Score.le_of_not_lt (harcs source hmem arc harc) Score.isNumber_certain hp) ht he hsound'
        hstay

/-- **Taking the best entry of the queue:** a word is judged by the best one so far. -/
theorem Judged.pop (h : Judged g base done log e) {p : Pending} {rest : List Pending}
    (hq : e.queue.dropWhile e.isStale = p :: rest) (ht : e.store.get? p.token = some t) :
    Judged g base (p.token :: done)
      (log ++ [taking g { e with queue := rest, expanded := t.state :: e.expanded } (some p) p.token t])
      { e with queue := rest, expanded := t.state :: e.expanded } := by
  refine ⟨(h.sound.pop hq ht).1, h.finite, h.below, h.attained, fun x hx q hxq => ?_⟩
  rcases List.mem_append.1 hx with hx | hx
  · obtain ⟨hd, hv, hjudged⟩ := h.judged x hx q hxq
    exact ⟨List.mem_cons_of_mem _ hd, hv, hjudged⟩
  · rw [List.mem_singleton.1 hx]
    exact ⟨List.mem_cons_self, ht, fun _ => rfl⟩

/-- **The words of a frame.** -/
theorem Judged.rule
    (harcs : ∀ source ∈ g.graph.states.toList, ∀ arc ∈ source.arcs, arc.probability.IsNumber)
    (hseeds : ∀ c ∈ seeds, ∃ u, base.get? c = some u ∧ u.score < Score.infinity) :
    FrameRule g base seeds (fun log e => Judged g base (drawn log) log e) fun _ _ => True where
  seed log e e' id t hsound h hnil hid ht ho := by
    obtain ⟨u, hu, hfinite⟩ := hseeds id hid
    have hlt := Store.lt_size_of_get? hu
    have htu : t = u := by
      rw [hsound.old id hlt, hu] at ht
      exact (Option.some.inj ht).symm
    have hkept : e'.store = e.store ∧ e'.bestWord = e.bestWord := by cases ho <;> exact ⟨rfl, rfl⟩
    rw [hnil] at h
    simp only [drawn_seed, hnil]
    have hopen : Judged g base [] (log ++ [e'.taking g none id t]) e' := by
      refine { h.congr (hsound.opens ht ho) hkept.1 hkept.2 with judged := fun x hx p hp => ?_ }
      rcases List.mem_append.1 hx with hx | hx
      · exact absurd (h.judged x hx p hp).1 List.not_mem_nil
      · rw [List.mem_singleton.1 hx] at hp
        cases hp
    exact hopen.expandToken harcs (.inl hlt) (hkept.1 ▸ ht) (htu ▸ hfinite) fun _ hd => by cases hd
  round log e p rest t hsound h hq ht e' he' := by
    subst he'
    obtain ⟨hnew, -⟩ := hsound.queued p (popped_mem hq ht).1
    simp only [drawn_round]
    exact (h.pop hq ht).expandToken harcs (.inr (by simp)) ht (h.finite _ _ hnew ht)
      (hsound.pop hq ht).2
  clear _ _ h hq := h.congr (h.sound.clear hq) rfl rfl

theorem Judged.start (hfits : Fits g.graph base) (widths : BeamWidths) (lattice : Lattice)
    (memo : PenaltyMemo) :
    Judged g base [] [] (Expansion.start base (.empty widths) lattice memo) := by
  have hnone : ∀ id t, base.size ≤ id → base.get? id ≠ some t := fun id t hid ht =>
    absurd (Store.lt_size_of_get? ht) (Nat.not_lt.2 hid)
  refine ⟨.start hfits widths lattice memo, fun id t hid ht => absurd ht (hnone id t hid), ?_,
    .inl rfl, fun _ h => by cases h⟩
  rintro x ⟨id, t, hid, ht, -⟩
  exact absurd ht (hnone id t hid)

/-! ## The theorem -/

/-- **A word that was taken from the queue** was not too poor if its score is within the margin of the
best word, whatever was reached since. -/
theorem Judged.isPoor_eq (h : Judged g base done log e) (hmargin : g.wordMargin ≤ .certain)
    {x : Taking} {p : Pending} (hx : x ∈ log) (hp : p ∈ x.entry)
    (hword : x.token.kind.isWord = true) :
    x.before.isPoor g x.token = true ↔ ¬ e.bestWord + g.wordMargin ≤ x.token.score := by
  obtain ⟨hdone, hget, hbest⟩ := h.judged x hx p hp
  obtain ⟨_, hnew, -⟩ := h.sound.chained.mem x.id hdone
  have hnumber := Score.isNumber_of_lt_infinity (h.finite x.id x.token hnew hget)
  have hsum := Score.isNumber_of_lt_infinity (Score.add_lt_infinity h.isNumber_bestWord hmargin)
  rw [isPoor_iff, hbest hword, and_iff_right hword]
  exact ⟨fun hlt hle => Score.not_lt_of_le hle hlt, fun hle =>
    not_imp_comm.1 (Score.le_of_not_lt hsum hnumber) hle⟩

/-- **A token that does not emit is expanded once,** as its state is marked from then on. -/
theorem filter_taken {x : Taking} (h : (idleStates (log.map Taking.token)).Nodup)
    (hlog : ∀ y ∈ log, y.id = id → y.token = t) (hidle : t.kind.isEmitting = false) (hx : x ∈ log)
    (hid : x.id = id) : log.filter (fun y => y.id == id) = [x] := by
  have htokens : (log.filter fun y => y.id == id).map Taking.token =
      List.replicate (log.filter fun y => y.id == id).length t :=
    List.map_eq_replicate_iff.2 fun y hy =>
      hlog y (List.mem_filter.1 hy).1 (by simpa using (List.mem_filter.1 hy).2)
  have hsame : idleStates ((log.filter fun y => y.id == id).map Taking.token) =
      List.replicate (log.filter fun y => y.id == id).length t.state := by
    rw [htokens]
    simp [idleStates, hidle]
  have hsub : (idleStates ((log.filter fun y => y.id == id).map Taking.token)).Sublist
      (idleStates (log.map Taking.token)) :=
    ((List.filter_sublist.map _).filter _).map _
  have hle := List.nodup_replicate.1 (hsame ▸ h.sublist hsub)
  have hmem : x ∈ log.filter fun y => y.id == id := List.mem_filter.2 ⟨hx, by simpa using hid⟩
  obtain ⟨y, hy⟩ := List.length_eq_one_iff.1 (le_antisymm hle (List.length_pos_of_mem hmem))
  rw [hy] at hmem ⊢
  rw [List.mem_singleton.1 hmem]

/-- **The word beam goes by the best word of the frame.**  Over a graph whose arcs are numbers, with
a margin that is not positive, and from seeds with scores below infinity, let a frame not be halted.
The trace tells what it does.  A word that the frame creates, and whose state is not that of a seed, is
taken once, with the score that it ends with.  All its arcs are followed then, in their order, if that
score is within the margin of the greatest score of all words that the frame creates, and none of them
if it is not. -/
theorem led_words (g : Growth) (base : Store) (seeds : List Nat) (widths : BeamWidths)
    (lattice : Lattice) (memo : PenaltyMemo) (e : Expansion)
    (harcs : ∀ source ∈ g.graph.states.toList, ∀ arc ∈ source.arcs, arc.probability.IsNumber)
    (hmargin : g.wordMargin ≤ .certain) (hfits : Fits g.graph base)
    (hseeds : ∀ c ∈ seeds, ∃ u, base.get? c = some u ∧ u.score < Score.infinity)
    (he : (Expansion.start base (.empty widths) lattice memo).run g seeds = .ok e) :
    let e₀ := Expansion.start base (.empty widths) lattice memo
    Traces g seeds e₀ (e₀.taken g seeds) (.ok e) ∧
    ∃ best, Score.IsMaximum (WordScore base e.store) best ∧
      ∀ id t, base.size ≤ id → e.store.get? id = some t → t.kind.isWord = true →
        (∀ c ∈ seeds, ∀ u, base.get? c = some u → u.state ≠ t.state) →
        ∃ x source, (e₀.taken g seeds).filter (fun y => y.id == id) = [x] ∧ x.token = t ∧
          g.graph.state? t.state = some source ∧
          x.moments.map (fun m => m.trial.arc) =
            if best + g.wordMargin ≤ t.score then source.arcs else [] := by
  intro e₀
  have hold : ∀ c ∈ seeds, c < base.size := fun c hc => by
    obtain ⟨u, hu, -⟩ := hseeds c hc
    exact Store.lt_size_of_get? hu
  have hstart : Sound g base [] e₀ := .start hfits widths lattice memo
  obtain ⟨hroll, hsound, hqueue⟩ :=
    ((Roll.rule hold).run hstart hold (.start hfits widths lattice memo)).of_ok he
  obtain ⟨h, -⟩ :=
    ((Judged.rule harcs hseeds).run hstart hold (.start hfits widths lattice memo)).of_ok he
  have horderly := hstart.orderly hold
  have htraces := traces_run g e₀ seeds
  rw [show e₀.run g seeds = .ok e from he] at horderly htraces
  refine ⟨htraces, e.bestWord, Score.isMaximum_of h.attained h.below, fun id t hid ht hword hstate => ?_⟩
  obtain ⟨hidle, hfinal⟩ := StateKind.idle_of_isWord hword
  -- the token is what it will be from the time when it is taken
  have htoken : ∀ y ∈ e₀.taken g seeds, y.id = id → y.token = t := by
    rintro y hy rfl
    exact Option.some.inj ((last_of_stays horderly.stays hy).symm.trans ht)
  obtain ⟨x, hx, p, hp, hpid⟩ := mem_drawn.1 (hroll.mem_done hqueue hid ht hidle hstate)
  have hxid : x.id = id := by rw [← hpid, horderly.current x hx p hp]
  obtain rfl := htoken x hx hxid
  obtain ⟨source, hs, -⟩ := hsound.fits id x.token ht
  refine ⟨x, source, filter_taken (processed_nodup g e₀ seeds) htoken hidle hx hxid, rfl, hs, ?_⟩
  obtain ⟨e', hx'⟩ := htraces.course.exists_ok x hx
  rw [htraces.course.eq_taking x hx]
  refine (arcs_of_expandToken hfinal hs hx').trans ?_
  by_cases hpoor : x.before.isPoor g x.token = true
  · rw [if_pos hpoor]
    exact (if_neg ((h.isPoor_eq hmargin hx hp hword).1 hpoor)).symm
  · rw [if_neg hpoor]
    exact (if_pos (not_not.1 (mt (h.isPoor_eq hmargin hx hp hword).2 hpoor))).symm

/-- The two words of the relay have the scores -1 and -2.  With a margin of 0.5 the three arcs of the
best one are followed, and the arc of the other one is not. -/
theorem led_words_relay :
    let e₀ := Expansion.start Relay.base (.empty ⟨0, .impossible⟩) (.empty 4) .empty
    ∃ e best, e₀.run Relay.growth [0] = .ok e ∧
      Score.IsMaximum (WordScore Relay.base e.store) best ∧
      best + Relay.growth.wordMargin ≤ Float32.ofBits 0xBF800000 ∧
      ¬ best + Relay.growth.wordMargin ≤ Float32.ofBits 0xC0000000 ∧
      (e₀.taken Relay.growth [0]).map (fun x => (x.id, x.moments.map fun m => m.trial.arc.target)) =
        [(0, [1, 2]), (1, [2, 3, 4]), (4, []), (2, [])] := by
  intro e₀
  obtain ⟨e, he, htokens⟩ := exists_of_any (x := e₀.run Relay.growth [0])
    (p := fun e => e.store.get? 1 = some ⟨1, .word 0, Float32.ofBits 0xBF800000, .certain, .certain,
        .certain, 0, some 0⟩ ∧
      e.store.get? 2 = some ⟨2, .word 1, Float32.ofBits 0xC0000000, .certain, .certain, .certain, 0,
        some 1⟩) (by decide +kernel)
  obtain ⟨hfirst, hsecond⟩ := of_decide_eq_true htokens
  have htrace : (e₀.taken Relay.growth [0]).map
      (fun x => (x.id, x.moments.map fun m => m.trial.arc.target)) =
        [(0, [1, 2]), (1, [2, 3, 4]), (4, []), (2, [])] := by decide +kernel
  have htargets : ∀ x id, (e₀.taken Relay.growth [0]).filter (fun y => y.id == id) = [x] →
      (id, (x.moments.map fun m => m.trial.arc).map Arc.target) ∈
        [(0, [1, 2]), (1, [2, 3, 4]), (4, []), (2, [])] := by
    intro x id hx
    obtain ⟨hmem, hid⟩ := List.mem_filter.1 (hx ▸ List.mem_singleton_self x)
    rw [← htrace, ← eq_of_beq hid, List.map_map]
    exact List.mem_map_of_mem hmem
  have hseed : Relay.base.get? 0 = some (.seed 0 .branch 0) := rfl
  obtain ⟨-, best, hbest, hall⟩ := led_words Relay.growth Relay.base [0] ⟨0, .impossible⟩ (.empty 4)
    .empty e Relay.numbers (by decide) Relay.fits
    (fun c hc => ⟨.seed 0 .branch 0, List.mem_singleton.1 hc ▸ hseed, by decide⟩) he
  have hstate : ∀ s, 0 < s → ∀ c ∈ [0], ∀ u, Relay.base.get? c = some u → u.state ≠ s := by
    intro s hs c hc u hu
    rw [List.mem_singleton.1 hc, hseed] at hu
    cases hu
    exact Nat.ne_of_lt hs
  obtain ⟨x, source, hx, -, -, hmoments⟩ := hall 1 _ le_rfl hfirst rfl (hstate 1 (by decide))
  obtain ⟨y, source', hy, -, hsource', hmoments'⟩ :=
    hall 2 _ (by decide) hsecond rfl (hstate 2 (by decide))
  refine ⟨e, best, he, hbest, by_contra fun hnot => ?_, fun hle => ?_, htrace⟩
  · have hmem := htargets x 1 hx
    rw [hmoments, if_neg hnot] at hmem
    revert hmem
    decide
  · have hmem := htargets y 2 hy
    rw [hmoments', if_pos hle] at hmem
    cases hsource'
    revert hmem
    decide

end SpeechDecoder.Expansion
