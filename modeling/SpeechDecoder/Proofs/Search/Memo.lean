import SpeechDecoder.Proofs.Search.Restart
import SpeechDecoder.Proofs.Search.Trials

/-!
# The penalties that are known

The penalties are known by their phones only, while the window moves on; so every turn forgets them,
after the fast match went further and before the window drops its oldest record counts.

* `Asked` lists the phones that were asked for, period by period: a period ends where the penalties
  are forgotten.
* `Billed` is the invariant: what is known are the penalties of the window as it is, one computation
  for every phone of a period; `Billed.stepFrames` carries it through the turns of a call.
* `memo_served` is the theorem about all requests.
-/

namespace SpeechDecoder

/-- **The phones that were asked for** since the start of an utterance. -/
structure Asked where
  /-- In the periods that are over. -/
  earlier : List (List Nat)
  /-- Since the penalties were last forgotten. -/
  now : List Nat
  deriving DecidableEq

namespace Asked

/-- How many phones were asked for, each counted once in a period. -/
def distinct (periods : List (List Nat)) : Nat :=
  (periods.map fun phones => phones.dedup.length).sum

variable (a : Asked)

/-- How many phones were asked for, the current period included. -/
def count : Nat := distinct a.earlier + a.now.dedup.length

/-- A period ends, and a frame asks for some phones. -/
def turn (phones : List Nat) : Asked := ⟨a.earlier ++ [a.now], phones⟩

/-- The turns of a call. -/
def after (turns : List Search) : Asked := turns.foldl (fun a t => a.turn t.framePhones) a

/-- A request to a search. -/
def serve (s : Search) : Request → Asked
  | .penalty p => { a with now := a.now ++ [p] }
  | .call .start => ⟨[], s.opened?.elim [] Search.growPhones⟩
  | .call (.recognize n) => a.after (s.turnsIn n)

theorem distinct_turn (phones : List Nat) : distinct (a.turn phones).earlier = a.count := by
  simp [distinct, turn, count]

end Asked

namespace Search

/-- **What some requests ask for,** one after the other. -/
def asked : Search → List Request → Asked → Asked
  | _, [], a => a
  | s, r :: requests, a => (s.serve r).2.asked requests (a.serve s r)

/-- **What is known is what was asked for:** the penalties of the window, each computed once. -/
structure Billed (a : Asked) (s : Search) : Prop where
  recalls : s.memo.Recalls s.fastMatch.window
  counts : s.memo.Counts (Asked.distinct a.earlier) a.now

variable {s t : Search} {a : Asked}

theorem Billed.computations (h : s.Billed a) : s.memo.computations = a.count := h.counts.eq_dedup

/-- The invariant speaks of the fast match and of the penalties only. -/
theorem Billed.congr (h : s.Billed a) (hfast : t.fastMatch = s.fastMatch) (hmemo : t.memo = s.memo) :
    t.Billed a :=
  ⟨by rw [hfast, hmemo]; exact h.recalls, by rw [hmemo]; exact h.counts⟩

/-- **A turn:** the penalties are forgotten, and the frame asks for those of the new window. -/
theorem Billed.turn (h : s.Billed a) (ha : s.lookAhead = .ok t) :
    t.memo.known = [] ∧ t.memo.computations = a.count ∧
      Outcome (fun r => r.2.Billed (a.turn t.framePhones))
        (fun h => h.state.Billed (a.turn t.framePhones)) t.stepFrame := by
  obtain ⟨fastMatch, -, rfl⟩ := lookAhead_eq_ok ha
  refine ⟨rfl, h.computations, ?_⟩
  have hcounts := (PenaltyMemo.counts_forget s.memo).askAll fastMatch.dropOldest.window
    (framePhones { s with fastMatch := fastMatch.dropOldest, memo := s.memo.forget })
  have hrecalls := (PenaltyMemo.recalls_forget s.memo fastMatch.dropOldest.window).askAll
    (framePhones { s with fastMatch := fastMatch.dropOldest, memo := s.memo.forget })
  rw [h.computations, ← a.distinct_turn (framePhones _), List.nil_append] at hcounts
  have hbilled : ∀ u : Search, u.fastMatch = fastMatch.dropOldest ∧ u.memo = _ →
      u.Billed (a.turn (framePhones _)) := fun u hu =>
    ⟨by rw [hu.1, hu.2]; exact hrecalls, by rw [hu.2]; exact hcounts⟩
  exact (memo_stepFrame _).mono (fun r hr => hbilled r.2 hr) fun err herr => hbilled err.state herr

/-- **What a turn finds** of the phones that were asked for before it. -/
def Cleared (a : Asked) (turns : List Search) : Prop :=
  ∀ i t, turns[i]? = some t →
    t.memo.known = [] ∧ t.memo.computations = (a.after (turns.take i)).count

theorem cleared_cons {turns : List Search} (hknown : t.memo.known = [])
    (hcount : t.memo.computations = a.count) (hrest : Cleared (a.turn t.framePhones) turns) :
    Cleared a (t :: turns) := by
  intro i u hu
  rcases i with _ | i
  · cases hu
    exact ⟨hknown, hcount⟩
  · exact hrest i u hu

/-- **Up to so many turns,** by induction on their number. -/
theorem Billed.stepFrames : ∀ (n : Nat) {s : Search} {a : Asked}, s.Billed a →
    Outcome (fun r => r.2.Billed (a.after (turnsOf n s)))
      (fun h => h.state.Billed (a.after (turnsOf n s))) (stepFrames n s) ∧
    Cleared a (turnsOf n s)
  | 0, _, _, h => ⟨h, fun i t ht => by simp [turnsOf] at ht⟩
  | n + 1, s, a, h => by
    rw [stepFrames_succ]
    unfold turnsOf
    cases ha : s.lookAhead with
    | error err =>
      have hstate : err.state.Billed a := by
        rw [lookAhead_eq] at ha
        split at ha <;> cases ha
        exact h
      exact ⟨hstate, fun i t ht => by simp at ht⟩
    | ok t =>
      obtain ⟨hknown, hcount, hframe⟩ := h.turn ha
      have hlast : Cleared (a.turn t.framePhones) [] := fun i t ht => by simp at ht
      simp only [bind, Except.bind]
      cases hx : t.stepFrame with
      | error err => exact ⟨hframe.of_error hx, cleared_cons hknown hcount hlast⟩
      | ok r =>
        obtain ⟨done, u⟩ := r
        have hu := hframe.of_ok hx
        cases done with
        | true => exact ⟨hu, cleared_cons hknown hcount hlast⟩
        | false =>
          obtain ⟨hrest, hturns⟩ := Billed.stepFrames n hu
          exact ⟨hrest, cleared_cons hknown hcount hturns⟩

/-- **A call that decodes some frames.** -/
theorem Billed.recognize (h : s.Billed a) (n : Nat) :
    (s.perform (.recognize n)).2.Billed (a.after (s.turnsIn n)) ∧ Cleared a (s.turnsIn n) := by
  unfold turnsIn
  cases hi : s.initial with
  | none =>
    refine ⟨perform_recognize ?_, fun i t ht => by simp at ht⟩
    rw [recognize_eq, hi]
    exact h
  | some initial =>
    obtain ⟨hframes, hturns⟩ :=
      Billed.stepFrames n (h.congr (t := { s with streamEnded := false }) rfl rfl)
    rw [Option.isSome_some, if_pos rfl]
    refine ⟨perform_recognize ?_, hi ▸ hturns⟩
    rw [recognize_of_started hi, ← hi]
    exact hframes.bind fun r hr =>
      conclude_outcome _ r hr fun lattice _ _ => hr.congr rfl rfl

/-- **The start of an utterance** forgets the penalties and their count. -/
theorem billed_start (s : Search) (a : Asked) :
    (s.perform .start).2.Billed (a.serve s (.call .start)) := by
  have hempty : ∀ t : Search, t.memo = .empty → t.Billed ⟨[], []⟩ := fun t ht =>
    ⟨ht ▸ PenaltyMemo.recalls_empty _, ht ▸ PenaltyMemo.counts_empty⟩
  refine perform_start ?_
  unfold Asked.serve opened?
  rw [start_eq]
  cases s.fastMatch.reset with
  | error err => exact hempty _ rfl
  | ok fastMatch =>
    cases s.pass.seed with
    | error err => exact hempty _ rfl
    | ok seed =>
      have hcounts := PenaltyMemo.counts_empty.askAll fastMatch.window (s.begun fastMatch seed).growPhones
      have hrecalls := (PenaltyMemo.recalls_empty fastMatch.window).askAll
        (s.begun fastMatch seed).growPhones
      have hbilled : ∀ t : Search, t.fastMatch = fastMatch ∧ t.memo = _ → t.Billed ⟨[], _⟩ :=
        fun t ht => ⟨by rw [ht.1, ht.2]; exact hrecalls, by rw [ht.2]; exact hcounts⟩
      exact ((grow_spares _).both (memo_grow _)).mono
        (fun t ht => hbilled t ⟨ht.1.fastMatch, ht.2⟩)
        fun err herr => hbilled err.state ⟨herr.1.fastMatch, herr.2⟩

theorem Billed.serve (h : s.Billed a) (r : Request) : (s.serve r).2.Billed (a.serve s r) := by
  rcases r with (_ | n) | p
  · exact billed_start s a
  · exact (h.recognize n).1
  · exact ⟨(h.recalls.ask p).2, h.counts.ask _ p⟩

/-- **Some requests,** by induction on them. -/
theorem Billed.served : ∀ (requests : List Request) {s : Search} {a : Asked}, s.Billed a →
    (s.served requests).Billed (s.asked requests a)
  | [], _, _, h => h
  | r :: requests, _, _, h => Billed.served requests (h.serve r)

/-! ## The count that is reported -/

/-- **The counts of the utterance tell how many penalties were computed.** -/
def Reported (s : Search) : Prop := s.stats.penaltyComputations = s.memo.computations

theorem reported_grow (s : Search) : Outcome Reported (fun _ => True) s.grow := by
  rw [grow_eq]
  split
  · trivial
  · split
    · trivial
    · exact rfl

theorem Reported.stepFrame (h : s.Reported) :
    Outcome (fun r => r.2.Reported) (fun _ => True) s.stepFrame := by
  cases hs : s.grown? with
  | none =>
    exact (stepFrame_of_not_grown hs).mono
      (fun r hr => hr.2.trans (h.trans (congrArg PenaltyMemo.computations hr.1.symm)))
      fun _ _ => trivial
  | some t =>
    obtain ⟨_, _, _, _, -, -, hstep⟩ := exists_of_grown hs
    rw [hstep]
    exact (reported_grow t).map _ fun _ h => h

theorem unhalted_reported : Unhalted Reported where
  live _ h := h
  lookAhead s h := by
    rw [lookAhead_eq]
    split
    · trivial
    · exact h
  stepFrame _ h := h.stepFrame
  purge _ _ h := h

/-- **A call that is not halted** reports the computations. -/
theorem Reported.perform (h : s.Reported) {c : Call} {answer : Option Recognition}
    (hc : (s.perform c).1 = .ok answer) : (s.perform c).2.Reported := by
  rcases c with _ | n
  · have hstart : Outcome Reported (fun _ => True) s.start := by
      rw [start_eq]
      split
      · trivial
      · split
        · trivial
        · exact reported_grow _
    rcases hx : s.start with err | t
    · simp [Search.perform, hx] at hc
    · simpa only [Search.perform, hx] using hstart.of_ok hx
  · exact unhalted_reported.recognize h hc

theorem Reported.served : ∀ (requests : List Request) {s : Search}, s.Reported →
    (∀ err, Reply.answer (.error err) ∉ s.replies requests) → (s.served requests).Reported
  | [], _, h, _ => h
  | r :: requests, s, h, hall => by
    have hfirst : (s.serve r).2.Reported := by
      rcases r with c | p
      · rcases hc : (s.perform c).1 with err | answer
        · exact absurd (List.mem_cons.2 (.inl (congrArg Reply.answer hc.symm))) (hall err)
        · exact h.perform hc
      · exact rfl
    exact Reported.served requests hfirst fun err herr => hall err (List.mem_cons_of_mem _ herr)

/-! ## All requests -/

/-- **What is known is never stale.**  Whatever was asked of a search, what it knows of a phone is
the penalty in the window as it is now, and so is what it tells.  The penalties of a phone are
computed once from one clear to the next, by the growth of a frame and by requests together: the
count of the computations is that of the distinct phones of all periods, at every clear and now. -/
theorem memo_served {settings : SearchSettings} {main fast : Pass} {cache : MixtureCache}
    {s₀ : Search} (h : Search.new settings main fast cache = .ok s₀) (requests : List Request) :
    let s := s₀.served requests
    let a := s₀.asked requests ⟨[], []⟩
    (∀ p score, s.memo.cached p = some score → score = s.fastMatch.window.penalty p) ∧
      (∀ p, (s.penalty p).1 = s.fastMatch.window.penalty p) ∧
      s.memo.computations = Asked.distinct a.earlier + a.now.dedup.length ∧
      (∀ n i t, (s.turnsIn n)[i]? = some t → t.memo.known = [] ∧
        t.memo.computations = (a.after ((s.turnsIn n).take i)).count) ∧
      ((∀ err, Reply.answer (.error err) ∉ s₀.replies requests) →
        s.stats.penaltyComputations = s.memo.computations) := by
  intro s a
  obtain ⟨-, f, -, rfl⟩ := exists_of_new h
  have hbilled : s.Billed a :=
    Billed.served requests ⟨PenaltyMemo.recalls_empty _, PenaltyMemo.counts_empty⟩
  refine ⟨hbilled.recalls, fun p => (hbilled.recalls.ask p).1, hbilled.computations,
    fun n => (hbilled.recognize n).2, fun hall => ?_⟩
  have hreported : s.Reported := Reported.served requests rfl hall
  exact hreported

/-- A word that leads back to its phone, which the lookahead tests. -/
def echo : Graph where
  initial := 0
  states := #[⟨.word 0, 2, [.new 1 .certain]⟩, ⟨.emitting 0, 5, [.new 1 .certain, .new 0 .certain]⟩]
  initial_lt := by decide
  sound := by unfold State.Sound; decide

def echoPass : Pass := { WordLoop.pass with graph := echo }

def echoSettings : SearchSettings :=
  { WordLoop.settings false with penaltyWeight := Float32.ofBits 0x3F800000 }

def echoSearch : Search :=
  { WordLoop.search false with
    settings := echoSettings
    pass := echoPass
    fastMatch := { (WordLoop.search false).fastMatch with pass := echoPass } }

theorem echoSearch_eq : Search.new echoSettings echoPass echoPass none = .ok echoSearch := rfl

/-- The start and the frame after it compute the penalty of phone 0 once each; of the two requests
only the one for phone 1 computes another one. -/
theorem memo_served_echo :
    let s := echoSearch.served [.call .start, .call (.recognize 1), .penalty 0, .penalty 1]
    (s.penalty 0).1 = s.fastMatch.window.penalty 0 ∧ s.memo.computations = 3 := by
  intro s
  obtain ⟨-, hpenalty, hcount, -, -⟩ := memo_served echoSearch_eq
    [.call .start, .call (.recognize 1), .penalty 0, .penalty 1]
  have hasked : echoSearch.asked [.call .start, .call (.recognize 1), .penalty 0, .penalty 1]
      ⟨[], []⟩ = ⟨[[0]], [0, 0, 1]⟩ := by decide +kernel
  rw [hasked] at hcount
  exact ⟨hpenalty 0, hcount⟩

end Search

end SpeechDecoder
