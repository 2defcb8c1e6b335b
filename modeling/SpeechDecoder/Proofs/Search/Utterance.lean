import SpeechDecoder.Search.Utterance
import SpeechDecoder.Proofs.Search.Batches

/-!
# Decoding an utterance in chunks

What an utterance is decoded to does not depend on how many frames are decoded at a time, and no
frame that was scored is lost.  This is for sources that report the end of an utterance where their
table ends; a streaming source reports that there is no input, and the answer that would have told
of its last frames is not given.

* `recognizeAll_eq` says that the calls of `Search.decode` are one call, and `decoded_eq` that they
  decode all frames.
* `decoded_streaming` says which frames are left where the source is streaming: those of the last
  full chunk and before it.
* `decoded_in_chunks` is the theorem about both kinds of sources.
-/

namespace SpeechDecoder

/-- A streaming source never reports the end of an utterance. -/
theorem AcousticSource.scoreFrame_streaming {src src' : AcousticSource} {a a' : Store}
    {ids : List Nat} (hstreaming : src.streaming = true) :
    src.scoreFrame a ids ≠ .ok (.exhausted, src', a') := by
  have hused : src.usedUp = .streamEnd := by
    unfold usedUp
    rw [hstreaming]
    rfl
  intro h
  rcases scoreFrame_cases h with ⟨-, -, ⟨-, hout, -⟩ | ⟨-, hout, -⟩⟩ |
    ⟨_, _, -, -, -, ⟨-, hout⟩ | ⟨_, -, hout⟩⟩ <;> simp [hused] at hout

theorem AcousticSource.streaming_scoreFrame {src src' : AcousticSource} {a a' : Store}
    {ids : List Nat} {outcome : ScoreOutcome} (h : src.scoreFrame a ids = .ok (outcome, src', a')) :
    src'.streaming = src.streaming := by
  rcases scoreFrame_cases h with ⟨-, -, ⟨-, -, rfl⟩ | ⟨-, -, rfl⟩⟩ | ⟨_, _, -, -, rfl, -⟩ <;> rfl

namespace Search

/-- **What an utterance is decoded to,** or the error that halted the search. -/
def decoded (s : Search) (chunk : Nat) : Except SearchError (Option Hypothesis) :=
  ((s.decode chunk).map Prod.fst).mapError Halted.error

variable {s s₁ t : Search}

/-! ## Calls that are longer -/

/-- A call that came to the end is not changed by more frames. -/
theorem recognize_add_of_final {a : Nat} {r : Recognition} (h : s.recognize a = .ok (some r, s₁))
    (hfinal : r.isFinal = true) (b : Nat) : s.recognize (a + b) = .ok (some r, s₁) := by
  obtain ⟨initial, t, hi, hframes, -, -, -⟩ := exists_of_recognize h
  rw [hfinal] at hframes
  have hadd : stepFrames (a + b) { s with streamEnded := false } = .ok (true, t) := by
    rw [stepFrames_add, hframes]
    rfl
  rw [recognize_of_started hi, hadd, ← hframes, ← recognize_of_started hi, h]

/-- A call that was halted is not changed by more frames. -/
theorem recognize_add_of_error (ht : s.Tidy) {a : Nat} {err : Halted Search}
    (h : s.recognize a = .error err) (b : Nat) : s.recognize (a + b) = .error err := by
  cases hi : s.initial with
  | none =>
    rw [recognize_eq, hi] at h ⊢
    exact h
  | some initial =>
    rw [recognize_of_started hi] at h ⊢
    rw [stepFrames_add]
    have hbegin : ({ s with streamEnded := false } : Search).Tidy :=
      ⟨ht.selects, ht.fits, ht.closed, ht.noted⟩
    have htidy := ((hbegin.abreast s.lattice).stepFrames a).left
    cases hx : stepFrames a { s with streamEnded := false } with
    | error err' =>
      rw [hx] at h
      exact h
    | ok r =>
      -- a call is not halted by its last purge
      obtain ⟨_, -, habreast⟩ := htidy.of_ok hx
      rw [hx] at h
      obtain ⟨f, hf⟩ := conclude_eq_error (r := r) h
      rw [habreast.tidy.purgeIn] at hf
      cases hf

/-- **Before the end of the table** a call has an answer, and comes to the end or not. -/
theorem exists_of_awake (hr : s.Rested) (hend : s.pass.source.endReported = false) {frames : Nat}
    {answer : Option Recognition} (h : s.recognize frames = .ok (answer, s₁)) :
    ∃ r, answer = some r ∧ (r.isFinal = false → s₁.pass.source.endReported = false) := by
  cases hi : s.initial with
  | none =>
    rw [recognize_eq, hi] at h
    cases h
  | some initial =>
    have hawake : ({ s with streamEnded := false } : Search).Awake := ⟨hr.streaming, hend, rfl⟩
    cases answer with
    | none =>
      rw [recognize_of_started hi] at h
      cases hx : stepFrames frames { s with streamEnded := false } with
      | error err =>
        rw [hx] at h
        cases h
      | ok x =>
        obtain ⟨done, t⟩ := x
        obtain ⟨⟨-, -, hlive⟩, -⟩ := (hawake.stepFrames frames).of_ok hx
        rw [hx] at h
        obtain ⟨-, hended⟩ | ⟨hsome, -⟩ := conclude_eq_ok (r := (done, t)) h
        · exact absurd (hended.symm.trans hlive) (by decide)
        · cases hsome
    | some r =>
      refine ⟨r, rfl, fun hfinal => ?_⟩
      obtain ⟨-, t, -, hframes, -, -, hlattice⟩ := exists_of_recognize h
      have hnot := (((hawake.stepFrames frames).of_ok hframes).2 hfinal).notEnded
      obtain ⟨-, rfl⟩ | ⟨-, lattice, -, rfl⟩ := hlattice
      · exact hnot
      · exact hnot

/-- **The calls of an utterance are one call,** by induction on their number. -/
theorem recognizeAll_eq (chunk : Nat) : ∀ (calls : Nat) {s : Search} (last : Option Recognition),
    s.Rested → s.Tidy → s.pass.source.endReported = false →
    (recognizeAll chunk (calls + 1) s last).mapError Halted.error =
      (s.recognize (chunk + chunk * calls)).mapError Halted.error
  | calls, s, last, hr, ht, hend => by
    unfold recognizeAll
    cases hx : s.recognize chunk with
    | error err =>
      rw [recognize_add_of_error ht hx]
      rfl
    | ok x =>
      obtain ⟨answer, s₁⟩ := x
      obtain ⟨r, rfl, hlater⟩ := exists_of_awake hr hend hx
      dsimp only [bind, Except.bind]
      cases hfinal : r.isFinal with
      | true =>
        rw [recognize_add_of_final hx hfinal]
        rfl
      | false =>
        have hr₁ := (hr.recognize ht chunk).of_ok hx
        have ht₁ : s₁.Tidy := by
          have := ht.perform (.recognize chunk)
          rwa [perform_eq_of_recognize hx] at this
        cases calls with
        | zero =>
          rw [Nat.mul_zero, Nat.add_zero, hx]
          rfl
        | succ calls =>
          have hrest := recognizeAll_eq chunk calls (some r) hr₁ ht₁ (hlater hfinal)
          rw [Nat.mul_succ, Nat.add_comm (chunk * calls) chunk, ← recognize_add hr ht hx hfinal,
            ← hrest]
          rfl

/-! ## Utterances -/

/-- The hypothesis of the answer to the last call. -/
def decodedOf (r : Option Recognition × Search) : Except SearchError (Option Hypothesis) :=
  match r.1 with
  | none => .ok none
  | some answer => (r.2.hypothesis answer).mapError .dangling

theorem decoded_of_started (hs : s.start = .ok s₁) (chunk : Nat) :
    s.decoded chunk =
      (recognizeAll (max chunk 1) (s₁.pass.source.rows.size + 1) s₁ none).mapError Halted.error >>=
        decodedOf := by
  unfold decoded decode
  simp only [hs, bind, Except.bind]
  rcases recognizeAll (max chunk 1) (s₁.pass.source.rows.size + 1) s₁ none with
    err | ⟨answer | answer, t⟩
  · rfl
  · rfl
  · unfold orHalt decodedOf
    cases hh : t.hypothesis answer <;> simp only [hh, mapError_ok, mapError_error] <;> rfl

/-- **Decoding an utterance is one call** with more frames than there are rows. -/
theorem decoded_eq_recognize (hr : s.Rested) (ht : s.Tidy) (hs : s.start = .ok s₁) (chunk : Nat) :
    s.decoded chunk =
      (s₁.recognize (s₁.pass.source.rows.size + 1)).mapError Halted.error >>= decodedOf := by
  obtain ⟨-, hcursor, hend, hinitial, -⟩ := start_eq_ok hs
  have hall := recognizeAll_eq (max chunk 1) s₁.pass.source.rows.size none (hr.start.of_ok hs)
    ((tidy_kept.start [] s ht).of_ok hs) hend
  have hle : s₁.pass.source.rows.size + 1 ≤
      max chunk 1 + max chunk 1 * s₁.pass.source.rows.size := by
    have := Nat.le_mul_of_pos_left s₁.pass.source.rows.size (show 0 < max chunk 1 by omega)
    omega
  rw [decoded_of_started hs, hall, recognize_of_started hinitial, recognize_of_started hinitial,
    stepFrames_of_le (by dsimp only; omega) (by omega) hle]

/-- The frames of a hypothesis are those of the answer. -/
theorem frames_hypothesis {r : Recognition} {hyp : Hypothesis}
    (h : s.hypothesis r = .ok (some hyp)) : hyp.frames = r.frame := by
  unfold hypothesis at h
  cases hf : r.bestFinal s.store with
  | error f => simp [hf, bind, Except.bind] at h
  | ok final =>
    cases hb : r.best s.store with
    | error f => simp [hf, hb, bind, Except.bind] at h
    | ok best =>
      cases best with
      | none => simp [hf, hb, bind, Except.bind, pure, Except.pure] at h
      | some id =>
        cases hw : s.store.wordPath id with
        | error f => simp [hf, hb, hw, bind, Except.bind] at h
        | ok words =>
          simp only [hf, hb, hw, bind, Except.bind, pure, Except.pure] at h
          cases h
          rfl

theorem hypothesis_of_decodedOf {answer : Recognition} {hyp : Hypothesis}
    (h : decodedOf (some answer, s) = .ok (some hyp)) : s.hypothesis answer = .ok (some hyp) := by
  unfold decodedOf at h
  dsimp only at h
  cases hh : s.hypothesis answer with
  | error f =>
    rw [hh] at h
    cases h
  | ok x =>
    rw [hh] at h
    cases h
    rfl

/-- The frames of an utterance that was decoded are those that were scored. -/
theorem frames_decodedOf (hlive : s.streamEnded = false) (hframe : s.frame = 0) {hyp : Hypothesis}
    (h : (s.recognize (s.pass.source.rows.size + 1)).mapError Halted.error >>= decodedOf =
      .ok (some hyp)) : hyp.frames = s.framesAhead := by
  cases hx : s.recognize (s.pass.source.rows.size + 1) with
  | error err =>
    rw [hx] at h
    cases h
  | ok r =>
    obtain ⟨answer | answer, t⟩ := r
    · rw [hx] at h
      cases h
    · obtain ⟨-, u, -, hframes, hanswer, -, -⟩ := exists_of_recognize hx
      rw [eq_of_live hlive] at hframes
      rw [hx] at h
      have hhyp := hypothesis_of_decodedOf h
      have hdone := stepFrames_done _ (Nat.le_add_right _ _) hframes
      rcases stepFrames_ahead _ hlive hframes with ⟨-, -, hcount, -⟩ | ⟨hfalse, -⟩
      · rw [frames_hypothesis hhyp, hanswer, hcount, hframe, Nat.zero_add]
      · rw [hdone] at hfalse
        cases hfalse

theorem new_of_ofSettings {settings : Settings} {main fastMatch : Graph × AcousticSource}
    {cache : MixtureCache} (h : Search.ofSettings settings main fastMatch cache = .ok s) :
    Search.new settings.search ⟨main.1, main.2, .byWidths, settings.main⟩
      ⟨fastMatch.1, fastMatch.2, .byWidths, settings.fastMatch⟩ cache = .ok s := by
  unfold Search.ofSettings at h
  cases hv : settings.validateBeams with
  | error err => simp [hv, bind, Except.bind] at h
  | ok u => simpa only [hv, bind, Except.bind] using h

/-- Without a start there is nothing to decode. -/
theorem decoded_of_error {err : Halted Search} (hs : s.start = .error err) (chunk : Nat) :
    s.decoded chunk = .error err.error := by
  unfold decoded decode
  rw [hs]
  rfl

/-- **What an utterance is decoded to does not depend on the chunks,** and no frame is lost: the
hypothesis is that of all frames that are scored. -/
theorem decoded_eq {settings : Settings} {main fastMatch : Graph × AcousticSource}
    {cache : MixtureCache} {s₀ : Search}
    (h : Search.ofSettings settings main fastMatch cache = .ok s₀) {rows : Array (Array Score)}
    (hsource : main.2 = .ofRows rows false) (calls : List Call) (chunk chunk' : Nat) :
    let s := s₀.after calls
    s.decoded chunk = s.decoded chunk' ∧
      ∀ hyp, s.decoded chunk = .ok (some hyp) →
        ∃ s₁, s.start = .ok s₁ ∧ hyp.frames = s₁.framesAhead := by
  intro s
  obtain ⟨htidy, hpass⟩ := tidy_new (new_of_ofSettings h) Pruner.selects_byWidths
  obtain ⟨hr, ht⟩ := (rested_new (by rw [hpass]; exact hsource)).after calls htidy
  cases hs : s.start with
  | error err =>
    refine ⟨by rw [decoded_of_error hs, decoded_of_error hs], fun hyp hdecoded => ?_⟩
    rw [decoded_of_error hs] at hdecoded
    cases hdecoded
  | ok s₁ =>
    refine ⟨by rw [decoded_eq_recognize hr ht hs, decoded_eq_recognize hr ht hs],
      fun hyp hdecoded => ⟨s₁, rfl, ?_⟩⟩
    rw [decoded_eq_recognize hr ht hs] at hdecoded
    obtain ⟨hframe, -, -, -, hlive⟩ := start_eq_ok hs
    exact frames_decodedOf hlive hframe hdecoded

/-! ## Streaming sources -/

/-- A frame of a streaming source. -/
theorem stepFrame_streaming {done : Bool} (hs : s.pass.source.streaming = true)
    (h : s.stepFrame = .ok (done, t)) :
    (done = true → t.streamEnded = true) ∧ (done = false → t.pass.source.streaming = true) := by
  rcases stepFrame_cases h with ⟨rfl, hnone, -⟩ | ⟨rfl, -, -, -, -, hsource⟩
  · refine ⟨fun _ => ?_, by simp⟩
    rw [stepFrame_eq] at h
    unfold scoring? at hnone
    cases hx : s.pass.source.scoreFrame s.store s.beam.tokens with
    | error f =>
      rw [hx] at h
      cases h
    | ok r =>
      obtain ⟨outcome, source, store⟩ := r
      rw [hx] at h hnone
      cases outcome with
      | exhausted => exact absurd hx (AcousticSource.scoreFrame_streaming hs)
      | streamEnd =>
        cases h
        rfl
      | scored best => cases hnone
  · rw [hsource]
    exact ⟨by simp, fun _ => hs⟩

/-- **A streaming source** reports that there is no input where the utterance is done. -/
theorem stepFrames_streaming : ∀ (n : Nat) {s t : Search} {done : Bool},
    s.pass.source.streaming = true → stepFrames n s = .ok (done, t) →
    (done = true → t.streamEnded = true) ∧ (done = false → t.pass.source.streaming = true)
  | 0, s, t, done, hs, h => by
    cases h
    exact ⟨by simp, fun _ => hs⟩
  | n + 1, s, t, done, hs, h => by
    obtain ⟨s₁, first, u, ha, hx, hrest⟩ := stepFrames_succ_eq_ok h
    have hs₁ : s₁.pass.source.streaming = true := by
      obtain ⟨fastMatch, -, rfl⟩ := lookAhead_eq_ok ha
      exact hs
    obtain ⟨hdone, hmore⟩ := stepFrame_streaming hs₁ hx
    obtain ⟨rfl, rfl, rfl⟩ | ⟨rfl, hlater⟩ := hrest
    · exact ⟨hdone, by simp⟩
    · exact stepFrames_streaming n (hmore rfl) hlater

/-- A search in an utterance that is read from a streaming source. -/
structure Streaming (s : Search) : Prop where
  tidy : s.Tidy
  streaming : s.pass.source.streaming = true
  initial : s.initial = some 0
  live : s.streamEnded = false

/-- **A call on a streaming source** has an answer if it does not come to the end. -/
theorem Streaming.recognize (h : s.Streaming) {chunk : Nat} {answer : Option Recognition}
    (hx : s.recognize chunk = .ok (answer, s₁)) :
    answer = none ∧ s.framesAhead < chunk ∨
    ∃ r, answer = some r ∧ r.isFinal = false ∧ r.frame = s.frame + chunk ∧ s₁.frame = r.frame ∧
      s.framesAhead = chunk + s₁.framesAhead ∧ s₁.Streaming := by
  cases answer with
  | none =>
    refine .inl ⟨rfl, ?_⟩
    rw [recognize_of_started h.initial, eq_of_live h.live] at hx
    cases hframes : stepFrames chunk s with
    | error err =>
      rw [hframes] at hx
      cases hx
    | ok r =>
      obtain ⟨done, t⟩ := r
      rcases stepFrames_ahead chunk h.live hframes with ⟨-, hlt, -⟩ | ⟨-, -, -, hlive⟩
      · exact hlt
      · rw [hframes] at hx
        obtain ⟨-, hended⟩ | ⟨hsome, -⟩ := conclude_eq_ok (r := (done, t)) hx
        · exact absurd (hended.symm.trans hlive) (by decide)
        · cases hsome
  | some r =>
    have htidy : s₁.Tidy := by
      have := h.tidy.perform (.recognize chunk)
      rwa [perform_eq_of_recognize hx] at this
    obtain ⟨-, t, -, hframes, hframe, hlive, hlattice⟩ := exists_of_recognize hx
    rw [eq_of_live h.live] at hframes
    obtain ⟨_, -, ht⟩ := ((h.tidy.abreast s.lattice).stepFrames chunk).left.of_ok hframes
    replace ht : Abreast s s.lattice t _ := ht
    obtain ⟨hdone, hmore⟩ := stepFrames_streaming chunk h.streaming hframes
    rcases stepFrames_ahead chunk h.live hframes with ⟨htrue, -⟩ | ⟨hfalse, hahead, hcount, -⟩
    · rw [hdone htrue] at hlive
      cases hlive
    · refine .inr ⟨r, rfl, hfalse, hframe.trans hcount, ?_⟩
      obtain ⟨-, rfl⟩ | ⟨-, lattice, -, rfl⟩ := hlattice
      · exact ⟨hframe.symm, hahead, htidy, hmore hfalse, ht.initial.trans h.initial, hlive⟩
      · have hsame := framesAhead_lattice ht.tidy lattice
        exact ⟨hframe.symm, hahead.trans (congrArg _ hsame.symm), htidy, hmore hfalse,
          ht.initial.trans h.initial, hlive⟩

/-- **The last answer of a streaming source** is that of the last full chunk, by induction on the
calls. -/
theorem Streaming.recognizeAll {chunk : Nat} (hpos : 0 < chunk) : ∀ (calls : Nat) {s t : Search}
    {last answer : Option Recognition}, s.Streaming → s.framesAhead / chunk ≤ calls →
    recognizeAll chunk calls s last = .ok (answer, t) →
    answer.map Recognition.frame =
      if s.framesAhead < chunk then last.map Recognition.frame
        else some (s.frame + chunk * (s.framesAhead / chunk))
  | 0, s, t, last, answer, _, hle, h => by
    cases h
    rw [if_pos]
    exact (Nat.div_eq_zero_iff_lt hpos).1 (Nat.le_zero.1 hle)
  | calls + 1, s, t, last, answer, hs, hle, h => by
    unfold Search.recognizeAll at h
    cases hx : s.recognize chunk with
    | error err =>
      rw [hx] at h
      cases h
    | ok x =>
      obtain ⟨first, s₁⟩ := x
      rw [hx] at h
      rcases hs.recognize hx with ⟨rfl, hlt⟩ | ⟨r, rfl, hfinal, hr, hs₁, hahead, hlater⟩
      · cases h
        rw [if_pos hlt]
      · simp only [bind, Except.bind, hfinal] at h
        have hdiv : s.framesAhead / chunk = s₁.framesAhead / chunk + 1 := by
          rw [hahead, Nat.add_div_left _ hpos]
        rw [Streaming.recognizeAll hpos calls hlater (by omega) h,
          if_neg (show ¬ s.framesAhead < chunk by omega), hdiv]
        split
        · next hlt =>
          rw [Nat.div_eq_of_lt hlt, Option.map_some, hr]
          simp
        · rw [hs₁, hr, Nat.mul_succ]
          congr 1
          omega

theorem length_scoringsOf_le : ∀ (n : Nat) (s : Search), (scoringsOf n s).length ≤ n
  | 0, _ => Nat.zero_le _
  | n + 1, s => by
    unfold scoringsOf
    split
    · exact Nat.zero_le _
    · next s' _ =>
      have hfirst : s'.scoring?.toList.length ≤ 1 := by
        cases s'.scoring? <;> simp
      rw [List.length_append]
      split
      · next u _ =>
        have := length_scoringsOf_le n u
        omega
      · simp only [List.length_nil]
        omega

/-- No call changes how the end of the table is reported. -/
theorem streaming_kept (streaming : Bool) : Kept fun _ s => s.pass.source.streaming = streaming where
  start _ s h := by
    rw [start_eq]
    split
    · exact h
    · split
      · exact h
      · exact (grow_spares _).mono (fun _ h' => h'.pass ▸ h) fun _ h' => h'.pass ▸ h
  aside _ _ _ _ _ h := h
  purge _ _ _ h _ := h
  stepFrame _ _ h := stepFrame_outcome (Q := fun s => s.pass.source.streaming = streaming) h
    (fun _ _ _ hx => (AcousticSource.streaming_scoreFrame hx).trans h) (fun _ h => h)
    (fun _ _ h => h) fun _ h => (grow_spares _).mono (fun _ h' => h'.pass ▸ h)
      fun _ h' => h'.pass ▸ h

/-- **What is left of an utterance from a streaming source:** the frames of the last full chunk and
before it.  Without a full chunk there is no hypothesis. -/
theorem decoded_streaming {settings : Settings} {main fastMatch : Graph × AcousticSource}
    {cache : MixtureCache} {s₀ : Search}
    (h : Search.ofSettings settings main fastMatch cache = .ok s₀)
    (hsource : main.2.streaming = true) (calls : List Call) (chunk : Nat) {hyp : Hypothesis}
    (hdecoded : (s₀.after calls).decoded chunk = .ok (some hyp)) :
    ∃ s₁, (s₀.after calls).start = .ok s₁ ∧ max chunk 1 ≤ s₁.framesAhead ∧
      hyp.frames = max chunk 1 * (s₁.framesAhead / max chunk 1) := by
  obtain ⟨htidy, hpass⟩ := tidy_new (new_of_ofSettings h) Pruner.selects_byWidths
  have ht := htidy.after calls
  have hstream := (streaming_kept true).after calls []
    (show s₀.pass.source.streaming = true by rw [hpass]; exact hsource)
  cases hs : (s₀.after calls).start with
  | error err =>
    rw [decoded_of_error hs] at hdecoded
    cases hdecoded
  | ok s₁ =>
    obtain ⟨hframe, -, -, hinitial, hlive⟩ := start_eq_ok hs
    have hs₁ : s₁.Streaming := ⟨(tidy_kept.start [] _ ht).of_ok hs,
      ((streaming_kept true).start [] _ hstream).of_ok hs, hinitial, hlive⟩
    rw [decoded_of_started hs] at hdecoded
    cases hx : recognizeAll (max chunk 1) (s₁.pass.source.rows.size + 1) s₁ none with
    | error err =>
      rw [hx] at hdecoded
      cases hdecoded
    | ok r =>
      obtain ⟨answer | answer, t⟩ := r
      · rw [hx] at hdecoded
        cases hdecoded
      · have hle : s₁.framesAhead / max chunk 1 ≤ s₁.pass.source.rows.size + 1 :=
          (Nat.div_le_self _ _).trans (length_scoringsOf_le _ _)
        have hlast := hs₁.recognizeAll (by omega) _ hle hx
        rw [hx] at hdecoded
        have hhyp := frames_hypothesis (hypothesis_of_decodedOf hdecoded)
        rw [Option.map_some, hframe, Nat.zero_add] at hlast
        split at hlast
        · cases hlast
        · next hlt =>
          exact ⟨s₁, rfl, by omega, hhyp.trans (Option.some.inj hlast)⟩

/-! ## Both kinds of sources -/

/-- **How many frames a hypothesis is about,** in chunks of any size.  Where the source reports the
end of an utterance the chunks change nothing, and the hypothesis is about all frames that are
scored.  Where it is streaming the frames after the last full chunk are lost. -/
theorem decoded_in_chunks {settings : Settings} {main fastMatch : Graph × AcousticSource}
    {cache : MixtureCache} {s₀ : Search}
    (h : Search.ofSettings settings main fastMatch cache = .ok s₀) {rows : Array (Array Score)}
    {streaming : Bool} (hsource : main.2 = .ofRows rows streaming) (calls : List Call) :
    let s := s₀.after calls
    (streaming = false → ∀ chunk chunk', s.decoded chunk = s.decoded chunk') ∧
      ∀ chunk hyp, s.decoded chunk = .ok (some hyp) → ∃ s₁, s.start = .ok s₁ ∧ hyp.frames =
        if streaming then max chunk 1 * (s₁.framesAhead / max chunk 1) else s₁.framesAhead := by
  intro s
  cases streaming with
  | false =>
    have hdecoded := decoded_eq h hsource calls
    exact ⟨fun _ chunk chunk' => (hdecoded chunk chunk').1,
      fun chunk hyp hsome => (hdecoded chunk chunk).2 hyp hsome⟩
  | true =>
    refine ⟨fun hfalse => (by cases hfalse), fun chunk hyp hsome => ?_⟩
    obtain ⟨s₁, hs, -, hcount⟩ := decoded_streaming h (by rw [hsource]; rfl) calls chunk hsome
    exact ⟨s₁, hs, hcount⟩

/-- The search over the word loop, read from a source of either kind. -/
def sourcedLoop (streaming : Bool) : Search :=
  { WordLoop.search false with
    pass := { WordLoop.pass with source := .ofRows WordLoop.pass.source.rows streaming } }

theorem ofSettings_wordLoop (streaming : Bool) :
    Search.ofSettings ⟨WordLoop.settings false, ⟨0, .impossible⟩, ⟨0, .impossible⟩⟩
      (WordLoop.graph, .ofRows WordLoop.pass.source.rows streaming)
      (WordLoop.graph, WordLoop.pass.source) none = .ok (sourcedLoop streaming) :=
  rfl

/-- The two frames of the word loop are decoded to one word, in chunks of any size.  Where its
source is streaming they are so frame by frame, and in one chunk that is too long nothing is
decoded. -/
theorem decoded_in_chunks_wordLoop :
    ((sourcedLoop false).decoded 1 = (sourcedLoop false).decoded 5 ∧
      ∃ hyp s₁, (sourcedLoop false).decoded 5 = .ok (some hyp) ∧ hyp.words = [0] ∧
        (sourcedLoop false).start = .ok s₁ ∧ hyp.frames = s₁.framesAhead) ∧
      (sourcedLoop true).decoded 5 = .ok none ∧
      ∃ hyp s₁, (sourcedLoop true).decoded 1 = .ok (some hyp) ∧ hyp.words = [0] ∧
        (sourcedLoop true).start = .ok s₁ ∧ hyp.frames = s₁.framesAhead := by
  have hended : (sourcedLoop false).decoded 5 =
      .ok (some ⟨[0], Float32.ofBits 0xC0200000, 2, true⟩) := by decide +kernel
  have hstreamed : (sourcedLoop true).decoded 1 =
      .ok (some ⟨[0], Float32.ofBits 0xC0200000, 2, true⟩) := by decide +kernel
  obtain ⟨heq, hall⟩ := decoded_in_chunks (ofSettings_wordLoop false) rfl []
  obtain ⟨s₁, hs, hcount⟩ := hall 5 _ hended
  obtain ⟨-, hfull⟩ := decoded_in_chunks (ofSettings_wordLoop true) rfl []
  obtain ⟨s₂, hs', hcount'⟩ := hfull 1 _ hstreamed
  exact ⟨⟨heq rfl 1 5, _, s₁, hended, rfl, hs, hcount⟩, by decide +kernel, _, s₂, hstreamed, rfl,
    hs', by simpa using hcount'⟩

end Search

end SpeechDecoder
