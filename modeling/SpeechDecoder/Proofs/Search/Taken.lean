import SpeechDecoder.Proofs.Expansion.Taken
import SpeechDecoder.Proofs.Search.Chronicle
import SpeechDecoder.Proofs.Search.Gathered

/-!
# Expanded tokens stay as they are

A token that a frame expands is not in the beam that the frame leaves.  So no row, no pruner and no
later frame changes it: the frame that expanded it is the last one that could.  The fast match
forgets such tokens, since it keeps its beam only.

* `takings` are the tokens that the growth of a frame expands, with the moments of their expansion,
  and `expansion` is what it ends with.
* `Fixed` is a token that waits for nothing; `Fixed.stepFrame` carries it through a frame.
* `Lasts` is the invariant of an utterance: what one of its frames has expanded is fixed from then on.
* `taken_after` is the theorem about a frame, about the fast match and about all calls.
-/

namespace SpeechDecoder

open Expansion (Fits Orderly Sound Stays Traces)

/-! ## The fast match -/

namespace FastMatch

section Defs

variable (f : FastMatch)

/-- What the expansion of a frame ends with. -/
def expansion : Except (Halted Expansion) Expansion :=
  (Expansion.start f.store (.empty f.pass.widths) (.empty 0) .empty).run f.growth
    (f.beam.worthExpanding f.store .certain)

/-- **The tokens that a frame expands.** -/
def takings : List Taking :=
  (Expansion.start f.store (.empty f.pass.widths) (.empty 0) .empty).taken f.growth
    (f.beam.worthExpanding f.store .certain)

/-- The fast match before it grows the next frame, if it does. -/
def grown? : Option FastMatch :=
  if f.ended then none
  else
    match f.pass.source.scoreFrame f.store f.beam.tokens with
    | .ok (.scored _, source, store) =>
      match f.pass.pruner store f.beam with
      | .error _ => none
      | .ok beam => some ((f.heard source store).moved beam)
    | _ => none

/-- The frames that some steps grow. -/
def growthsFrom : Nat → FastMatch → List FastMatch
  | 0, _ => []
  | n + 1, f => f.grown?.toList ++
    match f.step with
    | .error _ => []
    | .ok next => growthsFrom n next

/-- **The frames that are grown from the start of an utterance,** with so many more steps. -/
def growths (n : Nat) : List FastMatch :=
  match f.pass.seed with
  | .error _ => []
  | .ok seed => f.begun seed ::
    match (f.begun seed).grow with
    | .error _ => []
    | .ok next => growthsFrom (f.windowSize - 1 + n) next

end Defs

variable {size : Nat} {fast : Pass} {f u : FastMatch}

theorem Ready.orderly (h : f.Ready size fast) : Orderly f.takings f.expansion := by
  have hgraph : f.growth.graph = fast.graph := h.graph
  have hfits : Fits f.growth.graph f.store := hgraph ▸ h.fits
  exact (Sound.start hfits f.pass.widths (.empty 0) .empty).orderly fun id hid =>
    h.stored id (Beam.mem_worthExpanding hid)

theorem Ready.grown (h : f.Ready size fast) (hu : f.grown? = some u) : u.Ready size fast := by
  unfold grown? at hu
  split_ifs at hu with hended
  split at hu
  · next best source store hx =>
    obtain ⟨_, _, _, beam, _, hx', hprune, -, hready, -⟩ :=
      h.step_scored ⟨by simpa using hended, best, source, store, hx⟩
    cases hx.symm.trans hx'
    rw [hprune] at hu
    cases hu
    exact hready
  · cases hu

/-- Some steps, by induction on their number. -/
theorem Ready.growthsFrom : ∀ (n : Nat) {f : FastMatch}, f.Ready size fast →
    ∀ u ∈ FastMatch.growthsFrom n f, u.Ready size fast
  | 0, _, _, _, hu => by cases hu
  | n + 1, f, h, u, hu => by
    obtain ⟨next, hstep, hnext⟩ := h.step
    rw [FastMatch.growthsFrom, hstep, List.mem_append, Option.mem_toList] at hu
    rcases hu with hu | hu
    · exact h.grown hu
    · exact Ready.growthsFrom n hnext u hu

/-- **The frames of an utterance.** -/
theorem ready_growths (f : FastMatch) (hselects : f.pass.pruner.Selects) (n : Nat) :
    ∀ u ∈ f.growths n, u.Ready f.windowSize f.pass := by
  obtain ⟨seed, hseed⟩ := f.pass.exists_seed
  have hbegun := f.ready_begun hselects hseed
  obtain ⟨_, _, store, beam, -, -, -, -, hgrow, hnext⟩ := hbegun.grow
  intro u hu
  rw [growths, hseed] at hu
  dsimp only at hu
  rw [hgrow] at hu
  rcases List.mem_cons.1 hu with rfl | hu
  · exact hbegun
  · exact hnext.growthsFrom _ u hu

end FastMatch

/-! ## The search -/

namespace Search

section Defs

variable (s : Search)

/-- What the expansion of a frame ends with. -/
def expansion : Except (Halted Expansion) Expansion :=
  (Expansion.start s.store (.empty s.pass.widths) s.lattice s.memo).run s.growth
    (s.beam.worthExpanding s.store s.settings.acousticLookahead)

/-- **The tokens that the growth of a frame expands.** -/
def takings : List Taking :=
  (Expansion.start s.store (.empty s.pass.widths) s.lattice s.memo).taken s.growth
    (s.beam.worthExpanding s.store s.settings.acousticLookahead)

end Defs

variable {size : Nat} {fast : Pass} {s u o first : Search} {log : List Search} {id : Nat} {t : Token}
  {l : Lattice}

theorem Primed.orderly (h : s.Primed) : Orderly s.takings s.expansion :=
  (Sound.start (g := s.growth) h.tidy.fits s.pass.widths s.lattice s.memo).orderly fun id hid =>
    h.stored id (Beam.mem_worthExpanding hid)

theorem Primed.grow_eq_expansion (h : s.Primed) : s.grow =
    match s.expansion with
    | .error err => .error ⟨err.error, s.absorb err.state⟩
    | .ok e => .ok { s.absorb e with stats := s.countExpansion e } := by
  rw [grow_eq, Beam.seeds_of_lt h.stored]
  rfl

/-- **A token that waits for no row,** and so is what it is. -/
structure Fixed (id : Nat) (t : Token) (s : Search) : Prop where
  idle : id ∉ s.beam.tokens
  get : s.store.get? id = some t

theorem Fixed.of_abreast (h : Fixed id t s) (ha : Abreast s l u o) : Fixed id t u := by
  obtain ⟨hidle, hget⟩ := ha.final id (Store.lt_size_of_get? h.get) h.idle
  exact ⟨hidle, hget.trans h.get⟩

/-- **One frame.** -/
theorem Fixed.stepFrame (h : Fixed id t s) (hs : s.Tidy) :
    Outcome (fun r => Fixed id t r.2) (fun e => Fixed id t e.state) s.stepFrame :=
  (hs.stepFrame s.lattice).left.mono (fun _ ⟨_, _, ha⟩ => h.of_abreast ha)
    fun _ ⟨_, _, ha⟩ => h.of_abreast ha

/-- A row and a pruner leave it as it is. -/
theorem Fixed.grown (h : Fixed id t s) (hs : s.Primed) (hu : s.grown? = some u) : Fixed id t u := by
  unfold grown? at hu
  split at hu
  · next best source store hx =>
    have hheard := h.of_abreast (hs.tidy.heard s.lattice hx)
    obtain ⟨beam, hprune, hsub⟩ := hs.tidy.selects store s.beam (hs.heard hx).stored
    rw [hprune] at hu
    dsimp only at hu
    split at hu
    · cases hu
    · cases hu
      exact ⟨fun hmem => hheard.idle (hsub.subset hmem), hheard.get⟩
  · cases hu

/-- **What a frame expands** is fixed when the frame is grown. -/
theorem Primed.fixed_grow (h : s.Primed) {x : Taking} (hx : x ∈ s.takings) :
    Outcome (Fixed x.id x.token) (fun e => Fixed x.id x.token e.state) s.grow := by
  have horderly := h.orderly
  have hend := (Expansion.last_of_stays horderly.stays hx).both (horderly.settled x hx)
  rw [h.grow_eq_expansion]
  cases hrun : s.expansion with
  | error err => exact ⟨(hend.of_error hrun).2, (hend.of_error hrun).1⟩
  | ok e => exact ⟨(hend.of_ok hrun).2, (hend.of_ok hrun).1⟩

/-! ## An utterance -/

/-- **The invariant of an utterance** whose first frame is grown by `first`: what one of its frames
has expanded is fixed when the later ones are grown, and now. -/
def Lasts (first : Search) (log : List Search) (s : Search) : Prop :=
  ∀ earlier u later, first :: log.filterMap grown? = earlier ++ u :: later → ∀ x ∈ u.takings,
    Fixed x.id x.token s ∧ ∀ v ∈ later, Fixed x.id x.token v

/-- **A frame** may leave whatever keeps a fixed token and what the frame has expanded. -/
theorem Lasts.concat (h : Lasts first log s) (hs : s.Primed) {next : Search}
    (hkeep : ∀ id t, Fixed id t s → Fixed id t next)
    (hnew : ∀ v, s.grown? = some v → ∀ x ∈ v.takings, Fixed x.id x.token next) :
    Lasts first (log ++ [s]) next := by
  intro earlier u later hsplit x hx
  rw [List.filterMap_append] at hsplit
  cases hg : s.grown? with
  | none =>
    rw [List.filterMap_cons_none hg, List.filterMap_nil, List.append_nil] at hsplit
    obtain ⟨hnow, hlater⟩ := h earlier u later hsplit x hx
    exact ⟨hkeep _ _ hnow, hlater⟩
  | some v =>
    rw [List.filterMap_cons_some hg, List.filterMap_nil, ← List.cons_append] at hsplit
    rcases List.eq_nil_or_concat later with rfl | ⟨before, w, rfl⟩
    · obtain ⟨-, heq⟩ := List.append_inj' hsplit rfl
      cases heq
      exact ⟨hnew _ hg x hx, fun v hv => by cases hv⟩
    · rw [List.concat_eq_append, ← List.cons_append, ← List.append_assoc] at hsplit
      obtain ⟨hbefore, heq⟩ := List.append_inj' hsplit rfl
      cases heq
      obtain ⟨hnow, hlater⟩ := h earlier u before hbefore x hx
      refine ⟨hkeep _ _ hnow, fun y hy => ?_⟩
      rw [List.concat_eq_append, List.mem_append, List.mem_singleton] at hy
      rcases hy with hy | rfl
      · exact hlater y hy
      · exact hnow.grown hs hg

theorem lasts_chronicled (size : Nat) (fast : Pass) (first : Search) :
    Chronicled size fast (Lasts first) where
  aside log s fastMatch memo streamEnded h earlier u later hsplit x hx := by
    obtain ⟨hnow, hlater⟩ := h earlier u later hsplit x hx
    exact ⟨⟨hnow.idle, hnow.get⟩, hlater⟩
  purge log s lattice h _ earlier u later hsplit x hx := by
    obtain ⟨hnow, hlater⟩ := h earlier u later hsplit x hx
    exact ⟨⟨hnow.idle, hnow.get⟩, hlater⟩
  stepFrame log s h hs := by
    have hkeep : ∀ id t, Fixed id t s →
        Outcome (fun r => Fixed id t r.2) (fun e => Fixed id t e.state) s.stepFrame :=
      fun id t ht => ht.stepFrame hs.primed.tidy
    have hnew : ∀ v, s.grown? = some v → ∀ x ∈ v.takings, Outcome
        (fun r => Fixed x.id x.token r.2) (fun e => Fixed x.id x.token e.state) s.stepFrame := by
      intro v hv x hx
      obtain ⟨_, _, _, _, -, -, hstep⟩ := exists_of_grown hv
      have hprimed := (Found.grown ⟨hs.primed, rfl, rfl⟩ hv).primed
      rw [hstep]
      exact (hprimed.fixed_grow hx).map _ fun _ h => h
    cases hx : s.stepFrame with
    | error err =>
      rw [hx] at hkeep hnew
      exact h.concat hs.primed hkeep hnew
    | ok r =>
      rw [hx] at hkeep hnew
      exact h.concat hs.primed hkeep hnew

/-- The frames that are grown after the start are those of its turns. -/
theorem growths_recognize : ∀ (frames : List Nat) (s : Search),
    s.growths (frames.map .recognize) = (s.turns frames).filterMap grown?
  | [], _ => rfl
  | n :: frames, s => by
    rw [List.map_cons, growths, growths_recognize frames, turns, List.filterMap_append]
    rfl

/-- **An utterance.** -/
theorem Sealed.lasts (h : s.Sealed size fast) (frames : List Nat) :
    ∃ first, s.growths (.start :: frames.map .recognize) =
        first :: ((s.perform .start).2.turns frames).filterMap grown? ∧
      Lasts first ((s.perform .start).2.turns frames) (s.after (.start :: frames.map .recognize)) := by
  obtain ⟨f, hreset, -⟩ := h.ready.reset
  obtain ⟨seed, hseed⟩ := s.pass.exists_seed
  have hopened : s.opened? = some (s.begun f seed) := by
    unfold opened?
    rw [hreset, hseed]
  have hstart : s.start = (s.begun f seed).grow := by rw [start_eq, hreset, hseed]
  have hbegun : (s.begun f seed).Primed := .begun h.primed.tidy f hseed
  have hfirst : Lasts (s.begun f seed) [] (s.perform .start).2 := by
    intro earlier u later hsplit x hx
    rw [List.filterMap_nil] at hsplit
    rcases List.singleton_eq_append_iff.1 hsplit with ⟨-, heq⟩ | ⟨-, heq⟩
    · cases heq
      refine ⟨perform_start ?_, fun v hv => by cases hv⟩
      rw [hstart]
      exact hbegun.fixed_grow hx
    · cases heq
  have hlasts := (lasts_chronicled size fast _).after frames hfirst (h.perform .start).2
  rw [List.nil_append] at hlasts
  refine ⟨s.begun f seed, ?_, hlasts⟩
  rw [growths, growthsIn, hopened, growths_recognize]
  rfl

/-- **Every token that is expanded is final.**  Let the expansion of a frame start from stored seeds,
and list the tokens that it expands with the arcs that are tried at them; this trace tells what the
expansion does, also if it is halted.  An entry that is taken from the queue has the score that its
token has, and each entry is no better than those before it.  From the time when a token is expanded,
as a seed or from the queue, its score and its predecessor stay as they are until the frame ends,
also if it is halted, and the token is not in the beam that the frame leaves.  So it is in every
frame of the fast match, which forgets what is not in the beam, and in every frame that the search
grows, whatever was asked before.  There the token also stays as it is in all later frames of the
utterance, at every arc that they try, and after them. -/
theorem taken_after :
    (∀ (g : Growth) (base : Store) (seeds : List Nat) (widths : BeamWidths) (lattice : Lattice)
        (memo : PenaltyMemo), Fits g.graph base → (∀ c ∈ seeds, c < base.size) →
      let e := Expansion.start base (.empty widths) lattice memo
      Traces g seeds e (e.taken g seeds) (e.run g seeds) ∧
        Orderly (e.taken g seeds) (e.run g seeds)) ∧
    (∀ (f : FastMatch) (n : Nat), f.pass.pruner.Selects →
      ∀ u ∈ f.growths n, Orderly u.takings u.expansion) ∧
    ∀ (settings : SearchSettings) (main fast : Pass) (cache : MixtureCache) (s₀ : Search),
      Search.new settings main fast cache = .ok s₀ → main.pruner.Selects → fast.pruner.Selects →
      ∀ (calls : List Call) (frames : List Nat),
        let s := s₀.after calls
        let asked := .start :: frames.map Call.recognize
        (∀ u ∈ s.growths asked, Orderly u.takings u.expansion) ∧
        ∀ earlier u later, s.growths asked = earlier ++ u :: later → ∀ x ∈ u.takings,
          (s.after asked).store.get? x.id = some x.token ∧
          ∀ v ∈ later, v.store.get? x.id = some x.token ∧ Stays x.id x.token v.takings v.expansion := by
  refine ⟨fun g base seeds widths lattice memo hfits hseeds => ?_,
    fun f n hselects u hu => (FastMatch.ready_growths f hselects n u hu).orderly,
    fun settings main fast cache s₀ hnew hmain hfast calls frames => ?_⟩
  · exact ⟨Expansion.traces_run g _ seeds, (Sound.start hfits widths lattice memo).orderly hseeds⟩
  · intro s asked
    have hsealed : s.Sealed settings.window fast := Sealed.after calls (sealed_new hnew hmain hfast)
    have hbuilt : s₀.Built settings main := by
      obtain ⟨-, f, -, rfl⟩ := exists_of_new hnew
      exact ⟨rfl, rfl, rfl, rfl, rfl⟩
    have hprimed : ∀ u ∈ s.growths asked, u.Primed := fun u hu =>
      (hsealed.found_growths asked (built_kept.after calls [] hbuilt) u hu).primed
    refine ⟨fun u hu => (hprimed u hu).orderly, fun earlier u later hsplit x hx => ?_⟩
    obtain ⟨first, hgrowths, hlasts⟩ := hsealed.lasts frames
    obtain ⟨hnow, hlater⟩ := hlasts earlier u later (hgrowths.symm.trans hsplit) x hx
    refine ⟨hnow.get, fun v hv => ⟨(hlater v hv).get, ?_⟩⟩
    have hv' := hprimed v (by rw [hsplit]; simp [hv])
    exact (Sound.start (g := v.growth) hv'.tidy.fits v.pass.widths v.lattice v.memo).stays_run
      (fun id hid => hv'.stored id (Beam.mem_worthExpanding hid))
      (Store.lt_size_of_get? (hlater v hv).get) (hlater v hv).get

/-- On the relay the second word is taken last, with the better score of its second arrival, while its
first entry still waits.  On the word loop a word of the first frame stays as it is throughout the
second one. -/
theorem taken_after_wordLoop :
    let e := Expansion.start Expansion.Relay.base (.empty ⟨0, .impossible⟩) (.empty 4) .empty
    (e.taken Expansion.Relay.growth [0]).map (fun x => (x.id, x.before.queue.map Pending.token)) =
      [(0, []), (1, [2]), (4, [2, 2]), (2, [2])] ∧
    Orderly (e.taken Expansion.Relay.growth [0]) (e.run Expansion.Relay.growth [0]) ∧
    ((WordLoop.search false).fastMatch.growths 1).length = 2 ∧
    (∀ u ∈ (WordLoop.search false).fastMatch.growths 1, Orderly u.takings u.expansion) ∧
    ∃ u v x, (WordLoop.search false).growths [.start, .recognize 1] = [u, v] ∧
      x ∈ u.takings ∧ x.id = 2 ∧ u.store.size ≤ x.id ∧ v.takings.map Taking.id = [1, 6, 7, 8] ∧
      Stays x.id x.token v.takings v.expansion ∧
      ((WordLoop.search false).after [.start, .recognize 1]).store.get? x.id = some x.token := by
  intro e
  obtain ⟨hframe, hfast, hcalls⟩ := taken_after
  obtain ⟨-, hrelay⟩ := hframe Expansion.Relay.growth Expansion.Relay.base [0] ⟨0, .impossible⟩
    (.empty 4) .empty Expansion.Relay.fits (by decide)
  refine ⟨by decide +kernel, hrelay, by decide +kernel,
    hfast _ 1 Pruner.selects_byWidths, ?_⟩
  have hids : ((WordLoop.search false).growths [.start, .recognize 1]).map
      (fun u => (u.store.size, u.takings.map Taking.id)) = [(1, [0, 2, 4]), (5, [1, 6, 7, 8])] := by
    decide +kernel
  obtain ⟨u, v, huv⟩ := List.length_eq_two.1 (by simpa using congrArg List.length hids)
  rw [huv] at hids
  obtain ⟨hu, hv⟩ : (u.store.size, u.takings.map Taking.id) = (1, [0, 2, 4]) ∧
      (v.store.size, v.takings.map Taking.id) = (5, [1, 6, 7, 8]) := by simpa using hids
  obtain ⟨hsize, hu⟩ := Prod.mk.inj hu
  obtain ⟨x, hx, hid⟩ : ∃ x ∈ u.takings, x.id = 2 := List.mem_map.1 (by rw [hu]; decide)
  obtain ⟨-, hstay⟩ := hcalls _ _ _ _ _ (WordLoop.search_eq false) Pruner.selects_byWidths
    Pruner.selects_byWidths [] [1]
  obtain ⟨hnow, hlater⟩ := hstay [] u [v] huv x hx
  exact ⟨u, v, x, huv, hx, hid, by omega, (Prod.mk.inj hv).2,
    (hlater v (List.mem_singleton_self v)).2, hnow⟩

end Search

end SpeechDecoder
