import SpeechDecoder.Proofs.Score.Greatest
import SpeechDecoder.Proofs.Search.Chronicle
import SpeechDecoder.Proofs.Search.Trials

/-!
# The results that a search tells

The results are those of the frame that was grown last.  Scoring a frame raises or lowers no score
on a final state, since nothing on one is in the beam; and a frame that is not grown, a call that is
refused and a purge leave them alone.

* `Announced` says what results tell, and what the best of them is.
* `growths` lists the frames that some calls grow.
* `Stands` is the invariant of a run: the results are those of the last frame in that list, unless
  the growth of it was halted.
* `results_after` is the theorem about a frame and about all calls.
-/

namespace SpeechDecoder

open Expansion (Fits Posted Reaches ends ends_iff posted_run)

/-! ## The best result -/

/-- **What results tell:** the tokens on final states, each of them once, by falling scores, and that
the best one is none if no final state is reached, and else the one with the greatest score. -/
structure Announced (graph : Graph) (a : Store) (on : Nat → Option Nat) (results : List Nat) :
    Prop where
  mem : ∀ id, id ∈ results ↔ Reaches graph on id
  nodup : results.Nodup
  falling : results.Pairwise fun x y => a.score y ≤ a.score x
  best : ∀ r : Recognition, r.results = results → ∃ best, r.bestFinal a = .ok best ∧
    (best = none ↔ ∀ id, ¬ Reaches graph on id) ∧
    ∀ id, best = some id → Reaches graph on id ∧ ∀ x, Reaches graph on x → a.score x ≤ a.score id

theorem Recognition.bestOf_eq {a : Store} {ids : List Nat} (h : ∀ id ∈ ids, id < a.size) :
    Recognition.bestOf a ids = .ok (Score.bestLast a.score ids) := by
  have hcheck : a.check (Store.compared ids) = .ok () := by
    refine (Store.check_eq_ok_iff _).2 fun id hid => h id ?_
    unfold Store.compared at hid
    split at hid
    · exact hid
    · cases hid
  unfold Recognition.bestOf
  rw [hcheck]
  rfl

theorem Expansion.Posted.announced {graph : Graph} {a : Store} {on : Nat → Option Nat}
    {results : List Nat} (h : Posted graph a on results)
    (hnumber : ∀ id ∈ results, (a.score id).IsNumber) : Announced graph a on results := by
  refine ⟨h.mem, h.nodup, h.falling.imp_of_mem fun hx hy hxy =>
    Score.le_of_not_lt (hnumber _ hy) (hnumber _ hx) hxy, fun r hr => ?_⟩
  subst hr
  obtain ⟨hnone, hsome⟩ := Score.bestLast_spec a.score r.results
  refine ⟨_, Recognition.bestOf_eq fun id hid => ?_, ?_, fun id hid => ?_⟩
  · obtain ⟨t, ht, -⟩ := h.stored id hid
    exact Store.lt_size_of_get? ht
  · rw [hnone, List.eq_nil_iff_forall_not_mem]
    exact forall_congr' fun id => not_congr (h.mem id)
  · obtain ⟨hmem, hle⟩ := hsome id hid
    refine ⟨(h.mem id).1 hmem, fun x hx => ?_⟩
    have hx := (h.mem x).2 hx
    exact Score.le_of_not_lt (hnumber x hx) (hnumber id hmem) (Score.not_lt_of_rank_le (hle x hx))

namespace Search

variable {s t u : Search} {log : List Search}

/-! ## The frames that are grown -/

/-- The frames that a call grows. -/
def growthsIn (s : Search) : Call → List Search
  | .start => s.opened?.toList
  | .recognize n => (s.turnsIn n).filterMap grown?

/-- **A frame that a call grows** is the first one of an utterance, or one that a turn has scored. -/
theorem growthsIn_cases {c : Call} (h : t ∈ s.growthsIn c) :
    (∃ f seed, s.pass.seed = .ok seed ∧ t = s.begun f seed) ∨
      ∃ n, ∃ u ∈ turnsOf n { s with streamEnded := false }, u.grown? = some t := by
  cases c with
  | start =>
    left
    change t ∈ s.opened?.toList at h
    unfold opened? at h
    split at h
    · next f seed _ hseed => exact ⟨f, seed, hseed, by simpa using h⟩
    · cases h
  | recognize n =>
    obtain ⟨u, hu, hut⟩ := List.mem_filterMap.1 h
    unfold turnsIn at hu
    split at hu
    · exact .inr ⟨n, u, hu, hut⟩
    · cases hu

/-- **The frames that some calls grow,** each of them as its growth finds the search. -/
def growths (s : Search) : List Call → List Search
  | [] => []
  | c :: calls => s.growthsIn c ++ (s.perform c).2.growths calls

/-- Nothing in the beam is on a final state. -/
def Calm (s : Search) : Prop := ∀ id ∈ s.beam.tokens, ends s.store id = false

/-- **The growth of a frame** leaves nothing but emitting states in the beam, and posts its
results. -/
theorem Calm.grow (h : s.Calm) (hs : s.Primed) :
    Outcome (fun u => u.Calm ∧ Posted u.pass.graph u.store u.tokenOn u.results)
      (fun h => h.state.Calm) s.grow := by
  have hseeds : ∀ id ∈ s.beam.worthExpanding s.store s.settings.acousticLookahead,
      id < s.store.size ∧ ends s.store id = false := fun id hid =>
    ⟨hs.stored id (Beam.mem_worthExpanding hid), h id (Beam.mem_worthExpanding hid)⟩
  have hsound := (Expansion.Sound.start (g := s.growth) hs.tidy.fits s.pass.widths s.lattice
    s.memo).run fun id hid => (hseeds id hid).1
  have hposted := posted_run (g := s.growth) hs.tidy.fits s.pass.widths s.lattice s.memo hseeds
  have hcalm : ∀ done e, Expansion.Sound s.growth s.store done e →
      ∀ id ∈ e.next.tokens, ends e.store id = false := by
    intro done e he id hid
    obtain ⟨-, t, ht, hemits⟩ := (he.mem_next id).1 hid
    rw [← Bool.not_eq_true, ends_iff]
    rintro ⟨t', ht', hfinal⟩
    rw [ht] at ht'
    cases ht'
    rw [StateKind.isEmitting_of_isFinal hfinal] at hemits
    cases hemits
  rw [grow_eq, Beam.seeds_of_lt hs.stored]
  dsimp only
  split
  · next err hx =>
    obtain ⟨-, done, he⟩ := hsound.of_error hx
    exact hcalm done _ he
  · next e hx =>
    obtain ⟨done, he, -⟩ := hsound.of_ok hx
    exact ⟨hcalm done e he, hposted.of_ok hx⟩

/-! ## The invariant -/

/-- The results are those that the growth of a frame left. -/
structure Rests (u s : Search) : Prop where
  posted : Posted s.pass.graph s.store s.tokenOn s.results
  results : s.results = u.results
  residents : s.residents = u.residents

/-- **The invariant:** the results are those of the last frame, unless its growth was halted. -/
structure Stands (log : List Search) (s : Search) : Prop where
  calm : s.Calm
  last : ∀ t u, log.getLast? = some t → t.grow = .ok u → Rests u s

/-- The store may change, but not on final states. -/
theorem Stands.congr (h : Stands log s) (hcalm : t.Calm) (hgraph : t.pass.graph = s.pass.graph)
    (hresults : t.results = s.results) (hresidents : t.residents = s.residents)
    (hstore : ∀ id, ends s.store id = true → t.store.get? id = s.store.get? id) : Stands log t := by
  refine ⟨hcalm, fun v u hv hu => ?_⟩
  obtain ⟨hposted, hr, hon⟩ := h.last v u hv hu
  have hon' : t.tokenOn = s.tokenOn := by
    funext st
    unfold tokenOn
    rw [hresidents]
  have hget : ∀ id ∈ s.results, t.store.get? id = s.store.get? id := fun id hid =>
    hstore id (ends_iff.2 (hposted.stored id hid))
  refine ⟨?_, hresults.trans hr, hresidents.trans hon⟩
  rw [hgraph, hon', hresults]
  refine ⟨hposted.mem, hposted.nodup, hposted.falling.imp_of_mem fun hx hy hxy => ?_,
    fun id hid => hget id hid ▸ hposted.stored id hid⟩
  unfold Store.score
  rw [hget _ hx, hget _ hy]
  exact hxy

/-- **Scoring a frame** changes nothing on final states. -/
theorem Stands.heard (h : Stands log s) {outcome : ScoreOutcome} {source : AcousticSource}
    {store : Store}
    (hx : s.pass.source.scoreFrame s.store s.beam.tokens = .ok (outcome, source, store)) :
    Stands log (s.heard source store) := by
  have hends : ∀ id, ends store id = ends s.store id := fun id => by
    have hmap := AcousticSource.map_scoreFrame hx (fun t => t.kind.isFinal)
      (fun row t => by rw [Token.heard_kind]) id
    unfold ends
    cases h₁ : store.get? id <;> cases h₂ : s.store.get? id <;> simp_all
  refine h.congr (fun id hid => (hends id).trans (h.calm id hid)) rfl rfl rfl fun id hid => ?_
  refine AcousticSource.get?_scoreFrame hx fun hmem => ?_
  rw [h.calm id hmem] at hid
  cases hid

/-- **The growth of a frame.** -/
theorem Stands.grow (h : s.Calm) (hs : s.Primed) (log : List Search) :
    Outcome (Stands (log ++ [s])) (fun h => Stands (log ++ [s]) h.state) s.grow := by
  have hgrow := h.grow hs
  cases hx : s.grow with
  | error err =>
    refine ⟨hgrow.of_error hx, fun t u ht hu => ?_⟩
    rw [List.getLast?_concat, Option.some.injEq] at ht
    rw [← ht, hx] at hu
    cases hu
  | ok v =>
    obtain ⟨hcalm, hposted⟩ := hgrow.of_ok hx
    refine ⟨hcalm, fun t u ht hu => ?_⟩
    rw [List.getLast?_concat, Option.some.injEq] at ht
    rw [← ht, hx] at hu
    cases hu
    exact ⟨hposted, rfl, rfl⟩

/-- **One frame.** -/
theorem Stands.stepFrame (h : Stands log s) (hs : s.Primed) :
    Outcome (fun r => Stands (log ++ s.grown?.toList) r.2)
      (fun h => Stands (log ++ s.grown?.toList) h.state) s.stepFrame := by
  obtain ⟨⟨outcome, source, store⟩, hx⟩ := AcousticSource.exists_scoreFrame s.pass.source hs.stored
  have hheard := h.heard hx
  unfold grown?
  rw [stepFrame_eq, hx]
  cases outcome with
  | exhausted =>
    rw [Option.toList_none, List.append_nil]
    exact hheard
  | streamEnd =>
    rw [Option.toList_none, List.append_nil]
    exact hheard.congr hheard.calm rfl rfl rfl fun _ _ => rfl
  | scored best =>
    obtain ⟨beam, hprune, hsub⟩ := hs.tidy.selects store s.beam fun id hid =>
      (AcousticSource.size_scoreFrame hx).symm ▸ hs.stored id hid
    have hmoved : ((s.heard source store).moved beam).Calm := fun id hid =>
      hheard.calm id (hsub.subset hid)
    dsimp only
    rw [hprune]
    dsimp only
    split
    · rw [Option.toList_none, List.append_nil]
      exact hheard.congr hmoved rfl rfl rfl fun _ _ => rfl
    · obtain ⟨beam', hprune', hprimed⟩ := (hs.heard hx).exists_pruned
      cases hprune.symm.trans hprune'
      exact (Stands.grow hmoved hprimed log).map _ fun _ h => h

variable {size : Nat} {fast : Pass}

/-- **The turns of an utterance,** after the frames of earlier calls. -/
theorem stands_chronicled (size : Nat) (fast : Pass) (log : List Search) :
    Chronicled size fast fun turns s => Stands (log ++ turns.filterMap grown?) s where
  aside _ _ _ _ _ h := h.congr h.calm rfl rfl rfl fun _ _ => rfl
  purge _ _ _ h _ := h.congr h.calm rfl rfl rfl fun _ _ => rfl
  stepFrame turns t h ht := by
    have hlog : log ++ (turns ++ [t]).filterMap grown? =
        log ++ turns.filterMap grown? ++ t.grown?.toList := by
      rw [List.filterMap_append, List.append_assoc, List.filterMap_cons]
      cases t.grown? <;> rfl
    rw [hlog]
    exact h.stepFrame ht.primed

/-- **The initial state is not final,** and so can be left. -/
def LeavesInitial (graph : Graph) : Prop :=
  ∀ st, graph.state? graph.initial = some st → st.kind.isFinal = false

/-- **One call.** -/
theorem Stands.perform (h : Stands log s) (hs : s.Sealed size fast)
    (hinitial : LeavesInitial s.pass.graph) (c : Call) :
    Stands (log ++ s.growthsIn c) (s.perform c).2 := by
  cases c with
  | start =>
    obtain ⟨f, hreset, -⟩ := hs.ready.reset
    obtain ⟨seed, hseed⟩ := s.pass.exists_seed
    have hopened : s.opened? = some (s.begun f seed) := by
      unfold opened?
      rw [hreset, hseed]
    have hcalm : (s.begun f seed).Calm := by
      intro id hid
      obtain ⟨st, hst, rfl⟩ := Pass.seed_eq_ok hseed
      have htokens : s.pass.seedBeam.tokens = [0] := Beam.tokens_push _ _ _
      rw [show (s.begun f _).beam = s.pass.seedBeam from rfl, htokens] at hid
      rw [List.mem_singleton.1 hid]
      exact hinitial st hst
    refine perform_start (Q := Stands (log ++ s.growthsIn .start)) ?_
    rw [start_eq, hreset, hseed, growthsIn, hopened]
    exact Stands.grow hcalm (.begun hs.primed.tidy f hseed) log
  | recognize n =>
    have hbefore : Stands (log ++ List.filterMap grown? []) s := by simpa using h
    exact @Chronicled.recognize size fast _ (stands_chronicled size fast log) s [] hbefore hs n

/-- **Some calls,** by induction on them. -/
theorem Stands.after {settings : SearchSettings} {main : Pass} (hinitial : LeavesInitial main.graph) :
    ∀ (calls : List Call) {s : Search} {log : List Search}, Stands log s → s.Sealed size fast →
      s.Built settings main → Stands (log ++ s.growths calls) (s.after calls)
  | [], s, log, h, _, _ => by
    rw [growths, List.append_nil]
    exact h
  | c :: calls, s, log, h, hs, hbuilt => by
    have hrest := Stands.after hinitial calls (h.perform hs (hbuilt.graph.symm ▸ hinitial) c)
      (hs.perform c).2 (built_kept.after [c] [] hbuilt)
    rw [List.append_assoc] at hrest
    exact hrest

/-- **What a call tells** are the results of the search that it leaves. -/
theorem results_of_answer {c : Call} {r : Recognition} (h : (s.perform c).1 = .ok (some r)) :
    r.results = (s.perform c).2.results := by
  cases c with
  | start =>
    unfold perform at h
    cases hx : s.start <;> simp [hx] at h
  | recognize n =>
    have hx := recognize_eq_of_perform h
    rw [recognize_eq] at hx
    split at hx
    · cases hx
    · next initial _ =>
      cases hf : Search.stepFrames n { s with streamEnded := false } with
      | error err =>
        rw [hf] at hx
        cases hx
      | ok x =>
        rw [hf] at hx
        rcases conclude_eq_ok hx with ⟨hnone, -⟩ | ⟨hsome, -, ⟨-, heq⟩ | ⟨-, lattice, -, heq⟩⟩
        · cases hnone
        · cases hsome
          rw [heq]
        · cases hsome
          rw [heq]

theorem results_of_answers : ∀ (calls : List Call) {s : Search} {r : Recognition},
    (s.answers calls).getLast? = some (.ok (some r)) → r.results = (s.after calls).results
  | [], _, _, h => by cases h
  | [c], s, r, h => by
    refine results_of_answer (c := c) ?_
    simpa [answers] using h
  | c :: c' :: calls, s, r, h => by
    refine results_of_answers (c' :: calls) (s := (s.perform c).2) ?_
    rwa [answers, answers, List.getLast?_cons_cons] at h

/-! ## The theorem -/

/-- **The results are the final states that were reached.**  An expansion that starts without
results, from stored seeds that are on no final state, ends with the tokens on final states as its
results, each of them once and by falling scores, if these scores are numbers.  So after whatever
calls, whose frames may be scored without being grown and which may be halted, the results of a
search are those of the frame that was grown last, if that was not halted; they are what the last
call told, and their best one is none if that frame reached no final state, and else the token with
the greatest score on one. -/
theorem results_after :
    (∀ (g : Growth) (base : Store) (seeds : List Nat) (widths : BeamWidths) (lattice : Lattice)
        (memo : PenaltyMemo) (e : Expansion),
      Fits g.graph base → (∀ c ∈ seeds, c < base.size ∧ ends base c = false) →
      (Expansion.start base (.empty widths) lattice memo).run g seeds = .ok e →
      (∀ id ∈ e.results, (e.store.score id).IsNumber) →
      Announced g.graph e.store e.resident? e.results) ∧
    ∀ (settings : SearchSettings) (main fast : Pass) (cache : MixtureCache) (s₀ : Search),
      Search.new settings main fast cache = .ok s₀ → main.pruner.Selects → fast.pruner.Selects →
      LeavesInitial main.graph →
      ∀ (calls : List Call) (t u : Search), (s₀.growths calls).getLast? = some t →
        t.grow = .ok u →
        let s := s₀.after calls
        s.results = u.results ∧
        (∀ r, (s₀.answers calls).getLast? = some (.ok (some r)) → r.results = s.results) ∧
        ((∀ id ∈ s.results, (s.store.score id).IsNumber) →
          Announced main.graph s.store s.tokenOn s.results) := by
  refine ⟨fun g base seeds widths lattice memo e hfits hseeds he hnumber => ?_,
    fun settings main fast cache s₀ h hmain hfast hinitial calls t u ht hu => ?_⟩
  · exact ((posted_run hfits widths lattice memo hseeds).of_ok he).announced hnumber
  · have hbuilt : s₀.Built settings main := by
      obtain ⟨-, f, -, rfl⟩ := exists_of_new h
      exact ⟨rfl, rfl, rfl, rfl, rfl⟩
    have hstands : Stands [] s₀ := by
      obtain ⟨-, f, -, rfl⟩ := exists_of_new h
      exact ⟨fun id hid => by (cases hid), fun t u ht => by cases ht⟩
    have hafter := hstands.after hinitial calls (sealed_new h hmain hfast) hbuilt
    rw [List.nil_append] at hafter
    obtain ⟨hposted, hresults, -⟩ := hafter.last t u ht hu
    refine ⟨hresults, fun r hr => results_of_answers calls hr, fun hnumber => ?_⟩
    have hgraph := (built_kept.after calls [] hbuilt).graph
    exact hgraph ▸ hposted.announced hnumber

/-- The first frame of the word loop reaches its final state with one token, and the second one with
another, which is told. -/
theorem results_after_wordLoop :
    let s := (WordLoop.search false).after [.start, .recognize 1]
    (s.results = [8] ∧ Announced WordLoop.graph s.store s.tokenOn s.results) ∧
      ∃ e, (Expansion.start (Store.empty.push (.seed 0 .branch 0)) (.empty WordLoop.pass.widths)
          s.lattice .empty).run (WordLoop.search false).growth [0] = .ok e ∧
        e.results = [4] ∧ Announced WordLoop.graph e.store e.resident? e.results := by
  intro s
  obtain ⟨hframe, hcalls⟩ := results_after
  constructor
  · obtain ⟨t, ht⟩ : ∃ t,
        ((WordLoop.search false).growths [.start, .recognize 1]).getLast? = some t :=
      Option.isSome_iff_exists.1 (by decide +kernel)
    have hok : (((WordLoop.search false).growths [.start, .recognize 1]).getLast?.any
      fun t => t.grow.toOption.any fun _ => true) = true := by decide +kernel
    rw [ht, Option.any_some] at hok
    obtain ⟨u, hu, -⟩ := exists_of_any hok
    have hinitial : LeavesInitial WordLoop.pass.graph := fun st hst => by
      cases hst
      rfl
    obtain ⟨-, -, hannounced⟩ := hcalls _ _ _ _ _ (WordLoop.search_eq false)
      Pruner.selects_byWidths Pruner.selects_byWidths hinitial [.start, .recognize 1] t u ht hu
    exact ⟨by decide +kernel, hannounced (by decide +kernel)⟩
  · obtain ⟨e, he, hresults⟩ := exists_of_any (x := (Expansion.start
        (Store.empty.push (.seed 0 .branch 0)) (.empty WordLoop.pass.widths) s.lattice .empty).run
        (WordLoop.search false).growth [0])
      (p := fun e => e.results = [4] ∧ (e.store.score 4).IsNumber) (by decide +kernel)
    obtain ⟨hresults, hnumber⟩ := of_decide_eq_true hresults
    have hfits : Fits WordLoop.graph (Store.empty.push (.seed 0 .branch 0)) := by
      refine Expansion.fits_single ?_ 0
      exact ⟨_, rfl, rfl⟩
    refine ⟨e, he, hresults, hframe (WordLoop.search false).growth _ [0] _ _ _ e hfits
      (by decide +kernel) he fun id hid => ?_⟩
    rw [hresults, List.mem_singleton] at hid
    exact hid ▸ hnumber

end Search

end SpeechDecoder
