import SpeechDecoder.Proofs.Expansion.Threads
import SpeechDecoder.Proofs.Search.Grow

/-!
# The paths of a search

Whatever a search is asked, and also after an error, the tokens of its store lie on paths from the
initial token: `backtrace` and `wordPath` come to an end for all of them.

* `InOrder` is the invariant, `inOrder_kept` says that every call keeps it.
-/

namespace SpeechDecoder.Search

/-- **The invariant:** the paths of the store are in order, and no token is of a later frame. -/
structure InOrder (s : Search) : Prop where
  threaded : s.store.Threaded
  fits : Expansion.Fits s.pass.graph s.store
  frame_le : ∀ id t, s.store.get? id = some t → t.frame ≤ s.frame
  initial : 0 < s.store.size → s.initial = some 0

variable {s s' : Search}

theorem InOrder.empty (hs : s.store = .empty) : s.InOrder where
  threaded := hs ▸ Store.threaded_empty
  fits := by simp [hs, Expansion.Fits, Store.get?, Store.empty]
  frame_le := by simp [hs, Store.get?, Store.empty]
  initial := by simp [hs, Store.size, Store.empty]

theorem InOrder.grows (h : s.InOrder) (hg : s.Grows s') : s'.InOrder := by
  obtain ⟨done, e, stats, hsound, rfl⟩ := hg
  exact ⟨hsound.threaded h.threaded h.frame_le, hsound.fits,
    fun id t ht => hsound.frame_le h.frame_le ht,
    fun hpos => h.initial (hsound.size_pos h.threaded h.frame_le hpos)⟩

theorem InOrder.grow (h : s.InOrder) : Outcome InOrder (fun h => h.state.InOrder) s.grow := by
  refine (grow_outcome h.fits).mono (fun s' hg => h.grows hg) ?_
  rintro ⟨err, s'⟩ (hg | ⟨rfl, -⟩)
  · exact h.grows hg
  · exact h

/-- The tokens of an utterance that has begun. -/
theorem InOrder.begun {seed : Token} (fastMatch : FastMatch) (hseed : s.pass.seed = .ok seed) :
    (s.begun fastMatch seed).InOrder := by
  obtain ⟨st, hst, rfl⟩ := Pass.seed_eq_ok hseed
  have hget : ∀ id t, (Store.empty.push (.seed s.pass.graph.initial st.kind 0)).get? id = some t →
      id = 0 ∧ t = .seed s.pass.graph.initial st.kind 0 :=
    fun _ _ => Store.eq_of_get?_single
  refine ⟨⟨fun id hid => ?_, fun id t ht _ => (hget id t ht).1, fun id t p u ht hp => ?_⟩,
    fun id t ht => ?_, fun id t ht => ?_, fun _ => rfl⟩
  · obtain ⟨t, ht⟩ := Store.exists_get? hid
    exact ⟨[id], .root ht (by rw [(hget id t ht).2]; rfl)⟩
  · rw [(hget id t ht).2] at hp
    cases hp
  · rw [(hget id t ht).2]
    exact ⟨st, hst, rfl⟩
  · rw [(hget id t ht).2]
    exact Nat.zero_le _

/-- A store whose tokens differ in their scores only. -/
theorem InOrder.congr (h : s.InOrder) (hsize : s'.store.size = s.store.size)
    (hget : ∀ x t', s'.store.get? x = some t' → ∃ t, s.store.get? x = some t ∧
      t'.state = t.state ∧ t'.kind = t.kind ∧ t'.frame = t.frame ∧ t'.predecessor = t.predecessor)
    (hgraph : s'.pass.graph = s.pass.graph) (hframe : s.frame ≤ s'.frame)
    (hinit : s'.initial = s.initial) : s'.InOrder := by
  refine ⟨⟨fun id hid => ?_, fun id t' ht' hp => ?_, fun id t' p u' ht' hp hu' => ?_⟩,
    fun id t' ht' => ?_, fun id t' ht' => ?_, fun hpos => ?_⟩
  · obtain ⟨l, hl⟩ := h.threaded.rooted id (hsize ▸ hid)
    refine ⟨l, hl.congr fun x hx => ?_⟩
    obtain ⟨t', ht'⟩ := Store.exists_get? (a := s'.store) (by rw [hsize]; exact hl.mem_lt hx)
    obtain ⟨t, ht, -, -, -, hpred⟩ := hget x t' ht'
    rw [ht', ht, Option.map_some, Option.map_some, hpred]
  · obtain ⟨t, ht, -, -, -, hpred⟩ := hget id t' ht'
    exact h.threaded.first id t ht (hpred ▸ hp)
  · obtain ⟨t, ht, -, -, hf, hpred⟩ := hget id t' ht'
    obtain ⟨u, hu, -, -, hfu, -⟩ := hget p u' hu'
    rw [hf, hfu]
    exact h.threaded.ordered id t p u ht (hpred ▸ hp) hu
  · obtain ⟨t, ht, hst, hk, -, -⟩ := hget id t' ht'
    rw [hst, hk, hgraph]
    exact h.fits id t ht
  · obtain ⟨t, ht, -, -, hf, -⟩ := hget id t' ht'
    rw [hf]
    exact (h.frame_le id t ht).trans hframe
  · rw [hinit]
    exact h.initial (hsize ▸ hpos)

/-- A scored frame changes no path. -/
theorem InOrder.heard (h : s.InOrder) {outcome : ScoreOutcome} {source : AcousticSource}
    {store : Store}
    (hx : s.pass.source.scoreFrame s.store s.beam.tokens = .ok (outcome, source, store)) :
    (s.heard source store).InOrder := by
  refine h.congr (AcousticSource.size_scoreFrame hx) (fun x t' ht' => ?_) rfl le_rfl rfl
  have hmap := AcousticSource.map_scoreFrame hx
    (fun t => (t.state, t.kind, t.frame, t.predecessor)) (fun row t => by simp) x
  rw [show store.get? x = some t' from ht', Option.map_some, eq_comm, Option.map_eq_some_iff] at hmap
  obtain ⟨t, ht, heq⟩ := hmap
  simp only [Prod.mk.injEq] at heq
  exact ⟨t, ht, heq.1.symm, heq.2.1.symm, heq.2.2.1.symm, heq.2.2.2.symm⟩

/-- The invariant speaks of the store, the frame, the graph and the initial token only. -/
theorem InOrder.of_eq (h : s.InOrder) (hstore : s'.store = s.store)
    (hgraph : s'.pass.graph = s.pass.graph) (hframe : s.frame ≤ s'.frame)
    (hinit : s'.initial = s.initial) : s'.InOrder :=
  h.congr (by rw [hstore]) (fun x t ht => ⟨t, hstore ▸ ht, rfl, rfl, rfl, rfl⟩) hgraph hframe hinit

/-- **Every call keeps the paths in order.** -/
theorem inOrder_kept : Kept fun _ s => s.InOrder where
  start _ s _ := by
    rw [start_eq]
    split
    · exact InOrder.empty rfl
    · split
      · exact InOrder.empty rfl
      · next seed hseed => exact (InOrder.begun _ hseed).grow
  aside _ s fastMatch memo streamEnded h := h.of_eq rfl rfl le_rfl rfl
  purge _ s lattice h _ := h.of_eq rfl rfl le_rfl rfl
  stepFrame _ _ h := stepFrame_outcome h (fun _ _ _ hx => h.heard hx)
    (fun _ h => h.of_eq rfl rfl le_rfl rfl) (fun _ _ h => h.of_eq rfl rfl (Nat.le_succ _) rfl)
    fun _ h => h.grow

/-- **Every token lies on one path from the initial token,** which visits no token twice and does
not go back in time; so a backtrace comes to an end, and tells the words. -/
theorem backtrace_after {settings : SearchSettings} {main fastMatch : Pass} {cache : MixtureCache}
    {s₀ : Search} (h : Search.new settings main fastMatch cache = .ok s₀) (calls : List Call)
    (id : Nat) (hid : id < (s₀.after calls).store.size) :
    let s := s₀.after calls
    ∃ path, s.store.backtrace id = .ok path ∧ path.Nodup ∧ path.head? = s.initial ∧
      path.getLast? = some id ∧
      path.IsChain (fun x y => (s.store.get? y).bind Token.predecessor = some x) ∧
      path.Pairwise (fun x y => ∀ t u, s.store.get? x = some t → s.store.get? y = some u →
        t.frame ≤ u.frame) ∧
      s.store.wordPath id = .ok (path.filterMap s.store.word?) := by
  have hs := inOrder_kept.after calls [] (InOrder.empty (new_eq_ok h).2.1)
  obtain ⟨path, hpath⟩ := hs.threaded.rooted id hid
  refine ⟨path, hpath.backtrace, hpath.nodup, ?_, hpath.getLast?, hpath.isChain,
    hs.threaded.pairwise_frame hpath, hpath.wordPath⟩
  rw [hs.threaded.head? hpath, hs.initial (Nat.zero_lt_of_lt hid)]

/-- The final token of the word loop, through a cycle that emits nothing. -/
theorem backtrace_after_wordLoop :
    ∃ path words, ((WordLoop.search false).after [.start, .recognize 1]).store.backtrace 6 = .ok path ∧
      path.head? = some 0 ∧
      ((WordLoop.search false).after [.start, .recognize 1]).store.wordPath 6 = .ok words := by
  obtain ⟨path, hpath, -, hhead, -, -, -, hwords⟩ :=
    backtrace_after (WordLoop.search_eq false) [.start, .recognize 1] 6 (by decide +kernel)
  exact ⟨path, _, hpath, hhead.trans (by decide +kernel), hwords⟩

end SpeechDecoder.Search
