import SpeechDecoder.Proofs.Search.Edges

/-!
# Cycles of the lattice

A losing predecessor of a word may descend from the word itself, if the arcs lead from its state
back to it within the frame.  Then the lattice has a cycle; if the tokens are collapsed, the word is
its own alternate.  There are no other cycles: every edge leads to an earlier frame, or to a token
whose state leads on to that of the token within the frame (`Store.Behind`), and the predecessors by
themselves lead to the initial token.  So the lattice is acyclic wherever no word of the graph leads
back to itself without a frame.

* `Link` is one step in the lattice; `Counted.recurs_of_cycle` and `exists_word_of_cycle` say what a
  cycle of links needs.
* `cycle_wordLoop` are cycles in both modes of linking, and `acyclic_after` is the theorem.
-/

namespace SpeechDecoder

open Relation

namespace Store

variable {a : Store} {graph : Graph}

/-- Edges lead further and further back. -/
theorem Behind.trans {p q : Nat} {t u : Token} (hq : a.Behind graph q t) (hne : q ≠ 0)
    (hu : a.get? q = some u) (hp : a.Behind graph p u) : a.Behind graph p t := by
  obtain ⟨u', hu', hback⟩ := hq.resolve_left hne
  rw [hu] at hu'
  cases hu'
  refine hp.imp_right fun ⟨v, hv, hback'⟩ => ⟨v, hv, ?_⟩
  rcases hback with hlt | ⟨heq, hpasses⟩
  · left
    rcases hback' with hlt' | ⟨heq', -⟩
    · exact hlt'.trans hlt
    · rwa [heq']
  · rw [← heq]
    exact hback'.imp_right fun ⟨heq', hpasses'⟩ => ⟨heq', hpasses'.trans hpasses⟩

/-- Going back along the predecessors shortens the path. -/
theorem Path.length_lt_of_transGen {id p : Nat} {l : List Nat} (hl : a.Path id l)
    (h : TransGen (fun x y => (a.get? x).bind Token.predecessor = some y) id p) :
    ∃ l', a.Path p l' ∧ l'.length < l.length := by
  have hstep : ∀ {x y : Nat} {l : List Nat}, a.Path x l →
      (a.get? x).bind Token.predecessor = some y → ∃ l', a.Path y l' ∧ l'.length < l.length := by
    intro x y l hl hxy
    obtain ⟨t, ht, hp⟩ := Option.bind_eq_some_iff.1 hxy
    obtain ⟨l', hl'⟩ := hl.predecessor ht hp
    refine ⟨l', hl', ?_⟩
    rw [hl.unique (.step ht hp hl')]
    simp
  induction h with
  | single h => exact hstep hl h
  | tail _ h ih =>
    obtain ⟨l₁, hl₁, hlt⟩ := ih
    obtain ⟨l₂, hl₂, hlt'⟩ := hstep hl₁ h
    exact ⟨l₂, hl₂, hlt'.trans hlt⟩

/-- **The predecessors lead to no token twice.** -/
theorem Threaded.not_transGen (ha : a.Threaded) (id : Nat) :
    ¬ TransGen (fun x y => (a.get? x).bind Token.predecessor = some y) id id := by
  intro h
  obtain ⟨y, hy, -⟩ := TransGen.head'_iff.1 h
  obtain ⟨t, ht, -⟩ := Option.bind_eq_some_iff.1 hy
  obtain ⟨l, hl⟩ := ha.rooted id (lt_size_of_get? ht)
  obtain ⟨l', hl', hlt⟩ := hl.length_lt_of_transGen h
  rw [hl.unique hl'] at hlt
  exact Nat.lt_irrefl _ hlt

end Store

namespace Search

variable {s : Search}

/-! ## Links -/

/-- **A link of the lattice:** from a token to its predecessor, or from a word to an alternate. -/
def Link (s : Search) (id p : Nat) : Prop :=
  ∃ t ∈ s.store.get? id,
    t.predecessor = some p ∨ t.kind.isWord = true ∧ p ∈ s.lattice.alternates id

instance (s : Search) (id p : Nat) : Decidable (s.Link id p) :=
  inferInstanceAs (Decidable (∃ t ∈ s.store.get? id,
    t.predecessor = some p ∨ t.kind.isWord = true ∧ p ∈ s.lattice.alternates id))

theorem Link.exists_edge {id p : Nat} (h : s.Link id p) :
    ∃ t, s.store.get? id = some t ∧ p ∈ s.edges id t := by
  obtain ⟨t, ht, hp⟩ := h
  refine ⟨t, ht, List.mem_append.2 (hp.imp (fun hp => ?_) And.right)⟩
  simp [hp]

/-- A chain of links leads back. -/
theorem Counted.behind_of_transGen (h : s.Counted) {id p : Nat} (hlink : TransGen s.Link id p) :
    id ≠ 0 ∧ ∃ t, s.store.get? id = some t ∧ s.store.Behind s.pass.graph p t := by
  have hone : ∀ {x y : Nat}, s.Link x y →
      x ≠ 0 ∧ ∃ t, s.store.get? x = some t ∧ s.store.Behind s.pass.graph y t := by
    intro x y hxy
    obtain ⟨t, ht, hy⟩ := hxy.exists_edge
    obtain ⟨hne, hback⟩ := (h.backed x t y ht).2 hy
    exact ⟨hne, t, ht, hback⟩
  induction hlink with
  | single hlink => exact hone hlink
  | tail _ hlink ih =>
    obtain ⟨hid, t, ht, hq⟩ := ih
    obtain ⟨hne, u, hu, hp⟩ := hone hlink
    exact ⟨hid, t, ht, hq.trans hne hu hp⟩

/-- **A cycle of links stays in one frame,** and the state of each of its tokens leads back to
itself. -/
theorem Counted.recurs_of_cycle (h : s.Counted) {id : Nat} (hcycle : TransGen s.Link id id) :
    ∃ t, s.store.get? id = some t ∧ TransGen s.pass.graph.Passes t.state t.state := by
  obtain ⟨hid, t, ht, hback⟩ := h.behind_of_transGen hcycle
  obtain ⟨u, hu, hback⟩ := hback.resolve_left hid
  rw [ht] at hu
  cases hu
  exact ⟨t, ht, (hback.resolve_left (Nat.lt_irrefl _)).2⟩

/-- **A cycle of links leads over a word,** since it leads over an alternate. -/
theorem exists_word_of_cycle (h : s.store.Threaded) {id : Nat} (hcycle : TransGen s.Link id id) :
    ∃ w t, TransGen s.Link id w ∧ TransGen s.Link w id ∧ s.store.get? w = some t ∧
      t.kind.isWord = true := by
  by_contra hnone
  push Not at hnone
  -- without words the links of the cycle are predecessors
  have hpred : ∀ x y, TransGen s.Link id x → s.Link x y → ReflTransGen s.Link y id →
      (s.store.get? x).bind Token.predecessor = some y := by
    intro x y hx hlink hy
    have hlink' := hlink
    obtain ⟨t, ht, hp | ⟨hword, -⟩⟩ := hlink'
    · exact Option.bind_eq_some_iff.2 ⟨t, ht, hp⟩
    · exact absurd hword (hnone x t hx (.head' hlink hy) ht)
  have hall : ∀ p, TransGen s.Link id p → ReflTransGen s.Link p id →
      TransGen (fun x y => (s.store.get? x).bind Token.predecessor = some y) id p := by
    intro p hp
    induction hp with
    | single hlink => exact fun hy => .single (hpred _ _ hcycle hlink hy)
    | tail hx hlink ih => exact fun hy => (ih (.head hlink hy)).tail (hpred _ _ hx hlink hy)
  exact h.not_transGen id (hall id hcycle .refl)

/-- Where no link leads back, a chain of links visits no token twice. -/
theorem nodup_of_isChain (h : ∀ id, ¬ TransGen s.Link id id) {path : List Nat}
    (hpath : path.IsChain s.Link) : path.Nodup := by
  have hpairwise : path.Pairwise (TransGen s.Link) :=
    List.isChain_iff_pairwise.1 (hpath.imp fun _ _ => TransGen.single)
  exact hpairwise.imp fun {x y} (hxy : TransGen s.Link x y) (heq : x = y) => by
    subst heq
    exact h x hxy

/-! ## The theorem -/

/-- **The cycles of the lattice.**  After whatever calls, a cycle of links leads over a word whose
state leads back to itself without a frame.  Where the graph has no such word, no chain of links
returns to the token that it started from; so it visits no token twice, and ends. -/
theorem acyclic_after {settings : SearchSettings} {main fastMatch : Pass} {cache : MixtureCache}
    {s₀ : Search} (h : Search.new settings main fastMatch cache = .ok s₀)
    (hselects : main.pruner.Selects) (calls : List Call) :
    let s := s₀.after calls
    (∀ id, TransGen s.Link id id → ∃ w t, TransGen s.Link id w ∧ TransGen s.Link w id ∧
      s.store.get? w = some t ∧ t.kind.isWord = true ∧ TransGen main.graph.Passes t.state t.state) ∧
    ((∀ q st, main.graph.state? q = some st → st.kind.isWord = true →
        ¬ TransGen main.graph.Passes q q) →
      (∀ id, ¬ TransGen s.Link id id) ∧
      ∀ path : List Nat, path.IsChain s.Link → (∀ id ∈ path, id < s.store.size) →
        path.Nodup ∧ path.length ≤ s.store.size) := by
  intro s
  have hcounted : s.Counted := counted_kept.after calls [] (counted_new h hselects)
  have hbuilt : s.Built settings main := built_kept.after calls [] (new_eq_ok h).1
  have hword : ∀ id, TransGen s.Link id id → ∃ w t, TransGen s.Link id w ∧ TransGen s.Link w id ∧
      s.store.get? w = some t ∧ t.kind.isWord = true ∧
        TransGen main.graph.Passes t.state t.state := by
    intro id hcycle
    obtain ⟨w, t, hw, hw', ht, hkind⟩ := exists_word_of_cycle hcounted.inOrder.threaded hcycle
    obtain ⟨u, hu, hrecurs⟩ := hcounted.recurs_of_cycle (hw'.trans hw)
    rw [ht] at hu
    cases hu
    exact ⟨w, t, hw, hw', ht, hkind, hbuilt.graph ▸ hrecurs⟩
  refine ⟨hword, fun hgraph => ?_⟩
  have hacyclic : ∀ id, ¬ TransGen s.Link id id := fun id hcycle => by
    obtain ⟨w, t, -, -, ht, hkind, hrecurs⟩ := hword id hcycle
    obtain ⟨st, hst, hkind'⟩ := hcounted.inOrder.fits w t ht
    exact hgraph t.state st (hbuilt.graph ▸ hst) (hkind' ▸ hkind) hrecurs
  refine ⟨hacyclic, fun path hpath hlt => ?_⟩
  have hnodup := nodup_of_isChain hacyclic hpath
  have hsub : path ⊆ List.range s.store.size := fun id hid => List.mem_range.2 (hlt id hid)
  exact ⟨hnodup, by simpa using (List.subperm_of_subset hnodup hsub).length_le⟩

/-- On the junction the final token goes back over a word and a branch, and to none of them twice. -/
theorem acyclic_after_junction :
    let s := Junction.search.after [.start]
    (∀ id, ¬ TransGen s.Link id id) ∧ [5, 4, 2, 0].IsChain s.Link ∧
      [5, 4, 2, 0].length ≤ s.store.size := by
  intro s
  have hpasses : ∀ q q', Junction.graph.Passes q q' → q < q' := by
    rintro q _ ⟨st, hst, -, -, arc, harc, rfl⟩
    exact Junction.lt_target hst harc
  obtain ⟨-, hacyclic⟩ := acyclic_after Junction.search_eq Pruner.selects_byWidths [.start]
  obtain ⟨hacyclic, hchains⟩ := hacyclic fun q _ _ _ hcycle => by
    have hlt : TransGen (fun x y : Nat => x < y) q q :=
      TransGen.mono hpasses q q hcycle
    rw [transGen_eq_self] at hlt
    exact Nat.lt_irrefl q hlt
  have hchain : [5, 4, 2, 0].IsChain s.Link := by decide +kernel
  exact ⟨hacyclic, hchain, (hchains _ hchain (by decide +kernel)).2⟩

/-- **A word that is its own alternate,** and one whose alternate descends from it: in the loop, the
word leads back to itself without a frame. -/
theorem cycle_wordLoop :
    (WordLoop.settings false).buildLattice = true ∧
    Search.new (WordLoop.settings false) WordLoop.pass WordLoop.pass none =
      .ok (WordLoop.search false) ∧
    TransGen ((WordLoop.search false).after [.start, .recognize 1]).Link 6 6 ∧
    Junction.settings.buildLattice = true ∧
    Search.new Junction.settings WordLoop.pass WordLoop.pass none =
      .ok { WordLoop.search true with settings := Junction.settings } ∧
    TransGen ({ WordLoop.search true with settings := Junction.settings }.after
      [.start, .recognize 1]).Link 6 6 := by
  refine ⟨rfl, WordLoop.search_eq false, .single (by decide +kernel), rfl, rfl,
    .tail (b := 7) (.single ?_) ?_⟩ <;> decide +kernel

end Search

end SpeechDecoder
