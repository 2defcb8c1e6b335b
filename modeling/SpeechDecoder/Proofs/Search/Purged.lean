import SpeechDecoder.Proofs.Lattice.Purged
import SpeechDecoder.Proofs.Search.Edges
import SpeechDecoder.Proofs.Search.Restart

/-!
# The lattice after a call

A call that tells where the search stands ends with a purge.  The lattice that it purges has one list
for a token and lists stored tokens only, whatever was remembered and purged before, so the purge
keeps the best alternates of every token and is not refused.

* `purged_of_answer` says which lattice a call purges, and what it makes of it.
* `purged_after` is the theorem about purges, and about the lattice that a call leaves.
-/

namespace SpeechDecoder

namespace Search

variable {s t : Search} {settings : SearchSettings} {main : Pass}

/-- Some frames of a call keep what does not speak of the scores. -/
theorem Kept.of_stepFrames {Q : Search → Prop} (hQ : Kept fun _ => Q) (h : Q s) {n : Nat}
    {done : Bool} (hf : stepFrames n { s with streamEnded := false } = .ok (done, t)) : Q t := by
  have hlive := hQ.aside [] s s.fastMatch s.memo false h
  exact (@Steady.stepFrames (fun _ => Q) hQ.toSteady n _ [] hlive).of_ok hf

/-- **The purge that ends a call** is one of the lattice that the frames left. -/
theorem purged_of_answer (hb : s.Built settings main) (hc : s.Counted)
    (hh : s.Held main.source.rewind settings.maxLatticeEdges) (hbuild : settings.buildLattice = true)
    {n : Nat} {r : Recognition} (hx : s.recognize n = .ok (some r, t)) :
    ∃ done u, stepFrames n { s with streamEnded := false } = .ok (done, u) ∧
      u.lattice.maxEdges = settings.maxLatticeEdges ∧ u.store = t.store ∧
      u.lattice.purgeIn u.store = .ok t.lattice ∧
      Lattice.Purged u.store.score u.lattice t.lattice := by
  obtain ⟨initial, u, -, hf, -, -, hlattice⟩ := exists_of_recognize hx
  have hbuilt : u.Built settings main := built_kept.of_stepFrames hb hf
  have hcounted : u.Counted := counted_kept.of_stepFrames hc hf
  have hheld : u.Held main.source.rewind settings.maxLatticeEdges := held_kept.of_stepFrames hh hf
  rcases hlattice with ⟨hoff, -⟩ | ⟨-, lattice, hl, rfl⟩
  · rw [hbuilt.settings, hbuild] at hoff
    cases hoff
  · refine ⟨r.isFinal, u, hf, hheld.maxEdges, rfl, hl, ?_⟩
    rw [hcounted.tidy.purgeIn] at hl
    cases hl
    exact hcounted.distinct.purged _

/-- **A purge keeps the best alternates and only those.**  In a store with all that is listed, a
purge of lists of which no token has two leaves every token as many alternates as there is room for:
the first ones of their stable falling order if something is dropped, and all of them as they are
otherwise.  A token without any is forgotten, and the edges are counted token by token.  Another
purge changes nothing, and whatever is remembered of other tokens and purged later, the list of a
token stays.  So after whatever calls, a call that tells where the search stands leaves no token with
more alternates than one less than the limit of the settings, if the lattice is on. -/
theorem purged_after :
    (∀ (l : Lattice) (a : Store), l.Distinct → (∀ q ∈ l.links, ∀ p ∈ q.2, p < a.size) →
      ∃ l', l.purgeIn a = .ok l' ∧ Lattice.Purged a.score l l' ∧
        (∀ b, l'.purgeIn b = .ok l') ∧
        ∀ (id size : Nat) (es : List Lattice.Edit), a.size ≤ size →
          (∀ e ∈ es, e.Elsewhere id size) →
          ∃ l'', l'.edits es = .ok l'' ∧ l''.alternates id = l'.alternates id) ∧
    ∀ (settings : SearchSettings) (main fast : Pass) (cache : MixtureCache) (s₀ : Search),
      Search.new settings main fast cache = .ok s₀ → main.pruner.Selects →
      settings.buildLattice = true →
      ∀ (calls : List Call) (n : Nat) (r : Recognition),
        ((s₀.after calls).perform (.recognize n)).1 = .ok (some r) →
        let s := ((s₀.after calls).perform (.recognize n)).2
        (∀ id, (s.lattice.alternates id).length ≤ settings.maxLatticeEdges - 1) ∧
        ∃ done t, stepFrames n { s₀.after calls with streamEnded := false } = .ok (done, t) ∧
          t.store = s.store ∧ t.lattice.purgeIn t.store = .ok s.lattice ∧
          Lattice.Purged t.store.score t.lattice s.lattice := by
  refine ⟨fun l a hdistinct hlisted => ?_,
    fun settings main fast cache s₀ hnew hselects hbuild calls n r hr => ?_⟩
  · have hstored : l.Over (fun _ => True) (· < a.size) := fun q hq => ⟨trivial, hlisted q hq⟩
    refine ⟨_, hstored.purgeIn, hdistinct.purged _, l.purgeIn_purge _, fun id size es hsize hes => ?_⟩
    have hlater := hstored.mono (fun _ h => h) fun p hp => Nat.lt_of_lt_of_le hp hsize
    exact Lattice.Short.edits es (hdistinct.short_purge hlater a.score id) hes
  · have hheld : s₀.Held main.source.rewind settings.maxLatticeEdges := by
      have htidy := (tidy_new hnew hselects).1
      obtain ⟨-, f, -, rfl⟩ := exists_of_new hnew
      exact ⟨htidy, rfl, rfl⟩
    obtain ⟨done, t, hsteps, hmax, hstore, hl, hpurged⟩ :=
      purged_of_answer (built_kept.after calls [] (new_eq_ok hnew).1)
        (counted_kept.after calls [] (counted_new hnew hselects)) (held_kept.after calls [] hheld) hbuild
        (recognize_eq_of_perform hr)
    refine ⟨fun id => ?_, done, t, hsteps, hstore, hl, hpurged⟩
    have hlength := (hpurged.trimmed id).length
    rw [hmax] at hlength
    omega

/-- There is room for two of four alternates, and for one that is alone.  In the word loop there is
room for one, and the first frame fills it. -/
theorem purged_after_wordLoop :
    (let scored := fun x : Score => { Token.seed 0 .final 0 with score := x }
      let a : Store := ⟨#[scored (Float32.ofBits 0xC0000000), scored (Float32.ofBits 0xBF800000),
        scored .impossible, scored (Float32.ofBits 0xBF800000)]⟩
      let l : Lattice := ⟨3, [(4, [0, 1, 2, 3]), (5, [2])]⟩
      ∃ l', l.purgeIn a = .ok l' ∧ Lattice.Purged a.score l l' ∧
        (l'.alternates 4).length = 2 ∧ l'.alternates 5 = [2] ∧ l'.edgeCount = 3 ∧
        ∃ l'', l'.edits [.add 5 0, .purge a, .add 6 1] = .ok l'' ∧
          l''.alternates 4 = l'.alternates 4) ∧
    let s := (((WordLoop.search false).after [.start]).perform (.recognize 1)).2
    s.lattice.edgeCount = 1 ∧ ∀ id, (s.lattice.alternates id).length ≤ 1 := by
  obtain ⟨hpurge, hcall⟩ := purged_after
  constructor
  · intro scored a l
    obtain ⟨l', hl, hpurged, -, hlater⟩ :=
      hpurge l a (show (l.links.map Prod.fst).Nodup by decide) (by decide)
    have hlength : (l'.alternates 4).length = 2 := (hpurged.trimmed 4).length
    have hfive : l'.alternates 5 = [2] := (hpurged.trimmed 5).short (by decide)
    refine ⟨l', hl, hpurged, hlength, hfive, ?_, ?_⟩
    · rw [hpurged.counted]
      simp [l, hlength, hfive]
    · refine hlater 4 4 [.add 5 0, .purge a, .add 6 1] (by decide) fun e he => ?_
      simp only [List.mem_cons, List.not_mem_nil, or_false] at he
      rcases he with rfl | rfl | rfl
      · exact ⟨by decide, by decide⟩
      · exact Nat.le_refl 4
      · exact ⟨by decide, by decide⟩
  · have hanswer : ((((WordLoop.search false).after [.start]).perform
        (.recognize 1)).1.toOption.any fun answer => answer.isSome) = true := by decide +kernel
    obtain ⟨answer, hanswer, hsome⟩ := exists_of_any hanswer
    obtain ⟨r, rfl⟩ := Option.isSome_iff_exists.1 hsome
    exact ⟨by decide +kernel, (hcall _ _ _ _ _ (WordLoop.search_eq false) Pruner.selects_byWidths rfl
      [.start] 1 r hanswer).1⟩

end Search

end SpeechDecoder
