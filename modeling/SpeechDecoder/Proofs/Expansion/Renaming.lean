import SpeechDecoder.Proofs.Expansion.Frame
import SpeechDecoder.Proofs.Token.Renaming

/-!
# Expansions under other numbers

An expansion does the same from a store that numbers its tokens differently: the tokens that it
creates get corresponding numbers, and the queue, which prefers the token that was created first,
keeps its order.  No decision looks at a predecessor, and without a lattice none is remembered, so
the predecessors need not correspond.

* `Renames` is the relation; `Renames.arrive`, `Renames.follow`, `Renames.expandToken` and
  `Renames.run` carry it through an arrival, an arc, the expansion of a token and a whole frame.
-/

namespace SpeechDecoder

/-- An entry of the queue under another number. -/
def Pending.renamed (ρ : Nat → Nat) (p : Pending) : Pending := { p with token := ρ p.token }

namespace Pending

variable {ρ : Nat → Nat}

theorem notAfter_renamed (hρ : StrictMono ρ) (p q : Pending) :
    (p.renamed ρ).notAfter (q.renamed ρ) = p.notAfter q := by
  unfold notAfter renamed
  simp only [hρ.le_iff_le]

theorem enqueue_renamed (hρ : StrictMono ρ) (p : Pending) : ∀ queue : List Pending,
    enqueue (p.renamed ρ) (queue.map (renamed ρ)) = (enqueue p queue).map (renamed ρ)
  | [] => rfl
  | q :: queue => by
    simp only [List.map_cons, enqueue, notAfter_renamed hρ]
    split
    · rfl
    · rw [enqueue_renamed hρ p queue]
      rfl

end Pending

namespace Expansion

/-- An expansion under other numbers, with a store of its own. -/
def renamed (ρ : Nat → Nat) (a : Store) (e : Expansion) : Expansion :=
  { e with
    store := a
    next := e.next.renamed ρ
    residents := e.residents.map fun (s, id) => (s, ρ id)
    queue := e.queue.map (Pending.renamed ρ)
    results := e.results.map ρ }

/-- **An expansion does the same under other numbers.** -/
def Renames (ρ : Nat → Nat) (e e' : Expansion) : Prop :=
  ∃ a, e.store.Renamed ρ a ∧ e' = e.renamed ρ a

variable {ρ : Nat → Nat} {a : Store} {g : Growth} {e e' : Expansion}

/-- An expansion that has not begun. -/
theorem Renames.start {store : Store} (h : store.Renamed ρ a) (widths : BeamWidths)
    (lattice : Lattice) (memo : PenaltyMemo) :
    Renames ρ (.start store (.empty widths) lattice memo) (.start a (.empty widths) lattice memo) :=
  ⟨a, h, rfl⟩

/-! ## Arrivals -/

theorem resident?_renamed (ρ : Nat → Nat) (a : Store) (e : Expansion) (s : Nat) :
    (e.renamed ρ a).resident? s = (e.resident? s).map ρ := by
  have hlookup : ∀ l : List (Nat × Nat),
      (l.map fun (s, id) => (s, ρ id)).lookup s = (l.lookup s).map ρ := by
    intro l
    induction l with
    | nil => rfl
    | cons r l ih =>
      obtain ⟨s', id⟩ := r
      rw [List.map_cons, lookup_cons_eq, lookup_cons_eq, ih]
      split <;> rfl
  exact hlookup e.residents

/-- A token that is queued. -/
theorem Renames.enqueue (h : Renames ρ e e') (id : Nat) (kind : StateKind) (score : Score) :
    Renames ρ (e.enqueue id kind score) (e'.enqueue (ρ id) kind score) := by
  obtain ⟨a, ha, rfl⟩ := h
  refine ⟨a, ha, ?_⟩
  exact congrArg (fun queue => { e.renamed ρ a with
    queue, bestWord := if kind.isWord && e.bestWord < score then score else e.bestWord })
    (Pending.enqueue_renamed ha.mono ⟨score, id⟩ e.queue)

/-- A token that is appended to the beam. -/
theorem Renames.push (h : Renames ρ e e') (id : Nat) (score : Score) :
    Renames ρ { e with next := e.next.push id score }
      { e' with next := e'.next.push (ρ id) score } := by
  obtain ⟨a, ha, rfl⟩ := h
  exact ⟨a, ha, congrArg (fun next => { e.renamed ρ a with next })
    (Beam.push_renamed ρ e.next id score)⟩

/-- A score that is noted. -/
theorem Renames.note (h : Renames ρ e e') (id : Nat) (score : Score) :
    Renames ρ { e with next := e.next.note id score }
      { e' with next := e'.next.note (ρ id) score } := by
  obtain ⟨a, ha, rfl⟩ := h
  exact ⟨a, ha, congrArg (fun next => { e.renamed ρ a with next })
    (Beam.note_renamed ρ e.next id score)⟩

/-- A token that is created on a state. -/
theorem Renames.create (h : Renames ρ e e') {t t' : Token} (ht : t'.detached = t.detached)
    (s : Nat) : Renames ρ
      { e with
        store := e.store.push t
        residents := (s, e.store.size) :: e.residents
        created := e.created + 1 }
      { e' with
        store := e'.store.push t'
        residents := (s, e'.store.size) :: e'.residents
        created := e'.created + 1 } := by
  obtain ⟨a, ha, rfl⟩ := h
  refine ⟨_, ha.push ht, ?_⟩
  exact congrArg (fun id => { e.renamed ρ (a.push t') with
    residents := (s, id) :: (e.renamed ρ a).residents, created := e.created + 1 }) ha.size_eq.symm

/-- A token that is written. -/
theorem Renames.write (h : Renames ρ e e') {t t' : Token} (ht : t'.detached = t.detached)
    (id : Nat) : Renames ρ { e with store := e.store.set id t }
      { e' with store := e'.store.set (ρ id) t' } := by
  obtain ⟨a, ha, rfl⟩ := h
  exact ⟨_, ha.set ht id, rfl⟩

/-- **The first arrival on a state.** -/
theorem Renames.settle (h : Renames ρ e e') (link link' : Option Nat) (arc : Arc)
    (kind : StateKind) (score : Score) :
    Renames ρ (e.settle g link arc kind score) (e'.settle g link' arc kind score) := by
  have hcreate := h.create
    (show (Token.entering link' arc kind score g.frame).detached =
      (Token.entering link arc kind score g.frame).detached from rfl) arc.target
  have hadmits : e'.next.admits score = e.next.admits score := by
    obtain ⟨a, -, rfl⟩ := h
    exact Beam.admits_renamed ρ e.next score
  have hsize : e'.store.size = ρ e.store.size := by
    obtain ⟨a, ha, rfl⟩ := h
    exact ha.size_eq.symm
  unfold Expansion.settle
  rw [hadmits]
  split
  · exact h
  · dsimp only
    split
    · have hpush := hcreate.push e.store.size score
      rw [← hsize] at hpush
      exact hpush
    · have hqueue := hcreate.enqueue e.store.size kind score
      rw [← hsize] at hqueue
      exact hqueue

/-- **A later arrival on a state,** where no predecessor is remembered. -/
theorem Renames.contest (h : Renames ρ e e') (hlattice : g.buildLattice = false)
    (link link' : Option Nat) (arc : Arc) (kind : StateKind) (score : Score) (id : Nat)
    {t t' : Token} (ht : t'.detached = t.detached) :
    Renames ρ (e.contest g link arc kind score id t)
      (e'.contest g link' arc kind score (ρ id) t') := by
  have hremember : ∀ (f : Expansion) (id : Nat) (loser winner : Option Nat),
      f.remember g id loser winner = f := by
    intro f id loser winner
    unfold Expansion.remember
    rw [hlattice]
    split <;> rfl
  obtain ⟨hstate, hkind, hscore, hacoustic, -⟩ := Store.detached_eq_iff.1 ht
  have hrerouted : (t'.rerouted link' arc score g.frame).detached =
      (t.rerouted link arc score g.frame).detached :=
    Store.detached_eq_iff.2 ⟨hstate, hkind, rfl, hacoustic, rfl, rfl, rfl⟩
  have hwrite := h.write hrerouted id
  unfold Expansion.contest
  simp only [hremember, ite_self, hscore]
  split
  · split
    · exact hwrite.note id score
    · exact hwrite.enqueue id kind score
  · exact h

/-- **An arrival.** -/
theorem Renames.arrive (h : Renames ρ e e') (hlattice : g.buildLattice = false)
    (link link' : Option Nat) (arc : Arc) (kind : StateKind) (score : Score) :
    Matched (Renames ρ) (fun _ _ => True) (e.arrive g link arc kind score)
      (e'.arrive g link' arc kind score) := by
  have hresident : e'.resident? arc.target = (e.resident? arc.target).map ρ := by
    obtain ⟨a, -, rfl⟩ := h
    exact resident?_renamed ρ a e arc.target
  unfold Expansion.arrive
  rw [hresident]
  cases e.resident? arc.target with
  | none => exact h.settle link link' arc kind score
  | some id =>
    dsimp only [Option.map_some]
    cases hg : e.store.get? id with
    | none =>
      have hnone : e'.store.get? (ρ id) = none := by
        obtain ⟨a, ha, rfl⟩ := h
        exact ha.get?_eq_none hg
      simp [Store.get, hg, hnone, bind, Except.bind, Matched]
    | some t =>
      obtain ⟨t', ht', heq⟩ : ∃ t', e'.store.get? (ρ id) = some t' ∧ t'.detached = t.detached := by
        obtain ⟨a, ha, rfl⟩ := h
        exact ha.exists_get? hg
      rw [Store.get_eq_ok hg, Store.get_eq_ok ht']
      exact h.contest hlattice link link' arc kind score id heq

/-! ## Leading a token on -/

/-- **Following an arc.** -/
theorem Renames.follow (h : Renames ρ e e') (hlattice : g.buildLattice = false) {t t' : Token}
    (ht : t'.detached = t.detached) (source : State) (link link' : Option Nat) (arc : Arc) :
    Matched (Renames ρ) (fun _ _ => True) (e.follow g t source link arc)
      (e'.follow g t' source link' arc) := by
  cases htarget : g.graph.state? arc.target with
  | none =>
    rw [follow_lost htarget, follow_lost htarget]
    trivial
  | some target =>
    have hcut : ∃ isCut f f', e.cut g t.kind target.kind (t.score + arc.probability) = (isCut, f) ∧
        e'.cut g t.kind target.kind (t.score + arc.probability) = (isCut, f') ∧ Renames ρ f f' := by
      obtain ⟨a, ha, rfl⟩ := h
      unfold Expansion.cut
      split
      · split
        · exact ⟨_, _, _, rfl, rfl, a, ha, rfl⟩
        · rw [show (e.renamed ρ a).next = e.next.renamed ρ from rfl, Beam.threshold_renamed]
          exact ⟨_, _, _, rfl, rfl, a, ha, rfl⟩
      · exact ⟨_, _, _, rfl, rfl, a, ha, rfl⟩
    obtain ⟨isCut, f, f', hf, hf', hcut⟩ := hcut
    refine matched_follow rfl rfl ht htarget ?_ ?_ trivial ?_ <;> rw [hf, hf']
    · exact hcut
    · exact hcut.arrive hlattice link link' arc target.kind (t.score + arc.probability)

/-- **Expanding a token.** -/
theorem Renames.expandToken (h : Renames ρ e e') (hlattice : g.buildLattice = false) (id : Nat)
    {t t' : Token} (ht : t'.detached = t.detached) :
    Matched (Renames ρ) (fun _ _ => True) (e.expandToken g id t)
      (e'.expandToken g (ρ id) t') := by
  have hword : e'.bestWord = e.bestWord := by
    obtain ⟨a, -, rfl⟩ := h
    rfl
  refine matched_expandToken rfl (by rw [hword]) ht ?_ h (fun _ _ => trivial) fun _ source _ => ?_
  · obtain ⟨a, ha, rfl⟩ := h
    have hresults : e.results.map ρ ++ [ρ id] = (e.results ++ [id]).map ρ := by
      rw [List.map_append, List.map_singleton]
    exact ⟨a, ha, congrArg (fun results => { e.renamed ρ a with results }) hresults⟩
  · exact Matched.foldlM (fun _ _ arc _ hr => hr.follow hlattice ht _ _ _ arc) _ _ h

/-- **Expanding a seed.** -/
theorem Renames.expandSeed (h : Renames ρ e e') (hlattice : g.buildLattice = false) (id : Nat) :
    Matched (Renames ρ) (fun _ _ => True) (e.expandSeed g id) (e'.expandSeed g (ρ id)) := by
  obtain ⟨a, ha, rfl⟩ := h
  cases hg : e.store.get? id with
  | none =>
    unfold Expansion.expandSeed
    rw [hg, show (e.renamed ρ a).store.get? (ρ id) = none from ha.get?_eq_none hg]
    trivial
  | some t =>
    obtain ⟨t', ht', heq⟩ := ha.exists_get? hg
    refine matched_expandSeed hg ht' heq rfl ⟨a, ha, rfl⟩ fun expanded _ _ => ?_
    have hopen : Renames ρ { e with expanded } { e.renamed ρ a with expanded } := ⟨a, ha, rfl⟩
    exact hopen.expandToken hlattice id heq

/-! ## A frame -/

theorem isStale_renamed (ha : e.store.Renamed ρ a) (p : Pending) :
    (e.renamed ρ a).isStale (p.renamed ρ) = e.isStale p := by
  unfold Expansion.isStale
  cases hg : e.store.get? p.token with
  | none => rw [show (e.renamed ρ a).store.get? (p.renamed ρ).token = none from ha.get?_eq_none hg]
  | some t =>
    obtain ⟨t', ht', heq⟩ := ha.exists_get? hg
    rw [show (e.renamed ρ a).store.get? (p.renamed ρ).token = some t' from ht']
    dsimp only
    rw [(Store.detached_eq_iff.1 heq).1]
    rfl

/-- **Working off the queue,** by induction on the rounds. -/
theorem Renames.drain (hlattice : g.buildLattice = false) : ∀ (rounds : Nat) {e e' : Expansion},
    Renames ρ e e' → Matched (Renames ρ) (fun _ _ => True) (e.drain g rounds) (e'.drain g rounds)
  | 0, _, _, h => h
  | rounds + 1, e, _, ⟨a, ha, rfl⟩ => by
    have hqueue : (e.renamed ρ a).queue.dropWhile (e.renamed ρ a).isStale =
        (e.queue.dropWhile e.isStale).map (Pending.renamed ρ) := by
      have hstale : (e.renamed ρ a).isStale ∘ Pending.renamed ρ = e.isStale :=
        funext (isStale_renamed ha)
      rw [← hstale]
      exact List.dropWhile_map
    unfold Expansion.drain
    rw [hqueue]
    cases e.queue.dropWhile e.isStale with
    | nil => exact ⟨a, ha, rfl⟩
    | cons p rest =>
      rw [List.map_cons]
      dsimp only
      cases hg : e.store.get? p.token with
      | none =>
        rw [show (e.renamed ρ a).store.get? (p.renamed ρ).token = none from ha.get?_eq_none hg]
        trivial
      | some t =>
        obtain ⟨t', ht', heq⟩ := ha.exists_get? hg
        rw [show (e.renamed ρ a).store.get? (p.renamed ρ).token = some t' from ht']
        dsimp only
        rw [(Store.detached_eq_iff.1 heq).1]
        have hpop : Renames ρ { e with queue := rest, expanded := t.state :: e.expanded }
            { e.renamed ρ a with
              queue := rest.map (Pending.renamed ρ), expanded := t.state :: e.expanded } :=
          ⟨a, ha, rfl⟩
        exact (hpop.expandToken hlattice p.token heq).bind fun _ _ hr =>
          Renames.drain hlattice rounds hr

/-- **A frame does the same under other numbers.** -/
theorem Renames.run (h : Renames ρ e e') (hlattice : g.buildLattice = false) (seeds : List Nat) :
    Matched (Renames ρ) (fun _ _ => True) (e.run g seeds) (e'.run g (seeds.map ρ)) := by
  unfold Expansion.run
  rw [List.foldlM_map]
  exact (Matched.foldlM (fun _ _ id _ hr => hr.expandSeed hlattice id) e e' h).bind
    fun _ _ hr => Renames.drain hlattice _ hr

end Expansion

end SpeechDecoder
