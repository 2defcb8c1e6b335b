import SpeechDecoder.Expansion.Basic

/-!
# What an operation of an expansion writes

The parts of an expansion that an operation changes, as an update of the expansion before it.  What
is said of an operation elsewhere is read off here.

* `settle_eq` and `settle_refused` are the first arrival on a state, `contest_better` and
  `contest_worse` a later one.
* `settle_emitting`, `contest_emitting`, `settle_silent` and `contest_silent` tell all that they
  write, by the kind of the state.
* `bestWord_settle` and `bestWord_contest` say what becomes of the best score of a word.
-/

namespace SpeechDecoder.Expansion

variable {g : Growth} {e : Expansion}

/-- Remembering a predecessor changes the lattice only. -/
theorem remember_eq (g : Growth) (e : Expansion) (id : Nat) (loser winner : Option Nat) :
    ∃ lattice, e.remember g id loser winner = { e with lattice } := by
  unfold Expansion.remember
  split
  · exact ⟨_, rfl⟩
  · split
    · exact ⟨_, rfl⟩
    · exact ⟨_, rfl⟩

/-- Testing an arc changes the memo only. -/
theorem cut_eq (g : Growth) (e : Expansion) (source kind : StateKind) (score : Score) :
    ∃ isCut memo, e.cut g source kind score = (isCut, { e with memo }) := by
  unfold Expansion.cut
  split
  · split
    · exact ⟨_, _, rfl⟩
    · exact ⟨_, _, rfl⟩
  · exact ⟨_, _, rfl⟩

/-- Without a lookahead nothing is cut. -/
theorem cut_of_none (h : g.phoneCut = none) (e : Expansion) (source kind : StateKind)
    (score : Score) : e.cut g source kind score = (false, e) := by
  unfold Expansion.cut
  rw [h]

/-- The beam refuses a first arrival on an emitting state. -/
theorem settle_refused {kind : StateKind} {score : Score}
    (h : (kind.isEmitting && !e.next.admits score) = true) (link : Option Nat) (arc : Arc) :
    e.settle g link arc kind score = e := by
  unfold Expansion.settle
  rw [if_pos h]

/-- **A first arrival** that is not refused adds a token, to the beam or to the queue. -/
theorem settle_eq {kind : StateKind} {score : Score}
    (h : (kind.isEmitting && !e.next.admits score) = false) (link : Option Nat) (arc : Arc) :
    ∃ bestWord created, e.settle g link arc kind score = { e with
      store := e.store.push (.entering link arc kind score g.frame)
      residents := (arc.target, e.store.size) :: e.residents
      next := if kind.isEmitting then e.next.push e.store.size score else e.next
      queue := if kind.isEmitting then e.queue else Pending.enqueue ⟨score, e.store.size⟩ e.queue
      bestWord, created } := by
  unfold Expansion.settle
  rw [h]
  cases kind.isEmitting
  · exact ⟨_, _, rfl⟩
  · exact ⟨_, _, rfl⟩

/-- **A later arrival that is better** reroutes the token on the state. -/
theorem contest_better {t : Token} {score : Score} (h : t.score < score) (link : Option Nat)
    (arc : Arc) (kind : StateKind) (id : Nat) :
    ∃ lattice bestWord, e.contest g link arc kind score id t = { e with
      store := e.store.set id (t.rerouted link arc score g.frame)
      next := if kind.isEmitting then e.next.note id score else e.next
      queue := if kind.isEmitting then e.queue else Pending.enqueue ⟨score, id⟩ e.queue
      lattice, bestWord } := by
  unfold Expansion.contest
  rw [if_pos h]
  cases kind.isEmitting <;> cases kind.isWord
  · exact ⟨_, _, rfl⟩
  · obtain ⟨lattice, heq⟩ := remember_eq g
      ({ e with store := e.store.set id (t.rerouted link arc score g.frame) }.enqueue id kind score)
      id t.predecessor link
    exact ⟨lattice, _, heq⟩
  · exact ⟨_, _, rfl⟩
  · obtain ⟨lattice, heq⟩ := remember_eq g
      { e with
        store := e.store.set id (t.rerouted link arc score g.frame)
        next := e.next.note id score } id t.predecessor link
    exact ⟨lattice, _, heq⟩

/-- A later arrival that is no better changes the lattice only. -/
theorem contest_worse {t : Token} {score : Score} (h : ¬ t.score < score) (link : Option Nat)
    (arc : Arc) (kind : StateKind) (id : Nat) :
    ∃ lattice, e.contest g link arc kind score id t = { e with lattice } := by
  unfold Expansion.contest
  rw [if_neg h]
  split
  · exact remember_eq g e id link t.predecessor
  · exact ⟨_, rfl⟩

/-! ## One part at a time -/

theorem store_settle (g : Growth) (e : Expansion) (link : Option Nat) (arc : Arc)
    (kind : StateKind) (score : Score) :
    (e.settle g link arc kind score).store =
      if kind.isEmitting && !e.next.admits score then e.store
        else e.store.push (.entering link arc kind score g.frame) := by
  cases h : (kind.isEmitting && !e.next.admits score) with
  | true => rw [settle_refused h, if_pos rfl]
  | false =>
    obtain ⟨_, _, heq⟩ := settle_eq (g := g) h link arc
    rw [heq, if_neg Bool.false_ne_true]

/-- A first arrival remembers nothing. -/
theorem lattice_settle (g : Growth) (e : Expansion) (link : Option Nat) (arc : Arc)
    (kind : StateKind) (score : Score) :
    (e.settle g link arc kind score).lattice = e.lattice := by
  cases h : (kind.isEmitting && !e.next.admits score) with
  | true => rw [settle_refused h]
  | false =>
    obtain ⟨_, _, heq⟩ := settle_eq (g := g) h link arc
    rw [heq]

/-- A later arrival changes the token on the state, if it is better, and no other. -/
theorem store_contest (g : Growth) (e : Expansion) (link : Option Nat) (arc : Arc)
    (kind : StateKind) (score : Score) (id : Nat) (t : Token) :
    (e.contest g link arc kind score id t).store =
      if t.score < score then e.store.set id (t.rerouted link arc score g.frame) else e.store := by
  by_cases h : t.score < score
  · obtain ⟨_, _, heq⟩ := contest_better (g := g) (e := e) h link arc kind id
    rw [heq, if_pos h]
  · obtain ⟨_, heq⟩ := contest_worse (g := g) (e := e) h link arc kind id
    rw [heq, if_neg h]

theorem size_contest (g : Growth) (e : Expansion) (link : Option Nat) (arc : Arc)
    (kind : StateKind) (score : Score) (id : Nat) (t : Token) :
    (e.contest g link arc kind score id t).store.size = e.store.size := by
  rw [store_contest]
  split
  · exact Store.size_set _ _ _
  · rfl

/-! ## By kinds -/

/-- The best word after an arrival on a state of a kind. -/
def raised (best : Score) (kind : StateKind) (score : Score) : Score :=
  if kind.isWord && decide (best < score) then score else best

theorem raised_of_not_isWord {kind : StateKind} (h : kind.isWord = false) (best score : Score) :
    raised best kind score = best := by
  unfold raised
  rw [h]
  rfl

/-- What is remembered does not depend on the other parts. -/
theorem remember_congr {e' : Expansion} (h : e'.lattice = e.lattice) (id : Nat)
    (loser winner : Option Nat) :
    e'.remember g id loser winner =
      { e' with lattice := (e.remember g id loser winner).lattice } := by
  unfold Expansion.remember
  split
  · rw [← h]
  · split
    · rw [← h]
    · rw [← h]

/-- A first arrival on an emitting state. -/
theorem settle_emitting {kind : StateKind} (h : kind.isEmitting = true) (e : Expansion)
    (link : Option Nat) (arc : Arc) (score : Score) :
    e.settle g link arc kind score =
      if e.next.admits score then
        { e with
          store := e.store.push (.entering link arc kind score g.frame)
          residents := (arc.target, e.store.size) :: e.residents
          next := e.next.push e.store.size score
          created := e.created + 1 }
      else e := by
  unfold Expansion.settle
  rw [h]
  cases e.next.admits score <;> rfl

/-- A later arrival on an emitting state. -/
theorem contest_emitting {kind : StateKind} (h : kind.isEmitting = true) (e : Expansion)
    (link : Option Nat) (arc : Arc) (score : Score) (id : Nat) (t : Token) :
    e.contest g link arc kind score id t =
      if t.score < score then
        { e with
          store := e.store.set id (t.rerouted link arc score g.frame)
          next := e.next.note id score }
      else e := by
  unfold Expansion.contest
  rw [h, StateKind.isWord_of_isEmitting h]
  rfl

/-- A first arrival on a state that emits nothing. -/
theorem settle_silent {kind : StateKind} (h : kind.isEmitting = false) (e : Expansion)
    (link : Option Nat) (arc : Arc) (score : Score) :
    e.settle g link arc kind score =
      { e with
        store := e.store.push (.entering link arc kind score g.frame)
        residents := (arc.target, e.store.size) :: e.residents
        queue := Pending.enqueue ⟨score, e.store.size⟩ e.queue
        bestWord := raised e.bestWord kind score
        created := e.created + 1 } := by
  unfold Expansion.settle
  rw [h]
  rfl

/-- A later arrival on a state that emits nothing. -/
theorem contest_silent {kind : StateKind} (h : kind.isEmitting = false) (e : Expansion)
    (link : Option Nat) (arc : Arc) (score : Score) (id : Nat) (t : Token) :
    e.contest g link arc kind score id t =
      if t.score < score then
        { e with
          store := e.store.set id (t.rerouted link arc score g.frame)
          queue := Pending.enqueue ⟨score, id⟩ e.queue
          bestWord := raised e.bestWord kind score
          lattice :=
            if kind.isWord then (e.remember g id t.predecessor link).lattice else e.lattice }
      else
        { e with
          lattice :=
            if kind.isWord then (e.remember g id link t.predecessor).lattice else e.lattice } := by
  unfold Expansion.contest
  rw [h]
  by_cases hlt : t.score < score
  · rw [if_pos hlt, if_pos hlt]
    dsimp only
    cases hword : kind.isWord with
    | true =>
      rw [if_neg Bool.false_ne_true, if_pos rfl]
      exact (remember_congr (e := e) (by rfl) id t.predecessor link).trans (by simp [enqueue, raised])
    | false => simp [enqueue, raised]
  · rw [if_neg hlt, if_neg hlt]
    cases kind.isWord with
    | true => exact remember_congr rfl id link t.predecessor
    | false => rfl

theorem bestWord_settle (g : Growth) (e : Expansion) (link : Option Nat) (arc : Arc)
    (kind : StateKind) (score : Score) :
    (e.settle g link arc kind score).bestWord = raised e.bestWord kind score := by
  cases hemits : kind.isEmitting with
  | true =>
    rw [settle_emitting hemits, raised_of_not_isWord (StateKind.isWord_of_isEmitting hemits)]
    split <;> rfl
  | false => rw [settle_silent hemits]

theorem bestWord_contest (g : Growth) (e : Expansion) (link : Option Nat) (arc : Arc)
    (kind : StateKind) (score : Score) (id : Nat) (t : Token) :
    (e.contest g link arc kind score id t).bestWord =
      if t.score < score then raised e.bestWord kind score else e.bestWord := by
  cases hemits : kind.isEmitting with
  | true =>
    rw [contest_emitting hemits, raised_of_not_isWord (StateKind.isWord_of_isEmitting hemits)]
    split <;> rfl
  | false =>
    rw [contest_silent hemits]
    split <;> rfl

end SpeechDecoder.Expansion
