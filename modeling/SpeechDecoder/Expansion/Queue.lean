import SpeechDecoder.Token.Store

/-!
# The work queue of a frame

Tokens that wait for their expansion within a frame.  The queue is kept sorted: the highest score
first, and of equal scores the token that was created first.  A token whose score was raised is
queued again; its older entries stay and come later.
-/

namespace SpeechDecoder

/-- **A token that waits,** with the score it had when it was queued. -/
structure Pending where
  score : Score
  token : Nat
  deriving DecidableEq

namespace Pending

/-- Whether one entry is taken no later than another. -/
def notAfter (p q : Pending) : Bool :=
  decide (q.score.rank < p.score.rank ∨ q.score.rank = p.score.rank ∧ p.token ≤ q.token)

/-- **Queues an entry:** before the first one that it is taken no later than. -/
def enqueue (p : Pending) : List Pending → List Pending
  | [] => [p]
  | q :: rest => if p.notAfter q then p :: q :: rest else q :: enqueue p rest

/-! ## First facts -/

theorem notAfter_trans {p q r : Pending} (hpq : p.notAfter q = true) (hqr : q.notAfter r = true) :
    p.notAfter r = true := by
  simp only [notAfter, decide_eq_true_eq] at *
  omega

theorem notAfter_total (p q : Pending) : p.notAfter q = true ∨ q.notAfter p = true := by
  simp only [notAfter, decide_eq_true_eq]
  omega

theorem enqueue_perm (p : Pending) (l : List Pending) : (enqueue p l).Perm (p :: l) := by
  induction l with
  | nil => exact .refl _
  | cons q rest ih =>
    unfold enqueue
    split
    · exact .refl _
    · exact (ih.cons q).trans (.swap p q rest)

@[simp] theorem mem_enqueue {p r : Pending} {l : List Pending} :
    r ∈ enqueue p l ↔ r = p ∨ r ∈ l := by
  rw [(enqueue_perm p l).mem_iff, List.mem_cons]

/-- A sorted queue stays sorted. -/
theorem pairwise_enqueue {p : Pending} {l : List Pending}
    (h : l.Pairwise fun a b => a.notAfter b = true) :
    (enqueue p l).Pairwise fun a b => a.notAfter b = true := by
  induction l with
  | nil => simp [enqueue]
  | cons q rest ih =>
    obtain ⟨hq, hrest⟩ := List.pairwise_cons.1 h
    unfold enqueue
    split
    · next hp =>
      refine List.pairwise_cons.2 ⟨fun r hr => ?_, h⟩
      rcases List.mem_cons.1 hr with rfl | hr
      · exact hp
      · exact notAfter_trans hp (hq r hr)
    · next hp =>
      refine List.pairwise_cons.2 ⟨fun r hr => ?_, ih hrest⟩
      rcases mem_enqueue.1 hr with rfl | hr
      · exact (notAfter_total r q).resolve_left hp
      · exact hq r hr

end Pending

end SpeechDecoder
