import SpeechDecoder.Lookahead
import SpeechDecoder.Proofs.Graph.Heard

/-!
# Evidence and penalties

What the evidence of a frame says about the scores that were recorded in it (`Evidence.Tells`), and
what the records of a window make of it.

* `Evidence.Faithful` says that the evidence of a frame is that of the walks over a graph, and
  `Window.penalties` that the penalties of a window of such records are.
* `PenaltyMemo.Recalls` says that the penalties that are known are those of a window, and
  `PenaltyMemo.Counts` that every phone that was asked for was computed once.
-/

namespace SpeechDecoder

namespace Evidence

variable {e : Evidence} {p : Nat} {x : Score}

theorem score_observe (hp : p < e.scores.size) (x : Score) (q : Nat) :
    (e.observe p x).score q = if q = p ∧ e.score p < x then x else e.score q := by
  have hknown : e.score p = e.scores[p] := by
    simp [score, hp]
  unfold observe
  rw [Array.getElem?_eq_getElem hp]
  dsimp only
  rw [hknown]
  by_cases hlt : e.scores[p] < x
  · rw [if_pos hlt]
    unfold score
    dsimp only
    rw [Array.getElem?_setIfInBounds]
    by_cases hq : q = p
    · subst hq
      simp [hp, hlt]
    · simp [hq, Ne.symm hq]
  · rw [if_neg hlt, if_neg (show ¬ (q = p ∧ e.scores[p] < x) from fun h => hlt h.2)]
    rfl

theorem best_observe (hp : p < e.scores.size) (x : Score) :
    (e.observe p x).best = if e.best < x then x else e.best := by
  unfold observe
  rw [Array.getElem?_eq_getElem hp]

theorem size_observe (p : Nat) (x : Score) :
    (e.observe p x).scores.size = e.scores.size := by
  unfold observe
  split
  · rfl
  · dsimp only
    split
    · exact Array.size_setIfInBounds
    · rfl

/-- **The evidence of the scores that were recorded:** of every phone the greatest one, and the
greatest of all. -/
structure Tells (e : Evidence) (seen : List (Nat × Score)) : Prop where
  attained : ∀ p, e.score p = .impossible ∨ (p, e.score p) ∈ seen
  le_score : ∀ y ∈ seen, y.2 ≤ e.score y.1
  le_best : ∀ q, e.score q ≤ e.best
  best : ∃ q, e.best = e.score q

theorem tells_blank (frame phones : Nat) : (blank frame phones).Tells [] := by
  have hscore : ∀ q, (blank frame phones).score q = .impossible := by
    intro q
    unfold score blank
    dsimp only
    rw [Array.getElem?_replicate]
    split <;> rfl
  refine ⟨fun p => .inl (hscore p), by simp, fun q => ?_, 0, (hscore 0).symm⟩
  rw [hscore q]
  exact Score.le_rfl Score.isNumber_impossible

/-- **One more score.** -/
theorem Tells.observe {seen : List (Nat × Score)} (h : e.Tells seen) (hp : p < e.scores.size)
    (hx : x.IsNumber) : (e.observe p x).Tells (seen ++ [(p, x)]) := by
  have hnum : ∀ q, (e.score q).IsNumber := fun q => (Score.le_iff.1 (h.le_best q)).1
  have hbest := (Score.le_iff.1 (h.le_best 0)).2.1
  have hlater : ∀ q, e.score q ≤ (e.observe p x).score q := by
    intro q
    rw [score_observe hp]
    split
    · next hq =>
      rw [hq.1]
      exact Score.le_of_lt hq.2
    · exact Score.le_rfl (hnum q)
  refine ⟨fun q => ?_, fun y hy => ?_, fun q => ?_, ?_⟩
  · rw [score_observe hp]
    split
    · next hq => exact .inr (by simp [hq.1])
    · exact (h.attained q).imp_right fun hmem => List.mem_append_left _ hmem
  · rcases List.mem_append.1 hy with hy | hy
    · exact Score.le_trans (h.le_score y hy) (hlater y.1)
    · rw [List.mem_singleton.1 hy, score_observe hp]
      dsimp only
      split
      · exact Score.le_rfl hx
      · next hno => exact Score.le_of_not_lt hx (hnum p) fun hlt => hno ⟨rfl, hlt⟩
  · rw [score_observe hp, best_observe hp]
    split
    · next hq =>
      split
      · exact Score.le_rfl hx
      · next hno => exact Score.le_of_not_lt hx hbest hno
    · split
      · next hlt => exact Score.le_trans (h.le_best q) (Score.le_of_lt hlt)
      · exact h.le_best q
  · rw [best_observe hp]
    split
    · next hlt =>
      have hknown : e.score p < x := by
        obtain ⟨-, -, hle⟩ := Score.le_iff.1 (h.le_best p)
        obtain ⟨-, -, hlt'⟩ := Score.lt_iff.1 hlt
        exact Score.lt_iff.2 ⟨hnum p, hx, by omega⟩
      exact ⟨p, by rw [score_observe hp, if_pos ⟨rfl, hknown⟩]⟩
    · next hno =>
      obtain ⟨q, hq⟩ := h.best
      refine ⟨q, ?_⟩
      rw [score_observe hp, if_neg, hq]
      rintro ⟨rfl, hlt⟩
      exact hno (hq ▸ hlt)

/-- **Some scores,** by induction on them. -/
theorem Tells.foldl : ∀ (later : List (Nat × Score)) {e : Evidence} {seen : List (Nat × Score)},
    e.Tells seen → (∀ y ∈ later, y.1 < e.scores.size ∧ y.2.IsNumber) →
    (later.foldl (fun e y => e.observe y.1 y.2) e).Tells (seen ++ later)
  | [], _, seen, h, _ => (List.append_nil seen).symm ▸ h
  | y :: later, e, seen, h, hlater => by
    obtain ⟨hp, hx⟩ := hlater y (by simp)
    have hrest := Tells.foldl later (h.observe hp hx) fun z hz => by
      rw [size_observe]
      exact hlater z (List.mem_cons_of_mem y hz)
    rwa [List.append_assoc] at hrest

/-- **The evidence of a frame is that of the walks.** -/
structure Faithful (graph : Graph) (rows : Array (Array Score)) (e : Evidence) : Prop where
  heard : ∀ p, Score.IsMaximum (graph.Heard rows (graph.Walk rows) e.frame p) (e.score p)
  le_best : ∀ q, e.score q ≤ e.best
  best : ∃ q, e.best = e.score q

variable {graph : Graph} {rows : Array (Array Score)}

/-- If walks were recorded, and with every walk one that is as good, then the evidence is faithful. -/
theorem Tells.faithful {seen : List (Nat × Score)} (h : e.Tells seen)
    (hheard : ∀ y ∈ seen, graph.Heard rows (graph.Walk rows) e.frame y.1 y.2)
    (hseen : ∀ p x, graph.Heard rows (graph.Walk rows) e.frame p x → ∃ y, (p, y) ∈ seen ∧ x ≤ y) :
    e.Faithful graph rows := by
  refine ⟨fun p => ?_, h.le_best, h.best⟩
  have hattained : e.score p = .impossible ∨
      graph.Heard rows (graph.Walk rows) e.frame p (e.score p) :=
    (h.attained p).imp_right fun hmem => hheard _ hmem
  refine Score.isMaximum_of hattained fun x hx => ?_
  obtain ⟨y, hy, hle⟩ := hseen p x hx
  have hscore : y ≤ e.score p := h.le_score (p, y) hy
  exact Score.le_trans hle hscore

/-- A phone that is not heard has no standing. -/
theorem relative_eq (e : Evidence) (p : Nat) :
    e.relative p = if e.score p = .impossible then .impossible else e.score p - e.best := by
  unfold relative
  simp only [Score.beq_impossible_iff]

end Evidence

namespace Window

variable {graph : Graph} {rows : Array (Array Score)} {w : Window}

/-- The record of a frame. -/
def record (w : Window) (u : Nat) : Evidence := (w.find? fun e => e.frame == u).getD (.blank 0 0)

theorem record_frame {e : Evidence} : ∀ {w : Window}, (frames w).Nodup → e ∈ w →
    record w e.frame = e
  | [], _, he => by cases he
  | first :: w, hw, he => by
    obtain ⟨hfirst, hrest⟩ := List.nodup_cons.1 hw
    unfold record
    rw [List.find?_cons]
    rcases List.mem_cons.1 he with rfl | he
    · simp
    · have hne : first.frame ≠ e.frame := fun heq => hfirst (heq ▸ List.mem_map_of_mem he)
      rw [beq_false_of_ne hne]
      exact record_frame hrest he

/-- **The penalties of a window** of faithful records are those of the walks. -/
theorem penalties (hframes : (frames w).Nodup) (h : ∀ e ∈ w, e.Faithful graph rows) :
    graph.Penalties rows (graph.Walk rows) (frames w) (penalty w) := by
  have hrecord : ∀ {e}, e ∈ w → record w e.frame = e := record_frame hframes
  refine ⟨fun u p => (record w u).score p, fun u => (record w u).best, fun u hu => ?_, fun p => ?_⟩
  · obtain ⟨e, he, rfl⟩ := List.mem_map.1 hu
    simp only [hrecord he]
    exact ⟨(h e he).heard, (h e he).le_best, (h e he).best⟩
  · have hmap : w.map (fun e => e.relative p) =
        (frames w).map fun u => (record w u).relative p := by
      unfold frames
      rw [List.map_map]
      exact List.map_congr_left fun e he =>
        congrArg (fun e => Evidence.relative e p) (hrecord he).symm
    have hnum : ∀ u ∈ frames w, ((record w u).score p).IsNumber := by
      intro u hu
      obtain ⟨e, he, rfl⟩ := List.mem_map.1 hu
      rw [hrecord he]
      exact (Score.le_iff.1 ((h e he).le_best p)).1
    unfold penalty
    rw [hmap, Score.greatest_map_filter (fun u => (record w u).relative p)
      (fun u => decide (Score.impossible < (record w u).score p)) _ fun u hu hno => ?_]
    · refine congrArg Score.greatest (List.map_congr_left fun u hu => ?_)
      obtain ⟨hu, hlt⟩ := List.mem_filter.1 hu
      have hne := (Score.impossible_lt_iff (hnum u hu)).1 (of_decide_eq_true hlt)
      rw [Evidence.relative_eq, if_neg hne]
    · have hle := of_decide_eq_false hno
      rw [Score.impossible_lt_iff (hnum u hu), not_not] at hle
      rw [Evidence.relative_eq, if_pos hle]

end Window

namespace PenaltyMemo

/-- **The penalties that are known are those of a window.** -/
def Recalls (m : PenaltyMemo) (w : Window) : Prop := ∀ p s, m.cached p = some s → s = w.penalty p

variable {m : PenaltyMemo} {w : Window}

theorem recalls_empty (w : Window) : empty.Recalls w := fun _ _ h => by cases h

theorem recalls_forget (m : PenaltyMemo) (w : Window) : m.forget.Recalls w := fun _ _ h => by cases h

/-- **A penalty that was asked for** is that of the window, and is known from then on. -/
theorem Recalls.ask (h : m.Recalls w) (p : Nat) :
    (m.ask w p).1 = w.penalty p ∧ (m.ask w p).2.Recalls w := by
  unfold PenaltyMemo.ask
  split
  · next s hs => exact ⟨h p s hs, h⟩
  · refine ⟨rfl, fun q s hq => ?_⟩
    unfold cached at hq
    rw [List.lookup_cons] at hq
    split at hq
    · next heq =>
      cases hq
      rw [beq_iff_eq.1 heq]
    · exact h q s hq

/-- The memo after some phones were asked for. -/
def askAll (m : PenaltyMemo) (w : Window) (asked : List Nat) : PenaltyMemo :=
  asked.foldl (fun m p => (m.ask w p).2) m

theorem askAll_append (m : PenaltyMemo) (w : Window) (asked more : List Nat) :
    m.askAll w (asked ++ more) = (m.askAll w asked).askAll w more :=
  List.foldl_append

theorem Recalls.askAll : ∀ (asked : List Nat) {m : PenaltyMemo}, m.Recalls w →
    (m.askAll w asked).Recalls w
  | [], _, h => h
  | p :: asked, _, h => Recalls.askAll asked (h.ask p).2

/-- **Every phone that was asked for since the penalties were forgotten was computed once:** there
were `before` computations then. -/
structure Counts (before : Nat) (asked : List Nat) (m : PenaltyMemo) : Prop where
  nodup : (m.known.map Prod.fst).Nodup
  mem_iff : ∀ p, p ∈ m.known.map Prod.fst ↔ p ∈ asked
  computations : m.computations = before + m.known.length

variable {before : Nat} {asked : List Nat}

theorem counts_empty : Counts 0 [] empty := ⟨.nil, fun _ => .rfl, rfl⟩

theorem counts_forget (m : PenaltyMemo) : m.forget.Counts m.computations [] :=
  ⟨.nil, fun _ => .rfl, rfl⟩

/-- A phone is computed unless it was asked for before. -/
theorem Counts.ask (h : m.Counts before asked) (w : Window) (p : Nat) :
    (m.ask w p).2.Counts before (asked ++ [p]) := by
  have hmem : ∀ q, q ∈ asked ++ [p] ↔ q = p ∨ q ∈ m.known.map Prod.fst := fun q => by
    rw [List.mem_append, List.mem_singleton, h.mem_iff, or_comm]
  unfold PenaltyMemo.ask cached
  cases hp : m.known.lookup p with
  | some score =>
    have hknown : p ∈ m.known.map Prod.fst := by
      obtain ⟨l₁, l₂, heq, -⟩ := List.lookup_eq_some_iff.1 hp
      simp [heq]
    refine ⟨h.nodup, fun q => ?_, h.computations⟩
    rw [hmem]
    exact ⟨.inr, fun hq => hq.elim (fun heq => heq ▸ hknown) id⟩
  | none =>
    have hnew : p ∉ m.known.map Prod.fst := by
      intro hin
      obtain ⟨y, hy, rfl⟩ := List.mem_map.1 hin
      exact absurd rfl (bne_iff_ne.1 (List.lookup_eq_none_iff.1 hp y hy))
    refine ⟨List.nodup_cons.2 ⟨hnew, h.nodup⟩, fun q => ?_, ?_⟩
    · rw [hmem]
      exact List.mem_cons
    · dsimp only
      rw [h.computations, List.length_cons, Nat.add_assoc]

theorem Counts.askAll (w : Window) : ∀ (more : List Nat) {m : PenaltyMemo} {asked : List Nat},
    m.Counts before asked → (m.askAll w more).Counts before (asked ++ more)
  | [], _, _, h => (List.append_nil _).symm ▸ h
  | p :: more, m, asked, h => by
    have hrest := Counts.askAll w more (h.ask w p)
    rwa [List.append_assoc] at hrest

/-- **As many computations as distinct phones.** -/
theorem Counts.eq_dedup (h : m.Counts before asked) :
    m.computations = before + asked.dedup.length := by
  have hperm : (m.known.map Prod.fst).Perm asked.dedup :=
    (List.perm_ext_iff_of_nodup h.nodup asked.nodup_dedup).2 fun p => by
      rw [h.mem_iff, List.mem_dedup]
  rw [h.computations, ← hperm.length_eq, List.length_map]

end PenaltyMemo

end SpeechDecoder
