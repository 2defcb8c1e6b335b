import SpeechDecoder.Proofs.Lattice
import SpeechDecoder.Proofs.Score.Sorted

/-!
# What a purge keeps

A list that is short enough stays as it is, in the order in which the predecessors lost.  A longer
one is ranked and cut.  So a list may be ranked or not, but after a purge it is short, and no later
purge looks at it again.

* `Ranking` is the stable falling order of some alternates, and `Trimmed` what is kept of them.
* `Purged` is what a purge makes of a lattice, token by token: `Distinct.purged`.
* An `Edit` is what happens to a lattice later; `Short.edits` says that the list of a token stays
  through edits that concern other tokens.
-/

namespace SpeechDecoder

namespace Lattice

/-- **The falling order of some alternates:** by rank, those of one rank in the order they had. -/
structure Ranking (score : Nat → Score) (ps ranked : List Nat) : Prop where
  perm : ranked.Perm ps
  falling : ranked.Pairwise fun p q => (score q).rank ≤ (score p).rank
  stable : ∀ r, ranked.filter (fun p => (score p).rank = r) = ps.filter fun p => (score p).rank = r

/-- **What is kept of some alternates** if there is room for so many: all of them as they are, or the
first ones of their falling order. -/
structure Trimmed (room : Nat) (score : Nat → Score) (ps kept : List Nat) : Prop where
  length : kept.length = min ps.length room
  short : ps.length ≤ room → kept = ps
  long : room < ps.length → ∃ dropped, Ranking score ps (kept ++ dropped) ∧
    ∀ p ∈ kept, ∀ q ∈ dropped, (score p).IsNumber → (score q).IsNumber → score q ≤ score p

/-- **What a purge makes of a lattice.** -/
structure Purged (score : Nat → Score) (l l' : Lattice) : Prop where
  maxEdges : l'.maxEdges = l.maxEdges
  distinct : l'.Distinct
  trimmed : ∀ id, Trimmed (max l.maxEdges 1 - 1) score (l.alternates id) (l'.alternates id)
  /-- A token that is left without alternates is forgotten. -/
  listed : ∀ id, id ∈ l'.links.map Prod.fst ↔ l'.alternates id ≠ []
  /-- The edges are those that are kept, token by token. -/
  counted : l'.edgeCount = (l.links.map fun q => (l'.alternates q.1).length).sum

/-- **What happens to a lattice:** a predecessor is remembered, or the lattice is purged in a store. -/
inductive Edit where
  | add (id predecessor : Nat)
  | purge (a : Store)

/-- **What an edit leaves.** -/
def edit (l : Lattice) : Edit → Except Fault Lattice
  | .add id predecessor => .ok (l.add id predecessor)
  | .purge a => l.purgeIn a

/-- What some edits leave, one after the other. -/
def edits (l : Lattice) (es : List Edit) : Except Fault Lattice := es.foldlM edit l

/-- **An edit that does not concern a token.**  What is remembered of the other ones is among the
first `size` tokens, which are stored in every later purge. -/
def Edit.Elsewhere (id size : Nat) : Edit → Prop
  | .add x predecessor => x ≠ id ∧ predecessor < size
  | .purge a => size ≤ a.size

variable {l : Lattice}

/-! ## One list -/

/-- **Sorting** ranks the alternates. -/
theorem ranking_sortDescending (score : Nat → Score) (ps : List Nat) :
    Ranking score ps (Score.sortDescending score ps) where
  perm := Score.sortDescending_perm score ps
  falling := Score.pairwise_sortDescending score ps
  stable r := by
    rw [← Score.sortDescending_filter]
    refine Score.sortDescending_of_pairwise (List.pairwise_of_forall_mem_list fun p hp q hq => ?_)
    have hrank : ∀ x ∈ ps.filter (fun p => (score p).rank = r), (score x).rank = r := fun x hx => by
      simpa using (List.mem_filter.1 hx).2
    rw [hrank p hp, hrank q hq]

/-- **A cut list** is what is kept of it. -/
theorem trimmed_trim (l : Lattice) (score : Nat → Score) (ps : List Nat) :
    Trimmed (max l.maxEdges 1 - 1) score ps (l.trim score ps) := by
  have hroom : max l.maxEdges 1 - 1 = l.room := by
    unfold room
    omega
  rw [hroom]
  unfold trim
  split
  · next hlong =>
    refine ⟨?_, fun hshort => absurd hshort (by omega), fun _ => ?_⟩
    · rw [List.length_take, Score.length_sortDescending, Nat.min_comm]
    · have hranking := ranking_sortDescending score ps
      rw [← List.take_append_drop l.room (Score.sortDescending score ps)] at hranking
      refine ⟨_, hranking, fun p hp q hq hpn hqn => ?_⟩
      exact Score.le_of_rank_le hqn hpn ((List.pairwise_append.1 hranking.falling).2.2 p hp q hq)
  · next hshort =>
    exact ⟨by omega, fun _ => rfl, fun hlong => absurd hlong hshort⟩

/-! ## One purge -/

/-- A token with a list has that list. -/
theorem Distinct.alternates_eq (h : l.Distinct) {q : Nat × List Nat} (hq : q ∈ l.links) :
    l.alternates q.1 = q.2 := by
  obtain ⟨before, after, hsplit⟩ := List.append_of_mem hq
  unfold Distinct at h
  rw [hsplit, List.map_append, List.map_cons, List.nodup_append] at h
  have hfirst : l.links.lookup q.1 = some q.2 := by
    refine List.lookup_eq_some_iff.2 ⟨before, after, hsplit, fun p hp => ?_⟩
    simpa using (h.2.2 p.1 (List.mem_map_of_mem hp) q.1 (by simp)).symm
  rw [Lattice.alternates, hfirst, Option.getD_some]

/-- Only a token with a list has alternates. -/
theorem mem_links_of_alternates {id : Nat} (h : l.alternates id ≠ []) :
    (id, l.alternates id) ∈ l.links := by
  unfold Lattice.alternates at h ⊢
  cases hlookup : l.links.lookup id with
  | none => simp [hlookup] at h
  | some ps =>
    obtain ⟨before, after, hsplit, -⟩ := List.lookup_eq_some_iff.1 hlookup
    simp [hsplit]

theorem edgeCount_eq (l : Lattice) : l.edgeCount = (l.links.map fun q => q.2.length).sum := by
  unfold edgeCount
  induction l.links with
  | nil => rfl
  | cons q rest ih => rw [List.foldr_cons, ih, List.map_cons, List.sum_cons]

/-- What a purge leaves out has no length. -/
theorem edgeCount_purge (l : Lattice) (score : Nat → Score) :
    (l.purge score).edgeCount = (l.links.map fun q => (l.trim score q.2).length).sum := by
  rw [edgeCount_eq]
  unfold purge
  dsimp only
  induction l.links with
  | nil => rfl
  | cons q rest ih =>
    rw [List.map_cons, List.map_cons, List.sum_cons, ← ih]
    cases hempty : (l.trim score q.2).isEmpty with
    | true => simp [List.isEmpty_iff.1 hempty]
    | false => simp [hempty]

/-- **A purge,** token by token. -/
theorem Distinct.purged (h : l.Distinct) (score : Nat → Score) : Purged score l (l.purge score) where
  maxEdges := rfl
  distinct := h.purge score
  trimmed id := alternates_purge h score id ▸ trimmed_trim l score _
  listed id := by
    refine ⟨fun hid => ?_, fun hne => List.mem_map_of_mem (mem_links_of_alternates hne)⟩
    obtain ⟨q, hq, rfl⟩ := List.mem_map.1 hid
    rw [(h.purge score).alternates_eq hq]
    simpa using (List.mem_filter.1 hq).2
  counted := by
    rw [edgeCount_purge]
    refine congrArg List.sum (List.map_congr_left fun q hq => ?_)
    rw [alternates_purge h, h.alternates_eq hq]

/-! ## Later edits -/

/-- A purged lattice compares nothing in a later purge. -/
theorem compared_purge (l : Lattice) (score : Nat → Score) : (l.purge score).compared = [] := by
  refine List.flatMap_eq_nil_iff.2 fun q hq => if_neg ?_
  obtain ⟨hq, -⟩ := List.mem_filter.1 hq
  obtain ⟨⟨id, ps⟩, -, rfl⟩ := List.mem_map.1 hq
  exact Nat.not_lt.2 (length_trim_le score ps)

/-- **A purge after a purge changes nothing,** whatever store it looks into. -/
theorem purgeIn_purge (l : Lattice) (score : Nat → Score) (b : Store) :
    (l.purge score).purgeIn b = .ok (l.purge score) := by
  unfold purgeIn
  rw [compared_purge, b.check_eq_ok_iff.2 (by simp)]
  exact congrArg Except.ok (purge_purge score b.score)

/-- **The list of a token is short** and what is remembered is stored. -/
structure Short (id size : Nat) (kept : List Nat) (l : Lattice) : Prop where
  distinct : l.Distinct
  stored : l.Over (fun _ => True) (· < size)
  alternates : l.alternates id = kept
  room : kept.length ≤ l.room

/-- An edit that does not concern a token leaves its short list. -/
theorem Short.edit {id size : Nat} {kept : List Nat} (h : Short id size kept l) {e : Edit}
    (he : e.Elsewhere id size) : ∃ l', l.edit e = .ok l' ∧ Short id size kept l' := by
  cases e with
  | add x predecessor =>
    refine ⟨_, rfl, h.distinct.add x predecessor, h.stored.add trivial he.2, ?_, h.room⟩
    rw [alternates_add, if_neg he.1.symm, h.alternates]
  | purge a =>
    have hstored : l.Over (fun _ => True) (· < a.size) :=
      h.stored.mono (fun _ h => h) fun _ hp => hp.trans_le he
    refine ⟨_, hstored.purgeIn, h.distinct.purge _, h.stored.purge _, ?_, h.room⟩
    rw [alternates_purge h.distinct, h.alternates, trim, if_neg (Nat.not_lt.2 h.room)]

/-- **The list of a token stays through edits that concern other tokens,** by induction on them. -/
theorem Short.edits {id size : Nat} {kept : List Nat} : ∀ (es : List Edit) {l : Lattice},
    Short id size kept l → (∀ e ∈ es, e.Elsewhere id size) →
      ∃ l', l.edits es = .ok l' ∧ l'.alternates id = kept
  | [], l, h, _ => ⟨l, rfl, h.alternates⟩
  | e :: es, l, h, hes => by
    obtain ⟨l₁, hedit, h₁⟩ := h.edit (hes e (by simp))
    obtain ⟨l₂, hrest, hlist⟩ := Short.edits es h₁ fun e' he' => hes e' (by simp [he'])
    refine ⟨l₂, ?_, hlist⟩
    unfold Lattice.edits at hrest ⊢
    rw [List.foldlM_cons, hedit]
    exact hrest

/-- A purged list is short. -/
theorem Distinct.short_purge (h : l.Distinct) {size : Nat}
    (hstored : l.Over (fun _ => True) (· < size)) (score : Nat → Score) (id : Nat) :
    Short id size ((l.purge score).alternates id) (l.purge score) :=
  ⟨h.purge score, hstored.purge score, rfl, alternates_purge h score id ▸ length_trim_le score _⟩

end Lattice

end SpeechDecoder
