import SpeechDecoder.Lattice

/-!
# Purging a lattice

A purge may be made early.  What is remembered later about other tokens is not touched by it, and a
list that was cut to the room that there is stays as it is in every later purge; so only the last
purge counts, as long as the scores of the alternates stay (`purge_recordAll_purge`).

* `recordAll` remembers some losing predecessors, one after the other.
* `Over` is what holds of all tokens with alternates and of all alternates.
* `alternates_add` and `alternates_purge` say what becomes of the alternates of a token.
-/

namespace SpeechDecoder

/-- The sorted list depends on the scores of its elements only. -/
theorem Score.sortDescending_congr {α : Type} {score score' : α → Score} {xs : List α}
    (h : ∀ x ∈ xs, score x = score' x) : sortDescending score xs = sortDescending score' xs := by
  have hmap := List.map_mergeSort (r := notBelow score) (s := notBelow score') (f := id) (l := xs)
    fun a ha b hb => by simp only [notBelow, id, h a ha, h b hb]
  rwa [List.map_id, List.map_id] at hmap

namespace Lattice

variable (l : Lattice)

/-- **Remembers some losing predecessors,** each with the token that it lost at. -/
def recordAll (edges : List (Nat × Nat)) : Lattice :=
  edges.foldl (fun l e => l.add e.1 e.2) l

/-- **What holds of a lattice:** `K` of the tokens with alternates, `V` of the alternates. -/
def Over (K V : Nat → Prop) : Prop := ∀ q ∈ l.links, K q.1 ∧ ∀ p ∈ q.2, V p

variable {l} {K V K' V' : Nat → Prop} {edges : List (Nat × Nat)} {score score' : Nat → Score}

/-! ## Tokens with alternates -/

theorem Over.mono (h : l.Over K V) (hK : ∀ id, K id → K' id) (hV : ∀ p, V p → V' p) :
    l.Over K' V' :=
  fun q hq => ⟨hK _ (h q hq).1, fun p hp => hV p ((h q hq).2 p hp)⟩

theorem over_empty (maxEdges : Nat) : (empty maxEdges).Over K V := fun q hq => by cases hq

theorem over_clear : l.clear.Over K V := fun q hq => by cases hq

theorem Over.add {id p : Nat} (h : l.Over K V) (hK : K id) (hV : V p) : (l.add id p).Over K V := by
  have hinsert : ∀ links : List (Nat × List Nat), (∀ q ∈ links, K q.1 ∧ ∀ x ∈ q.2, V x) →
      ∀ q ∈ insert id p links, K q.1 ∧ ∀ x ∈ q.2, V x := by
    intro links
    induction links with
    | nil =>
      intro _ q hq
      rw [insert, List.mem_singleton] at hq
      rw [hq]
      exact ⟨hK, fun x hx => List.mem_singleton.1 hx ▸ hV⟩
    | cons q₀ rest ih =>
      intro hall q hq
      have hrest : ∀ q ∈ rest, K q.1 ∧ ∀ x ∈ q.2, V x := fun q hq => hall q (by simp [hq])
      unfold insert at hq
      split at hq
      · rcases List.mem_cons.1 hq with rfl | hq
        · refine ⟨(hall q₀ (by simp)).1, fun x hx => ?_⟩
          rcases List.mem_append.1 hx with hx | hx
          · exact (hall q₀ (by simp)).2 x hx
          · exact List.mem_singleton.1 hx ▸ hV
        · exact hrest q hq
      · rcases List.mem_cons.1 hq with rfl | hq
        · exact hall _ (by simp)
        · exact ih hrest q hq
  exact hinsert l.links h

theorem Over.recordAll (h : l.Over K V) (hedges : ∀ e ∈ edges, K e.1 ∧ V e.2) :
    (l.recordAll edges).Over K V := by
  induction edges generalizing l with
  | nil => exact h
  | cons e edges ih =>
    obtain ⟨hK, hV⟩ := hedges e (by simp)
    exact ih (h.add hK hV) fun e' he' => hedges e' (by simp [he'])

/-- A purge leaves alternates out and adds none. -/
theorem Over.purge (h : l.Over K V) (score : Nat → Score) : (l.purge score).Over K V := by
  intro q hq
  obtain ⟨hq, -⟩ := List.mem_filter.1 hq
  obtain ⟨⟨id, ps⟩, hmem, rfl⟩ := List.mem_map.1 hq
  refine ⟨(h _ hmem).1, fun p hp => ?_⟩
  replace hp : p ∈ l.trim score ps := hp
  unfold trim at hp
  split at hp
  · exact (h _ hmem).2 p (Score.mem_sortDescending.1 (List.mem_of_mem_take hp))
  · exact (h _ hmem).2 p hp

/-- A purge only faults over an alternate that is not stored. -/
theorem Over.purgeIn {a : Store} (h : l.Over K (· < a.size)) :
    l.purgeIn a = .ok (l.purge a.score) := by
  have hcheck : a.check l.compared = .ok () := by
    refine a.check_eq_ok_iff.2 fun p hp => ?_
    obtain ⟨⟨id, ps⟩, hmem, hp⟩ := List.mem_flatMap.1 hp
    refine (h _ hmem).2 p ?_
    dsimp only at hp
    split at hp
    · unfold Store.compared at hp
      split at hp
      · exact hp
      · cases hp
    · cases hp
  unfold Lattice.purgeIn
  rw [hcheck]
  rfl

/-! ## The alternates of a token -/

/-- What holds of all tokens with alternates and of all alternates. -/
theorem Over.alternates (h : l.Over K V) {id p : Nat} (hp : p ∈ l.alternates id) : K id ∧ V p := by
  unfold Lattice.alternates at hp
  cases hlookup : l.links.lookup id with
  | none => simp [hlookup] at hp
  | some ps =>
    obtain ⟨before, after, hsplit, -⟩ := List.lookup_eq_some_iff.1 hlookup
    rw [hlookup, Option.getD_some] at hp
    obtain ⟨hK, hV⟩ := h (id, ps) (by rw [hsplit]; simp)
    exact ⟨hK, hV p hp⟩

theorem Over.alternates_eq_nil (h : l.Over K V) {id : Nat} (hid : ¬ K id) : l.alternates id = [] :=
  List.eq_nil_iff_forall_not_mem.2 fun _ hp => hid (h.alternates hp).1

theorem lookup_insert (id p x : Nat) : ∀ links : List (Nat × List Nat),
    ((insert id p links).lookup x).getD [] =
      if x = id then (links.lookup x).getD [] ++ [p] else (links.lookup x).getD []
  | [] => by
    by_cases h : x = id
    · simp [insert, h]
    · simp [insert, h, List.lookup_cons, beq_eq_false_iff_ne.2 h]
  | (i, ps) :: rest => by
    unfold insert
    by_cases hi : i = id
    · subst hi
      by_cases h : x = i
      · simp [h]
      · simp [h, List.lookup_cons, beq_eq_false_iff_ne.2 h]
    · rw [if_neg hi]
      by_cases h : x = i
      · subst h
        simp [hi]
      · simp only [List.lookup_cons, beq_eq_false_iff_ne.2 h]
        exact lookup_insert id p x rest

/-- **What is remembered** is remembered of one token. -/
theorem alternates_add (id p x : Nat) :
    (l.add id p).alternates x = if x = id then l.alternates x ++ [p] else l.alternates x :=
  lookup_insert id p x l.links

/-- No token has two lists. -/
def Distinct (l : Lattice) : Prop := (l.links.map Prod.fst).Nodup

theorem distinct_empty (maxEdges : Nat) : (empty maxEdges).Distinct := List.nodup_nil

theorem distinct_clear : l.clear.Distinct := List.nodup_nil

theorem Distinct.add (h : l.Distinct) (id p : Nat) : (l.add id p).Distinct := by
  have hinsert : ∀ links : List (Nat × List Nat), (insert id p links).map Prod.fst =
      if id ∈ links.map Prod.fst then links.map Prod.fst else links.map Prod.fst ++ [id] := by
    intro links
    induction links with
    | nil => simp [insert]
    | cons q rest ih =>
      unfold insert
      by_cases hq : q.1 = id
      · simp [hq]
      · rw [if_neg hq, List.map_cons, ih]
        by_cases hmem : id ∈ rest.map Prod.fst
        · simp only [hmem, if_true, List.map_cons, List.mem_cons, or_true]
        · rw [if_neg hmem, if_neg (by simpa [Ne.symm hq] using hmem)]
          rfl
  unfold Distinct Lattice.add
  rw [hinsert]
  split
  · exact h
  · next hmem =>
    refine List.nodup_append.2 ⟨h, by simp, fun x hx y hy hxy => hmem ?_⟩
    rwa [← List.mem_singleton.1 hy, ← hxy]

theorem Distinct.recordAll (h : l.Distinct) : (l.recordAll edges).Distinct := by
  induction edges generalizing l with
  | nil => exact h
  | cons e edges ih => exact ih (h.add e.1 e.2)

theorem Distinct.purge (h : l.Distinct) (score : Nat → Score) : (l.purge score).Distinct := by
  unfold Distinct Lattice.purge
  refine h.sublist ?_
  have hsub := (List.filter_sublist (p := fun q : Nat × List Nat => !q.2.isEmpty)
    (l := l.links.map fun q => (q.1, l.trim score q.2))).map Prod.fst
  simpa [List.map_map, Function.comp_def] using hsub

/-- **A purge** cuts the list of every token. -/
theorem alternates_purge (h : l.Distinct) (score : Nat → Score) (id : Nat) :
    (l.purge score).alternates id = l.trim score (l.alternates id) := by
  have hlookup : ∀ links : List (Nat × List Nat), (links.map Prod.fst).Nodup →
      (((links.map fun q => (q.1, l.trim score q.2)).filter fun q => !q.2.isEmpty).lookup id).getD [] =
        l.trim score ((links.lookup id).getD []) := by
    intro links hkeys
    induction links with
    | nil => simp [trim]
    | cons q rest ih =>
      obtain ⟨i, ps⟩ := q
      obtain ⟨hi, hrest⟩ := List.nodup_cons.1 hkeys
      have hlater := ih hrest
      by_cases hid : id = i
      · subst hid
        have hnone : rest.lookup id = none := List.lookup_eq_none_iff.2 fun q hq => by
          have hne : id ≠ q.1 := fun heq => hi (List.mem_map.2 ⟨q, hq, heq.symm⟩)
          simpa using hne
        have hnil : l.trim score [] = [] := by simp [trim]
        rw [hnone, Option.getD_none, hnil] at hlater
        by_cases hempty : l.trim score ps = []
        · simpa [hempty] using hlater
        · simp [hempty]
      · have hne : (id == i) = false := by simpa using hid
        by_cases hempty : l.trim score ps = []
        · simpa [hempty, List.lookup_cons, hne] using hlater
        · simpa [hempty, List.lookup_cons, hne] using hlater
  exact hlookup l.links h

/-- A list is cut to some of its elements. -/
theorem count_trim_le (score : Nat → Score) (ps : List Nat) (p : Nat) :
    (l.trim score ps).count p ≤ ps.count p := by
  unfold trim
  split
  · have hsub := (List.take_sublist l.room (Score.sortDescending score ps)).count_le p
    rwa [(Score.sortDescending_perm score ps).count_eq] at hsub
  · exact Nat.le_refl _

/-! ## What is remembered later -/

theorem recordAll_append (edges' : List (Nat × Nat)) :
    l.recordAll (edges ++ edges') = (l.recordAll edges).recordAll edges' :=
  List.foldl_append

@[simp] theorem maxEdges_recordAll : (l.recordAll edges).maxEdges = l.maxEdges := by
  induction edges generalizing l with
  | nil => rfl
  | cons e edges ih => exact (ih (l := l.add e.1 e.2)).trans rfl

/-- A token without alternates comes after those that have some. -/
theorem insert_append {id p : Nat} {old new : List (Nat × List Nat)} (h : ∀ q ∈ old, q.1 ≠ id) :
    insert id p (old ++ new) = old ++ insert id p new := by
  induction old with
  | nil => rfl
  | cons q old ih =>
    obtain ⟨hq, hold⟩ := List.forall_mem_cons.1 h
    rw [List.cons_append, insert, if_neg hq, ih hold]
    rfl

/-- **Tokens that are new to a lattice** are remembered as if it were empty. -/
theorem links_recordAll (h : ∀ e ∈ edges, ∀ q ∈ l.links, q.1 ≠ e.1) :
    (l.recordAll edges).links = l.links ++ ((empty l.maxEdges).recordAll edges).links := by
  suffices hnew : ∀ new : List (Nat × List Nat),
      (recordAll ⟨l.maxEdges, l.links ++ new⟩ edges).links =
        l.links ++ (recordAll ⟨l.maxEdges, new⟩ edges).links by
    have hnil := hnew []
    rwa [List.append_nil] at hnil
  induction edges with
  | nil => exact fun _ => rfl
  | cons e edges ih =>
    intro new
    obtain ⟨he, hedges⟩ := List.forall_mem_cons.1 h
    have hadd : add ⟨l.maxEdges, l.links ++ new⟩ e.1 e.2 =
        ⟨l.maxEdges, l.links ++ insert e.1 e.2 new⟩ :=
      congrArg (Lattice.mk l.maxEdges) (insert_append he)
    change (recordAll (add ⟨l.maxEdges, l.links ++ new⟩ e.1 e.2) edges).links = _
    rw [hadd]
    exact ih hedges _

/-! ## Purging twice -/

theorem trim_congr {ps : List Nat} (h : ∀ p ∈ ps, score p = score' p) :
    l.trim score ps = l.trim score' ps := by
  unfold trim
  rw [Score.sortDescending_congr h]

theorem length_trim_le (score : Nat → Score) (ps : List Nat) :
    (l.trim score ps).length ≤ l.room := by
  unfold trim
  split
  · exact List.length_take_le _ _
  · omega

/-- A list that was cut is short enough for every later cut. -/
theorem trim_trim (score score' : Nat → Score) (ps : List Nat) :
    l.trim score' (l.trim score ps) = l.trim score ps := by
  have hle := length_trim_le (l := l) score ps
  generalize l.trim score ps = qs at hle ⊢
  unfold trim
  rw [if_neg (by omega)]

/-- **The scores of the alternates** are all that a purge looks at. -/
theorem purge_congr (h : l.Over K fun p => score p = score' p) : l.purge score = l.purge score' := by
  have hmap : (l.links.map fun q => (q.1, l.trim score q.2)) =
      l.links.map fun q => (q.1, l.trim score' q.2) :=
    List.map_congr_left fun q hq => congrArg (Prod.mk q.1) (trim_congr (h q hq).2)
  exact congrArg (fun links => Lattice.mk l.maxEdges (links.filter fun q => !q.2.isEmpty)) hmap

/-- **A purged lattice stays as it is,** whatever has become of the scores. -/
theorem purge_purge (score score' : Nat → Score) :
    (l.purge score).purge score' = l.purge score := by
  have hroom : ∀ ps, (l.purge score).trim score' (l.trim score ps) = l.trim score ps :=
    fun ps => trim_trim (l := l) score score' ps
  have hmem : ∀ q ∈ (l.purge score).links,
      (q.1, (l.purge score).trim score' q.2) = q ∧ (!q.2.isEmpty) = true := by
    intro q hq
    obtain ⟨hq, hne⟩ := List.mem_filter.1 hq
    obtain ⟨⟨id, ps⟩, -, rfl⟩ := List.mem_map.1 hq
    exact ⟨congrArg (Prod.mk id) (hroom ps), hne⟩
  have hmap : ((l.purge score).links.map fun q => (q.1, (l.purge score).trim score' q.2)) =
      (l.purge score).links :=
    (List.map_congr_left fun q hq => (hmem q hq).1).trans (List.map_id _)
  have hfilter : ((l.purge score).links.filter fun q => !q.2.isEmpty) = (l.purge score).links :=
    List.filter_eq_self.2 fun q hq => (hmem q hq).2
  exact congrArg (Lattice.mk l.maxEdges) ((congrArg _ hmap).trans hfilter)

theorem links_purge_append {old new : List (Nat × List Nat)} (maxEdges : Nat) :
    (purge ⟨maxEdges, old ++ new⟩ score).links =
      (purge ⟨maxEdges, old⟩ score).links ++ (purge ⟨maxEdges, new⟩ score).links := by
  simp only [purge, List.map_append, List.filter_append]
  rfl

theorem eq_of_links {l' : Lattice} (hmax : l.maxEdges = l'.maxEdges) (hlinks : l.links = l'.links) :
    l = l' := by
  cases l
  cases l'
  simp_all

/-- A purge treats what was remembered later on its own. -/
theorem links_purge_recordAll (h : ∀ e ∈ edges, ∀ q ∈ l.links, q.1 ≠ e.1) :
    ((l.recordAll edges).purge score).links = (l.purge score).links ++
      (purge ⟨l.maxEdges, ((empty l.maxEdges).recordAll edges).links⟩ score).links := by
  have hsplit : l.recordAll edges =
      ⟨l.maxEdges, l.links ++ ((empty l.maxEdges).recordAll edges).links⟩ :=
    eq_of_links maxEdges_recordAll (links_recordAll h)
  rw [hsplit, links_purge_append]

/-- **Only the last purge counts,** if what was remembered since then concerns other tokens and the
alternates have kept their scores. -/
theorem purge_recordAll_purge (hscore : l.Over K fun p => score p = score' p)
    (hnew : ∀ e ∈ edges, ∀ q ∈ l.links, q.1 ≠ e.1) :
    ((l.purge score).recordAll edges).purge score' = (l.recordAll edges).purge score' := by
  have hpurged : ∀ e ∈ edges, ∀ q ∈ (l.purge score).links, q.1 ≠ e.1 := fun e he =>
    fun q hq => ((show l.Over (· ≠ e.1) fun _ => True from
      fun q hq => ⟨hnew e he q hq, fun _ _ => trivial⟩).purge score q hq).1
  refine eq_of_links ?_ ?_
  · change ((l.purge score).recordAll edges).maxEdges = (l.recordAll edges).maxEdges
    rw [maxEdges_recordAll, maxEdges_recordAll]
    rfl
  · rw [links_purge_recordAll hpurged, links_purge_recordAll hnew, purge_purge, purge_congr hscore]
    rfl

end Lattice

end SpeechDecoder
