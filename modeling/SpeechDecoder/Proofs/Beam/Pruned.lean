import SpeechDecoder.Proofs.Beam
import SpeechDecoder.Proofs.Score.Sorted

/-!
# What the widths leave

A beam is pruned in three steps: it is sorted, cut to the count, and then cut to the margin of the
best token that is left.  As the sorted beam falls and the best token comes first, this is one
prefix of the sorted tokens (`Beam.prune_eq`): the longest one that the widths allow
(`Beam.isPruned_prune`).

* `kept` are the tokens that are left.  What is within the margin is told by the greatest score.
* `prune_prune`: a pruned beam stays as it is.
* `kept_eq_of_filter`: tokens beyond the margin may be left out before.  So it does not matter whether
  a token is refused by the threshold that there is when it comes (`byWidths_offered`), which is never
  above the last one.
-/

namespace SpeechDecoder

namespace Beam

variable {a : Store} {b : Beam} {score : Nat → Score} {w : BeamWidths} {ids ids' : List Nat}

/-- **Whether a token is within the margin** of the best of some tokens. -/
def within (w : BeamWidths) (score : Nat → Score) (ids : List Nat) (id : Nat) : Bool :=
  decide (Score.greatest (ids.map score) + w.margin ≤ score id)

/-- **The tokens that the widths leave** of some tokens. -/
def kept (w : BeamWidths) (score : Nat → Score) (ids : List Nat) : List Nat :=
  cut w ((Score.sortDescending score ids).filter (within w score ids))

/-- Scores that are numbers and not positive infinity. -/
def Bounded (score : Nat → Score) (ids : List Nat) : Prop := ∀ id ∈ ids, score id < .infinity

theorem Bounded.isNumber (h : Bounded score ids) {id : Nat} (hid : id ∈ ids) :
    (score id).IsNumber :=
  Score.isNumber_of_lt_infinity (h id hid)

theorem Bounded.subset (h : Bounded score ids) (hsub : ids' ⊆ ids) : Bounded score ids' :=
  fun id hid => h id (hsub hid)

/-! ## The margin -/

/-- **The best of some tokens.** -/
theorem Bounded.greatest (h : Bounded score ids) (hne : ids ≠ []) :
    (∃ top ∈ ids, score top = Score.greatest (ids.map score)) ∧
      ∀ id ∈ ids, score id ≤ Score.greatest (ids.map score) := by
  have hnumbers : ∀ x ∈ ids.map score, x.IsNumber := by
    intro x hx
    obtain ⟨id, hid, rfl⟩ := List.mem_map.1 hx
    exact h.isNumber hid
  obtain ⟨hmem, hle⟩ := Score.greatest_spec (by simpa using hne) hnumbers
  exact ⟨List.mem_map.1 hmem, fun id hid => hle _ (List.mem_map_of_mem hid)⟩

theorem Bounded.greatest_lt (h : Bounded score ids) :
    Score.greatest (ids.map score) < .infinity := by
  by_cases hne : ids = []
  · rw [hne]
    exact show Score.impossible < .infinity by decide
  · obtain ⟨⟨top, htop, heq⟩, -⟩ := h.greatest hne
    exact heq ▸ h top htop

/-- A margin below a higher score excludes more. -/
theorem add_margin_le {x y z : Score} (hmargin : w.margin ≤ .certain) (hy : y < .infinity)
    (hxy : x ≤ y) (h : y + w.margin ≤ z) : x + w.margin ≤ z := by
  have hm := Score.lt_infinity_of_le hmargin Score.certain_lt_infinity
  have hx := Score.lt_infinity_of_le hxy hy
  exact Score.le_trans (Score.add_le_add_right hxy w.margin (Score.isNumber_add hx hm)
    (Score.isNumber_add hy hm)) h

/-- **The best tokens are within the margin.** -/
theorem within_of_best (hmargin : w.margin ≤ .certain) (h : Bounded score ids) {id : Nat}
    (hid : id ∈ ids) (hbest : ∀ x ∈ ids, score x ≤ score id) : within w score ids id = true := by
  obtain ⟨⟨top, htop, heq⟩, -⟩ := h.greatest (List.ne_nil_of_mem hid)
  have hm := Score.lt_infinity_of_le hmargin Score.certain_lt_infinity
  refine decide_eq_true (heq ▸ add_margin_le hmargin (h id hid) (hbest top htop) ?_)
  exact Score.add_le_self (Score.not_lt_of_le hmargin) (Score.isNumber_add (h id hid) hm)

/-- The margin is that of any best token. -/
theorem within_eq (hmargin : w.margin ≤ .certain) (h : Bounded score ids) {top : Nat}
    (htop : top ∈ ids) (hbest : ∀ x ∈ ids, score x ≤ score top) (id : Nat) :
    within w score ids id = decide (score top + w.margin ≤ score id) := by
  obtain ⟨⟨first, hfirst, heq⟩, hle⟩ := h.greatest (List.ne_nil_of_mem htop)
  unfold within
  rw [← heq] at hle ⊢
  exact decide_eq_decide.2 ⟨add_margin_le hmargin (h first hfirst) (hle top htop),
    add_margin_le hmargin (h top htop) (hbest first hfirst)⟩

/-- Of the sorted tokens a better one comes first. -/
theorem Bounded.pairwise (h : Bounded score ids) :
    (Score.sortDescending score ids).Pairwise fun x y => score y ≤ score x :=
  Score.pairwise_le_sortDescending fun _ hid => h.isNumber hid

theorem Bounded.pairwise_within (h : Bounded score ids) :
    (Score.sortDescending score ids).Pairwise fun x y =>
      within w score ids y = true → within w score ids x = true :=
  h.pairwise.imp fun hle hy => decide_eq_true (Score.le_trans (of_decide_eq_true hy) hle)

/-! ## The pruned beam -/

theorem cut_isPrefix (w : BeamWidths) (ids : List Nat) : cut w ids <+: ids := by
  unfold cut
  split
  · exact List.take_prefix _ _
  · exact List.prefix_rfl

/-- The count leaves the first token. -/
theorem cut_cons (w : BeamWidths) (id : Nat) (ids : List Nat) :
    ∃ rest, cut w (id :: ids) = id :: rest := by
  unfold cut
  split
  · next h =>
    obtain ⟨n, hn⟩ := Nat.exists_eq_add_of_lt h
    rw [hn, Nat.zero_add]
    exact ⟨_, List.take_succ_cons⟩
  · exact ⟨ids, rfl⟩

/-- A cut from the front, and a filter from the front. -/
theorem cut_filter {p : Nat → Bool} (h : ids.Pairwise fun x y => p y = true → p x = true) :
    (cut w ids).filter p = cut w (ids.filter p) := by
  rw [Score.filter_eq_takeWhile (h.sublist (cut_sublist w ids)), Score.filter_eq_takeWhile h]
  unfold cut
  split
  · exact List.take_takeWhile.symm
  · rfl

/-- **The pruned beam.** -/
theorem prune_eq (hmargin : b.widths.margin ≤ .certain) (h : Bounded score b.tokens) :
    b.prune score = ⟨b.widths, kept b.widths score b.tokens,
      (kept b.widths score b.tokens).head?.map fun id => (id, score id)⟩ := by
  have hwithin := h.pairwise_within (w := b.widths)
  unfold kept prune
  rw [← cut_filter hwithin]
  have hmem : ∀ id, id ∈ Score.sortDescending score b.tokens ↔ id ∈ b.tokens :=
    fun _ => Score.mem_sortDescending
  have hsorted := h.pairwise
  cases hs : Score.sortDescending score b.tokens with
  | nil =>
    have hnil : cut b.widths [] = [] := List.prefix_nil.1 (cut_isPrefix _ _)
    simp [hnil]
  | cons top rest =>
    rw [hs] at hmem hsorted
    have htop : top ∈ b.tokens := (hmem top).1 (by simp)
    have hbest : ∀ id ∈ b.tokens, score id ≤ score top := by
      intro id hid
      rcases List.mem_cons.1 ((hmem id).2 hid) with rfl | hrest
      · exact Score.le_rfl (h.isNumber hid)
      · exact (List.pairwise_cons.1 hsorted).1 id hrest
    obtain ⟨more, hcut⟩ := cut_cons b.widths top rest
    -- the first token is a best one, so the margin below it is the one that all tokens tell
    have hfirst : ((top :: more).filter (within b.widths score b.tokens)).head? = some top := by
      rw [List.filter_cons_of_pos (within_of_best hmargin h htop hbest), List.head?_cons]
    have htokens : (top :: more).filter (within b.widths score b.tokens) =
        (top :: more).filter fun id => decide (score top + b.widths.margin ≤ score id) :=
      List.filter_congr fun id _ => within_eq hmargin h htop hbest id
    rw [hcut, hfirst, htokens]
    rfl

/-! ## What is left -/

/-- **What the widths allow** of the tokens `ids`: no more of them than the count, and none that is
further from the best one than the margin. -/
structure Allows (w : BeamWidths) (score : Nat → Score) (ids ids' : List Nat) : Prop where
  count : 0 < w.count → ids'.length ≤ w.count
  margin : ∀ id ∈ ids', Score.greatest (ids.map score) + w.margin ≤ score id

/-- **A beam that was pruned.** -/
structure IsPruned (score : Nat → Score) (b b' : Beam) : Prop where
  widths : b'.widths = b.widths
  sorted : b'.tokens <+: Score.sortDescending score b.tokens
  allowed : Allows b.widths score b.tokens b'.tokens
  longest : ∀ ids, ids <+: Score.sortDescending score b.tokens →
    Allows b.widths score b.tokens ids → ids <+: b'.tokens
  /-- No token comes in, none is doubled, and those that are dropped are no better than those that are
  kept; they are beyond the margin, or the count is reached. -/
  dropped : ∃ dropped, (b'.tokens ++ dropped).Perm b.tokens ∧
    (∀ id ∈ dropped, ∀ x ∈ b'.tokens, score id ≤ score x) ∧
    ∀ id ∈ dropped, Score.greatest (b.tokens.map score) + b.widths.margin ≤ score id →
      0 < b.widths.count ∧ b'.tokens.length = b.widths.count
  nil_iff : b'.tokens = [] ↔ b.tokens = []
  best : b'.best = b'.tokens.head?.map fun id => (id, score id)

theorem kept_isPrefix (h : Bounded score ids) (w : BeamWidths) :
    kept w score ids <+: Score.sortDescending score ids := by
  unfold kept
  rw [Score.filter_eq_takeWhile h.pairwise_within]
  exact (cut_isPrefix _ _).trans (List.takeWhile_prefix _)

theorem allows_kept (w : BeamWidths) (score : Nat → Score) (ids : List Nat) :
    Allows w score ids (kept w score ids) where
  count hcount := by
    unfold kept cut
    rw [if_pos hcount]
    exact List.length_take_le _ _
  margin _ hid := of_decide_eq_true (List.mem_filter.1 ((cut_isPrefix _ _).subset hid)).2

/-- **No longer list from the front is allowed.** -/
theorem isPrefix_kept (h : Bounded score ids) (hsub : ids' <+: Score.sortDescending score ids)
    (hallows : Allows w score ids ids') : ids' <+: kept w score ids := by
  obtain ⟨rest, hrest⟩ := hsub
  have hall : ∀ id ∈ ids', within w score ids id = true :=
    fun id hid => decide_eq_true (hallows.margin id hid)
  have hwithin : ids' <+: (Score.sortDescending score ids).takeWhile (within w score ids) := by
    rw [← hrest, List.takeWhile_append_of_pos hall]
    exact List.prefix_append _ _
  unfold kept
  rw [Score.filter_eq_takeWhile h.pairwise_within]
  unfold cut
  split
  · next hcount => exact List.prefix_take_iff.2 ⟨hwithin, hallows.count hcount⟩
  · exact hwithin

/-- **A token within the margin is dropped** only for the count. -/
theorem full_of_dropped {dropped : List Nat} {id : Nat}
    (hsplit : Score.sortDescending score ids = kept w score ids ++ dropped) (hid : id ∈ dropped)
    (hwithin : within w score ids id = true) :
    0 < w.count ∧ (kept w score ids).length = w.count := by
  have hall : ∀ x ∈ kept w score ids, within w score ids x = true :=
    fun x hx => decide_eq_true ((allows_kept w score ids).margin x hx)
  -- the count leaves as many tokens as are left, of more than these
  have hlength : (kept w score ids).length =
      (cut w (kept w score ids ++ dropped.filter (within w score ids))).length := by
    conv_lhs => rw [kept, hsplit, List.filter_append, List.filter_eq_self.2 hall]
  have hpos : 0 < (dropped.filter (within w score ids)).length :=
    List.length_pos_of_mem (List.mem_filter.2 ⟨hid, hwithin⟩)
  rw [cut] at hlength
  split at hlength
  · next hcount =>
    rw [List.length_take, List.length_append] at hlength
    omega
  · rw [List.length_append] at hlength
    omega

/-- The widths leave something of anything. -/
theorem kept_eq_nil_iff (hmargin : w.margin ≤ .certain) (h : Bounded score ids) :
    kept w score ids = [] ↔ ids = [] := by
  constructor
  · intro hnil
    by_contra hne
    obtain ⟨⟨top, htop, heq⟩, hle⟩ := h.greatest hne
    have hwithin : within w score ids top = true :=
      within_of_best hmargin h htop fun x hx => heq ▸ hle x hx
    have hmem : top ∈ (Score.sortDescending score ids).filter (within w score ids) :=
      List.mem_filter.2 ⟨Score.mem_sortDescending.2 htop, hwithin⟩
    obtain ⟨x, rest, hcons⟩ := List.exists_cons_of_ne_nil (List.ne_nil_of_mem hmem)
    obtain ⟨more, hcut⟩ := cut_cons w x rest
    rw [kept, hcons, hcut] at hnil
    cases hnil
  · rintro rfl
    have hfront := kept_isPrefix h w
    rwa [Score.sortDescending, List.mergeSort_nil, List.prefix_nil] at hfront

/-- **What pruning leaves of a beam.** -/
theorem isPruned_prune (hmargin : b.widths.margin ≤ .certain) (h : Bounded score b.tokens) :
    IsPruned score b (b.prune score) := by
  rw [prune_eq hmargin h]
  refine ⟨rfl, kept_isPrefix h _, allows_kept _ _ _, fun ids hsub hallows =>
    isPrefix_kept h hsub hallows, ?_, kept_eq_nil_iff hmargin h, rfl⟩
  obtain ⟨dropped, hsplit⟩ := kept_isPrefix h b.widths
  have hsorted := h.pairwise
  rw [← hsplit, List.pairwise_append] at hsorted
  refine ⟨dropped, ?_, fun id hid x hx => hsorted.2.2 x hx id hid, fun id hid hwithin =>
    full_of_dropped hsplit.symm hid (decide_eq_true hwithin)⟩
  exact (List.Perm.of_eq hsplit).trans (Score.sortDescending_perm score b.tokens)

/-- Fewer tokens have a best one that is no better. -/
theorem within_of_subset (hmargin : w.margin ≤ .certain) (h : Bounded score ids)
    (hsub : ids' ⊆ ids) {id : Nat} (hid : id ∈ ids') (hwithin : within w score ids id = true) :
    within w score ids' id = true := by
  obtain ⟨⟨top, htop, heq⟩, -⟩ := (h.subset hsub).greatest (List.ne_nil_of_mem hid)
  obtain ⟨⟨first, hfirst, heq'⟩, hle⟩ := h.greatest (List.ne_nil_of_mem (hsub hid))
  unfold within at hwithin ⊢
  rw [← heq'] at hwithin hle
  rw [← heq]
  exact decide_eq_true (add_margin_le hmargin (h first hfirst) (hle top (hsub htop))
    (of_decide_eq_true hwithin))

/-- What is left once is left again. -/
theorem kept_kept (hmargin : w.margin ≤ .certain) (h : Bounded score ids) :
    kept w score (kept w score ids) = kept w score ids := by
  have hfront := kept_isPrefix h w
  have hsub : kept w score ids ⊆ ids := fun id hid =>
    Score.mem_sortDescending.1 (hfront.subset hid)
  have hsorted : Score.sortDescending score (kept w score ids) = kept w score ids :=
    Score.sortDescending_of_pairwise
      ((Score.pairwise_sortDescending score ids).sublist hfront.sublist)
  have hwithin : ∀ id ∈ kept w score ids, within w score (kept w score ids) id = true :=
    fun id hid => within_of_subset hmargin h hsub hid
      (decide_eq_true ((allows_kept w score ids).margin id hid))
  rw [kept, hsorted, List.filter_eq_self.2 hwithin]
  unfold cut
  split
  · next hcount => exact List.take_of_length_le ((allows_kept w score ids).count hcount)
  · rfl

/-- **A pruned beam stays as it is.** -/
theorem prune_prune (hmargin : b.widths.margin ≤ .certain) (h : Bounded score b.tokens) :
    (b.prune score).prune score = b.prune score := by
  have hpruned := isPruned_prune hmargin h
  have hsub : (b.prune score).tokens ⊆ b.tokens := fun id hid =>
    Score.mem_sortDescending.1 (hpruned.sorted.subset hid)
  have htokens : (b.prune score).tokens = kept b.widths score b.tokens := by rw [prune_eq hmargin h]
  rw [prune_eq (hpruned.widths ▸ hmargin) (h.subset hsub), hpruned.widths, htokens,
    kept_kept hmargin h, ← prune_eq hmargin h]

/-! ## Refused before -/

/-- **The beam after some tokens were offered to it.** -/
def offered (score : Nat → Score) (b : Beam) (ids : List Nat) : Beam :=
  ids.foldl (fun b id => b.offer id (score id)) b

/-- **The beam after some tokens were appended to it.** -/
def pushed (score : Nat → Score) (b : Beam) (ids : List Nat) : Beam :=
  ids.foldl (fun b id => b.push id (score id)) b

theorem pushed_spec (score : Nat → Score) (ids : List Nat) : ∀ b : Beam,
    (b.pushed score ids).tokens = b.tokens ++ ids ∧ (b.pushed score ids).widths = b.widths := by
  induction ids with
  | nil => exact fun b => ⟨(List.append_nil _).symm, rfl⟩
  | cons id ids ih =>
    intro b
    obtain ⟨htokens, hwidths⟩ := ih (b.push id (score id))
    refine ⟨?_, hwidths.trans (widths_note _ id (score id))⟩
    exact htokens.trans (by rw [tokens_push, List.append_assoc, List.singleton_append])

/-- **Only tokens beyond the margin are refused.**  No threshold that there is while the tokens come
is above the one of a score `top` that none of them exceeds.  By induction on the tokens. -/
theorem offered_spec {top : Score} (hmargin : w.margin ≤ .certain) (htop : top < .infinity)
    (ids : List Nat) : ∀ b : Beam, b.widths = w → b.bestScore ≤ top → (∀ id ∈ ids, score id ≤ top) →
      (b.offered score ids).widths = w ∧ (b.offered score ids).tokens ⊆ b.tokens ++ ids ∧
      (b.offered score ids).tokens.filter (fun id => decide (top + w.margin ≤ score id)) =
        (b.tokens ++ ids).filter fun id => decide (top + w.margin ≤ score id) := by
  induction ids with
  | nil =>
    intro b hwidths _ _
    rw [List.append_nil]
    exact ⟨hwidths, fun _ h => h, rfl⟩
  | cons id ids ih =>
    intro b hwidths hbest hle
    have hlater : ∀ x ∈ ids, score x ≤ top := fun x hx => hle x (List.mem_cons_of_mem id hx)
    rw [show b.offered score (id :: ids) = (b.offer id (score id)).offered score ids from rfl]
    by_cases hadmits : b.admits (score id) = true
    · have hnoted : (b.push id (score id)).bestScore ≤ top := by
        rw [bestScore_eq (best_push b id (score id))]
        rcases bestScore_note b id (score id) with hsame | hnew
        · exact bestScore_eq hsame ▸ hbest
        · rw [hnew]
          exact hle id (by simp)
      have hrest := ih (b.push id (score id)) ((widths_note _ id (score id)).trans hwidths) hnoted
        hlater
      rw [tokens_push, List.append_assoc, List.singleton_append] at hrest
      rw [offer, if_pos hadmits]
      exact hrest
    · obtain ⟨hwidths', hsub, hfilter⟩ := ih b hwidths hbest hlater
      -- the threshold of the moment is not above the one below `top`
      have hbeyond : ¬ top + w.margin ≤ score id := fun hin => by
        refine hadmits (decide_eq_true ?_)
        rw [threshold, hwidths]
        exact add_margin_le hmargin htop hbest hin
      rw [offer, if_neg hadmits]
      refine ⟨hwidths', fun x hx => ?_, ?_⟩
      · rcases List.mem_append.1 (hsub hx) with hx | hx
        · exact List.mem_append_left _ hx
        · exact List.mem_append_right _ (List.mem_cons_of_mem id hx)
      · rw [hfilter, List.filter_append, List.filter_append,
          List.filter_cons_of_neg (by simpa using hbeyond)]

/-- **Tokens beyond the margin do not count.** -/
theorem kept_eq_of_filter (hmargin : w.margin ≤ .certain) (h : Bounded score ids)
    (hsub : ids' ⊆ ids)
    (hfilter : ids'.filter (within w score ids) = ids.filter (within w score ids)) :
    kept w score ids' = kept w score ids := by
  by_cases hne : ids = []
  · subst hne
    rw [List.subset_nil.1 hsub]
  · obtain ⟨⟨top, htop, heq⟩, hle⟩ := h.greatest hne
    rw [← heq] at hle
    have hmem : top ∈ ids' := by
      have hin : top ∈ ids.filter (within w score ids) :=
        List.mem_filter.2 ⟨htop, within_of_best hmargin h htop hle⟩
      exact List.mem_of_mem_filter (hfilter ▸ hin)
    have hwithin : within w score ids' = within w score ids := funext fun id => by
      rw [within_eq hmargin h htop hle,
        within_eq hmargin (h.subset hsub) hmem fun x hx => hle x (hsub hx)]
    unfold kept
    rw [hwithin, ← Score.sortDescending_filter, hfilter, Score.sortDescending_filter]

end Beam

namespace Pruner

open Beam (kept_eq_of_filter offered_spec prune_eq pushed_spec)

/-- **It is no loss to refuse a token that is not admitted.**  The same beam is left, with the same
best token and so with the same threshold, whether some tokens are offered one by one to a beam
without tokens, which refuses those that its threshold of the moment does not admit, or all of them
are appended. -/
theorem byWidths_offered (a : Store) (w : BeamWidths) (ids : List Nat)
    (hmargin : w.margin ≤ .certain) (hstored : ∀ id ∈ ids, id < a.size)
    (hscores : ∀ id ∈ ids, a.score id < .infinity) :
    ∃ b, byWidths a ((Beam.empty w).offered a.score ids) = .ok b ∧
      byWidths a ((Beam.empty w).pushed a.score ids) = .ok b := by
  have hbounded : Beam.Bounded a.score ids := hscores
  have htop := hbounded.greatest_lt
  have hbest : ∀ id ∈ ids, a.score id ≤ Score.greatest (ids.map a.score) := fun id hid =>
    (hbounded.greatest (List.ne_nil_of_mem hid)).2 id hid
  obtain ⟨hall, hwidths⟩ := pushed_spec a.score ids (.empty w)
  obtain ⟨hwidths', hsub, hfilter⟩ := offered_spec hmargin htop ids (.empty w) rfl
    (Score.impossible_le (Score.isNumber_of_lt_infinity htop)) hbest
  have hkept := kept_eq_of_filter hmargin hbounded hsub hfilter
  generalize (Beam.empty w).offered a.score ids = fewer at *
  generalize (Beam.empty w).pushed a.score ids = all at *
  rw [show (Beam.empty w).tokens ++ ids = ids from rfl] at hall
  have hpruned : fewer.prune a.score = all.prune a.score := by
    rw [prune_eq (hwidths' ▸ hmargin) (hbounded.subset hsub), prune_eq (hwidths ▸ hmargin)
      (hall ▸ hbounded), hwidths', hwidths, hall, hkept]
    rfl
  refine ⟨_, byWidths_eq fun id hid => hstored id (hsub hid), ?_⟩
  rw [hpruned]
  exact byWidths_eq (hall ▸ hstored)

end Pruner

/-! ## Five tokens

The second one is too poor when it comes, and the count leaves three of the others. -/

namespace Beam.Scatter

def scores : List Score :=
  [Float32.ofBits 0xBF800000, Float32.ofBits 0xC1F00000, Float32.ofBits 0xC0800000,
    Float32.ofBits 0xC0000000, Float32.ofBits 0xC1000000]

def store : Store := ⟨(scores.map fun score => { Token.seed 0 .branch 0 with score }).toArray⟩

/-- Three tokens, and no score further than 10 from the best one. -/
def widths : BeamWidths := ⟨3, Float32.ofBits 0xC1200000⟩

/-- As no two scores are equal, one order is sorted. -/
theorem sorted : Score.sortDescending store.score [0, 1, 2, 3, 4] = [0, 3, 2, 4, 1] := by
  have hinj : ∀ x ∈ [0, 1, 2, 3, 4], ∀ y ∈ [0, 3, 2, 4, 1],
      (store.score y).rank ≤ (store.score x).rank → (store.score x).rank ≤ (store.score y).rank →
      x = y := by decide +kernel
  refine List.Perm.eq_of_pairwise (fun x y hx hy => hinj x (Score.mem_sortDescending.1 hx) y hy)
    (Score.pairwise_sortDescending _ _) (by decide +kernel) ?_
  exact (Score.sortDescending_perm _ _).trans (by decide)

/-- The tokens before pruning. -/
def beam (w : BeamWidths) : Beam := ⟨w, [0, 1, 2, 3, 4], none⟩

theorem bounded : Bounded store.score [0, 1, 2, 3, 4] := by
  unfold Bounded
  decide +kernel

theorem kept_eq : kept widths store.score [0, 1, 2, 3, 4] = [0, 3, 2] := by
  unfold kept
  rw [sorted]
  decide +kernel

end Beam.Scatter

namespace Pruner

open Beam

/-- The second token is refused at once; without a test it is dropped later. -/
theorem byWidths_offered_scatter :
    ((Beam.empty Scatter.widths).offered Scatter.store.score [0, 1, 2, 3, 4]).tokens = [0, 2, 3, 4] ∧
    ((Beam.empty Scatter.widths).pushed Scatter.store.score [0, 1, 2, 3, 4]).tokens =
      [0, 1, 2, 3, 4] ∧
    ∃ b, byWidths Scatter.store
        ((Beam.empty Scatter.widths).offered Scatter.store.score [0, 1, 2, 3, 4]) = .ok b ∧
      byWidths Scatter.store
        ((Beam.empty Scatter.widths).pushed Scatter.store.score [0, 1, 2, 3, 4]) = .ok b :=
  ⟨by decide +kernel, by decide +kernel, byWidths_offered Scatter.store Scatter.widths
    [0, 1, 2, 3, 4] (by decide) (by decide) Scatter.bounded⟩

end Pruner

end SpeechDecoder
