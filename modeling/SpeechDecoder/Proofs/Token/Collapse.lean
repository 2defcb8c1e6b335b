import SpeechDecoder.Proofs.Token.Renaming

/-!
# Stores that link their tokens differently

A store in which every token is kept on its path, and one in which paths consist of words, hold the
same tokens but for the predecessors (`Alike`).  A predecessor in the second store is what the
predecessor in the first one hands on (`Linked`), and so the words on the paths are the same
(`Linked.wordPath`).
-/

namespace SpeechDecoder.Store

/-- The store without predecessors. -/
def erased (a : Store) : Store := ⟨a.tokens.map Token.detached⟩

/-- **The same tokens but for the predecessors.** -/
def Alike (a a' : Store) : Prop := a'.erased = a.erased

variable {a a' : Store}

@[simp] theorem size_erased : a.erased.size = a.size := by
  simp [erased, size]

@[simp] theorem get?_erased (id : Nat) : a.erased.get? id = (a.get? id).map Token.detached := by
  simp [erased, get?]

theorem erased_push (t : Token) : (a.push t).erased = a.erased.push t.detached := by
  simp [erased, push]

theorem erased_set (id : Nat) (t : Token) : (a.set id t).erased = a.erased.set id t.detached := by
  simp [erased, set]

theorem Alike.refl (a : Store) : a.Alike a := rfl

theorem Alike.size_eq (h : a.Alike a') : a'.size = a.size := by
  rw [← size_erased, h, size_erased]

theorem Alike.get?_eq (h : a.Alike a') (id : Nat) :
    (a'.get? id).map Token.detached = (a.get? id).map Token.detached := by
  rw [← get?_erased, h, get?_erased]

/-- Such a store is numbered as the first one. -/
theorem Alike.renamed (h : a.Alike a') : a.Renamed id a' :=
  ⟨strictMono_id, fun k => (congrArg (· + k) h.size_eq).symm, h.get?_eq⟩

theorem Renamed.alike (h : a.Renamed id a') : a.Alike a' :=
  ext_get? fun id => by rw [get?_erased, get?_erased, ← h.get id]; rfl

theorem Alike.exists_get? (h : a.Alike a') {id : Nat} {t : Token} (ht : a.get? id = some t) :
    ∃ t', a'.get? id = some t' ∧ t'.detached = t.detached :=
  h.renamed.exists_get? ht

theorem Alike.get?_eq_none (h : a.Alike a') {id : Nat} (ht : a.get? id = none) :
    a'.get? id = none :=
  h.renamed.get?_eq_none ht

/-- What does not depend on the predecessor is the same in both stores. -/
theorem Alike.map_eq (h : a.Alike a') {β : Type} (f : Token → β)
    (hf : ∀ t : Token, f t.detached = f t) (id : Nat) : (a'.get? id).map f = (a.get? id).map f :=
  h.renamed.map_eq f hf id

theorem Alike.score_eq (h : a.Alike a') : a'.score = a.score :=
  funext h.renamed.score_eq

theorem Alike.word?_eq (h : a.Alike a') : a'.word? = a.word? := by
  funext id
  have hmap := h.map_eq (fun t => t.kind.word?) (fun _ => rfl) id
  unfold word?
  cases hg : a.get? id with
  | none => rw [h.get?_eq_none hg]
  | some t =>
    obtain ⟨t', ht', -⟩ := h.exists_get? hg
    rw [hg, ht'] at hmap
    rw [ht']
    exact Option.some.inj hmap

theorem Alike.check_eq (h : a.Alike a') (ids : List Nat) : a'.check ids = a.check ids := by
  unfold check
  rw [h.size_eq]

theorem Alike.push (h : a.Alike a') {t t' : Token} (ht : t'.detached = t.detached) :
    (a.push t).Alike (a'.push t') := by
  unfold Alike
  rw [erased_push, erased_push, h, ht]

theorem Alike.set (h : a.Alike a') {t t' : Token} (ht : t'.detached = t.detached) (id : Nat) :
    (a.set id t).Alike (a'.set id t') := by
  unfold Alike
  rw [erased_set, erased_set, h, ht]

/-! ### Links -/

/-- **The links of a collapsed store.**  Where a token of the full store links to `c`, the token of
the other one links to what `c` hands on there; `S` tells which tokens are linked to. -/
def Linked (keepAll : Bool) (S : Nat → Prop) (a a' : Store) : Prop :=
  ∀ id t t', a.get? id = some t → a'.get? id = some t' →
    t.predecessor = none ∧ t'.predecessor = none ∨
    ∃ c u', S c ∧ t.predecessor = some c ∧ a'.get? c = some u' ∧
      t'.predecessor = link keepAll c u'

variable {keepAll : Bool} {S S' : Nat → Prop}

theorem Linked.mono (h : Linked keepAll S a a') (hS : ∀ c, S c → S' c) : Linked keepAll S' a a' := by
  intro id t t' ht ht'
  rcases h id t t' ht ht' with hroot | ⟨c, u', hc, hrest⟩
  · exact .inl hroot
  · exact .inr ⟨c, u', hS c hc, hrest⟩

/-- A token that is not linked to may be written, if it is linked itself. -/
theorem Linked.write (h : Linked keepAll S a a') {b b' : Store} {id c : Nat} {t t' u' : Token}
    (hb : ∀ x, b.get? x = if x = id then some t else a.get? x)
    (hb' : ∀ x, b'.get? x = if x = id then some t' else a'.get? x) (hid : ¬ S id) (hc : S c)
    (hu' : a'.get? c = some u') (hp : t.predecessor = some c)
    (hp' : t'.predecessor = link keepAll c u') : Linked keepAll S b b' := by
  have hkeep : ∀ d, S d → b'.get? d = a'.get? d := by
    intro d hd
    have hne : d ≠ id := fun hdi => hid (hdi ▸ hd)
    rw [hb' d, if_neg hne]
  intro x s s' hs hs'
  rw [hb x] at hs
  rw [hb' x] at hs'
  by_cases hx : x = id
  · rw [if_pos hx] at hs hs'
    cases hs
    cases hs'
    exact .inr ⟨c, u', hc, hp, (hkeep c hc).trans hu', hp'⟩
  · rw [if_neg hx] at hs hs'
    rcases h x s s' hs hs' with hroot | ⟨d, v', hd, hpd, hv', hpd'⟩
    · exact .inl hroot
    · exact .inr ⟨d, v', hd, hpd, (hkeep d hd).trans hv', hpd'⟩

/-- Links depend on the kinds and predecessors of the tokens only. -/
theorem Linked.congr (h : Linked keepAll S a a') {b b' : Store}
    (hb : ∀ x, (b.get? x).map Token.predecessor = (a.get? x).map Token.predecessor)
    (hb' : ∀ x, (b'.get? x).map (fun t => (t.kind, t.predecessor)) =
      (a'.get? x).map fun t => (t.kind, t.predecessor)) : Linked keepAll S b b' := by
  intro id s s' hs hs'
  have hleft := hb id
  rw [hs, Option.map_some, eq_comm, Option.map_eq_some_iff] at hleft
  obtain ⟨t, ht, hp⟩ := hleft
  have hright := hb' id
  rw [hs', Option.map_some, eq_comm, Option.map_eq_some_iff] at hright
  obtain ⟨t', ht', hkp⟩ := hright
  obtain ⟨-, hp'⟩ := Prod.mk.inj hkp
  rw [← hp, ← hp']
  rcases h id t t' ht ht' with hroot | ⟨c, u', hc, hpc, hu', hpc'⟩
  · exact .inl hroot
  · have hto := hb' c
    rw [hu', Option.map_some, Option.map_eq_some_iff] at hto
    obtain ⟨v', hv', hkv⟩ := hto
    obtain ⟨hkind, hpred⟩ := Prod.mk.inj hkv
    refine .inr ⟨c, v', hc, hpc, hv', ?_⟩
    rw [hpc']
    simp only [link, hkind, hpred]

/-- **The words on a path do not depend on the links:** by induction on the path in the full store.
A token that the other path leaves out is not a word. -/
theorem Linked.exists_path (h : Linked keepAll S a a') (halike : a.Alike a') {id : Nat}
    {l : List Nat} (hl : a.Path id l) :
    ∃ l', a'.Path id l' ∧ l'.filterMap a'.word? = l.filterMap a.word? := by
  induction hl with
  | @root id t ht hp =>
    obtain ⟨t', ht', -⟩ := halike.exists_get? ht
    rcases h id t t' ht ht' with ⟨-, hp'⟩ | ⟨c, u', -, hpc, -⟩
    · exact ⟨[id], .root ht' hp', by rw [halike.word?_eq]⟩
    · rw [hp] at hpc
      cases hpc
  | @step id p t l ht hp hpath ih =>
    obtain ⟨l', hl', hwords⟩ := ih
    obtain ⟨t', ht', -⟩ := halike.exists_get? ht
    rcases h id t t' ht ht' with ⟨hnone, -⟩ | ⟨c, u', -, hpc, hu', hp'⟩
    · rw [hp] at hnone
      cases hnone
    · rw [hp] at hpc
      cases hpc
      unfold link at hp'
      split at hp'
      · refine ⟨l' ++ [id], .step ht' hp' hl', ?_⟩
        rw [List.filterMap_append, List.filterMap_append, hwords, halike.word?_eq]
      · next hcond =>
        simp only [Bool.or_eq_true, not_or, Bool.not_eq_true] at hcond
        obtain ⟨⟨-, hword⟩, hpred⟩ := hcond
        -- the token in between is left out, and its own path is gone on with
        cases hl' with
        | root hu hn =>
          rw [hu'] at hu
          cases hu
          simp [hn] at hpred
        | @step _ q v l'' hu hq hl'' =>
          rw [hu'] at hu
          cases hu
          refine ⟨l'' ++ [id], .step ht' (hp'.trans hq) hl'', ?_⟩
          have hnot : a'.word? p = none := by
            unfold word?
            rw [hu']
            simpa [StateKind.isWord] using hword
          rw [List.filterMap_append, List.filterMap_cons_none hnot, List.filterMap_nil,
            List.append_nil] at hwords
          rw [List.filterMap_append, List.filterMap_append, hwords, halike.word?_eq]

/-- **Both stores tell the same words.** -/
theorem Linked.wordPath_eq (h : Linked keepAll S a a') (halike : a.Alike a') (ha : a.Threaded)
    (id : Nat) : a'.wordPath id = a.wordPath id := by
  rcases Nat.lt_or_ge id a.size with hid | hid
  · obtain ⟨l, hl⟩ := ha.rooted id hid
    obtain ⟨l', hl', hwords⟩ := h.exists_path halike hl
    rw [hl.wordPath, hl'.wordPath, hwords]
  · have hnone := a.get?_eq_none_iff.2 hid
    have hnone' := halike.get?_eq_none hnone
    simp [wordPath, backtrace, backtraceFrom, get, hnone, hnone', bind, Except.bind]

/-! ### Stores whose predecessors are stored -/

/-- Every predecessor is in the store. -/
def Closed (a : Store) : Prop :=
  ∀ id t p, a.get? id = some t → t.predecessor = some p → p < a.size

theorem Closed.write (ha : a.Closed) {b : Store} {id : Nat} {t : Token}
    (hb : ∀ x, b.get? x = if x = id then some t else a.get? x) (hsize : a.size ≤ b.size)
    (hp : ∀ p, t.predecessor = some p → p < a.size) : b.Closed := by
  intro x s p hs hsp
  rw [hb x] at hs
  by_cases hx : x = id
  · rw [if_pos hx] at hs
    cases hs
    exact (hp p hsp).trans_le hsize
  · rw [if_neg hx] at hs
    exact (ha x s p hs hsp).trans_le hsize

theorem Closed.congr (ha : a.Closed) {b : Store} (hsize : b.size = a.size)
    (hb : ∀ x, (b.get? x).map Token.predecessor = (a.get? x).map Token.predecessor) : b.Closed := by
  intro x s p hs hsp
  have hx := hb x
  rw [hs, Option.map_some, eq_comm, Option.map_eq_some_iff] at hx
  obtain ⟨t, ht, hp⟩ := hx
  rw [hsize]
  exact ha x t p ht (hp.trans hsp)

/-- What a stored token hands on is stored. -/
theorem Closed.lt_of_link (ha : a.Closed) {c p : Nat} {u : Token} (hu : a.get? c = some u)
    (hp : link keepAll c u = some p) : p < a.size := by
  unfold link at hp
  split at hp
  · cases hp
    exact lt_size_of_get? hu
  · exact ha c u p hu hp

end SpeechDecoder.Store
