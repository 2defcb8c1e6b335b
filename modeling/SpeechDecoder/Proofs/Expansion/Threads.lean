import SpeechDecoder.Proofs.Expansion.Frame

/-!
# Paths through an expansion

An expansion gives every token that it creates a predecessor that was settled before it, or what
such a token had as its own predecessor.  So the paths of the frame go on from those of the store
that it starts from (`Sound.threaded`), whatever the graph looks like within the frame.
-/

namespace SpeechDecoder

namespace Store

/-- A token always has something to link back to. -/
theorem link_ne_none (keepAll : Bool) (id : Nat) (t : Token) : link keepAll id t ≠ none := by
  unfold link
  cases hp : t.predecessor with
  | none => simp
  | some p => split <;> simp

/-- What a token is linked back to is the other one or its predecessor. -/
theorem link_eq_some {keepAll : Bool} {id p : Nat} {t : Token} (h : link keepAll id t = some p) :
    p = id ∨ t.predecessor = some p := by
  unfold link at h
  split at h
  · exact .inl (Option.some.inj h).symm
  · exact .inr h

variable {a : Store}

/-- The predecessor on a path has a path. -/
theorem Path.predecessor {id p : Nat} {t : Token} {l : List Nat} (h : a.Path id l)
    (ht : a.get? id = some t) (hp : t.predecessor = some p) : ∃ l', a.Path p l' := by
  cases h with
  | root hg hn =>
    rw [ht] at hg
    cases hg
    rw [hp] at hn
    cases hn
  | step hg hp' hl =>
    rw [ht] at hg
    cases hg
    rw [hp] at hp'
    cases hp'
    exact ⟨_, hl⟩

/-- **A token that links back to one with a path** has a path. -/
theorem Path.link {c id : Nat} {u t : Token} {l : List Nat} {keepAll : Bool} (h : a.Path c l)
    (hu : a.get? c = some u) (ht : a.get? id = some t)
    (hp : t.predecessor = Store.link keepAll c u) : ∃ l', a.Path id l' := by
  obtain ⟨p, hlink⟩ := Option.ne_none_iff_exists'.1 (link_ne_none keepAll c u)
  rw [hlink] at hp
  rcases link_eq_some hlink with rfl | hup
  · exact ⟨_, .step ht hp h⟩
  · obtain ⟨l', hl'⟩ := h.predecessor hu hup
    exact ⟨_, .step ht hp hl'⟩

end Store

namespace Expansion

variable {g : Growth} {base : Store} {done : List Nat} {e : Expansion}

/-- The tokens of the store before the frame keep their paths. -/
theorem Sound.old_path (h : Sound g base done e) {id : Nat} {l : List Nat} (hl : base.Path id l) :
    e.store.Path id l :=
  hl.congr fun x hx => by rw [h.old x (hl.mem_lt hx)]

/-- Every settled token has a path: by induction on the order in which they were expanded. -/
theorem Sound.settled_path (h : Sound g base done e) (hbase : base.Threaded) {c : Nat}
    (hc : Settled base done c) : ∃ l, e.store.Path c l := by
  have hold : ∀ id < base.size, ∃ l, e.store.Path id l := fun id hid =>
    (hbase.rooted id hid).imp fun l hl => h.old_path hl
  have hdone : ∀ rest, Chained g base e.store rest → ∀ c ∈ rest, ∃ l, e.store.Path c l := by
    intro rest
    induction rest with
    | nil => exact fun _ c hc => by cases hc
    | cons c rest ih =>
      rintro ⟨⟨t, -, ht, d, u, source, arc, target, hd, hu, -, -, -, -, rfl⟩, hrest⟩ x hx
      rcases List.mem_cons.1 hx with rfl | hx
      · obtain ⟨l, hl⟩ := hd.elim (hold d) (ih hrest d)
        exact hl.link hu ht rfl
      · exact ih hrest x hx
  exact hc.elim (hold c) (hdone done h.chained c)

/-- No token is later than the frame. -/
theorem Sound.frame_le (h : Sound g base done e)
    (hframe : ∀ id t, base.get? id = some t → t.frame ≤ g.frame) {id : Nat} {t : Token}
    (ht : e.store.get? id = some t) : t.frame ≤ g.frame := by
  rcases Nat.lt_or_ge id base.size with hid | hid
  · exact hframe id t (h.old id hid ▸ ht)
  · obtain ⟨c, u, source, arc, target, -, -, -, -, -, -, rfl⟩ := h.arrived id t hid ht
    exact le_rfl

/-- **The paths of a frame** are in order if those before it are. -/
theorem Sound.threaded (h : Sound g base done e) (hbase : base.Threaded)
    (hframe : ∀ id t, base.get? id = some t → t.frame ≤ g.frame) : e.store.Threaded where
  rooted id hid := by
    rcases Nat.lt_or_ge id base.size with hlt | hge
    · exact h.settled_path hbase (.inl hlt)
    · obtain ⟨t, ht⟩ := Store.exists_get? hid
      obtain ⟨c, u, source, arc, target, hc, hu, -, -, -, -, rfl⟩ := h.arrived id t hge ht
      obtain ⟨l, hl⟩ := h.settled_path hbase hc
      exact hl.link hu ht rfl
  first id t ht hp := by
    rcases Nat.lt_or_ge id base.size with hlt | hge
    · exact hbase.first id t (h.old id hlt ▸ ht) hp
    · obtain ⟨c, u, source, arc, target, -, -, -, -, -, -, rfl⟩ := h.arrived id t hge ht
      exact absurd hp (Store.link_ne_none _ c u)
  ordered id t p u ht hp hu := by
    rcases Nat.lt_or_ge id base.size with hlt | hge
    · rw [h.old id hlt] at ht
      obtain ⟨l, hl⟩ := hbase.rooted id hlt
      obtain ⟨l', hl'⟩ := hl.predecessor ht hp
      rw [h.old p hl'.lt_size] at hu
      exact hbase.ordered id t p u ht hp hu
    · have hle := h.frame_le hframe hu
      obtain ⟨c, v, source, arc, target, -, -, -, -, -, -, rfl⟩ := h.arrived id t hge ht
      exact hle

/-- An expansion from a store without tokens creates none. -/
theorem Sound.size_pos (h : Sound g base done e) (hbase : base.Threaded)
    (hframe : ∀ id t, base.get? id = some t → t.frame ≤ g.frame) (hpos : 0 < e.store.size) :
    0 < base.size := by
  have hthreaded := h.threaded hbase hframe
  obtain ⟨l, hl⟩ := hthreaded.rooted 0 hpos
  obtain ⟨r, t, hr, ht, hp⟩ := hl.head?
  rcases Nat.lt_or_ge r base.size with hlt | hge
  · omega
  · obtain ⟨c, u, source, arc, target, -, -, -, -, -, -, rfl⟩ := h.arrived r t hge ht
    exact absurd hp (Store.link_ne_none _ c u)

end Expansion

end SpeechDecoder
