import SpeechDecoder.Token.Store
import Mathlib.Data.List.Chain
import Mathlib.Data.List.Nodup
import Mathlib.Data.List.Perm.Subperm

/-!
# Paths in the store

`Store.Path a id l` says that `l` is the list of tokens from a start to `id` along the predecessors.
There is at most one such list, it visits no token twice, and `backtrace` finds it.

* `Threaded` is what a search keeps true of its store: every token has a path, only token 0 starts
  one, and no path goes back in time.
* `Threaded.backtrace` says what a backtrace gives in such a store.
-/

namespace SpeechDecoder.Store

/-- **A path:** the tokens from a start to `id`, each one the predecessor of the next. -/
inductive Path (a : Store) : Nat → List Nat → Prop
  | root {id : Nat} {t : Token} (h : a.get? id = some t) (hp : t.predecessor = none) :
      Path a id [id]
  | step {id p : Nat} {t : Token} {l : List Nat} (h : a.get? id = some t)
      (hp : t.predecessor = some p) (hl : Path a p l) : Path a id (l ++ [id])

variable {a : Store}

theorem lt_size_of_get? {id : Nat} {t : Token} (h : a.get? id = some t) : id < a.size := by
  by_contra hn
  rw [(a.get?_eq_none_iff).2 (by omega)] at h
  cases h

theorem exists_get? {id : Nat} (h : id < a.size) : ∃ t, a.get? id = some t := by
  cases hg : a.get? id with
  | none =>
    have := a.get?_eq_none_iff.1 hg
    omega
  | some t => exact ⟨t, rfl⟩

theorem ext_get? {a' : Store} (h : ∀ id, a'.get? id = a.get? id) : a' = a :=
  congrArg Store.mk (Array.ext_getElem? fun {i} => h i)

theorem get_eq_ok {id : Nat} {t : Token} (h : a.get? id = some t) : a.get id = .ok t := by
  unfold get
  rw [h]

/-! ### One path to each token -/

theorem Path.unique {id : Nat} {l l' : List Nat} (h : a.Path id l) (h' : a.Path id l') : l = l' := by
  induction h generalizing l' with
  | root hg hp =>
    cases h' with
    | root => rfl
    | step hg' hp' _ =>
      rw [hg] at hg'
      cases hg'
      rw [hp] at hp'
      cases hp'
  | step hg hp _ ih =>
    cases h' with
    | root hg' hp' =>
      rw [hg] at hg'
      cases hg'
      rw [hp] at hp'
      cases hp'
    | step hg' hp' hl' =>
      rw [hg] at hg'
      cases hg'
      rw [hp] at hp'
      cases hp'
      rw [ih hl']

theorem Path.getLast? {id : Nat} {l : List Nat} (h : a.Path id l) : l.getLast? = some id := by
  cases h <;> simp

theorem Path.ne_nil {id : Nat} {l : List Nat} (h : a.Path id l) : l ≠ [] := by
  cases h <;> simp

theorem Path.lt_size {id : Nat} {l : List Nat} (h : a.Path id l) : id < a.size := by
  cases h with
  | root hg _ => exact lt_size_of_get? hg
  | step hg _ _ => exact lt_size_of_get? hg

/-- A path leads over every token on it. -/
theorem Path.exists_initial {id : Nat} {l : List Nat} (h : a.Path id l) {x : Nat} (hx : x ∈ l) :
    ∃ l₁ l₂, a.Path x l₁ ∧ l = l₁ ++ l₂ := by
  induction h with
  | root hg hp =>
    rw [List.mem_singleton] at hx
    subst hx
    exact ⟨_, [], .root hg hp, rfl⟩
  | @step id p t l hg hp hl ih =>
    rcases List.mem_append.1 hx with hx | hx
    · obtain ⟨l₁, l₂, h₁, rfl⟩ := ih hx
      exact ⟨l₁, l₂ ++ [id], h₁, by simp⟩
    · rw [List.mem_singleton] at hx
      subst hx
      exact ⟨_, [], .step hg hp hl, by simp⟩

/-- A path visits no token twice: the part up to a second visit would be a shorter path. -/
theorem Path.nodup {id : Nat} {l : List Nat} (h : a.Path id l) : l.Nodup := by
  induction h with
  | root => simp
  | @step id p t l hg hp hl ih =>
    rw [List.nodup_append]
    refine ⟨ih, by simp, fun x hx y hy => ?_⟩
    rw [List.mem_singleton] at hy
    subst hy
    rintro rfl
    obtain ⟨l₁, l₂, h₁, rfl⟩ := hl.exists_initial hx
    have := congrArg List.length (h₁.unique (.step hg hp hl))
    simp at this

theorem Path.mem_lt {id : Nat} {l : List Nat} (h : a.Path id l) {x : Nat} (hx : x ∈ l) :
    x < a.size := by
  obtain ⟨l₁, -, h₁, -⟩ := h.exists_initial hx
  exact h₁.lt_size

theorem Path.length_le {id : Nat} {l : List Nat} (h : a.Path id l) : l.length ≤ a.size := by
  have hsub : l ⊆ List.range a.size := fun x hx => List.mem_range.2 (h.mem_lt hx)
  have := (List.subperm_of_subset h.nodup hsub).length_le
  simpa using this

/-- Every step of a path goes on from the predecessor. -/
theorem Path.isChain {id : Nat} {l : List Nat} (h : a.Path id l) :
    l.IsChain fun x y => (a.get? y).bind Token.predecessor = some x := by
  induction h with
  | root => simp
  | @step id p t l hg hp hl ih =>
    rw [List.isChain_append]
    refine ⟨ih, by simp, fun x hx y hy => ?_⟩
    rw [hl.getLast?] at hx
    cases hx
    cases hy
    simp [hg, hp]

/-- A path starts at a token without predecessor. -/
theorem Path.head? {id : Nat} {l : List Nat} (h : a.Path id l) :
    ∃ r t, l.head? = some r ∧ a.get? r = some t ∧ t.predecessor = none := by
  induction h with
  | root hg hp => exact ⟨_, _, rfl, hg, hp⟩
  | step _ _ hl ih =>
    obtain ⟨r, t, hr, ht⟩ := ih
    refine ⟨r, t, ?_, ht⟩
    rw [List.head?_append_of_ne_nil _ hl.ne_nil]
    exact hr

/-- A path depends on the predecessors of its tokens only. -/
theorem Path.congr {a' : Store} {id : Nat} {l : List Nat} (h : a.Path id l)
    (heq : ∀ x ∈ l, (a'.get? x).map Token.predecessor = (a.get? x).map Token.predecessor) :
    a'.Path id l := by
  induction h with
  | @root id t hg hp =>
    have := heq id (by simp)
    rw [hg, Option.map_some, Option.map_eq_some_iff] at this
    obtain ⟨t', ht', hp'⟩ := this
    exact .root ht' (hp'.trans hp)
  | @step id p t l hg hp hl ih =>
    have := heq id (by simp)
    rw [hg, Option.map_some, Option.map_eq_some_iff] at this
    obtain ⟨t', ht', hp'⟩ := this
    exact .step ht' (hp'.trans hp) (ih fun x hx => heq x (by simp [hx]))

/-! ### The backtrace -/

theorem backtraceFrom_eq_ok {id : Nat} {l : List Nat} (h : a.Path id l) :
    ∀ (steps : Nat) (later : List Nat), l.length ≤ steps →
      a.backtraceFrom steps id later = .ok (l ++ later) := by
  induction h with
  | root hg hp =>
    intro steps later hs
    obtain ⟨steps, rfl⟩ := Nat.exists_eq_add_of_le' hs
    simp [backtraceFrom, get_eq_ok hg, hp, bind, Except.bind, pure, Except.pure]
  | @step id p t l hg hp _ ih =>
    intro steps later hs
    rw [List.length_append, List.length_singleton] at hs
    obtain ⟨steps, rfl⟩ := Nat.exists_eq_add_of_le' (Nat.le_of_add_left_le hs)
    have hrec := ih steps (id :: later) (by omega)
    simp [backtraceFrom, get_eq_ok hg, hp, bind, Except.bind, hrec]

/-- **The backtrace of a token is its path.** -/
theorem Path.backtrace {id : Nat} {l : List Nat} (h : a.Path id l) : a.backtrace id = .ok l := by
  have := backtraceFrom_eq_ok h (a.size + 1) [] (by have := h.length_le; omega)
  rwa [List.append_nil] at this

/-- **The words of a token** are those on its path. -/
theorem Path.wordPath {id : Nat} {l : List Nat} (h : a.Path id l) :
    a.wordPath id = .ok (l.filterMap a.word?) := by
  simp [Store.wordPath, h.backtrace, bind, Except.bind, pure, Except.pure]

/-! ### Threaded stores -/

/-- **The paths of a store are in order:** every token has one, they all start at token 0, and no
token is of an earlier frame than its predecessor. -/
structure Threaded (a : Store) : Prop where
  rooted : ∀ id < a.size, ∃ l, a.Path id l
  first : ∀ id t, a.get? id = some t → t.predecessor = none → id = 0
  ordered : ∀ id t p u, a.get? id = some t → t.predecessor = some p → a.get? p = some u →
    u.frame ≤ t.frame

theorem Threaded.head? (ha : a.Threaded) {id : Nat} {l : List Nat} (h : a.Path id l) :
    l.head? = some 0 := by
  obtain ⟨r, t, hr, ht, hp⟩ := h.head?
  rw [hr, ha.first r t ht hp]

/-- No token of a path is later than its end. -/
theorem Threaded.frame_le (ha : a.Threaded) {id : Nat} {l : List Nat} (h : a.Path id l) {x : Nat}
    (hx : x ∈ l) {t u : Token} (ht : a.get? x = some t) (hu : a.get? id = some u) :
    t.frame ≤ u.frame := by
  induction h generalizing u with
  | root hg _ =>
    rw [List.mem_singleton] at hx
    subst hx
    rw [ht] at hu
    cases hu
    exact le_rfl
  | @step id p v l hg hp hl ih =>
    rcases List.mem_append.1 hx with hx | hx
    · obtain ⟨w, hw⟩ := exists_get? hl.lt_size
      have := ih hx hw
      have := ha.ordered id u p w hu (by rw [hg] at hu; cases hu; exact hp) hw
      omega
    · rw [List.mem_singleton] at hx
      subst hx
      rw [ht] at hu
      cases hu
      exact le_rfl

/-- **No path goes back in time.** -/
theorem Threaded.pairwise_frame (ha : a.Threaded) {id : Nat} {l : List Nat} (h : a.Path id l) :
    l.Pairwise fun x y => ∀ t u, a.get? x = some t → a.get? y = some u → t.frame ≤ u.frame := by
  induction h with
  | root => simp
  | @step id p v l hg hp hl ih =>
    rw [List.pairwise_append]
    refine ⟨ih, by simp, fun x hx y hy t u ht hu => ?_⟩
    rw [List.mem_singleton] at hy
    subst hy
    exact ha.frame_le (.step hg hp hl) (by simp [hx]) ht hu

theorem threaded_empty : Store.empty.Threaded :=
  ⟨fun _ h => absurd h (by simp [size, Store.empty]), fun _ _ h => by simp [get?, Store.empty] at h,
    fun _ _ _ _ h => by simp [get?, Store.empty] at h⟩

end SpeechDecoder.Store
