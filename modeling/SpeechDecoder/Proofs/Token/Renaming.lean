import SpeechDecoder.Proofs.Token.Path
import Mathlib.Order.Monotone.Basic

/-!
# Stores that number their tokens differently

A store that keeps the tokens of earlier frames and one that does not hold the same tokens under
different numbers.  What a frame does with its tokens keeps the order of the numbers, and new tokens
get the next numbers in both stores (`Renamed`).

* `Renamed.push` and `Renamed.set` carry the relation through a write, and `Renamed.retain` through
  leaving tokens out, where what is left is numbered by its place in a list (`numbering`).
-/

namespace SpeechDecoder.Store

/-- Two tokens that are the same but for the predecessor. -/
theorem detached_eq_iff {t t' : Token} : t'.detached = t.detached ↔
    t'.state = t.state ∧ t'.kind = t.kind ∧ t'.score = t.score ∧ t'.acoustic = t.acoustic ∧
      t'.insertion = t.insertion ∧ t'.language = t.language ∧ t'.frame = t.frame := by
  simp [Token.detached]

/-- **A store under other numbers.**  The tokens are the same but for their predecessors, new tokens
are numbered alike, and the order of the numbers is kept. -/
structure Renamed (ρ : Nat → Nat) (a a' : Store) : Prop where
  mono : StrictMono ρ
  next : ∀ k, ρ (a.size + k) = a'.size + k
  get : ∀ id, (a'.get? (ρ id)).map Token.detached = (a.get? id).map Token.detached

variable {ρ : Nat → Nat} {a a' : Store}

theorem Renamed.refl (a : Store) : Renamed id a a := ⟨strictMono_id, fun _ => rfl, fun _ => rfl⟩

theorem Renamed.size_eq (h : Renamed ρ a a') : ρ a.size = a'.size := h.next 0

theorem Renamed.lt_iff (h : Renamed ρ a a') {id : Nat} : ρ id < a'.size ↔ id < a.size := by
  rw [← h.size_eq]
  exact h.mono.lt_iff_lt

theorem Renamed.exists_get? (h : Renamed ρ a a') {id : Nat} {t : Token} (ht : a.get? id = some t) :
    ∃ t', a'.get? (ρ id) = some t' ∧ t'.detached = t.detached := by
  have hget := h.get id
  rwa [ht, Option.map_some, Option.map_eq_some_iff] at hget

theorem Renamed.get?_eq_none (h : Renamed ρ a a') {id : Nat} (ht : a.get? id = none) :
    a'.get? (ρ id) = none := by
  have hget := h.get id
  rwa [ht, Option.map_none, Option.map_eq_none_iff] at hget

/-- What does not depend on the predecessor is the same under the other number. -/
theorem Renamed.map_eq (h : Renamed ρ a a') {β : Type} (f : Token → β)
    (hf : ∀ t : Token, f t.detached = f t) (id : Nat) :
    (a'.get? (ρ id)).map f = (a.get? id).map f := by
  have hget := congrArg (Option.map f) (h.get id)
  rw [Option.map_map, Option.map_map] at hget
  rwa [show f ∘ Token.detached = f from funext hf] at hget

theorem score_eq_map (a : Store) (id : Nat) :
    a.score id = ((a.get? id).map Token.score).getD .impossible := by
  unfold score
  cases a.get? id <;> rfl

theorem Renamed.score_eq (h : Renamed ρ a a') (id : Nat) : a'.score (ρ id) = a.score id := by
  rw [score_eq_map, score_eq_map, h.map_eq Token.score fun _ => rfl]

theorem Renamed.check (h : Renamed ρ a a') {ids : List Nat} (hids : a.check ids = .ok ()) :
    a'.check (ids.map ρ) = .ok () := by
  rw [check_eq_ok_iff] at hids ⊢
  intro id hid
  obtain ⟨i, hi, rfl⟩ := List.mem_map.1 hid
  exact h.lt_iff.2 (hids i hi)

/-- **A new token** gets its number in both stores. -/
theorem Renamed.push (h : Renamed ρ a a') {t t' : Token} (ht : t'.detached = t.detached) :
    Renamed ρ (a.push t) (a'.push t') := by
  refine ⟨h.mono, fun k => ?_, fun id => ?_⟩
  · rw [size_push, size_push, Nat.add_assoc, Nat.add_comm 1 k, h.next (k + 1)]
    omega
  · rw [get?_push, get?_push, ← h.size_eq]
    by_cases hid : id = a.size
    · rw [if_pos hid, if_pos (congrArg ρ hid), Option.map_some, Option.map_some, ht]
    · rw [if_neg hid, if_neg (h.mono.injective.ne hid), h.get]

/-- **A token that is written** under both numbers. -/
theorem Renamed.set (h : Renamed ρ a a') {t t' : Token} (ht : t'.detached = t.detached) (id : Nat) :
    Renamed ρ (a.set id t) (a'.set (ρ id) t') := by
  refine ⟨h.mono, fun k => ?_, fun x => ?_⟩
  · rw [size_set, size_set, h.next]
  · rw [get?_set, get?_set]
    by_cases hx : id = x
    · subst hx
      simp only [if_true, h.lt_iff]
      split_ifs
      · rw [Option.map_some, Option.map_some, ht]
      · rfl
    · rw [if_neg hx, if_neg (h.mono.injective.ne hx), h.get]

/-! ## Leaving tokens out -/

/-- **The numbers of kept tokens** in a store of `size` tokens: those of the list, and after them
those of new tokens. -/
def numbering (ids : List Nat) (size i : Nat) : Nat := ids[i]?.getD (size + (i - ids.length))

theorem numbering_of_lt {ids : List Nat} {size i : Nat} (hi : i < ids.length) :
    numbering ids size i = ids[i] := by
  unfold numbering
  rw [List.getElem?_eq_getElem hi]
  rfl

theorem numbering_of_le {ids : List Nat} {size i : Nat} (hi : ids.length ≤ i) :
    numbering ids size i = size + (i - ids.length) := by
  unfold numbering
  rw [List.getElem?_eq_none hi]
  rfl

theorem map_numbering (ids : List Nat) (size : Nat) :
    (List.range ids.length).map (numbering ids size) = ids := by
  refine List.ext_getElem (by simp) fun i hi _ => ?_
  rw [List.length_map, List.length_range] at hi
  simp [numbering_of_lt hi]

theorem strictMono_numbering {ids : List Nat} {size : Nat} (hids : ids.Pairwise (· < ·))
    (hlt : ∀ id ∈ ids, id < size) : StrictMono (numbering ids size) := by
  intro i j hij
  by_cases hj : j < ids.length
  · rw [numbering_of_lt (hij.trans hj), numbering_of_lt hj]
    exact List.pairwise_iff_getElem.1 hids i j _ hj hij
  · rw [numbering_of_le (Nat.le_of_not_lt hj)]
    by_cases hi : i < ids.length
    · rw [numbering_of_lt hi]
      exact (hlt _ (List.getElem_mem hi)).trans_le (Nat.le_add_right _ _)
    · rw [numbering_of_le (Nat.le_of_not_lt hi)]
      omega

/-- **Leaving tokens out** of the first store: what is kept has the numbers of the list. -/
theorem Renamed.retain (h : Renamed ρ a a') {kept : Store} {ids : List Nat}
    (hids : ids.Pairwise (· < ·)) (hlt : ∀ id ∈ ids, id < a.size) (hsize : kept.size = ids.length)
    (hget : ∀ i : Nat, kept.get? i = (ids[i]?.bind a.get?).map Token.detached) :
    Renamed (numbering (ids.map ρ) a'.size) kept a' := by
  have hlength : (ids.map ρ).length = kept.size := by rw [List.length_map, hsize]
  refine ⟨strictMono_numbering ?_ fun id hid => ?_, fun k => ?_, fun i => ?_⟩
  · exact hids.map ρ fun _ _ hxy => h.mono hxy
  · obtain ⟨x, hx, rfl⟩ := List.mem_map.1 hid
    exact h.lt_iff.2 (hlt x hx)
  · rw [numbering_of_le (by omega), hlength, Nat.add_sub_cancel_left]
  · by_cases hi : i < ids.length
    · rw [numbering_of_lt (by rwa [List.length_map]), List.getElem_map, h.get, hget,
        List.getElem?_eq_getElem hi, Option.bind_some, Option.map_map]
      rfl
    · have hnone : a'.get? (numbering (ids.map ρ) a'.size i) = none := by
        rw [numbering_of_le (by rw [List.length_map]; omega)]
        exact a'.get?_eq_none_iff.2 (Nat.le_add_right _ _)
      rw [hnone, hget, List.getElem?_eq_none (Nat.le_of_not_lt hi)]
      rfl

end SpeechDecoder.Store
