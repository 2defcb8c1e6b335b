/-!
# Scores

A score is a natural-log probability held in binary32.  Scores are compared in two ways.  The
comparisons `<` and `≤` are those of floating-point numbers: both are false when a side is not a
number, and the two zeros are equal.  `rank` is the total order: it separates the zeros
(`-0.0` below `0.0`) and gives a place to what is not a number.  Sorting and the choice of a best
element go by `rank`; thresholds go by `≤`.

* `sortDescending` is the stable descending sort, `bestLast` the last of the elements of greatest
  rank, and `greatest` the greatest of a list of scores, where what is not a number is passed over.
-/

namespace SpeechDecoder

/-- A natural-log probability. -/
abbrev Score := Float32

namespace Score

/-- **The impossible event:** negative infinity. -/
def impossible : Score := Float32.ofBits 0xFF800000

/-- **The certain event:** zero. -/
def certain : Score := Float32.ofBits 0

/-- **The place of a score in the total order.**  Patterns without the sign bit are ordered as they
are, patterns with it the other way round and below them.  There is a single value here that is not
a number, and it has no sign: it is placed above everything.  In the total order of patterns one that
has the sign bit is placed below negative infinity.  Nothing that is proved depends on this place. -/
def rank (x : Score) : Int :=
  if x.toBits.toNat < 2147483648 then x.toBits.toNat else 2147483647 - (x.toBits.toNat : Int)

/-- The greater of two scores; what is not a number loses, and of two zeros the second is taken. -/
def larger (x y : Score) : Score :=
  if x ≤ y || x.isNaN then y else x

/-- **The greatest score of a list,** impossible for the empty list. -/
def greatest (xs : List Score) : Score :=
  xs.foldl larger impossible

variable {α : Type}

/-- Whether `a` may stand before `b` in a descending list. -/
def notBelow (score : α → Score) (a b : α) : Bool :=
  decide (rank (score b) ≤ rank (score a))

/-- **Descending order of score,** elements of equal rank in the order they had. -/
def sortDescending (score : α → Score) (xs : List α) : List α :=
  xs.mergeSort (notBelow score)

/-- The later of two elements, unless the earlier one ranks strictly higher. -/
def laterBest (score : α → Score) (best : Option α) (x : α) : Option α :=
  match best with
  | none => some x
  | some y => if rank (score y) ≤ rank (score x) then some x else some y

/-- **The last element of greatest rank.** -/
def bestLast (score : α → Score) (xs : List α) : Option α :=
  xs.foldl (laterBest score) none

/-! ## First facts -/

theorem notBelow_iff {score : α → Score} {a b : α} :
    notBelow score a b = true ↔ rank (score b) ≤ rank (score a) := by
  simp [notBelow]

theorem notBelow_trans (score : α → Score) (a b c : α) (hab : notBelow score a b = true)
    (hbc : notBelow score b c = true) : notBelow score a c = true := by
  rw [notBelow_iff] at *
  omega

theorem notBelow_total (score : α → Score) (a b : α) :
    (notBelow score a b || notBelow score b a) = true := by
  rw [Bool.or_eq_true, notBelow_iff, notBelow_iff]
  omega

theorem sortDescending_perm (score : α → Score) (xs : List α) :
    (sortDescending score xs).Perm xs :=
  List.mergeSort_perm xs _

@[simp] theorem mem_sortDescending {score : α → Score} {xs : List α} {x : α} :
    x ∈ sortDescending score xs ↔ x ∈ xs :=
  (sortDescending_perm score xs).mem_iff

@[simp] theorem length_sortDescending (score : α → Score) (xs : List α) :
    (sortDescending score xs).length = xs.length :=
  (sortDescending_perm score xs).length_eq

/-- The sorted list never rises. -/
theorem pairwise_sortDescending (score : α → Score) (xs : List α) :
    (sortDescending score xs).Pairwise fun a b => rank (score b) ≤ rank (score a) :=
  (List.pairwise_mergeSort (notBelow_trans score) (notBelow_total score) xs).imp
    fun h => notBelow_iff.1 h

end Score

end SpeechDecoder
