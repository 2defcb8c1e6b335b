import SpeechDecoder.Score

/-!
# Outcomes

A computation that halts leaves a state behind, and the search goes on from there.  So what a
computation keeps true has to hold of its result and of what it halts with.

* `Outcome P H x` says that `P` holds of the result of `x`, or `H` of what `x` halts with.
* `Outcome.bind`, `Outcome.foldlM` and `Outcome.foldlM_rest` carry it through sequences of steps.
-/

namespace SpeechDecoder

/-- **What a computation ends with,** finished or halted. -/
def Outcome {ε α : Type} (P : α → Prop) (H : ε → Prop) : Except ε α → Prop
  | .ok a => P a
  | .error h => H h

variable {ε η σ α β : Type} {P Q : α → Prop} {H K : ε → Prop}

theorem Outcome.trivial (x : Except ε α) : Outcome (fun _ => True) (fun _ => True) x := by
  cases x <;> exact True.intro

theorem Outcome.of_ok {x : Except ε α} (h : Outcome P H x) {a : α} (hx : x = .ok a) : P a := by
  subst hx
  exact h

theorem Outcome.of_error {x : Except ε α} (h : Outcome P H x) {e : ε} (hx : x = .error e) : H e := by
  subst hx
  exact h

/-- What is said of a computation as a whole. -/
theorem outcome_iff {R : Except ε α → Prop} {x : Except ε α} :
    Outcome (fun a => R (.ok a)) (fun e => R (.error e)) x ↔ R x := by
  cases x <;> rfl

/-- A computation that nothing halts. -/
theorem Outcome.exists_ok {x : Except ε α} (h : Outcome P (fun _ => False) x) :
    ∃ a, x = .ok a ∧ P a := by
  cases x with
  | ok a => exact ⟨a, rfl, h⟩
  | error e => exact h.elim

theorem Outcome.mono {x : Except ε α} (h : Outcome P H x) (hP : ∀ a, P a → Q a)
    (hH : ∀ e, H e → K e) : Outcome Q K x := by
  cases x with
  | ok a => exact hP a h
  | error e => exact hH e h

theorem Outcome.imp {x : Except ε α} (h : Outcome P H x) (hP : ∀ a, P a → Q a) : Outcome Q H x :=
  h.mono hP fun _ h => h

theorem Outcome.and {x : Except ε α} (h : Outcome P H x) (h' : Outcome Q (fun _ => True) x) :
    Outcome (fun a => P a ∧ Q a) H x := by
  cases x with
  | ok a => exact ⟨h, h'⟩
  | error e => exact h

theorem Outcome.both {x : Except ε α} (h : Outcome P H x) (h' : Outcome Q K x) :
    Outcome (fun a => P a ∧ Q a) (fun e => H e ∧ K e) x := by
  cases x with
  | ok a => exact ⟨h, h'⟩
  | error e => exact ⟨h, h'⟩

theorem Outcome.bind {R : β → Prop} {x : Except ε α} {f : α → Except ε β} (hx : Outcome P H x)
    (hf : ∀ a, P a → Outcome R H (f a)) : Outcome R H (x >>= f) := by
  cases x with
  | ok a => exact hf a hx
  | error e => exact hx

theorem Outcome.map {R : β → Prop} {x : Except ε α} (hx : Outcome P H x) (f : α → β)
    (hf : ∀ a, P a → R (f a)) : Outcome R H (x.map f) := by
  cases x with
  | ok a => exact hf a hx
  | error e => exact hx

theorem mapError_ok (f : ε → η) (a : α) : Except.mapError f (.ok a) = .ok a := rfl

theorem mapError_error (f : ε → η) (e : ε) :
    Except.mapError f (.error e) = (.error (f e) : Except η α) :=
  rfl

theorem Outcome.mapError {f : ε → η} {K : η → Prop} {x : Except ε α}
    (hx : Outcome P (fun e => K (f e)) x) : Outcome P K (x.mapError f) := by
  cases x with
  | ok a => exact hx
  | error e => exact hx

/-- A fold whose invariant tells which elements are still to come. -/
theorem Outcome.foldlM_rest {I : List α → σ → Prop} {f : σ → α → Except ε σ}
    (hf : ∀ a l s, I (a :: l) s → Outcome (I l) H (f s a)) :
    ∀ (l : List α) (s : σ), I l s → Outcome (I []) H (l.foldlM f s)
  | [], _, hs => hs
  | a :: l, s, hs => by
    rw [List.foldlM_cons]
    exact (hf a l s hs).bind (foldlM_rest hf l)

theorem Outcome.foldlM {I : σ → Prop} {f : σ → α → Except ε σ} {l : List α}
    (hf : ∀ s, ∀ a ∈ l, I s → Outcome I H (f s a)) (s : σ) (hs : I s) :
    Outcome I H (l.foldlM f s) := by
  have hrest := foldlM_rest (I := fun l' s => l' ⊆ l ∧ I s) (H := H) (f := f)
    (fun a l' s h => (hf s a (h.1 (by simp)) h.2).imp fun _ hs' =>
      ⟨fun _ hb => h.1 (List.mem_cons_of_mem a hb), hs'⟩) l s ⟨fun _ h => h, hs⟩
  exact hrest.imp fun _ h => h.2

/-- A computation is finished if something holds of its result. -/
theorem exists_of_any {x : Except ε α} {p : α → Bool} (h : x.toOption.any p = true) :
    ∃ a, x = .ok a ∧ p a = true := by
  cases x with
  | ok a => exact ⟨a, rfl, h⟩
  | error e => cases h

/-! ## Two computations -/

/-- **Two computations that end alike:** both finished or both halted. -/
def Matched {ε η α β : Type} (R : α → β → Prop) (S : ε → η → Prop) :
    Except ε α → Except η β → Prop
  | .ok a, .ok b => R a b
  | .error e, .error f => S e f
  | _, _ => False

section Matched

variable {γ δ τ : Type} {R : α → β → Prop} {S : ε → η → Prop}

theorem Matched.mono {R' : α → β → Prop} {S' : ε → η → Prop} {x : Except ε α} {y : Except η β}
    (h : Matched R S x y) (hR : ∀ a b, R a b → R' a b) (hS : ∀ e f, S e f → S' e f) :
    Matched R' S' x y := by
  match x, y, h with
  | .ok a, .ok b, h => exact hR a b h
  | .error e, .error f, h => exact hS e f h

/-- Both computations are finished, or both are halted. -/
theorem Matched.cases {x : Except ε α} {y : Except η β} (h : Matched R S x y) :
    (∃ a b, x = .ok a ∧ y = .ok b ∧ R a b) ∨ ∃ e f, x = .error e ∧ y = .error f ∧ S e f := by
  match x, y, h with
  | .ok a, .ok b, h => exact .inl ⟨a, b, rfl, rfl, h⟩
  | .error e, .error f, h => exact .inr ⟨e, f, rfl, rfl, h⟩

/-- What holds of both computations together holds of the first one. -/
theorem Matched.left {x : Except ε α} {y : Except η β} (h : Matched R S x y) :
    Outcome (fun a => ∃ b, R a b) (fun e => ∃ f, S e f) x := by
  match x, y, h with
  | .ok a, .ok b, h => exact ⟨b, h⟩
  | .error e, .error f, h => exact ⟨f, h⟩

theorem Matched.and_left {P : α → Prop} {H : ε → Prop} {x : Except ε α} {y : Except η β}
    (h : Matched R S x y) (hx : Outcome P H x) : Matched (fun a b => R a b ∧ P a) S x y := by
  match x, y, h with
  | .ok a, .ok b, h => exact ⟨h, hx⟩
  | .error e, .error f, h => exact h

/-- Computations with the same results and the same errors. -/
theorem Matched.mapError_eq {x : Except ε α} {y : Except η α} {f : ε → γ} {k : η → γ}
    (h : Matched (fun a b => a = b) (fun e e' => f e = k e') x y) :
    x.mapError f = y.mapError k := by
  match x, y, h with
  | .ok a, .ok b, h => exact congrArg Except.ok h
  | .error e, .error e', h => exact congrArg Except.error h

theorem Matched.mapError {S : γ → δ → Prop} {x : Except ε α} {y : Except η β} {f : ε → γ} {k : η → δ}
    (h : Matched R (fun e e' => S (f e) (k e')) x y) : Matched R S (x.mapError f) (y.mapError k) := by
  match x, y, h with
  | .ok a, .ok b, h => exact h
  | .error e, .error e', h => exact h

theorem Matched.bind {Q : γ → δ → Prop} {x : Except ε α} {y : Except η β} {f : α → Except ε γ}
    {k : β → Except η δ} (h : Matched R S x y) (hf : ∀ a b, R a b → Matched Q S (f a) (k b)) :
    Matched Q S (x >>= f) (y >>= k) := by
  match x, y, h with
  | .ok a, .ok b, h => exact hf a b h
  | .error e, .error f, h => exact h

theorem Matched.map {Q : γ → δ → Prop} {x : Except ε α} {y : Except η β} (h : Matched R S x y)
    (f : α → γ) (k : β → δ) (hf : ∀ a b, R a b → Q (f a) (k b)) :
    Matched Q S (x.map f) (y.map k) := by
  match x, y, h with
  | .ok a, .ok b, h => exact hf a b h
  | .error e, .error f, h => exact h

theorem Matched.foldlM {R : σ → τ → Prop} {f : σ → α → Except ε σ} {k : τ → α → Except η τ}
    {l : List α} (hf : ∀ s t, ∀ a ∈ l, R s t → Matched R S (f s a) (k t a)) :
    ∀ s t, R s t → Matched R S (l.foldlM f s) (l.foldlM k t) := by
  induction l with
  | nil => exact fun s t h => h
  | cons a l ih =>
    intro s t h
    rw [List.foldlM_cons, List.foldlM_cons]
    exact (hf s t a (by simp) h).bind (ih fun s t b hb => hf s t b (by simp [hb]))

end Matched

end SpeechDecoder
