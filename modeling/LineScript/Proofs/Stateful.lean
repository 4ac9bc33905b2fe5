/-!
# LineScript.Proofs.Stateful

Computations that may fail and keep their state: how the result of a sequence
follows from the results of its parts.  `FailsWith` says what every failure of a
computation satisfies, and `Carries` that a computation does the same as another one
on the images of its states; both are carried through a sequence.
-/

namespace EStateM

variable {ε σ α β : Type}

theorem bind_eq_ok_iff {x : EStateM ε σ α} {f : α → EStateM ε σ β} {s t : σ} {b : β} :
    (x >>= f) s = .ok b t ↔ ∃ a u, x s = .ok a u ∧ f a u = .ok b t := by
  show EStateM.bind x f s = .ok b t ↔ _
  unfold EStateM.bind
  cases x s with
  | ok a u =>
      constructor
      · intro h
        exact ⟨a, u, rfl, h⟩
      · rintro ⟨a', u', heq, h⟩
        cases heq
        exact h
  | error e u => simp

theorem bind_of_ok {x : EStateM ε σ α} {f : α → EStateM ε σ β} {s t : σ} {a : α}
    (h : x s = .ok a t) : (x >>= f) s = f a t := by
  show EStateM.bind x f s = _
  simp [EStateM.bind, h]

theorem bind_of_error {x : EStateM ε σ α} {f : α → EStateM ε σ β} {s t : σ} {e : ε}
    (h : x s = .error e t) : (x >>= f) s = .error e t := by
  show EStateM.bind x f s = _
  simp [EStateM.bind, h]

theorem bind_eq_error_iff {x : EStateM ε σ α} {f : α → EStateM ε σ β} {s t : σ} {e : ε} :
    (x >>= f) s = .error e t ↔
      x s = .error e t ∨ ∃ a u, x s = .ok a u ∧ f a u = .error e t := by
  cases hx : x s with
  | ok a u =>
      rw [bind_of_ok hx]
      constructor
      · intro h
        exact .inr ⟨a, u, rfl, h⟩
      · rintro (h | ⟨a', u', heq, h⟩)
        · contradiction
        · cases heq
          exact h
  | error e' u =>
      rw [bind_of_error hx]
      simp

theorem pure_eq_ok_iff {s t : σ} {a b : α} :
    (pure a : EStateM ε σ α) s = .ok b t ↔ a = b ∧ s = t := by
  show EStateM.pure a s = .ok b t ↔ _
  simp [EStateM.pure]

theorem exists_of_bind_pure {x : EStateM ε σ α} {f : α → β} {s t : σ} {b : β}
    (h : (x >>= fun a => pure (f a)) s = .ok b t) : ∃ a, b = f a := by
  obtain ⟨a, _, -, h⟩ := bind_eq_ok_iff.mp h
  exact ⟨a, (pure_eq_ok_iff.mp h).1.symm⟩

theorem throw_ne_ok {s t : σ} {e : ε} {b : α} : (throw e : EStateM ε σ α) s ≠ .ok b t := by
  intro h
  cases h

theorem ofExcept_ok {s : σ} {a : α} :
    (MonadExcept.ofExcept (.ok a : Except ε α) : EStateM ε σ α) s = .ok a s := rfl

theorem ofExcept_error {s : σ} {e : ε} :
    (MonadExcept.ofExcept (.error e : Except ε α) : EStateM ε σ α) s = .error e s := rfl

theorem ofExcept_eq_ok_iff {x : Except ε α} {s t : σ} {a : α} :
    (MonadExcept.ofExcept x : EStateM ε σ α) s = .ok a t ↔ x = .ok a ∧ s = t := by
  cases x with
  | ok b => rw [ofExcept_ok]; simp
  | error e => rw [ofExcept_error]; simp

theorem ofExcept_eq_error_iff {x : Except ε α} {s t : σ} {e : ε} :
    (MonadExcept.ofExcept x : EStateM ε σ α) s = .error e t ↔ x = .error e ∧ s = t := by
  cases x with
  | ok b => rw [ofExcept_ok]; simp
  | error e => rw [ofExcept_error]; simp

/-- The state a result leaves. -/
def Result.state : Result ε σ α → σ
  | .ok _ s => s
  | .error _ s => s

/-- Change the state a result leaves. -/
def Result.mapState {τ : Type} (φ : σ → τ) : Result ε σ α → Result ε τ α
  | .ok a s => .ok a (φ s)
  | .error e s => .error e (φ s)

end EStateM

namespace Except

variable {ε ε' α β : Type}

theorem bind_eq_ok_iff {x : Except ε α} {f : α → Except ε β} {b : β} :
    (x >>= f) = .ok b ↔ ∃ a, x = .ok a ∧ f a = .ok b := by
  cases x with
  | ok a => simp [bind, Except.bind]
  | error e => simp [bind, Except.bind]

theorem bind_of_ok {x : Except ε α} {f : α → Except ε β} {a : α} (h : x = .ok a) :
    (x >>= f) = f a := by
  rw [h]
  rfl

theorem bind_eq_error_iff {x : Except ε α} {f : α → Except ε β} {e : ε} :
    (x >>= f) = .error e ↔ x = .error e ∨ ∃ a, x = .ok a ∧ f a = .error e := by
  cases x with
  | ok a => simp [bind, Except.bind]
  | error e => simp [bind, Except.bind]

theorem forM_eq_ok_iff {f : α → Except ε Unit} {xs : List α} :
    forM xs f = .ok () ↔ ∀ x ∈ xs, f x = .ok () := by
  induction xs with
  | nil => simp [pure, Except.pure]
  | cons x xs ih =>
      rw [List.forM_cons, bind_eq_ok_iff, List.forall_mem_cons, ← ih]
      constructor
      · rintro ⟨_, hx, hxs⟩
        exact ⟨hx, hxs⟩
      · rintro ⟨hx, hxs⟩
        exact ⟨(), hx, hxs⟩

/-- A sequence fails as the first of its parts that does. -/
theorem forM_eq_error_iff {f : α → Except ε Unit} {xs : List α} {e : ε} :
    forM xs f = .error e ↔ ∃ before x after, xs = before ++ x :: after ∧
      (∀ y ∈ before, f y = .ok ()) ∧ f x = .error e := by
  constructor
  · intro h
    induction xs with
    | nil => simp [pure, Except.pure] at h
    | cons x xs ih =>
        rw [List.forM_cons] at h
        rcases bind_eq_error_iff.mp h with h | ⟨_, hx, h⟩
        · exact ⟨[], x, xs, rfl, by simp, h⟩
        · obtain ⟨before, y, after, rfl, hbefore, hy⟩ := ih h
          exact ⟨x :: before, y, after, rfl, List.forall_mem_cons.mpr ⟨hx, hbefore⟩, hy⟩
  · rintro ⟨before, x, after, rfl, hbefore, hx⟩
    rw [List.forM_append, bind_of_ok (forM_eq_ok_iff.mpr hbefore), List.forM_cons, hx]
    rfl

/-- A sequence that fails does so as one of its parts. -/
theorem exists_of_forM_eq_error {f : α → Except ε Unit} {xs : List α} {e : ε}
    (h : forM xs f = .error e) : ∃ x ∈ xs, f x = .error e := by
  obtain ⟨before, x, after, rfl, -, hx⟩ := forM_eq_error_iff.mp h
  exact ⟨x, by simp, hx⟩

theorem mapError_eq_error_iff {x : Except ε α} {f : ε → ε'} {e' : ε'} :
    x.mapError f = .error e' ↔ ∃ e, x = .error e ∧ f e = e' := by
  cases x with
  | ok b =>
      constructor
      · intro h; cases h
      · intro ⟨e, h, _⟩; cases h
  | error e =>
      constructor
      · intro h; cases h; exact ⟨e, rfl, rfl⟩
      · intro ⟨e, h, he⟩; cases h; cases he; rfl

theorem mapError_eq_ok_iff {x : Except ε α} {f : ε → ε'} {a : α} :
    x.mapError f = .ok a ↔ x = .ok a := by
  cases x with
  | ok b =>
      constructor
      · intro h; cases h; rfl
      · intro h; cases h; rfl
  | error e =>
      constructor
      · intro h; cases h
      · intro h; cases h

/-! ## what failures satisfy -/

/-- Every failure satisfies `P`. -/
def FailsWith (P : ε → Prop) (x : Except ε α) : Prop := ∀ e, x = .error e → P e

namespace FailsWith

variable {P : ε → Prop}

theorem ok (a : α) : FailsWith P (.ok a) := by
  intro e h
  contradiction

theorem error {e : ε} (h : P e) : FailsWith P (.error e : Except ε α) := by
  rintro _ ⟨⟩
  exact h

theorem bind {x : Except ε α} {f : α → Except ε β} (hx : FailsWith P x)
    (hf : ∀ a, FailsWith P (f a)) : FailsWith P (x >>= f) := by
  intro e h
  rcases bind_eq_error_iff.mp h with h | ⟨a, -, h⟩
  · exact hx e h
  · exact hf a e h

end FailsWith

end Except

namespace EStateM

variable {ε σ α β : Type}

/-- Every failure satisfies `P`, whatever the state. -/
def FailsWith (P : ε → Prop) (x : EStateM ε σ α) : Prop := ∀ s e t, x s = .error e t → P e

namespace FailsWith

variable {P : ε → Prop}

theorem pure (a : α) : FailsWith P (Pure.pure a : EStateM ε σ α) := by
  intro s e t h
  contradiction

theorem throw {e : ε} (h : P e) : FailsWith P (throw e : EStateM ε σ α) := by
  rintro s _ t ⟨⟩
  exact h

theorem mono {Q : ε → Prop} {x : EStateM ε σ α} (hx : FailsWith P x) (h : ∀ e, P e → Q e) :
    FailsWith Q x :=
  fun s e t hfail => h e (hx s e t hfail)

theorem ofExcept {x : Except ε α} (h : x.FailsWith P) :
    FailsWith P (MonadExcept.ofExcept x : EStateM ε σ α) := by
  intro s e t hx
  exact h e (ofExcept_eq_error_iff.mp hx).1

theorem bind {x : EStateM ε σ α} {f : α → EStateM ε σ β} (hx : FailsWith P x)
    (hf : ∀ a, FailsWith P (f a)) : FailsWith P (x >>= f) := by
  intro s e t h
  rcases bind_eq_error_iff.mp h with h | ⟨a, u, -, h⟩
  · exact hx s e t h
  · exact hf a u e t h

theorem forM {f : α → EStateM ε σ PUnit} (hf : ∀ a, FailsWith P (f a)) (xs : List α) :
    FailsWith P (xs.forM f) := by
  induction xs with
  | nil => exact pure _
  | cons x xs ih => exact bind (hf x) fun _ => ih

end FailsWith

end EStateM

/-! ## the same computation on other states -/

namespace Except

variable {ε ε' α α' β β' : Type}

/-- Change the failure and the value. -/
def bimap (f : ε → ε') (g : α → α') : Except ε α → Except ε' α'
  | .ok a => .ok (g a)
  | .error e => .error (f e)

@[simp] theorem bimap_ok (f : ε → ε') (g : α → α') (a : α) :
    (.ok a : Except ε α).bimap f g = .ok (g a) := rfl

@[simp] theorem bimap_id (x : Except ε α) : x.bimap id id = x := by
  cases x <;> rfl

/-- A sequence is changed by changing its parts. -/
theorem bimap_bind {f : ε → ε'} {g : α → α'} {h : β → β'} {k : α → Except ε β}
    {k' : α' → Except ε' β'} (x : Except ε α) (hk : ∀ a, k' (g a) = (k a).bimap f h) :
    (x.bimap f g >>= k') = (x >>= k).bimap f h := by
  cases x with
  | ok a => exact hk a
  | error e => rfl

end Except

namespace EStateM

variable {ε ε' σ σ' α α' β β' : Type} {f : ε → ε'} {φ : σ → σ'}

/-- Change the failure, the state and the value. -/
def Result.trimap (f : ε → ε') (φ : σ → σ') (g : α → α') : Result ε σ α → Result ε' σ' α'
  | .ok a s => .ok (g a) (φ s)
  | .error e s => .error (f e) (φ s)

/-- The second computation does on the image of a state what the first does on the
state. -/
def Carries (f : ε → ε') (φ : σ → σ') (g : α → α') (x : EStateM ε σ α) (y : EStateM ε' σ' α') :
    Prop :=
  ∀ s, y (φ s) = (x s).trimap f φ g

namespace Carries

variable {g : α → α'} {h : β → β'}

theorem pure (a : α) : Carries f φ g (Pure.pure a) (Pure.pure (g a)) := fun _ => rfl

theorem throw (e : ε) : Carries f φ g (throw e) (throw (f e)) := fun _ => rfl

theorem ofExcept {x : Except ε α} {y : Except ε' α'} (hxy : y = x.bimap f g) :
    Carries f φ g (MonadExcept.ofExcept x) (MonadExcept.ofExcept y) := by
  intro s
  rw [hxy]
  cases x <;> rfl

theorem bind {x : EStateM ε σ α} {y : EStateM ε' σ' α'} {k : α → EStateM ε σ β}
    {k' : α' → EStateM ε' σ' β'} (hx : Carries f φ g x y)
    (hk : ∀ a, Carries f φ h (k a) (k' (g a))) : Carries f φ h (x >>= k) (y >>= k') := by
  intro s
  have hs := hx s
  cases hr : x s with
  | ok a t =>
      rw [hr] at hs
      rw [bind_of_ok hr, bind_of_ok hs]
      exact hk a t
  | error e t =>
      rw [hr] at hs
      rw [bind_of_error hr, bind_of_error hs]
      rfl

theorem forM {k : α → EStateM ε σ PUnit} {k' : α → EStateM ε' σ' PUnit}
    (hk : ∀ a, Carries f φ id (k a) (k' a)) (xs : List α) :
    Carries f φ id (xs.forM k) (xs.forM k') := by
  induction xs with
  | nil => exact pure _
  | cons x xs ih => exact bind (hk x) fun _ => ih

end Carries

end EStateM
