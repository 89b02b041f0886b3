/-! When a computation that may fail succeeds. -/

namespace MeshRing.Outcome

variable {ε α β : Type}

theorem ok_bind (a : α) (f : α → Except ε β) : (Except.ok a >>= f) = f a := rfl

theorem bind_eq_ok_iff {x : Except ε α} {f : α → Except ε β} {b : β} :
    (x >>= f) = .ok b ↔ ∃ a, x = .ok a ∧ f a = .ok b := by
  cases x <;> simp [bind, Except.bind]

theorem check_bind_eq_ok_iff {x : Except ε Unit} {f : Unit → Except ε β} {b : β} :
    (x >>= f) = .ok b ↔ x = .ok () ∧ f () = .ok b := by
  cases x <;> simp [bind, Except.bind]

theorem ite_error_bind {c : Prop} [Decidable c] {e : ε} {x : Except ε α} {f : α → Except ε β} :
    ((if c then .error e else x) >>= f) = if c then .error e else x >>= f := by
  split <;> rfl

theorem map_eq_ok_iff {f : α → β} {x : Except ε α} {b : β} :
    f <$> x = .ok b ↔ ∃ a, x = .ok a ∧ f a = b := by
  cases x <;> simp [Functor.map, Except.map]

theorem pure_eq_ok_iff {a b : α} : (pure a : Except ε α) = .ok b ↔ a = b := by
  simp [pure, Except.pure]

theorem mapError_eq_ok_iff {δ : Type} {f : ε → δ} {x : Except ε α} {a : α} :
    x.mapError f = .ok a ↔ x = .ok a := by
  cases x with
  | error e =>
      show Except.error (f e) = .ok a ↔ Except.error e = .ok a
      simp
  | ok b =>
      show Except.ok b = .ok a ↔ Except.ok b = .ok a
      simp

theorem ite_throw_eq_ok_iff {c : Prop} [Decidable c] {e : ε} {x : Except ε α} {a : α} :
    (if c then throw e else x) = .ok a ↔ ¬ c ∧ x = .ok a := by
  by_cases h : c
  · simp [h, throw, throwThe, MonadExceptOf.throw]
  · simp [h]

/-- Behind a guard in `do` notation stands a step that is never taken. -/
theorem ite_throw_bind_eq_ok_iff {c : Prop} [Decidable c] {e : ε} {k : β → Except ε α}
    {x : Except ε α} {a : α} : (if c then throw e >>= k else x) = .ok a ↔ ¬ c ∧ x = .ok a :=
  ite_throw_eq_ok_iff

theorem ite_error_eq_error_iff {c : Prop} [Decidable c] {e f : ε} {a : α} :
    (if c then .error e else .ok a : Except ε α) = .error f ↔ f = e ∧ c := by
  by_cases h : c <;> simp [h, eq_comm]

theorem exists_ite_error_eq_ok_iff {c : Prop} [Decidable c] {e : ε} {a : α} :
    (∃ b, (if c then .error e else .ok a : Except ε α) = .ok b) ↔ ¬ c := by
  by_cases h : c <;> simp [h]

/-! ## Succeeding where another computation does -/

/-- Where `x` succeeds, `y` succeeds with the same result. -/
def Within (x y : Except ε α) : Prop :=
  ∀ a, x = .ok a → y = .ok a

namespace Within

variable {x y : Except ε α}

theorem refl (x : Except ε α) : Within x x := fun _ h => h

theorem bind {f g : α → Except ε β} (h : Within x y) (hf : ∀ a, Within (f a) (g a)) :
    Within (x >>= f) (y >>= g) := by
  intro b hb
  obtain ⟨a, ha, hb⟩ := bind_eq_ok_iff.mp hb
  exact bind_eq_ok_iff.mpr ⟨a, h a ha, hf a b hb⟩

theorem mapError {δ : Type} (f : ε → δ) (h : Within x y) :
    Within (x.mapError f) (y.mapError f) := by
  intro a ha
  exact mapError_eq_ok_iff.mpr (h a (mapError_eq_ok_iff.mp ha))

/-- A computation that is refused less often succeeds more often. -/
theorem ite_error {c d : Prop} [Decidable c] [Decidable d] {e : ε} (hdc : d → c) (h : Within x y) :
    Within (if c then .error e else x) (if d then .error e else y) := by
  intro a ha
  split at ha
  · cases ha
  · rename_i hc
    rw [if_neg fun hd => hc (hdc hd)]
    exact h a ha

end Within

end MeshRing.Outcome
