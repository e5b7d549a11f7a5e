import EmmcLayout.Outcome

/-!
# When a computation succeeds

A journalled computation is a sequence of guards and steps.  The statements below say what its
success means for each of them, so that a long sequence is read off one guard at a time and no
proof unfolds the monad again.  `FailsOnly` says the same of failure: which causes it may have.
-/

namespace EmmcLayout.Outcome

variable {ε ε' α β : Type}

@[simp]
theorem ok_bind (a : α) (f : α → Except ε β) : (Except.ok a >>= f) = f a := rfl

@[simp]
theorem error_bind (e : ε) (f : α → Except ε β) : (Except.error e >>= f) = .error e := rfl

theorem bind_eq_ok_iff {x : Except ε α} {f : α → Except ε β} {b : β} :
    (x >>= f) = .ok b ↔ ∃ a, x = .ok a ∧ f a = .ok b := by
  cases x with
  | error e => simp [bind, Except.bind]
  | ok a => simp [bind, Except.bind]

@[simp]
theorem map_ok (f : α → β) (a : α) : (Except.ok a : Except ε α).map f = .ok (f a) := rfl

@[simp]
theorem mapError_ok (f : ε → ε') (a : α) : (Except.ok a : Except ε α).mapError f = .ok a := rfl

@[simp]
theorem mapError_error (f : ε → ε') (e : ε) :
    (Except.error e : Except ε α).mapError f = .error (f e) := rfl

theorem map_eq_ok_iff {x : Except ε α} {f : α → β} {b : β} :
    x.map f = .ok b ↔ ∃ a, x = .ok a ∧ f a = b := by
  cases x with
  | error e => simp [Except.map]
  | ok a => simp [Except.map]

theorem mapError_eq_ok_iff {x : Except ε α} {f : ε → ε'} {a : α} :
    x.mapError f = .ok a ↔ x = .ok a := by
  cases x with
  | error e => simp
  | ok a => simp

theorem exists_ok_of_isOk {x : Except ε α} (h : x.isOk = true) : ∃ a, x = .ok a := by
  cases x with
  | error e => exact absurd h Bool.false_ne_true
  | ok a => exact ⟨a, rfl⟩

theorem exists_error_of_isOk {x : Except ε α} (h : x.isOk = false) : ∃ e, x = .error e := by
  cases x with
  | error e => exact ⟨e, rfl⟩
  | ok a => exact absurd h.symm Bool.false_ne_true

theorem exists_ok_of_any {x : Except ε α} {p : α → Bool} (h : x.toOption.any p = true) :
    ∃ a, x = .ok a ∧ p a = true := by
  cases x with
  | error e => exact absurd h Bool.false_ne_true
  | ok a => exact ⟨a, rfl, h⟩

/-- A guard in front of further steps. -/
theorem throw_guard_eq_ok_iff {c : Prop} [Decidable c] {e : ε} {f : β → Except ε α}
    {x : Except ε α} {a : α} : (if c then throw e >>= f else x) = .ok a ↔ ¬ c ∧ x = .ok a := by
  by_cases hc : c
  · rw [if_pos hc]
    exact ⟨nofun, fun h => absurd hc h.1⟩
  · rw [if_neg hc]
    exact ⟨fun h => ⟨hc, h⟩, And.right⟩

@[simp]
theorem result_map (f : α → β) (x : Logged ε α) : (f <$> x).result = x.result.map f := by
  rw [map_eq_pure_bind, Logged.result_bind]
  cases x.result with
  | error e => rfl
  | ok a => rfl

/-- A sequence succeeds exactly when its steps do, one after the other. -/
theorem result_bind_eq_ok_iff {x : Logged ε α} {f : α → Logged ε β} {b : β} :
    (x >>= f).result = .ok b ↔ ∃ a, x.result = .ok a ∧ (f a).result = .ok b := by
  rw [Logged.result_bind, bind_eq_ok_iff]

/-- Nothing runs behind a failure. -/
theorem fail_bind [Cause ε] (cause : ε) (f : α → Outcome β) :
    (fail cause >>= f) = fail cause := rfl

/-- A guard succeeds exactly when its condition does not hold. -/
theorem result_guard_eq_ok_iff [Cause ε] {c : Prop} [Decidable c] {cause : ε} {x : Outcome α}
    {a : α} : (if c then fail cause else x).result = .ok a ↔ ¬ c ∧ x.result = .ok a := by
  by_cases hc : c
  · simp [hc]
  · simp [hc]

theorem throw_bind (e : ε) (f : α → Logged ε β) : (throw e >>= f) = (throw e : Logged ε β) := rfl

theorem result_throw_guard_eq_ok_iff {c : Prop} [Decidable c] {e : ε} {x : Logged ε α} {a : α} :
    (if c then throw e else x).result = .ok a ↔ ¬ c ∧ x.result = .ok a := by
  by_cases hc : c
  · simp [hc]
  · simp [hc]

/-! ## Lifted steps -/

@[simp]
theorem result_lift (x : Except ε α) : (liftM x : Logged ε α).result = x := rfl

theorem lift_layout (x : Logged LayoutError α) : (liftM x : Outcome α) = ofLogged x := rfl

theorem lift_layoutExcept (x : Except LayoutError α) : (liftM x : Outcome α) = ofExcept x := rfl

theorem lift_grammarExcept (x : Except GrammarError α) : (liftM x : Outcome α) = ofExcept x := rfl

theorem lift_validationExcept (x : Except ValidationError α) :
    (liftM x : Outcome α) = ofExcept x := rfl

theorem result_ofLogged_eq_ok_iff [Cause ε] {x : Logged ε α} {a : α} :
    (ofLogged x).result = .ok a ↔ x.result = .ok a := by
  rw [result_ofLogged, mapError_eq_ok_iff]

theorem result_ofExcept_eq_ok_iff [Cause ε] {x : Except ε α} {a : α} :
    (ofExcept x).result = .ok a ↔ x = .ok a := by
  rw [result_ofExcept, mapError_eq_ok_iff]

/-! ## Causes of failure -/

/-- Whatever the computation fails with has the property. -/
def FailsOnly (P : ε → Prop) (x : Logged ε α) : Prop :=
  ∀ e, x.result = .error e → P e

variable {P : ε → Prop}

@[simp]
theorem failsOnly_true (x : Logged ε α) : FailsOnly (fun _ => True) x :=
  fun _ _ => trivial

@[simp]
theorem failsOnly_pure (a : α) : FailsOnly P (pure a : Logged ε α) := by
  intro e h
  simp at h

@[simp]
theorem failsOnly_throw (e : ε) : FailsOnly P (throw e : Logged ε α) ↔ P e := by
  simp [FailsOnly]

@[simp]
theorem failsOnly_note (level : Level) (text : String) :
    FailsOnly P (Logged.note level text : Logged ε Unit) := by
  intro e h
  simp at h

@[simp]
theorem failsOnly_info (text : String) : FailsOnly P (Logged.info text : Logged ε Unit) :=
  failsOnly_note _ _

@[simp]
theorem failsOnly_debug (text : String) : FailsOnly P (Logged.debug text : Logged ε Unit) :=
  failsOnly_note _ _

/-- A sequence fails with what one of its steps fails with. -/
@[simp]
theorem failsOnly_bind (x : Logged ε α) (f : α → Logged ε β) :
    FailsOnly P (x >>= f) ↔ FailsOnly P x ∧ ∀ a, x.result = .ok a → FailsOnly P (f a) := by
  unfold FailsOnly
  rw [Logged.result_bind]
  cases x.result with
  | error e => simp
  | ok a => simp

@[simp]
theorem failsOnly_map (f : α → β) (x : Logged ε α) : FailsOnly P (f <$> x) ↔ FailsOnly P x := by
  rw [map_eq_pure_bind, failsOnly_bind]
  simp

@[simp]
theorem failsOnly_lift (x : Except ε α) :
    FailsOnly P (liftM x : Logged ε α) ↔ ∀ e, x = .error e → P e := Iff.rfl

@[simp]
theorem failsOnly_fail [Cause ε] (P : Error → Prop) (cause : ε) :
    FailsOnly P (fail cause : Outcome α) ↔ P (Cause.toError cause) := by
  simp [FailsOnly]

@[simp]
theorem failsOnly_ofLogged [Cause ε] (P : Error → Prop) (x : Logged ε α) :
    FailsOnly P (ofLogged x) ↔ FailsOnly (fun cause => P (Cause.toError cause)) x := by
  unfold FailsOnly
  rw [result_ofLogged]
  cases x.result with
  | error e => simp
  | ok a => simp

@[simp]
theorem failsOnly_ofExcept [Cause ε] (P : Error → Prop) (x : Except ε α) :
    FailsOnly P (ofExcept x) ↔ ∀ cause, x = .error cause → P (Cause.toError cause) :=
  failsOnly_ofLogged P _

@[simp]
theorem failsOnly_ite {c : Prop} [Decidable c] (x y : Logged ε α) :
    FailsOnly P (if c then x else y) ↔ (c → FailsOnly P x) ∧ (¬ c → FailsOnly P y) := by
  by_cases hc : c
  · simp [hc]
  · simp [hc]

end EmmcLayout.Outcome
