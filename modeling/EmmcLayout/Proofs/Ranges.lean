import EmmcLayout.Bytes.Checked
import EmmcLayout.Proofs.Outcome

/-!
# Ranges that were checked before

A range that its owner has checked is cut out with `Bytes.cut`, which fails with an error of its own
when the range does not hold after all.  `Guarded` says of a computation that it never fails so:
whatever it fails with, its input is to blame.
-/

namespace EmmcLayout

/-- The input is to blame for this failure, and not a range that was checked before. -/
def FormatError.BlamesInput : FormatError → Prop
  | .outOfRange _ _ _ => False
  | _ => True

/-- Whatever this fails with, the input is to blame. -/
def Guarded {α : Type} (x : Except FormatError α) : Prop :=
  ∀ e, x = .error e → e.BlamesInput

namespace Guarded

variable {α β : Type} {e : FormatError} {c : Prop} [Decidable c]

@[simp]
theorem ok (a : α) : Guarded (.ok a) :=
  fun _ h => absurd h (by simp)

@[simp]
theorem error_iff : Guarded (.error e : Except FormatError α) ↔ e.BlamesInput := by
  constructor
  · intro h
    exact h e rfl
  · rintro h e' ⟨⟩
    exact h

@[simp]
theorem pure (a : α) : Guarded (Pure.pure a) :=
  ok a

@[simp]
theorem throw_iff : Guarded (throw e : Except FormatError α) ↔ e.BlamesInput :=
  error_iff

/-- A failure that is handed on. -/
theorem of_error {x : Except FormatError α} (hx : Guarded x) (h : x = .error e) :
    Guarded (.error e : Except FormatError β) :=
  error_iff.mpr (hx e h)

/-- A sequence is guarded when its steps are, as far as it gets. -/
@[simp]
theorem bind_iff {x : Except FormatError α} {f : α → Except FormatError β} :
    Guarded (x >>= f) ↔ Guarded x ∧ ∀ a, x = .ok a → Guarded (f a) := by
  cases x with
  | error e => simp [Outcome.error_bind]
  | ok a => simp [Outcome.ok_bind]

@[simp]
theorem map_iff {x : Except FormatError α} {f : α → β} : Guarded (x.map f) ↔ Guarded x := by
  cases x with
  | error e => simp [Except.map]
  | ok a => simp [Except.map]

@[simp]
theorem fmap_iff {x : Except FormatError α} {f : α → β} : Guarded (f <$> x) ↔ Guarded x :=
  map_iff

@[simp]
theorem ite_iff {x y : Except FormatError α} :
    Guarded (if c then x else y) ↔ (c → Guarded x) ∧ (¬ c → Guarded y) := by
  by_cases hc : c
  · simp [hc]
  · simp [hc]

/-- A journalled computation is guarded when its steps are. -/
theorem failsOnly_lift_iff {x : Except FormatError α} :
    Outcome.FailsOnly FormatError.BlamesInput (liftM x : Logged FormatError α) ↔ Guarded x :=
  Iff.rfl

end Guarded

namespace Bytes

/-! ## Reads -/

@[simp]
theorem guarded_fetch (b : Bytes) (pos len : Nat) : Guarded (fetch b pos len) := by
  unfold fetch
  split
  · exact .ok _
  · exact Guarded.error_iff.mpr trivial

@[simp]
theorem guarded_fetchBE32 (b : Bytes) (pos : Nat) : Guarded (fetchBE32 b pos) :=
  Guarded.map_iff.mpr (guarded_fetch b pos 4)

@[simp]
theorem guarded_fetchLE32 (b : Bytes) (pos : Nat) : Guarded (fetchLE32 b pos) :=
  Guarded.map_iff.mpr (guarded_fetch b pos 4)

/-- A read that fits gives the bytes that are there. -/
theorem fetch_of_le {b : Bytes} {pos len : Nat} (h : pos + len ≤ b.length) :
    fetch b pos len = .ok ((b.drop pos).take len) := by
  rw [fetch, slice?, if_pos h]

/-- Cutting is guarded where the range holds. -/
theorem guarded_cut {b : Bytes} {start stop : Nat} (hle : start ≤ stop) (hlen : stop ≤ b.length) :
    Guarded (cut b start stop) := by
  rw [cut, if_pos ⟨hle, hlen⟩]
  exact .ok _

end Bytes

end EmmcLayout
