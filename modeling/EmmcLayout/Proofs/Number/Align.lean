import EmmcLayout.Number.Align
import Mathlib.Tactic

/-!
# Rounding, over the numbers

Words are rounded with a carry to watch for; numbers are not.  `roundUp` and `roundDown` are the
two roundings over `Nat`, and `alignUp_eq_some_iff` and `toNat_alignDown` say that the words follow
them.  An alignment of zero asks for nothing, which is why `Aligned 0` holds of every number.

The law that the placement of partitions rests on is `roundUp_add`: an aligned amount can be added
before rounding or after it.
-/

namespace EmmcLayout

/-- The number is a multiple of the alignment, if the alignment asks for anything. -/
def Aligned (alignment n : Nat) : Prop :=
  0 < alignment → alignment ∣ n

/-- The least aligned number that is not below `n`. -/
def roundUp (alignment n : Nat) : Nat :=
  if n % alignment = 0 ∨ alignment = 0 then n else n + (alignment - n % alignment)

/-- The greatest aligned number that is not above `n`. -/
def roundDown (alignment n : Nat) : Nat :=
  if alignment = 0 then n else n - n % alignment

theorem Aligned.zero (alignment : Nat) : Aligned alignment 0 :=
  fun _ => Nat.dvd_zero alignment

theorem Aligned.add {alignment m n : Nat} (hm : Aligned alignment m) (hn : Aligned alignment n) :
    Aligned alignment (m + n) :=
  fun h => Nat.dvd_add (hm h) (hn h)

theorem le_roundUp (alignment n : Nat) : n ≤ roundUp alignment n := by
  unfold roundUp
  split <;> omega

theorem aligned_roundUp (alignment n : Nat) : Aligned alignment (roundUp alignment n) := by
  intro hpos
  unfold roundUp
  split
  · rename_i h
    exact Nat.dvd_of_mod_eq_zero (h.resolve_right (Nat.pos_iff_ne_zero.mp hpos))
  · have hlt : n % alignment < alignment := Nat.mod_lt n hpos
    have hdiv : alignment * (n / alignment) + n % alignment = n := Nat.div_add_mod n alignment
    have heq : n + (alignment - n % alignment) = alignment * (n / alignment) + alignment := by
      omega
    rw [heq]
    exact Nat.dvd_add (Nat.dvd_mul_right _ _) (Nat.dvd_refl _)

/-- An aligned amount can be added before rounding or after it. -/
theorem roundUp_add {alignment m : Nat} (hm : Aligned alignment m) (n : Nat) :
    roundUp alignment (n + m) = roundUp alignment n + m := by
  by_cases hpos : 0 < alignment
  · have hmod : (n + m) % alignment = n % alignment := by
      obtain ⟨k, rfl⟩ := hm hpos
      exact Nat.add_mul_mod_self_left n alignment k
    unfold roundUp
    rw [hmod]
    split <;> omega
  · have hzero : alignment = 0 := Nat.eq_zero_of_not_pos hpos
    simp [roundUp, hzero]

theorem roundUp_of_aligned {alignment n : Nat} (hn : Aligned alignment n) :
    roundUp alignment n = n := by
  have h := roundUp_add hn 0
  have hzero : roundUp alignment 0 = 0 := by simp [roundUp]
  rwa [Nat.zero_add, hzero, Nat.zero_add] at h

theorem roundDown_le (alignment n : Nat) : roundDown alignment n ≤ n := by
  unfold roundDown
  split <;> omega

theorem aligned_roundDown (alignment n : Nat) : Aligned alignment (roundDown alignment n) := by
  intro hpos
  rw [roundDown, if_neg (Nat.pos_iff_ne_zero.mp hpos)]
  exact Nat.dvd_sub_mod n

/-- Rounding down leaves less than one alignment over, and nothing when none is asked for. -/
theorem sub_roundDown_lt {alignment : Nat} (hpos : 0 < alignment) (n : Nat) :
    n - roundDown alignment n < alignment := by
  have hlt : n % alignment < alignment := Nat.mod_lt n hpos
  have hle : n % alignment ≤ n := Nat.mod_le n alignment
  rw [roundDown, if_neg (Nat.pos_iff_ne_zero.mp hpos)]
  omega

theorem le_roundDown_of_aligned {alignment m n : Nat} (hm : Aligned alignment m) (h : m ≤ n) :
    m ≤ roundDown alignment n := by
  by_cases hpos : 0 < alignment
  · obtain ⟨k, rfl⟩ := hm hpos
    have hk : k ≤ n / alignment := (Nat.le_div_iff_mul_le hpos).mpr (by rwa [Nat.mul_comm])
    have hmul : alignment * k ≤ alignment * (n / alignment) := Nat.mul_le_mul_left alignment hk
    have hdiv : alignment * (n / alignment) + n % alignment = n := Nat.div_add_mod n alignment
    rw [roundDown, if_neg (Nat.pos_iff_ne_zero.mp hpos)]
    omega
  · have hzero : alignment = 0 := Nat.eq_zero_of_not_pos hpos
    rwa [roundDown, if_pos hzero]

/-! ## Words -/

theorem toNat_eq_zero_iff (a : UInt64) : a.toNat = 0 ↔ a = 0 := by
  rw [← UInt64.toNat_inj]
  rfl

/-- Rounding a word up succeeds exactly when the rounded number is a word. -/
theorem alignUp_eq_some_iff {value alignment aligned : UInt64} :
    alignUp value alignment = some aligned ↔
      aligned.toNat = roundUp alignment.toNat value.toNat := by
  by_cases hzero : alignment = 0
  · subst hzero
    rw [alignUp, if_pos rfl, Option.some_inj, ← UInt64.toNat_inj]
    simp [roundUp, eq_comm]
  · have hpos : alignment.toNat ≠ 0 := fun h => hzero ((toNat_eq_zero_iff alignment).mp h)
    have hmod : (value % alignment).toNat = value.toNat % alignment.toNat :=
      UInt64.toNat_mod value alignment
    by_cases hexcess : value % alignment = 0
    · have hexcess' : value.toNat % alignment.toNat = 0 := by rw [← hmod, hexcess]; rfl
      simp only [alignUp, hzero, hexcess, if_false, if_true]
      rw [Option.some_inj, ← UInt64.toNat_inj, roundUp, if_pos (Or.inl hexcess'), eq_comm]
    · have hexcess' : value.toNat % alignment.toNat ≠ 0 := by
        rw [← hmod]
        exact fun h => hexcess ((toNat_eq_zero_iff _).mp h)
      have hle : value % alignment ≤ alignment := by
        rw [UInt64.le_iff_toNat_le, hmod]
        exact (Nat.mod_lt _ (Nat.pos_of_ne_zero hpos)).le
      have hsub : (alignment - value % alignment).toNat =
          alignment.toNat - value.toNat % alignment.toNat := by
        rw [UInt64.toNat_sub_of_le _ _ hle, hmod]
      simp only [alignUp, hzero, hexcess, if_false]
      rw [Word.add?_eq_some_iff, hsub, roundUp, if_neg (by omega), eq_comm]

theorem toNat_alignDown (value alignment : UInt64) :
    (alignDown value alignment).toNat = roundDown alignment.toNat value.toNat := by
  by_cases hzero : alignment = 0
  · subst hzero
    rfl
  · have hpos : alignment.toNat ≠ 0 := fun h => hzero ((toNat_eq_zero_iff alignment).mp h)
    have hmod : (value % alignment).toNat = value.toNat % alignment.toNat :=
      UInt64.toNat_mod value alignment
    have hle : value % alignment ≤ value := by
      rw [UInt64.le_iff_toNat_le, hmod]
      exact Nat.mod_le _ _
    rw [alignDown, if_neg hzero, UInt64.toNat_sub_of_le _ _ hle, hmod, roundDown, if_neg hpos]

end EmmcLayout
