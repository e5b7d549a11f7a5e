/-!
# Arithmetic on 64-bit words

Offsets and sizes are 64-bit words.  The checked operations answer `none` where the result leaves
the word; the saturating ones stop at its ends.  Each is pinned down by what it says about the
numbers the words stand for.
-/

namespace EmmcLayout.Word

/-- The sum, unless it leaves the word. -/
def add? (a b : UInt64) : Option UInt64 :=
  if a.toNat + b.toNat < UInt64.size then some (a + b) else none

/-- The difference, unless it would be negative. -/
def sub? (a b : UInt64) : Option UInt64 :=
  if b ≤ a then some (a - b) else none

/-- The sum, or the greatest word. -/
def addSat (a b : UInt64) : UInt64 :=
  (add? a b).getD (0 - 1)

/-- The difference, or zero. -/
def subSat (a b : UInt64) : UInt64 :=
  (sub? a b).getD 0

theorem toNat_add_of_lt {a b : UInt64} (h : a.toNat + b.toNat < UInt64.size) :
    (a + b).toNat = a.toNat + b.toNat := by
  rw [UInt64.toNat_add, Nat.mod_eq_of_lt h]

theorem add?_of_lt {a b : UInt64} (h : a.toNat + b.toNat < UInt64.size) :
    add? a b = some (a + b) := by
  rw [add?, if_pos h]

theorem sub?_of_le {a b : UInt64} (h : b.toNat ≤ a.toNat) : sub? a b = some (a - b) := by
  rw [sub?, if_pos (UInt64.le_iff_toNat_le.mpr h)]

theorem add?_eq_some_iff {a b c : UInt64} : add? a b = some c ↔ a.toNat + b.toNat = c.toNat := by
  unfold add?
  split
  · rename_i h
    rw [Option.some_inj, ← UInt64.toNat_inj, toNat_add_of_lt h]
  · rename_i h
    have hlt : c.toNat < UInt64.size := c.toNat_lt
    constructor
    · simp
    · intro h'
      omega

theorem sub?_eq_some_iff {a b c : UInt64} : sub? a b = some c ↔ c.toNat + b.toNat = a.toNat := by
  unfold sub?
  split
  · rename_i h
    have hle : b.toNat ≤ a.toNat := UInt64.le_iff_toNat_le.mp h
    rw [Option.some_inj, ← UInt64.toNat_inj, UInt64.toNat_sub_of_le _ _ h]
    omega
  · rename_i h
    have hlt : a.toNat < b.toNat := by
      simpa [UInt64.le_iff_toNat_le] using h
    constructor
    · simp
    · intro h'
      omega

theorem toNat_addSat (a b : UInt64) :
    (addSat a b).toNat = min (a.toNat + b.toNat) (UInt64.size - 1) := by
  unfold addSat add?
  split
  · rename_i h
    rw [Option.getD_some, toNat_add_of_lt h]
    exact (Nat.min_eq_left (Nat.le_sub_one_of_lt h)).symm
  · rename_i h
    have hmax : ((0 : UInt64) - 1).toNat = UInt64.size - 1 := rfl
    rw [Option.getD_none, hmax]
    omega

theorem toNat_subSat (a b : UInt64) : (subSat a b).toNat = a.toNat - b.toNat := by
  unfold subSat sub?
  split
  · rename_i h
    rw [Option.getD_some, UInt64.toNat_sub_of_le _ _ h]
  · rename_i h
    have hlt : a.toNat < b.toNat := by
      simpa [UInt64.le_iff_toNat_le] using h
    have hzero : (0 : UInt64).toNat = 0 := rfl
    rw [Option.getD_none, hzero]
    omega

end EmmcLayout.Word
