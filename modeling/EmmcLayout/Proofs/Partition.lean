import EmmcLayout.Proofs.Bytes
import EmmcLayout.Proofs.Number.Align
import EmmcLayout.Proofs.Outcome
import EmmcLayout.Proofs.Text.Utf8
import EmmcLayout.Table

/-!
# Names and places of partitions

A legal name stands in its field closed by a NUL and reads back as the text it was given as
(`name_of_create`).  Over the numbers, `a.Before b` says that `b` starts at or behind the end of
`a`; it is how a list of partitions is said to be free of overlaps.  `reach_le_iff` describes the
furthest end of a list by its bounds.
-/

namespace EmmcLayout

namespace Name

theorem ne_zero_of_isNameByte {b : UInt8} (h : isNameByte b = true) : b ≠ 0 := by
  rintro rfl
  exact absurd h (by decide)

theorem lt_of_isNameByte {b : UInt8} (h : isNameByte b = true) : b < 0x80 := by
  simp only [isNameByte, Bool.or_eq_true, Bool.and_eq_true, decide_eq_true_iff, beq_iff_eq,
    UInt8.le_iff_toNat_le, ← UInt8.toNat_inj] at h
  rw [UInt8.lt_iff_toNat_lt]
  change (((48 ≤ b.toNat ∧ b.toNat ≤ 57 ∨ 65 ≤ b.toNat ∧ b.toNat ≤ 90) ∨
    97 ≤ b.toNat ∧ b.toNat ≤ 122) ∨ b.toNat = 95) ∨ b.toNat = 45 at h
  show b.toNat < 128
  omega

theorem checkBytes_eq_ok_iff {name : Bytes} :
    checkBytes name = .ok () ↔ ∀ b ∈ name, isNameByte b = true := by
  have hcount : illegalCount name = 0 ↔ ∀ b ∈ name, isNameByte b = true := by
    rw [illegalCount, List.countP_eq_zero]
    simp
  rw [← hcount, checkBytes]
  split
  · rename_i h
    simp [h]
  · rename_i h
    simpa using h

/-- A name that passes is not empty, leaves room for the NUL, and holds name bytes only. -/
theorem check_eq_ok_iff {name : String} :
    check name = .ok () ↔
      Utf8.encode name ≠ [] ∧ (Utf8.encode name).length < nameFieldLength ∧
        ∀ b ∈ Utf8.encode name, isNameByte b = true := by
  simp only [check]
  by_cases hempty : Utf8.encode name = []
  · simp [hempty]
  · by_cases hlong : nameFieldLength ≤ (Utf8.encode name).length
    · simp [hempty, hlong, Nat.not_lt.mpr hlong]
    · rw [if_neg hempty, if_neg hlong, checkBytes_eq_ok_iff]
      simp [hempty, Nat.lt_of_not_le hlong]

/-- A name field that passes holds a NUL, and name bytes only in front of the first one. -/
theorem checkField_eq_ok_iff (field : ByteField nameFieldLength) :
    checkField field.bytes = .ok () ↔
      0 ∈ field.bytes ∧ ∀ b ∈ Bytes.untilNul field.bytes, isNameByte b = true := by
  have hlen := field.length_eq
  rw [checkField, List.take_of_length_le (Nat.le_of_eq hlen), Bytes.terminated?]
  by_cases hzero : 0 ∈ field.bytes
  · simp only [hzero, if_true, true_and]
    exact checkBytes_eq_ok_iff
  · simp [hzero, hlen]

/-- No character whose encoding a name may not hold stands in a legal name. -/
theorem notMem_of_check {name : String} {c : Char} (h : check name = .ok ())
    (hc : ∃ b ∈ String.utf8EncodeChar c, isNameByte b = false) : c ∉ name.toList := by
  intro hmem
  obtain ⟨b, hb, hillegal⟩ := hc
  have hlegal := (check_eq_ok_iff.mp h).2.2 b (List.mem_flatMap.mpr ⟨c, hmem, hb⟩)
  rw [hillegal] at hlegal
  exact Bool.false_ne_true hlegal

theorem ne_empty_of_check {name : String} (h : check name = .ok ()) : name ≠ "" := by
  rintro rfl
  exact absurd h (by decide)

theorem zero_notMem_of_check {name : String} (h : check name = .ok ()) :
    0 ∉ Utf8.encode name :=
  fun hzero => ne_zero_of_isNameByte ((check_eq_ok_iff.mp h).2.2 0 hzero) rfl

end Name

namespace ByteField

/-- Bytes that leave room for a NUL are what their field holds up to its first NUL. -/
theorem untilNul_ofBytes {n : Nat} {b : Bytes} (hzero : 0 ∉ b) (hlen : b.length < n) :
    Bytes.untilNul (ofBytes n b).bytes = b := by
  obtain ⟨k, hk⟩ : ∃ k, n - b.length = k + 1 := ⟨n - b.length - 1, by omega⟩
  have hpad : (Bytes.padTo n b).length = n := by
    simp only [Bytes.padTo, Bytes.zeros, List.length_append, List.length_replicate]
    omega
  have hfield : (ofBytes n b).bytes = b ++ 0 :: List.replicate k 0 := by
    simp only [ofBytes]
    rw [List.take_of_length_le (Nat.le_of_eq hpad), Bytes.padTo, Bytes.zeros, hk,
      List.replicate_succ]
  rw [hfield, Bytes.untilNul_append_zero hzero]

end ByteField

namespace Partition

theorem isNamed_iff {name : String} {p : Partition} :
    p.isNamed name = true ↔ p.nameBytes = Utf8.encode name :=
  beq_iff_eq

theorem name_of_nameBytes {name : String} {p : Partition} (h : p.nameBytes = Utf8.encode name) :
    p.name = name := by
  rw [Partition.name, h, Utf8.decodeLossy_encode]

/-- Names are read off the name fields. -/
theorem map_nameBytes_of_rawNames {ps qs : List Partition}
    (h : qs.map rawName = ps.map rawName) : qs.map nameBytes = ps.map nameBytes := by
  have hmap := congrArg (List.map fun raw : ByteField nameFieldLength => Bytes.untilNul raw.bytes) h
  rw [List.map_map, List.map_map] at hmap
  exact hmap

/-- A partition under a new name has a field of its own for it, and keeps all else. -/
theorem rename_eq_ok_iff {name : String} {p q : Partition} :
    rename name p = .ok q ↔
      Name.check name = .ok () ∧
        q = { p with rawName := ByteField.ofBytes nameFieldLength (Utf8.encode name) } := by
  rw [rename, Outcome.bind_eq_ok_iff]
  constructor
  · rintro ⟨⟨⟩, hname, hq⟩
    exact ⟨hname, (Except.ok.inj hq).symm⟩
  · rintro ⟨hname, rfl⟩
    exact ⟨(), hname, rfl⟩

theorem nameBytes_of_rename {name : String} {p q : Partition} (h : rename name p = .ok q) :
    q.nameBytes = Utf8.encode name := by
  obtain ⟨hname, rfl⟩ := rename_eq_ok_iff.mp h
  exact ByteField.untilNul_ofBytes (Name.zero_notMem_of_check hname)
    (Name.check_eq_ok_iff.mp hname).2.1

/-- What a new partition consists of. -/
theorem create_eq_ok_iff {name : String} {offset size : UInt64} {mask : UInt32} {p : Partition} :
    create name offset size mask = .ok p ↔
      Name.check name = .ok () ∧
        p = ⟨ByteField.ofBytes nameFieldLength (Utf8.encode name), size, offset, mask, 0⟩ :=
  rename_eq_ok_iff

theorem nameBytes_of_create {name : String} {offset size : UInt64} {mask : UInt32} {p : Partition}
    (h : create name offset size mask = .ok p) : p.nameBytes = Utf8.encode name :=
  nameBytes_of_rename h

/-- A new partition has the name it was asked to have. -/
theorem name_of_create {name : String} {offset size : UInt64} {mask : UInt32} {p : Partition}
    (h : create name offset size mask = .ok p) : p.name = name :=
  name_of_nameBytes (nameBytes_of_create h)

/-! ## Places -/

/-- The number of the first address past the partition, on a device without end. -/
def stop (p : Partition) : Nat :=
  p.offset.toNat + p.size.toNat

/-- The second partition starts at or behind the end of the first one. -/
def Before (a b : Partition) : Prop :=
  a.stop ≤ b.offset.toNat

theorem stop?_eq_some_iff {p : Partition} {w : UInt64} : p.stop? = some w ↔ p.stop = w.toNat :=
  Word.add?_eq_some_iff

theorem toNat_stopSat (p : Partition) : p.stopSat.toNat = min p.stop (UInt64.size - 1) :=
  Word.toNat_addSat p.offset p.size

theorem toNat_stopSat_of_lt {p : Partition} (h : p.stop < UInt64.size) :
    p.stopSat.toNat = p.stop := by
  rw [toNat_stopSat]
  omega

end Partition

namespace Table

theorem foldl_max_le_iff (ps : List Partition) (furthest : UInt64) (n : Nat) :
    (ps.foldl (fun m p => max m p.stopSat) furthest).toNat ≤ n ↔
      furthest.toNat ≤ n ∧ ∀ p ∈ ps, p.stopSat.toNat ≤ n := by
  induction ps generalizing furthest with
  | nil => simp
  | cons p ps ih =>
      have hmax : (max furthest p.stopSat).toNat ≤ n ↔
          furthest.toNat ≤ n ∧ p.stopSat.toNat ≤ n := by
        rw [UInt64.toNat_max, Nat.max_le]
      rw [List.foldl_cons, ih, hmax, List.forall_mem_cons, and_assoc]

/-- A bound on the furthest end is a bound on every end. -/
theorem reach_le_iff {ps : List Partition} {n : Nat} :
    (reach ps).toNat ≤ n ↔ ∀ p ∈ ps, p.stopSat.toNat ≤ n := by
  have hzero : (0 : UInt64).toNat ≤ n := Nat.zero_le n
  rw [reach, foldl_max_le_iff, and_iff_right hzero]

theorem stopSat_le_reach {ps : List Partition} {p : Partition} (hp : p ∈ ps) :
    p.stopSat.toNat ≤ (reach ps).toNat :=
  reach_le_iff.mp (Nat.le_refl _) p hp

/-- Ends that stay within the word are not cut by the furthest one. -/
theorem stop_le_reach {ps : List Partition} {n : Nat} (hn : n < UInt64.size)
    (h : ∀ p ∈ ps, p.stop ≤ n) : ∀ p ∈ ps, p.stop ≤ (reach ps).toNat := by
  intro p hp
  rw [← Partition.toNat_stopSat_of_lt (Nat.lt_of_le_of_lt (h p hp) hn)]
  exact stopSat_le_reach hp

theorem reach_le_of_stop_le {ps : List Partition} {n : Nat} (h : ∀ p ∈ ps, p.stop ≤ n) :
    (reach ps).toNat ≤ n := by
  rw [reach_le_iff]
  intro p hp
  rw [Partition.toNat_stopSat]
  exact Nat.le_trans (Nat.min_le_left _ _) (h p hp)

/-- The furthest end is known from a bound that some partition attains. -/
theorem reach_eq_of_attained {ps : List Partition} {w : UInt64}
    (hle : ∀ p ∈ ps, p.stopSat.toNat ≤ w.toNat) (hp : ∃ p ∈ ps, p.stopSat = w) :
    reach ps = w := by
  obtain ⟨p, hmem, rfl⟩ := hp
  exact UInt64.toNat_inj.mp (Nat.le_antisymm (reach_le_iff.mpr hle) (stopSat_le_reach hmem))

end Table

end EmmcLayout
