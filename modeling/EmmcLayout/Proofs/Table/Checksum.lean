import EmmcLayout.Proofs.Table.Validate
import EmmcLayout.Table.Vendor
import Mathlib.Data.Int.GCD
import Mathlib.Data.Nat.Prime.Basic

/-!
# What the checksum of a header guards

The bootloader adds the words of the first slot to a sum once for every partition that the header
counts.  The table multiplies instead, and the two agree for every slot and every count
(`checksum_eq_addRounds`).

The checksum of a header is the word sum of the first slot times the number of partitions.  So a
table that passes does not notice what happens to its other slots, and notices another first slot
exactly when the count times the difference of the two sums is no multiple of 2^32
(`checksum_guards_first`).

An odd count cancels, and then no change of a single word escapes.  An even one does not: the
highest bit of each word is free already when there are two partitions.

On the medium, nothing behind the first slot decides whether a header passes
(`validateHeader_of_front`).
-/

namespace EmmcLayout.Table

variable {t : Table} {first : Partition} {rest : List Partition} {old new : Bytes}

/-! ## The loop -/

/-- One round of the bootloader's loop: the ten words of a slot are added one after another. -/
def addSlot (slot : Bytes) (sum : UInt32) : UInt32 :=
  (List.range 10).foldl (fun sum i => sum + Bytes.wordAt slot (4 * i)) sum

/-- The bootloader's loop: in every round the same slot is added to the sum. -/
def addRounds (slot : Bytes) : Nat → UInt32 → UInt32
  | 0, sum => sum
  | rounds + 1, sum => addRounds slot rounds (addSlot slot sum)

theorem addSlot_eq {slot : Bytes} (h : slot.length = Partition.slotLength) (sum : UInt32) :
    addSlot slot sum = sum + Bytes.wordSum slot := by
  rw [addSlot, Bytes.foldl_wordAt h, Bytes.wordSum, ← Bytes.addWords_add, UInt32.add_zero]

/-- Rounds that all add the same amount come to a multiple of it, also where the sum wraps. -/
theorem addRounds_eq {slot : Bytes} (h : slot.length = Partition.slotLength) (rounds : Nat)
    (sum : UInt32) :
    addRounds slot rounds sum = sum + Bytes.wordSum slot * UInt32.ofNat rounds := by
  induction rounds generalizing sum with
  | zero => simp [addRounds]
  | succ rounds ih =>
      have hone : UInt32.ofNat 1 = 1 := rfl
      rw [addRounds, ih, addSlot_eq h, UInt32.ofNat_add, hone, UInt32.mul_add, UInt32.mul_one,
        UInt32.add_assoc, UInt32.add_comm (Bytes.wordSum slot)]

/-- **The checksum is the bootloader's loop.**  The checksum of a list that is not empty is what the
loop makes of its first slot, with one round for each counted partition, from a sum of zero.  The
other partitions do not matter. -/
theorem checksum_eq_addRounds (first : Partition) (rest : List Partition) (count : UInt32) :
    checksum (first :: rest) count = addRounds first.toBytes count.toNat 0 ∧
      ∀ others, checksum (first :: others) count = checksum (first :: rest) count := by
  constructor
  · rw [addRounds_eq first.length_toBytes, UInt32.ofNat_toNat, UInt32.zero_add, checksum]
  · intro others
    rfl

/-! ## The two sums -/

/-- The checksum of `count` partitions is the same for both first slots: the count times the
difference of the sums of their words is a multiple of 2^32. -/
def Unnoticed (count : Nat) (old new : Bytes) : Prop :=
  (count * (Bytes.wordTotal new - Bytes.wordTotal old) : Int) % UInt32.size = 0

instance (count : Nat) (old new : Bytes) : Decidable (Unnoticed count old new) :=
  inferInstanceAs (Decidable (_ = _))

theorem wordSum_mul_eq_iff (w : UInt32) :
    Bytes.wordSum new * w = Bytes.wordSum old * w ↔ Unnoticed w.toNat old new := by
  have hproduct : ∀ b : Bytes,
      (Bytes.wordSum b * w).toNat = (w.toNat * Bytes.wordTotal b) % UInt32.size := by
    intro b
    rw [UInt32.toNat_mul, Bytes.toNat_wordSum, Nat.mul_comm w.toNat]
    exact Nat.mod_mul_mod _ _ _
  rw [← UInt32.toNat_inj, hproduct, hproduct, Unnoticed, Int.mul_sub,
    ← Int.emod_eq_emod_iff_emod_sub_eq_zero]
  norm_cast

/-- An odd count cancels. -/
theorem wordSum_eq_of_unnoticed {count : Nat} (hodd : Odd count) (h : Unnoticed count old new) :
    Bytes.wordSum new = Bytes.wordSum old := by
  have hcoprime : Int.gcd UInt32.size count = 1 := by
    show Nat.Coprime (2 ^ 32) count
    exact Nat.Coprime.pow_left 32 (Nat.coprime_two_left.mpr hodd)
  have hdifference :
      (Bytes.wordTotal new - Bytes.wordTotal old : Int) % UInt32.size = 0 :=
    Int.emod_eq_zero_of_dvd
      (Int.dvd_of_dvd_mul_right_of_gcd_one (Int.dvd_of_emod_eq_zero h) hcoprime)
  rw [← Int.emod_eq_emod_iff_emod_sub_eq_zero] at hdifference
  rw [← UInt32.toNat_inj, Bytes.toNat_wordSum, Bytes.toNat_wordSum]
  exact_mod_cast hdifference

/-! ## Headers -/

/-- Of the partitions, only the first one matters. -/
theorem validateHeader_congr {a b : Table} (hheader : a.header = b.header)
    (hhead : a.partitions.head? = b.partitions.head?) :
    a.validateHeader = b.validateHeader := by
  obtain ⟨header, ps⟩ := a
  obtain ⟨_, qs⟩ := b
  obtain rfl := hheader
  have hchecksum : checksum ps = checksum qs := by
    cases ps with
    | nil =>
        obtain rfl := List.head?_eq_none_iff.mp hhead.symm
        rfl
    | cons p ps =>
        obtain ⟨qs, rfl⟩ := List.head?_eq_some_iff.mp hhead.symm
        rfl
  simp only [validateHeader, hchecksum]

/-- Under a header that passes for its partitions, others pass when they have the same checksum.
The checksum of a full table is not looked at. -/
theorem validateHeader_of_ok (h : t.validateHeader = .ok ())
    (hcount : t.header.count.toInt < maxPartitions) (ps : List Partition) :
    (⟨t.header, ps⟩ : Table).validateHeader =
      if checksum ps t.header.count.toUInt32 = checksum t.partitions t.header.count.toUInt32 then
        .ok ()
      else .error (.checksumMismatch t.header.checksum (checksum ps t.header.count.toUInt32)) := by
  obtain ⟨⟨hlow, -⟩, hmagic, hversion, hchecksum⟩ := validateHeader_eq_ok_iff.mp h
  have hrange : ¬ (t.header.count.toInt < 0 ∨ maxPartitions < t.header.count.toInt) := by omega
  unfold validateHeader
  dsimp only
  rw [if_neg hrange, if_neg (not_not_intro hmagic), if_neg (not_not_intro hversion),
    hchecksum hcount]
  simp only [hcount, true_and, ne_eq, ite_not]

/-- A count that is not negative is the same word without a sign. -/
theorem toNat_toUInt32 {count : Int32} {n : Nat} (h : count.toInt = n) :
    count.toUInt32.toNat = n := by
  have hsize : UInt32.size = 4294967296 := rfl
  have hsigned : count.toInt = (count.toUInt32.toNat : Int).bmod UInt32.size :=
    BitVec.toInt_eq_toNat_bmod _
  have hlt : count.toUInt32.toNat < UInt32.size := count.toUInt32.toNat_lt
  rw [h, Int.bmod, hsize] at hsigned
  rw [hsize] at hlt
  omega

/-- A header that counts its partitions passes with another first one when the count does not notice
the exchange. -/
theorem validateHeader_cons (hpartitions : t.partitions = first :: rest)
    (hcount : t.header.count.toInt = t.partitions.length)
    (hlength : t.partitions.length < maxPartitions) (hvalid : t.validateHeader = .ok ())
    (p : Partition) :
    (⟨t.header, p :: rest⟩ : Table).validateHeader =
      if Unnoticed t.partitions.length first.toBytes p.toBytes then .ok ()
      else .error (.checksumMismatch t.header.checksum
        (checksum (p :: rest) t.header.count.toUInt32)) := by
  have hsame : checksum (p :: rest) t.header.count.toUInt32 =
      checksum t.partitions t.header.count.toUInt32 ↔
        Unnoticed t.partitions.length first.toBytes p.toBytes := by
    rw [← toNat_toUInt32 hcount, ← wordSum_mul_eq_iff, hpartitions]
    rfl
  rw [validateHeader_of_ok hvalid (by omega)]
  simp only [hsame]

/-- **What the checksum guards.**  Let a table with fewer partitions than it could hold count them
and pass.  With other bytes in its first slot it passes exactly when the count times the difference
of the two sums of words is a multiple of 2^32, and fails for its checksum otherwise.  So an odd
count notices every change of a single word.  The other slots do not matter. -/
theorem checksum_guards_first (hpartitions : t.partitions = first :: rest)
    (hcount : t.header.count.toInt = t.partitions.length)
    (hlength : t.partitions.length < maxPartitions) (hvalid : t.validateHeader = .ok ()) :
    (∀ slot : Bytes, slot.length = Partition.slotLength →
      ∃ p, Partition.ofBytes slot = .ok p ∧
        (⟨t.header, p :: rest⟩ : Table).validateHeader =
          if (t.partitions.length *
              (Bytes.wordTotal slot - Bytes.wordTotal first.toBytes) : Int) %
                UInt32.size = 0 then .ok ()
          else .error (.checksumMismatch t.header.checksum
            (checksum (p :: rest) t.header.count.toUInt32))) ∧
      (Odd t.partitions.length → ∀ front word word' back,
        first.toBytes = front ++ (word ++ back) → front.length % 4 = 0 →
          word.length = 4 → word'.length = 4 → word ≠ word' →
            ∃ p computed, Partition.ofBytes (front ++ (word' ++ back)) = .ok p ∧
              (⟨t.header, p :: rest⟩ : Table).validateHeader =
                .error (.checksumMismatch t.header.checksum computed)) ∧
      ∀ p rest', (⟨t.header, p :: rest'⟩ : Table).validateHeader =
        (⟨t.header, p :: rest⟩ : Table).validateHeader := by
  have hread : ∀ slot : Bytes, slot.length = Partition.slotLength →
      ∃ p : Partition, Partition.ofBytes slot = .ok p ∧ p.toBytes = slot := by
    intro slot hslot
    obtain ⟨p, rfl⟩ := Partition.exists_toBytes_eq hslot
    exact ⟨p, Partition.ofBytes_toBytes p, rfl⟩
  have hfirst := validateHeader_cons hpartitions hcount hlength hvalid
  refine ⟨?_, ?_, ?_⟩
  · intro slot hslot
    obtain ⟨p, hp, rfl⟩ := hread slot hslot
    exact ⟨p, hp, hfirst p⟩
  · intro hodd front word word' back hold hfront hword hword' hne
    obtain ⟨p, hp, hnew⟩ := hread (front ++ (word' ++ back)) (by
      rw [← first.length_toBytes, hold]
      simp only [List.length_append, hword, hword'])
    refine ⟨p, _, hp, (hfirst p).trans (if_neg fun hunnoticed => hne ?_)⟩
    rw [hold, hnew] at hunnoticed
    exact (Bytes.eq_of_wordSum_eq hfront hword' hword
      (wordSum_eq_of_unnoticed hodd hunnoticed)).symm
  · intro p rest'
    exact validateHeader_congr rfl rfl

/-- The first partitions of three, under the header that belongs to them. -/
def someOfThree (count : Nat) : Table :=
  ofPartitions ([{ namedSlot "boot" 0x1000 with mask := 1 }, namedSlot "logo" 0x2000,
    namedSlot "data" 0x4000].take count)

/-- The first of the three with the highest bit of its mask set. -/
def flippedBoot : Partition :=
  { namedSlot "boot" 0x1000 with mask := 0x80000001 }

/-- Two partitions do not notice the bit, three do. -/
theorem checksum_guards_first_of_someOfThree :
    (∀ count ∈ [2, 3], (someOfThree count).header.count.toInt = count ∧
        (someOfThree count).validateHeader = .ok ()) ∧
      (∃ p, Partition.ofBytes flippedBoot.toBytes = .ok p ∧
        (⟨(someOfThree 2).header, p :: (someOfThree 2).partitions.tail⟩ : Table).validateHeader =
          .ok ()) ∧
      ∃ p computed, Partition.ofBytes flippedBoot.toBytes = .ok p ∧
        (⟨(someOfThree 3).header, p :: (someOfThree 3).partitions.tail⟩ : Table).validateHeader =
          .error (.checksumMismatch (someOfThree 3).header.checksum computed) := by
  refine ⟨by decide +kernel, ?_, ?_⟩
  · obtain ⟨hguards, -, -⟩ := checksum_guards_first (t := someOfThree 2) rfl (by decide)
      (by decide) (by decide +kernel)
    obtain ⟨p, hp, hvalid⟩ := hguards flippedBoot.toBytes (Partition.length_toBytes _)
    exact ⟨p, hp, hvalid.trans (if_pos (by decide +kernel))⟩
  · obtain ⟨-, hodd, -⟩ := checksum_guards_first (t := someOfThree 3) rfl (by decide)
      (by decide) (by decide +kernel)
    -- the mask is the ninth word of the slot
    exact hodd (by decide) (flippedBoot.toBytes.take 32) (Bytes.le32 1) (Bytes.le32 0x80000001)
      (Bytes.le32 0) (by decide +kernel) (by decide +kernel) rfl rfl (by decide)

/-! ## Headers on the medium -/

/-- Reading finds the header and, if any partition is counted, the first slot. -/
theorem exists_read (header : Header) (p : Partition) {back : Bytes}
    (hlen : length ≤ (header.toBytes ++ (p.toBytes ++ back)).length) :
    ∃ ps, ofBytes (header.toBytes ++ (p.toBytes ++ back)) = .ok ⟨header, ps⟩ ∧
      ps.head? = if keptSlots header.count = 0 then none else some p := by
  obtain ⟨⟨header', ps⟩, rest, hkept, hb⟩ := exists_table hlen
  obtain ⟨hheader, hslots⟩ := List.append_inj hb (by simp)
  obtain rfl : header' = header := by
    have hread := Header.ofBytes_toBytes header []
    rw [hheader, Header.ofBytes_toBytes] at hread
    exact Except.ok.inj hread
  refine ⟨ps, ?_, ?_⟩
  · rw [hb] at hlen ⊢
    exact ofBytes_append hkept hlen
  · cases ps with
    | nil => exact (if_pos hkept).symm
    | cons q ps =>
        rw [if_neg (by rw [hkept]; simp)]
        rw [List.flatMap_cons, List.append_assoc] at hslots
        have hread := Partition.ofBytes_toBytes p
        rw [(List.append_inj hslots (by simp)).1, Partition.ofBytes_toBytes] at hread
        exact congrArg some (Except.ok.inj hread)

/-- Whether a header passes is decided by its own bytes and those of the first slot, whatever
stands behind them. -/
theorem validateHeader_of_front {front back back' : Bytes}
    (hfront : front.length = headerLength + Partition.slotLength)
    (hback : length ≤ (front ++ back).length) (hback' : length ≤ (front ++ back').length) :
    ∃ t t', ofBytes (front ++ back) = .ok t ∧ ofBytes (front ++ back') = .ok t' ∧
      t'.validateHeader = t.validateHeader := by
  obtain ⟨header, slot, rfl, hheader⟩ :=
    Bytes.exists_split (n := headerLength) (b := front) (by omega)
  rw [List.length_append, hheader] at hfront
  obtain ⟨header, rfl⟩ := Header.exists_toBytes_eq hheader
  have hslot : slot.length = Partition.slotLength := by omega
  obtain ⟨p, rfl⟩ := Partition.exists_toBytes_eq hslot
  rw [List.append_assoc] at hback hback' ⊢
  rw [List.append_assoc]
  obtain ⟨ps, hread, hhead⟩ := exists_read header p hback
  obtain ⟨ps', hread', hhead'⟩ := exists_read header p hback'
  exact ⟨_, _, hread, hread', validateHeader_congr rfl (hhead'.trans hhead.symm)⟩

end EmmcLayout.Table
