import EmmcLayout.Proofs.Bytes
import EmmcLayout.Proofs.Outcome
import EmmcLayout.Table

/-!
# The format of tables is faithful

A slot and a header are each a one-to-one encoding of all byte strings of their length: what is
written reads back (`ofBytes_toBytes`), and every byte string of that length is written by something
(`exists_toBytes_eq`).  From the two, `format_faithful` says what reading and writing a whole table
have to do with each other.

Reading keeps as many slots as the recorded count says, within 0 and 32.  What stands behind them is
not kept, and is written as zeros; so a table of at least 1304 bytes is written back byte for byte
up to the last slot that it counts.
-/

namespace EmmcLayout

/-! ## Slots -/

namespace Partition

@[simp]
theorem length_toBytes (p : Partition) : p.toBytes.length = slotLength := by
  simp [toBytes, p.rawName.length_eq, nameFieldLength, slotLength]

/-- A slot reads back. -/
theorem ofBytes_toBytes (p : Partition) : ofBytes p.toBytes = .ok p := by
  have hname : Bytes.fetch p.toBytes 0 nameFieldLength = .ok p.rawName.bytes := by
    have h := Bytes.fetch_middle [] p.rawName.bytes
      (Bytes.le64 p.size ++ (Bytes.le64 p.offset ++ (Bytes.le32 p.mask ++ Bytes.le32 p.padding)))
    simpa [toBytes, p.rawName.length_eq] using h
  have hsize : Bytes.fetchLE64 p.toBytes 16 = .ok p.size := by
    have h := Bytes.fetchLE64_middle p.rawName.bytes p.size
      (Bytes.le64 p.offset ++ (Bytes.le32 p.mask ++ Bytes.le32 p.padding))
    simpa [toBytes, p.rawName.length_eq, nameFieldLength] using h
  have hoffset : Bytes.fetchLE64 p.toBytes 24 = .ok p.offset := by
    have h := Bytes.fetchLE64_middle (p.rawName.bytes ++ Bytes.le64 p.size) p.offset
      (Bytes.le32 p.mask ++ Bytes.le32 p.padding)
    simpa [toBytes, p.rawName.length_eq, nameFieldLength] using h
  have hmask : Bytes.fetchLE32 p.toBytes 32 = .ok p.mask := by
    have h := Bytes.fetchLE32_middle (p.rawName.bytes ++ Bytes.le64 p.size ++ Bytes.le64 p.offset)
      p.mask (Bytes.le32 p.padding)
    simpa [toBytes, p.rawName.length_eq, nameFieldLength] using h
  have hpadding : Bytes.fetchLE32 p.toBytes 36 = .ok p.padding := by
    have h := Bytes.fetchLE32_middle
      (p.rawName.bytes ++ Bytes.le64 p.size ++ Bytes.le64 p.offset ++ Bytes.le32 p.mask)
      p.padding []
    simpa [toBytes, p.rawName.length_eq, nameFieldLength] using h
  have hfield : ByteField.ofBytes nameFieldLength p.rawName.bytes = p.rawName := by
    ext1
    exact ByteField.bytes_ofBytes p.rawName.length_eq
  simp only [ofBytes, hname, hsize, hoffset, hmask, hpadding, Outcome.ok_bind, hfield]
  rfl

/-- Every byte string as long as a slot is the slot of some partition. -/
theorem exists_toBytes_eq {slot : Bytes} (h : slot.length = slotLength) :
    ∃ p : Partition, p.toBytes = slot := by
  rw [slotLength] at h
  obtain ⟨name, rest, rfl, hname⟩ := Bytes.exists_split (n := 16) (b := slot) (by omega)
  rw [List.length_append, hname] at h
  obtain ⟨size, rest, rfl, hsize⟩ := Bytes.exists_split (n := 8) (b := rest) (by omega)
  rw [List.length_append, hsize] at h
  obtain ⟨offset, rest, rfl, hoffset⟩ := Bytes.exists_split (n := 8) (b := rest) (by omega)
  rw [List.length_append, hoffset] at h
  obtain ⟨mask, padding, rfl, hmask⟩ := Bytes.exists_split (n := 4) (b := rest) (by omega)
  rw [List.length_append, hmask] at h
  refine ⟨⟨⟨name, hname⟩, UInt64.ofNat (Bytes.ofLE size), UInt64.ofNat (Bytes.ofLE offset),
    UInt32.ofNat (Bytes.ofLE mask), UInt32.ofNat (Bytes.ofLE padding)⟩, ?_⟩
  simp only [toBytes, Bytes.le64_ofNat_ofLE hsize, Bytes.le64_ofNat_ofLE hoffset,
    Bytes.le32_ofNat_ofLE hmask, Bytes.le32_ofNat_ofLE (show padding.length = 4 by omega),
    List.append_assoc]

end Partition

namespace Table

variable {b rest : Bytes} {ps : List Partition} {t : Table}

/-! ## Headers -/

@[simp]
theorem Header.length_toBytes (h : Header) : h.toBytes.length = headerLength := by
  simp [toBytes, h.magic.length_eq, h.version.length_eq, headerLength]

/-- A header reads back, whatever follows it. -/
theorem Header.ofBytes_toBytes (h : Header) (rest : Bytes) :
    Header.ofBytes (h.toBytes ++ rest) = .ok h := by
  have hmagic : Bytes.fetch (h.toBytes ++ rest) 0 4 = .ok h.magic.bytes := by
    have hfetch := Bytes.fetch_middle [] h.magic.bytes (h.version.bytes ++
      (Bytes.le32 h.count.toUInt32 ++ (Bytes.le32 h.checksum ++ rest)))
    simpa [toBytes, h.magic.length_eq] using hfetch
  have hversion : Bytes.fetch (h.toBytes ++ rest) 4 12 = .ok h.version.bytes := by
    have hfetch := Bytes.fetch_middle h.magic.bytes h.version.bytes
      (Bytes.le32 h.count.toUInt32 ++ (Bytes.le32 h.checksum ++ rest))
    simpa [toBytes, h.magic.length_eq, h.version.length_eq] using hfetch
  have hcount : Bytes.fetchLE32 (h.toBytes ++ rest) 16 = .ok h.count.toUInt32 := by
    have hfetch := Bytes.fetchLE32_middle (h.magic.bytes ++ h.version.bytes) h.count.toUInt32
      (Bytes.le32 h.checksum ++ rest)
    simpa [toBytes, h.magic.length_eq, h.version.length_eq] using hfetch
  have hchecksum : Bytes.fetchLE32 (h.toBytes ++ rest) 20 = .ok h.checksum := by
    have hfetch := Bytes.fetchLE32_middle
      (h.magic.bytes ++ h.version.bytes ++ Bytes.le32 h.count.toUInt32) h.checksum rest
    simpa [toBytes, h.magic.length_eq, h.version.length_eq] using hfetch
  have hmagicField : ByteField.ofBytes 4 h.magic.bytes = h.magic := by
    ext1
    exact ByteField.bytes_ofBytes h.magic.length_eq
  have hversionField : ByteField.ofBytes 12 h.version.bytes = h.version := by
    ext1
    exact ByteField.bytes_ofBytes h.version.length_eq
  simp only [ofBytes, hmagic, hversion, hcount, hchecksum, Outcome.ok_bind, hmagicField,
    hversionField]
  rfl

/-- Every byte string as long as a header is the header of some table. -/
theorem Header.exists_toBytes_eq (h : b.length = headerLength) : ∃ x : Header, x.toBytes = b := by
  rw [headerLength] at h
  obtain ⟨magic, rest, rfl, hmagic⟩ := Bytes.exists_split (n := 4) (b := b) (by omega)
  rw [List.length_append, hmagic] at h
  obtain ⟨version, rest, rfl, hversion⟩ := Bytes.exists_split (n := 12) (b := rest) (by omega)
  rw [List.length_append, hversion] at h
  obtain ⟨count, checksum, rfl, hcount⟩ := Bytes.exists_split (n := 4) (b := rest) (by omega)
  rw [List.length_append, hcount] at h
  refine ⟨⟨⟨magic, hmagic⟩, ⟨version, hversion⟩, (UInt32.ofNat (Bytes.ofLE count)).toInt32,
    UInt32.ofNat (Bytes.ofLE checksum)⟩, ?_⟩
  simp only [toBytes, UInt32.toUInt32_toInt32, Bytes.le32_ofNat_ofLE hcount,
    Bytes.le32_ofNat_ofLE (show checksum.length = 4 by omega), List.append_assoc]

/-! ## Runs of slots -/

theorem length_flatMap_toBytes (ps : List Partition) :
    (ps.flatMap Partition.toBytes).length = Partition.slotLength * ps.length := by
  induction ps with
  | nil => rfl
  | cons p ps ih =>
      rw [List.flatMap_cons, List.length_append, ih, Partition.length_toBytes, List.length_cons,
        Nat.mul_succ, Nat.add_comm]

/-- Slots read back in order, whatever follows them. -/
theorem readSlots_flatMap (ps : List Partition) (rest : Bytes) :
    readSlots ps.length (ps.flatMap Partition.toBytes ++ rest) = .ok ps := by
  induction ps with
  | nil => rfl
  | cons p ps ih =>
      rw [List.length_cons, List.flatMap_cons, List.append_assoc, readSlots,
        List.take_left' p.length_toBytes, List.drop_left' p.length_toBytes,
        Partition.ofBytes_toBytes, Outcome.ok_bind, ih]
      rfl

/-- Every byte string that is long enough starts with `n` slots. -/
theorem exists_slots {n : Nat} (h : Partition.slotLength * n ≤ b.length) :
    ∃ (ps : List Partition) (rest : Bytes), ps.length = n ∧
      b = ps.flatMap Partition.toBytes ++ rest := by
  induction n generalizing b with
  | zero => exact ⟨[], b, rfl, rfl⟩
  | succ n ih =>
      rw [Nat.mul_succ] at h
      obtain ⟨slot, rest, rfl, hslot⟩ :=
        Bytes.exists_split (n := Partition.slotLength) (b := b) (by omega)
      obtain ⟨p, rfl⟩ := Partition.exists_toBytes_eq hslot
      rw [List.length_append, hslot] at h
      obtain ⟨ps, behind, hlen, rfl⟩ := ih (b := rest) (by omega)
      exact ⟨p :: ps, behind, by rw [List.length_cons, hlen], by simp⟩

/-! ## Whole tables -/

/-- The header counts the partitions, and there are no more than a table holds. -/
structure Counted (t : Table) : Prop where
  count_eq : t.header.count.toInt = t.partitions.length
  length_le : t.partitions.length ≤ maxPartitions

theorem Counted.keptSlots_eq (ht : t.Counted) : keptSlots t.header.count = t.partitions.length := by
  have hle := ht.length_le
  rw [keptSlots, ht.count_eq]
  omega

theorem keptSlots_le (count : Int32) : keptSlots count ≤ maxPartitions :=
  Nat.min_le_right _ _

/-- Reading keeps the slots that the header counts, and nothing behind them. -/
theorem ofBytes_append (hkept : keptSlots t.header.count = t.partitions.length)
    (hlen : length ≤
      (t.header.toBytes ++ (t.partitions.flatMap Partition.toBytes ++ rest)).length) :
    ofBytes (t.header.toBytes ++ (t.partitions.flatMap Partition.toBytes ++ rest)) = .ok t := by
  rw [ofBytes, if_neg (Nat.not_lt.mpr hlen), Header.ofBytes_toBytes, Outcome.ok_bind, hkept,
    List.drop_left' t.header.length_toBytes, readSlots_flatMap]
  rfl

/-- Every byte string that is long enough holds a table. -/
theorem exists_table (hlen : length ≤ b.length) :
    ∃ (t : Table) (rest : Bytes), keptSlots t.header.count = t.partitions.length ∧
      b = t.header.toBytes ++ (t.partitions.flatMap Partition.toBytes ++ rest) := by
  obtain ⟨front, slots, rfl, hfront⟩ :=
    Bytes.exists_split (n := headerLength) (b := b) (Nat.le_trans (Nat.le_add_right _ _) hlen)
  obtain ⟨header, rfl⟩ := Header.exists_toBytes_eq hfront
  rw [List.length_append, hfront, length] at hlen
  have hkept := keptSlots_le header.count
  obtain ⟨ps, rest, hps, rfl⟩ := exists_slots (n := keptSlots header.count) (b := slots) (by
    have hmul := Nat.mul_le_mul_left Partition.slotLength hkept
    omega)
  exact ⟨⟨header, ps⟩, rest, hps.symm, rfl⟩

/-- A table of at most 32 partitions is written as its header, its slots, and zeros. -/
theorem toBytes_eq (h : t.partitions.length ≤ maxPartitions) :
    t.toBytes = Bytes.padTo length
      (t.header.toBytes ++ t.partitions.flatMap Partition.toBytes) := by
  rw [toBytes, List.take_of_length_le h]

theorem length_written (t : Table) :
    (t.header.toBytes ++ t.partitions.flatMap Partition.toBytes).length =
      headerLength + Partition.slotLength * t.partitions.length := by
  rw [List.length_append, t.header.length_toBytes, length_flatMap_toBytes]

/-- What is written reads back. -/
theorem ofBytes_toBytes (ht : t.Counted) : ofBytes t.toBytes = .ok t := by
  have hlen : length ≤ t.toBytes.length := by
    rw [toBytes, Bytes.padTo, List.length_append, Bytes.zeros, List.length_replicate]
    omega
  rw [toBytes_eq ht.length_le, Bytes.padTo, List.append_assoc] at hlen ⊢
  exact ofBytes_append ht.keptSlots_eq hlen

/-- The number of partitions that a byte string records: the signed word behind magic and version.
-/
def recordedCount (b : Bytes) : Int :=
  (UInt32.ofNat (Bytes.ofLE ((b.drop 16).take 4))).toInt32.toInt

theorem recordedCount_append (h : Header) (rest : Bytes) :
    recordedCount (h.toBytes ++ rest) = h.count.toInt := by
  have hcount : ((h.toBytes ++ rest).drop 16).take 4 = Bytes.le32 h.count.toUInt32 := by
    have hfront : (h.magic.bytes ++ h.version.bytes).length = 16 := by
      rw [List.length_append, h.magic.length_eq, h.version.length_eq]
    rw [Header.toBytes, List.append_assoc _ (Bytes.le32 h.count.toUInt32),
      List.append_assoc _ _ rest, List.drop_left' hfront, List.append_assoc,
      List.take_left' (Bytes.length_le32 _)]
  rw [recordedCount, hcount, Bytes.ofNat_ofLE_le32]
  rfl

/-- **The format of tables is faithful.**  A table that counts its partitions reads back as it was
written, so that two of them are the same when they are written alike.  Every byte string that is
long enough is read, and written back as it was up to the last slot that it counts. -/
theorem format_faithful :
    (∀ t : Table, t.Counted → ofBytes t.toBytes = .ok t) ∧
      (∀ a b : Table, a.Counted → b.Counted → (a.sameBytes b = true ↔ a = b)) ∧
      ∀ b : Bytes, 1304 ≤ b.length → ∃ t, ofBytes b = .ok t ∧
        t.toBytes =
          Bytes.padTo 1304 (b.take (24 + 40 * (max 0 (min (recordedCount b) 32)).toNat)) := by
  refine ⟨fun t ht => ofBytes_toBytes ht, ?_, ?_⟩
  · intro a b ha hb
    rw [sameBytes, beq_iff_eq]
    constructor
    · intro h
      have hread := congrArg ofBytes h
      rw [ofBytes_toBytes ha, ofBytes_toBytes hb] at hread
      exact Except.ok.inj hread
    · rintro rfl
      rfl
  · intro b hlen
    obtain ⟨t, rest, hkept, rfl⟩ := exists_table hlen
    refine ⟨t, ofBytes_append hkept hlen, ?_⟩
    have hclamp : (max 0 (min t.header.count.toInt 32)).toNat = t.partitions.length := by
      rw [← hkept, keptSlots, maxPartitions]
      omega
    have hwritten := length_written t
    rw [headerLength, Partition.slotLength] at hwritten
    rw [toBytes_eq (hkept ▸ keptSlots_le _), recordedCount_append, hclamp, ← List.append_assoc,
      List.take_left' hwritten]
    rfl

/-- A table with a header that nobody wrote and a slot whose padding is used. -/
def strangeTable : Table :=
  ⟨⟨ByteField.zero 4, ByteField.zero 12, 1, 7⟩, [{ Partition.blank with padding := 5 }]⟩

/-- The strange table, and bytes that record a count below zero. -/
theorem format_faithful_of_strangeTable :
    strangeTable.Counted ∧ ofBytes strangeTable.toBytes = .ok strangeTable ∧
      (strangeTable.sameBytes empty = true ↔ strangeTable = empty) ∧
      recordedCount (List.replicate 1400 0xFF) = -1 ∧
      ∃ t, ofBytes (List.replicate 1400 0xFF) = .ok t ∧
        t.toBytes = Bytes.padTo 1304 ((List.replicate 1400 0xFF).take 24) := by
  have hstrange : strangeTable.Counted := ⟨by decide, by decide⟩
  have hempty : empty.Counted := ⟨by decide, by decide⟩
  have hcount : recordedCount (List.replicate 1400 0xFF) = -1 := by decide +kernel
  obtain ⟨hread, hsame, hwrite⟩ := format_faithful
  refine ⟨hstrange, hread _ hstrange, hsame _ _ hstrange hempty, hcount, ?_⟩
  have hlong := hwrite (List.replicate 1400 0xFF) (by rw [List.length_replicate]; decide)
  rw [hcount] at hlong
  exact hlong

end Table

end EmmcLayout
