import EmmcLayout.Layout.Migration
import EmmcLayout.Proofs.Layout.Origins
import EmmcLayout.Proofs.Table.Validate

/-!
# What a migration does to a device

The copies of a plan are carried out on the bytes of a device, each with the bytes that were there
before the first of them.  A copy changes the addresses it writes to and no others
(`copy_of_not_writes`), so when no address is written twice, each one ends up with the byte of its
own copy, in whatever order the copies are made (`foldl_copy_of_writes`).

A plan has a copy for each partition that moves (`mem_plan_iff`) and none for a partition that
stays.  What keeps the bytes of the latter is that a copy writes within its own partition only, and
that the partitions of the target share no byte: `not_writes_of_stays`.
-/

namespace EmmcLayout

namespace Partition

variable {a b p : Partition}

/-- No address lies within both. -/
def SharesNoByte (a b : Partition) : Prop :=
  ∀ address, a.Covers address → ¬ b.Covers address

instance : Std.Symm SharesNoByte :=
  ⟨fun _ _ h address hb ha => h address ha hb⟩

/-- One that ends before the other starts has no address in common with it. -/
theorem Before.sharesNoByte (h : a.Before b) : a.SharesNoByte b := by
  rintro address ⟨-, hto⟩ ⟨hfrom, -⟩
  exact Nat.lt_irrefl _ (Nat.lt_of_lt_of_le hto (Nat.le_trans h hfrom))

theorem covers_offset_add {k : Nat} (hk : k < p.size.toNat) : p.Covers (p.offset.toNat + k) :=
  ⟨Nat.le_add_right _ _, Nat.add_lt_add_left hk _⟩

/-- Among legal and distinct names, the one partition of a name is what is found. -/
theorem find?_isNamed_iff {ps : List Partition} {name : String} (hnamed : ∀ p ∈ ps, p.WellNamed)
    (hdistinct : (ps.map nameBytes).Nodup) :
    ps.find? (·.isNamed name) = some p ↔ p ∈ ps ∧ p.name = name := by
  constructor
  · intro h
    have hp : p ∈ ps := List.mem_of_find?_eq_some h
    exact ⟨hp, (hnamed p hp).isNamed_iff.mp (List.find?_some h)⟩
  · rintro ⟨hp, rfl⟩
    have hself : p.isNamed p.name = true := (hnamed p hp).isNamed_iff.mpr rfl
    obtain ⟨q, hq⟩ := Option.isSome_iff_exists.mp (List.find?_isSome.mpr ⟨p, hp, hself⟩)
    have hsame : q.nameBytes = p.nameBytes := by
      have hfound : q.isNamed p.name = true := List.find?_some hq
      rw [isNamed_iff.mp hfound, (hnamed p hp).encode_name]
    rw [hq, List.inj_on_of_nodup_map hdistinct (List.mem_of_find?_eq_some hq) hp hsame]

end Partition

namespace Migration

variable {original disk : Nat → UInt8} {copies : List Migration} {m : Migration}
  {source target : Table} {p q : Partition} {address : Nat}

/-! ## Copies -/

/-- The copy takes the byte at this address. -/
def Reads (m : Migration) (address : Nat) : Prop :=
  m.source.toNat ≤ address ∧ address < m.source.toNat + m.length.toNat

/-- The copy leaves a byte at this address. -/
def Writes (m : Migration) (address : Nat) : Prop :=
  m.target.toNat ≤ address ∧ address < m.target.toNat + m.length.toNat

instance (m : Migration) (address : Nat) : Decidable (m.Writes address) :=
  inferInstanceAs (Decidable (_ ∧ _))

/-- No address is written by both. -/
def Apart (m m' : Migration) : Prop :=
  ∀ address, m.Writes address → ¬ m'.Writes address

theorem Apart.symm {m m' : Migration} (h : Apart m m') : Apart m' m :=
  fun address hwrites' hwrites => h address hwrites hwrites'

/-- The bytes of a device after one copy, which takes its bytes from the original ones. -/
def copy (original disk : Nat → UInt8) (m : Migration) : Nat → UInt8 := fun address =>
  if m.Writes address then original (m.source.toNat + (address - m.target.toNat)) else disk address

/-- The bytes of a device after all copies. -/
def carryOut (copies : List Migration) (original : Nat → UInt8) : Nat → UInt8 :=
  copies.foldl (copy original) original

theorem copy_of_writes (h : m.Writes address) :
    copy original disk m address = original (m.source.toNat + (address - m.target.toNat)) :=
  if_pos h

theorem copy_of_not_writes (h : ¬ m.Writes address) :
    copy original disk m address = disk address :=
  if_neg h

/-- What a copy does depends only on the bytes that it reads. -/
theorem copy_congr {other : Nat → UInt8} (h : ∀ address, m.Reads address →
    original address = other address) : copy original disk m = copy other disk m := by
  funext address
  by_cases hwrites : m.Writes address
  · rw [copy_of_writes hwrites, copy_of_writes hwrites]
    obtain ⟨hfrom, hto⟩ := hwrites
    exact h _ ⟨by omega, by omega⟩
  · rw [copy_of_not_writes hwrites, copy_of_not_writes hwrites]

theorem foldl_copy_of_not_writes (h : ∀ m ∈ copies, ¬ m.Writes address) :
    copies.foldl (copy original) disk address = disk address := by
  induction copies generalizing disk with
  | nil => rfl
  | cons c copies ih =>
      obtain ⟨hc, hrest⟩ := List.forall_mem_cons.mp h
      rw [List.foldl_cons, ih hrest, copy_of_not_writes hc]

/-- Copies that are apart do not undo each other. -/
theorem foldl_copy_of_writes (hapart : copies.Pairwise Apart) (hm : m ∈ copies)
    (h : m.Writes address) :
    copies.foldl (copy original) disk address =
      original (m.source.toNat + (address - m.target.toNat)) := by
  induction copies generalizing disk with
  | nil => exact absurd hm List.not_mem_nil
  | cons c copies ih =>
      obtain ⟨hc, hrest⟩ := List.pairwise_cons.mp hapart
      rw [List.foldl_cons]
      rcases List.mem_cons.mp hm with rfl | hm
      · rw [foldl_copy_of_not_writes fun m' hm' => hc m' hm' address h, copy_of_writes h]
      · exact ih hrest hm

/-! ## Plans -/

/-- The copy from one place of a partition to the other. -/
def between (p q : Partition) : Migration :=
  ⟨q.name, p.offset, q.offset, min p.size q.size⟩

theorem toNat_length_between (p q : Partition) :
    (between p q).length.toNat = min p.size.toNat q.size.toNat := by
  show (min p.size q.size).toNat = _
  rw [UInt64.toNat_min]

theorem reads_between_iff : (between p q).Reads address ↔
    p.offset.toNat ≤ address ∧ address < p.offset.toNat + min p.size.toNat q.size.toNat := by
  rw [Reads, toNat_length_between]
  rfl

theorem writes_between_iff : (between p q).Writes address ↔
    q.offset.toNat ≤ address ∧ address < q.offset.toNat + min p.size.toNat q.size.toNat := by
  rw [Writes, toNat_length_between]
  rfl

theorem covers_of_reads (h : (between p q).Reads address) : p.Covers address := by
  obtain ⟨hfrom, hto⟩ := reads_between_iff.mp h
  exact ⟨hfrom, Nat.lt_of_lt_of_le hto (Nat.add_le_add_left (Nat.min_le_left _ _) _)⟩

theorem covers_of_writes (h : (between p q).Writes address) : q.Covers address := by
  obtain ⟨hfrom, hto⟩ := writes_between_iff.mp h
  exact ⟨hfrom, Nat.lt_of_lt_of_le hto (Nat.add_le_add_left (Nat.min_le_right _ _) _)⟩

/-- The partition has a place in both tables, and not the same one. -/
structure Moves (source target : Table) (p q : Partition) : Prop where
  mem_source : p ∈ source.partitions
  mem_target : q ∈ target.partitions
  name_eq : p.name = q.name
  offset_ne : p.offset ≠ q.offset

theorem ofPartition?_eq_some_iff :
    ofPartition? source q = some m ↔
      ∃ p, source.partitions.find? (·.isNamed q.name) = some p ∧ p.offset ≠ q.offset ∧
        m = between p q := by
  rw [ofPartition?]
  constructor
  · intro h
    obtain ⟨p, hp, hm⟩ := Option.bind_eq_some_iff.mp h
    split at hm
    · exact absurd hm (by simp)
    · rename_i hne
      exact ⟨p, hp, hne, (Option.some.inj hm).symm⟩
  · rintro ⟨p, hp, hne, rfl⟩
    exact Option.bind_eq_some_iff.mpr ⟨p, hp, if_neg hne⟩

/-- A plan holds the copies of the partitions that move. -/
theorem mem_plan_iff (hnamed : ∀ p ∈ source.partitions, p.WellNamed)
    (hdistinct : (source.partitions.map Partition.nameBytes).Nodup) :
    m ∈ plan source target ↔ ∃ p q, Moves source target p q ∧ m = between p q := by
  rw [plan, List.mem_filterMap]
  constructor
  · rintro ⟨q, hq, hm⟩
    obtain ⟨p, hfound, hne, rfl⟩ := ofPartition?_eq_some_iff.mp hm
    obtain ⟨hp, hname⟩ := (Partition.find?_isNamed_iff hnamed hdistinct).mp hfound
    exact ⟨p, q, ⟨hp, hq, hname, hne⟩, rfl⟩
  · rintro ⟨p, q, ⟨hp, hq, hname, hne⟩, rfl⟩
    have hfound := (Partition.find?_isNamed_iff hnamed hdistinct).mpr ⟨hp, hname⟩
    exact ⟨q, hq, ofPartition?_eq_some_iff.mpr ⟨p, hfound, hne, rfl⟩⟩

/-- The copies of a plan write to different partitions of the target. -/
theorem plan_apart (hapart : target.partitions.Pairwise Partition.SharesNoByte) :
    (plan source target).Pairwise Apart := by
  rw [plan, List.pairwise_filterMap]
  refine hapart.imp fun {q q'} hshares m hm m' hm' address hwrites hwrites' => ?_
  obtain ⟨p, -, -, rfl⟩ := ofPartition?_eq_some_iff.mp hm
  obtain ⟨p', -, -, rfl⟩ := ofPartition?_eq_some_iff.mp hm'
  exact hshares address (covers_of_writes hwrites) (covers_of_writes hwrites')

/-- No copy writes to a partition that stays where it is. -/
theorem not_writes_of_stays (hnamed : ∀ p ∈ source.partitions, p.WellNamed)
    (hdistinct : (source.partitions.map Partition.nameBytes).Nodup)
    (hapart : target.partitions.Pairwise Partition.SharesNoByte) (hp : p ∈ source.partitions)
    (hq : q ∈ target.partitions) (hname : p.name = q.name) (hstays : p.offset = q.offset)
    (hcovers : q.Covers address) : ∀ m ∈ plan source target, ¬ m.Writes address := by
  intro m hm hwrites
  obtain ⟨p', q', hmoves, rfl⟩ := (mem_plan_iff hnamed hdistinct).mp hm
  by_cases hsame : q' = q
  · -- its name belongs to one partition of the source, and that one does not move
    subst hsame
    have hone : p'.nameBytes = p.nameBytes := by
      rw [← (hnamed p' hmoves.mem_source).encode_name, ← (hnamed p hp).encode_name,
        hmoves.name_eq, hname]
    obtain rfl := List.inj_on_of_nodup_map hdistinct hmoves.mem_source hp hone
    exact hmoves.offset_ne hstays
  · have hshares := hapart.forall hmoves.mem_target hq hsame
    exact hshares address (covers_of_writes hwrites) hcovers

/-- What a migration from one table to the other owes to the bytes of a device. -/
structure Carries (source target : Table) (copies : List Migration) (original : Nat → UInt8) :
    Prop where
  /-- A partition of both tables has the bytes it had, as many as fit both places. -/
  kept : ∀ p ∈ source.partitions, ∀ q ∈ target.partitions, p.name = q.name →
    ∀ k < min p.size.toNat q.size.toNat,
      carryOut copies original (q.offset.toNat + k) = original (p.offset.toNat + k)
  /-- A copy stays within the two places of its partition. -/
  confined : ∀ m ∈ copies, ∃ p ∈ source.partitions, ∃ q ∈ target.partitions,
    p.name = m.name ∧ q.name = m.name ∧ (∀ address, m.Reads address → p.Covers address) ∧
      ∀ address, m.Writes address → q.Covers address
  /-- Nothing changes but where a partition moves to, and there only as far as its bytes go. -/
  unchanged : ∀ address,
    (∀ p q, Moves source target p q → ¬ (q.offset.toNat ≤ address ∧
      address < q.offset.toNat + min p.size.toNat q.size.toNat)) →
      carryOut copies original address = original address

/-- **A migration carries the data.**  Let the partitions of the source have legal and distinct
names, and those of the target share no byte.  Then all copies of the plan, in any order and with
the bytes that the device had before, bring each partition of both tables to its new place, and
touch nothing else. -/
theorem plan_carries (hnamed : ∀ p ∈ source.partitions, p.WellNamed)
    (hdistinct : (source.partitions.map Partition.nameBytes).Nodup)
    (hapart : target.partitions.Pairwise Partition.SharesNoByte)
    (hcopies : copies.Perm (plan source target)) (original : Nat → UInt8) :
    Carries source target copies original where
  kept := by
    intro p hp q hq hname k hk
    by_cases hstays : p.offset = q.offset
    · have hcovers : q.Covers (q.offset.toNat + k) :=
        Partition.covers_offset_add (Nat.lt_of_lt_of_le hk (Nat.min_le_right _ _))
      have hsafe : ∀ m ∈ copies, ¬ m.Writes (q.offset.toNat + k) := fun m hm =>
        not_writes_of_stays hnamed hdistinct hapart hp hq hname hstays hcovers m
          (hcopies.mem_iff.mp hm)
      rw [carryOut, foldl_copy_of_not_writes hsafe, hstays]
    · have hmoves : Moves source target p q := ⟨hp, hq, hname, hstays⟩
      have hcopy : between p q ∈ copies :=
        hcopies.mem_iff.mpr ((mem_plan_iff hnamed hdistinct).mpr ⟨p, q, hmoves, rfl⟩)
      have hwrites : (between p q).Writes (q.offset.toNat + k) :=
        writes_between_iff.mpr ⟨Nat.le_add_right _ _, Nat.add_lt_add_left hk _⟩
      have happart : copies.Pairwise Apart :=
        (hcopies.pairwise_iff Apart.symm).mpr (plan_apart hapart)
      rw [carryOut, foldl_copy_of_writes happart hcopy hwrites]
      show original (p.offset.toNat + (q.offset.toNat + k - q.offset.toNat)) = _
      rw [Nat.add_sub_cancel_left]
  confined := by
    intro m hm
    obtain ⟨p, q, hmoves, rfl⟩ := (mem_plan_iff hnamed hdistinct).mp (hcopies.mem_iff.mp hm)
    exact ⟨p, hmoves.mem_source, q, hmoves.mem_target, hmoves.name_eq, rfl,
      fun _ => covers_of_reads, fun _ => covers_of_writes⟩
  unchanged := by
    intro address houtside
    rw [carryOut, foldl_copy_of_not_writes]
    intro m hm hwrites
    obtain ⟨p, q, hmoves, rfl⟩ := (mem_plan_iff hnamed hdistinct).mp (hcopies.mem_iff.mp hm)
    exact houtside p q hmoves (writes_between_iff.mp hwrites)

/-- A table of five partitions. -/
def tableBefore : Table :=
  Table.ofPartitions [Table.namedSlot "boot" 0x1000,
    { Table.namedSlot "logo" 0x1000 with offset := 0x1000 },
    { Table.namedSlot "data" 0x4000 with offset := 0x2000 },
    { Table.namedSlot "cache" 0x1000 with offset := 0x6000 },
    { Table.namedSlot "env" 0x1000 with offset := 0x7000 }]

/-- A table where two of them stay, one shrunk and one grown, and two move: one is shrunk and its
places overlap, the other one is grown.  One partition is gone, another one is new. -/
def tableAfter : Table :=
  Table.ofPartitions [Table.namedSlot "boot" 0x800,
    { Table.namedSlot "logo" 0x2000 with offset := 0x1000 },
    { Table.namedSlot "data" 0x3000 with offset := 0x3000 },
    { Table.namedSlot "misc" 0x1000 with offset := 0x6000 },
    { Table.namedSlot "env" 0x2000 with offset := 0x8000 }]

/-- A device where each byte is the number of its page. -/
def pageNumbers (address : Nat) : UInt8 :=
  UInt8.ofNat (address / 0x1000)

theorem plan_carries_of_tableAfter :
    (∀ p ∈ tableBefore.partitions, p.WellNamed) ∧
      (tableBefore.partitions.map Partition.nameBytes).Nodup ∧
      tableAfter.partitions.Pairwise Partition.SharesNoByte ∧
      plan tableBefore tableAfter =
        [⟨"data", 0x2000, 0x3000, 0x3000⟩, ⟨"env", 0x7000, 0x8000, 0x1000⟩] ∧
      Carries tableBefore tableAfter (plan tableBefore tableAfter) pageNumbers := by
  have hnamed : ∀ p ∈ tableBefore.partitions, p.WellNamed := by
    unfold Partition.WellNamed
    decide +kernel
  have hdistinct : (tableBefore.partitions.map Partition.nameBytes).Nodup := by decide +kernel
  have hbefore : tableAfter.partitions.Pairwise Partition.Before := by
    unfold Partition.Before
    decide +kernel
  have happart := hbefore.imp Partition.Before.sharesNoByte
  exact ⟨hnamed, hdistinct, happart, by decide +kernel,
    plan_carries hnamed hdistinct happart (.refl _) pageNumbers⟩

end Migration

end EmmcLayout
