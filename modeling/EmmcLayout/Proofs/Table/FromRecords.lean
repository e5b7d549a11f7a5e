import EmmcLayout.Proofs.Table.Conversion
import EmmcLayout.Proofs.Table.Refill

/-!
# Tables made from records

Whatever records a device tree holds, a table that is made from them is valid, fits on the device
and passes for a vendor layout: `ofRecords_valid`.  Nothing is asked of the records.  Names may be
illegal, repeated or the vendor's own, and sizes may be anything; what cannot be taken in or laid
out is refused.

Names are settled while the records are taken in (`admissible_of_absorbAll`), places when the
partitions are laid out, and neither touches what the other one has settled.
-/

namespace EmmcLayout.Table

open Layout (admissible_vendorDefault)

variable {capacity : UInt64} {options : LayoutOptions} {records : List Record}
  {p q : Partition} {ps qs : List Partition} {t : Table}

theorem admissible_of_absorbAll (hps : Admissible ps)
    (h : (absorbAll ps records).result = .ok qs) : Admissible qs := by
  induction records generalizing ps with
  | nil =>
      obtain rfl := Except.ok.inj h
      exact hps
  | cons r records ih =>
      obtain ⟨taken, htaken, h⟩ := Outcome.result_bind_eq_ok_iff.mp h
      exact ih (admissible_of_absorb hps htaken) h

/-- A table that was made from records is a filled one under a new header. -/
theorem exists_fill_of_ofRecords (h : (ofRecords records capacity options).result = .ok t) :
    ∃ taken filled : Table, Admissible taken.partitions ∧
      taken.fill capacity options.gapReserved options.gapPartition = (filled, none) ∧
      t = filled.updateHeader := by
  obtain ⟨ps, qs, habsorb, hnames, hfill, rfl⟩ := ofRecords_eq_ok_iff.mp h
  exact ⟨⟨vendorDefault.header, ps⟩, ⟨vendorDefault.header, qs⟩,
    admissible_of_absorbAll admissible_vendorDefault habsorb,
    fill_eq_ok_iff.mpr ⟨hnames, hfill, rfl⟩, rfl⟩

theorem Relocated.alike (h : Relocated p q) : Alike p q := by
  rw [h]
  exact ⟨rfl, rfl⟩

/-- **Making a table of records.**  Whatever the records are, the table that they make is valid, has
the vendor's partitions and at most 32 in all, counts them, is a vendor layout, and fits on the
device. -/
theorem ofRecords_valid (h : (ofRecords records capacity options).result = .ok t) :
    t.validate = .ok () ∧ 4 ≤ t.partitions.length ∧ t.partitions.length ≤ 32 ∧
      t.header.count.toInt = t.partitions.length ∧
      (t.isVendorLayout options).result = .ok true ∧ t.capacity ≤ capacity := by
  obtain ⟨taken, filled, htaken, hfill, rfl⟩ := exists_fill_of_ofRecords h
  have hserial := serial_of_fill hfill
  have hcapacity : filled.capacity ≤ capacity := capacity_le_of_fill hfill
  have hstop : ∀ p ∈ filled.partitions, p.stop ≤ filled.capacity.toNat := stop_le_of_fill hfill
  have halike := (laidOut_of_fill hfill).relocated.imp fun _ _ h => Relocated.alike h
  -- a fill leaves the names alone
  have hadmissible : Admissible filled.partitions :=
    htaken.of_rawNames (map_rawName_of_alike halike)
  refine ⟨(validate_ofPartitions_iff hadmissible.length_le).mpr hadmissible,
    hserial.starts.four_le, hadmissible.length_le,
    (counted_ofPartitions hadmissible.length_le).count_eq, ?_, hcapacity⟩
  -- and a table is recognised by what a fill leaves
  exact isVendorLayout_iff_fill.mpr (fill_eq_self_iff.mpr ⟨hserial, hstop⟩)

/-- Records of a vendor's partition, of one name twice, and of a cache that takes the rest. -/
def clashingRecords : List Record :=
  [⟨"reserved", 0x6000000, 0, 0, 0⟩, ⟨"data", autofillSize, 4, 0, 0⟩, ⟨"data", 0x40000000, 1, 0, 0⟩,
    ⟨"cache", autofillSize, 2, 0, 0⟩]

/-- A layout that leaves no space behind the reserved partition. -/
def denseOptions : LayoutOptions :=
  ⟨0x2000000, 0, 0x1000⟩

theorem ofRecords_valid_of_clashingRecords :
    ∃ t, (ofRecords clashingRecords 0x200000000 denseOptions).result = .ok t ∧
      t.validate = .ok () ∧ 4 ≤ t.partitions.length ∧ t.partitions.length ≤ 32 ∧
      t.header.count.toInt = t.partitions.length ∧
      (t.isVendorLayout denseOptions).result = .ok true ∧ t.capacity ≤ 0x200000000 := by
  obtain ⟨t, ht⟩ : ∃ t, (ofRecords clashingRecords 0x200000000 denseOptions).result = .ok t := by
    apply Outcome.exists_ok_of_isOk
    decide +kernel
  exact ⟨t, ht, ofRecords_valid ht⟩

end EmmcLayout.Table
