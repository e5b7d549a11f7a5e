import EmmcLayout.Proofs.Table.Fill

/-!
# Where a fill puts the partitions

`place` says over the integers where each partition of a table belongs and how much of it there is:
the first one at 0, the second one a gap behind it, every later one a gap behind its predecessor and
cut where the device ends.  No sum overflows there and no size stands for anything else, so a place
may lie behind the device, and may even be of negative size.

`fill_places` says that a fill is this computation.  It succeeds exactly on a table that starts with
the vendor's partitions and whose places all begin on the device, and it moves each partition to its
place.  The size that stands for the rest of the device needs no mention, for it is the greatest one
and is cut like any other.
-/

namespace EmmcLayout.Table

variable {capacity gapReserved gapPartition : UInt64} {first second last p q : Partition}
  {ps qs rest filled : List Partition} {t : Table} {i j : Nat}

/-! ## The vendor's partitions -/

/-- The partitions start with the vendor's four. -/
def StartsLikeVendor (ps : List Partition) : Prop :=
  ["bootloader", "reserved", "cache", "env"].map Utf8.encode <+: ps.map Partition.nameBytes

theorem all_isNamed_iff (names : List String) :
    (names.length ≤ ps.length ∧ (ps.zip names).all (fun (p, name) => p.isNamed name) = true) ↔
      names.map Utf8.encode <+: ps.map Partition.nameBytes := by
  induction names generalizing ps with
  | nil => simp
  | cons name names ih =>
      cases ps with
      | nil => simp
      | cons p ps =>
          simp only [List.length_cons, Nat.add_le_add_iff_right, List.zip_cons_cons, List.all_cons,
            Bool.and_eq_true, Partition.isNamed_iff, List.map_cons, List.cons_prefix_cons, ← ih]
          tauto

theorem hasVendorNames_iff : t.hasVendorNames = true ↔ StartsLikeVendor t.partitions := by
  rw [hasVendorNames, Bool.and_eq_true, decide_eq_true_iff]
  exact all_isNamed_iff vendorNames

theorem StartsLikeVendor.four_le (h : StartsLikeVendor ps) : 4 ≤ ps.length := by
  simpa using List.IsPrefix.length_le h

theorem StartsLikeVendor.exists_cons (h : StartsLikeVendor ps) :
    ∃ first second third rest, ps = first :: second :: third :: rest := by
  have hlength := h.four_le
  match ps, hlength with
  | first :: second :: third :: rest, _ => exact ⟨first, second, third, rest, rfl⟩

/-! ## Places -/

/-- An offset and a size, over the integers. -/
structure Place where
  offset : Int
  size : Int

/-- The partition lies at the place, and is of its size. -/
structure Place.Holds (x : Place) (p : Partition) : Prop where
  offset_eq : (p.offset.toNat : Int) = x.offset
  size_eq : (p.size.toNat : Int) = x.size

/-- The size that the partition at an index asks for. -/
def askedSize (ps : List Partition) (i : Nat) : Int :=
  ps[i]?.elim 0 fun p => p.size.toNat

theorem askedSize_eq (h : ps[i]? = some p) : askedSize ps i = p.size.toNat := by
  rw [askedSize, h]
  rfl

/-- The place of the partition at an index.  Only those behind the second one are cut. -/
def place (capacity gapReserved gapPartition : UInt64) (ps : List Partition) : Nat → Place
  | 0 => ⟨0, askedSize ps 0⟩
  | 1 => ⟨askedSize ps 0 + gapReserved.toNat, askedSize ps 1⟩
  | i + 2 =>
    let before := place capacity gapReserved gapPartition ps (i + 1)
    let offset := before.offset + before.size + gapPartition.toNat
    ⟨offset, min (askedSize ps (i + 2)) (capacity.toNat - offset)⟩

/-! ## One partition -/

/-- What is laid out behind a partition at its place is at its place, too. -/
theorem Place.Holds.next
    (hlast : (place capacity gapReserved gapPartition ps (i + 1)).Holds last)
    (hp : ps[i + 2]? = some p) (hspaced : Spaced gapPartition last q) (hcut : Cut capacity p q) :
    (place capacity gapReserved gapPartition ps (i + 2)).Holds q := by
  obtain ⟨hoffset, hsize⟩ := hlast
  have hfits := hcut.offset_le
  have hcutSize := hcut.size_eq
  rw [Spaced, Partition.stop] at hspaced
  constructor
  · simp only [place]
    omega
  · simp only [place, askedSize_eq hp]
    omega

/-- The second partition, which is not cut. -/
theorem holds_second (hfirst : ps[0]? = some first) (hsecond : ps[1]? = some second)
    (h : fillOne capacity false 0 first.size gapReserved second = (q, none)) :
    (place capacity gapReserved gapPartition ps 1).Holds q := by
  have hzero : (0 : UInt64).toNat = 0 := rfl
  obtain ⟨hoffset, -, hsize, -⟩ := fillOne_eq_ok_iff.mp h
  rw [if_neg Bool.false_ne_true] at hsize
  constructor
  · simp only [place, askedSize_eq hfirst]
    omega
  · simp only [place, askedSize_eq hsecond]
    omega

/-! ## The partitions behind the second one -/

theorem getElem?_of_drop_eq_cons {n : Nat} (h : ps.drop n = p :: rest) :
    ps[n]? = some p ∧ ps.drop (n + 1) = rest := by
  constructor
  · have hhead : (ps.drop n)[0]? = ps[n + 0]? := List.getElem?_drop
    rwa [h, Nat.add_zero, List.getElem?_cons_zero, eq_comm] at hhead
  · rw [← List.tail_drop, h, List.tail_cons]

/-- What follows a partition at its place is laid out at its places. -/
theorem holds_of_fillBehind
    (hlast : (place capacity gapReserved gapPartition ps (i + 1)).Holds last)
    (hrest : ps.drop (i + 2) = rest)
    (h : fillBehind capacity gapPartition last rest = (filled, none))
    (hq : filled[j]? = some q) :
    (place capacity gapReserved gapPartition ps (i + 2 + j)).Holds q := by
  -- on what is still to be laid out: the one laid out last is always at its place
  induction rest generalizing last filled i j with
  | nil =>
      obtain ⟨rfl, -⟩ := Prod.mk.inj h
      simp at hq
  | cons p rest ih =>
      obtain ⟨moved, others, hmoved, hothers, rfl⟩ := fillBehind_cons_ok h
      obtain ⟨hspaced, hcut⟩ := fillOne_clamped_eq_ok_iff.mp hmoved
      obtain ⟨hp, hrest⟩ := getElem?_of_drop_eq_cons hrest
      have hholds := hlast.next hp hspaced hcut
      cases j with
      | zero =>
          obtain rfl : moved = q := by simpa using hq
          exact hholds
      | succ j =>
          rw [show i + 2 + (j + 1) = i + 1 + 2 + j by omega]
          exact ih hholds hrest hothers hq

/-- They are laid out if all their places begin on the device. -/
theorem exists_fillBehind
    (hlast : (place capacity gapReserved gapPartition ps (i + 1)).Holds last)
    (hrest : ps.drop (i + 2) = rest)
    (hfits : ∀ k < ps.length,
      (place capacity gapReserved gapPartition ps k).offset ≤ capacity.toNat) :
    ∃ filled, fillBehind capacity gapPartition last rest = (filled, none) := by
  induction rest generalizing last i with
  | nil => exact ⟨[], rfl⟩
  | cons p rest ih =>
      obtain ⟨hp, hrest⟩ := getElem?_of_drop_eq_cons hrest
      have hroom := hfits (i + 2) (List.getElem?_eq_some_iff.mp hp).1
      have hoffset := hlast.offset_eq
      have hsize := hlast.size_eq
      -- no sum overflows where the place begins on the device
      simp only [place] at hroom
      obtain ⟨moved, hmoved⟩ := exists_fillOne true p
        (show last.offset.toNat + last.size.toNat + gapPartition.toNat ≤ capacity.toNat by omega)
      obtain ⟨hspaced, hcut⟩ := fillOne_clamped_eq_ok_iff.mp hmoved
      obtain ⟨others, hothers⟩ := ih (hlast.next hp hspaced hcut) hrest
      exact ⟨moved :: others, fillBehind_cons_eq_ok_iff.mpr ⟨moved, others, hmoved, hothers, rfl⟩⟩

/-! ## All partitions -/

/-- The second partition is the first one, at most moved and cut. -/
def Relocated (p q : Partition) : Prop :=
  q = { p with offset := q.offset, size := q.size }

theorem relocated_of_fillPartitions
    (h : fillPartitions capacity gapReserved gapPartition (first :: second :: rest) = (qs, none)) :
    List.Forall₂ Relocated (first :: second :: rest) qs := by
  obtain ⟨moved, others, rfl, hmoved, -, -, -, hcuts⟩ := fillPartitions_eq_ok_iff.mp h
  have hsecond : Relocated second moved := by
    rw [Relocated, hmoved]
  exact .cons rfl (.cons hsecond (hcuts.imp fun _ _ hcut => hcut.frame))

theorem holds_of_fillPartitions
    (h : fillPartitions capacity gapReserved gapPartition (first :: second :: rest) = (qs, none))
    (hq : qs[i]? = some q) :
    (place capacity gapReserved gapPartition (first :: second :: rest) i).Holds q := by
  obtain ⟨moved, others, hmoved, hothers, rfl⟩ := fillPartitions_cons_cons_ok h
  have hsecond : (place capacity gapReserved gapPartition (first :: second :: rest) 1).Holds moved :=
    holds_second rfl rfl hmoved
  match i with
  | 0 =>
      obtain rfl : { first with offset := 0 } = q := by simpa using hq
      exact ⟨rfl, rfl⟩
  | 1 =>
      obtain rfl : moved = q := by simpa using hq
      exact hsecond
  | i + 2 =>
      rw [Nat.add_comm i 2, ← Nat.zero_add 2]
      exact holds_of_fillBehind hsecond rfl hothers (by simpa using hq)

theorem exists_fillPartitions
    (hfits : ∀ k < (first :: second :: rest).length,
      (place capacity gapReserved gapPartition (first :: second :: rest) k).offset ≤
        capacity.toNat) :
    ∃ qs, fillPartitions capacity gapReserved gapPartition (first :: second :: rest) =
      (qs, none) := by
  have hzero : (0 : UInt64).toNat = 0 := rfl
  have hroom := hfits 1 (by simp)
  simp only [place, askedSize, List.getElem?_cons_zero, Option.elim_some] at hroom
  obtain ⟨moved, hmoved⟩ := exists_fillOne false second
    (show (0 : UInt64).toNat + first.size.toNat + gapReserved.toNat ≤ capacity.toNat by omega)
  have hrest : (first :: second :: rest).drop (0 + 2) = rest := rfl
  obtain ⟨others, hothers⟩ := exists_fillBehind (holds_second rfl rfl hmoved) hrest hfits
  exact ⟨{ first with offset := 0 } :: moved :: others, by simp [fillPartitions, hmoved, hothers]⟩

/-- The second table is the first one with its partitions at their places, where they fit on the
device and do not overlap. -/
structure LaidOut (capacity gapReserved gapPartition : UInt64) (t filled : Table) : Prop where
  header_eq : filled.header = t.header
  relocated : List.Forall₂ Relocated t.partitions filled.partitions
  holds : ∀ i q, filled.partitions[i]? = some q →
    (place capacity gapReserved gapPartition t.partitions i).Holds q
  inOrder : Partition.InOrder capacity.toNat filled.partitions

theorem laidOut_of_fill {filled : Table}
    (h : t.fill capacity gapReserved gapPartition = (filled, none)) :
    LaidOut capacity gapReserved gapPartition t filled := by
  obtain ⟨hnames, hfill, hheader⟩ := fill_eq_ok_iff.mp h
  obtain ⟨first, second, third, rest, hps⟩ := (hasVendorNames_iff.mp hnames).exists_cons
  rw [hps] at hfill
  refine ⟨hheader, ?_, ?_, (fillPartitions_inOrder hfill).1⟩
  · rw [hps]
    exact relocated_of_fillPartitions hfill
  · intro i q hq
    rw [hps]
    exact holds_of_fillPartitions hfill hq

/-- A fill fails only for the names, or for a place behind the device. -/
theorem exists_fill_iff :
    (∃ filled, t.fill capacity gapReserved gapPartition = (filled, none)) ↔
      StartsLikeVendor t.partitions ∧ ∀ i < t.partitions.length,
        (place capacity gapReserved gapPartition t.partitions i).offset ≤ capacity.toNat := by
  constructor
  · rintro ⟨filled, h⟩
    have hlaid := laidOut_of_fill h
    refine ⟨hasVendorNames_iff.mp (fill_eq_ok_iff.mp h).1, ?_⟩
    intro i hi
    have hi' : i < filled.partitions.length := hlaid.relocated.length_eq ▸ hi
    have hholds := hlaid.holds i _ (List.getElem?_eq_getElem hi')
    have hstop := hlaid.inOrder.stop_le _ (List.getElem_mem hi')
    have hoffset := hholds.offset_eq
    rw [Partition.stop] at hstop
    omega
  · rintro ⟨hstarts, hfits⟩
    obtain ⟨first, second, third, rest, hps⟩ := hstarts.exists_cons
    rw [hps] at hfits
    obtain ⟨qs, hqs⟩ := exists_fillPartitions hfits
    exact ⟨⟨t.header, qs⟩, fill_eq_ok_iff.mpr ⟨hasVendorNames_iff.mpr hstarts, hps ▸ hqs, rfl⟩⟩

/-- **A fill is the computation of the places.**  It succeeds exactly when the table starts with the
vendor's partitions and every place begins on the device, and then the partitions are at their
places. -/
theorem fill_places (t : Table) (capacity gapReserved gapPartition : UInt64) :
    ((t.fill capacity gapReserved gapPartition).2 = none ↔
      StartsLikeVendor t.partitions ∧ ∀ i < t.partitions.length,
        (place capacity gapReserved gapPartition t.partitions i).offset ≤ capacity.toNat) ∧
      ((t.fill capacity gapReserved gapPartition).2 = none →
        LaidOut capacity gapReserved gapPartition t
          (t.fill capacity gapReserved gapPartition).1) := by
  constructor
  · rw [← exists_fill_iff]
    constructor
    · exact fun h => ⟨_, Prod.ext rfl h⟩
    · rintro ⟨filled, h⟩
      rw [h]
  · exact fun h => laidOut_of_fill (Prod.ext rfl h)

/-- The vendor's own partitions on 8 GiB, with the vendor's gaps. -/
example :
    (List.range 4).map (fun i =>
      (place 0x200000000 0x2000000 0x800000 vendorDefault.partitions i).offset) =
        [0, 0x2400000, 0x6C00000, 0x7400000] := by
  decide +kernel

/-- Behind a partition that takes the rest of the device follows another one, for which nothing is
left. -/
def crowdedTable : Table :=
  ofPartitions (vendorDefault.partitions ++
    [namedSlot "system" 0x40000000, namedSlot "data" autofillSize, namedSlot "misc" 0x800000])

theorem fill_places_of_crowdedTable :
    (crowdedTable.fill 0x200000000 0x2000000 0).2 = none ∧
      LaidOut 0x200000000 0x2000000 0 crowdedTable (crowdedTable.fill 0x200000000 0x2000000 0).1 := by
  have hfill : (crowdedTable.fill 0x200000000 0x2000000 0).2 = none := by decide +kernel
  exact ⟨hfill, (fill_places crowdedTable 0x200000000 0x2000000 0).2 hfill⟩

end EmmcLayout.Table
