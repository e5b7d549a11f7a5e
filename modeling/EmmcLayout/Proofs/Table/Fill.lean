import EmmcLayout.Proofs.Table.Vendor

/-!
# What a fill computes

A fill succeeds with a list of partitions exactly when that list says, over the numbers, what a fill
is for: `fillPartitions_eq_ok_iff`.  The distances between the partitions (`Spaced`) do not depend
on the device; the device only cuts each partition by itself (`Cut`).  So what a fill left is
compared with what another one computes partition by partition, without following either of them.
-/

namespace EmmcLayout.Table

variable {capacity capacity' base size gap gapReserved : UInt64} {clamped : Bool}
  {last first second p q : Partition} {ps qs rest : List Partition}

/-- The second partition lies a gap behind the end of the first one. -/
def Spaced (gap : UInt64) (a b : Partition) : Prop :=
  b.offset.toNat = a.stop + gap.toNat

/-- The second partition is the first one at a place on the device, cut to end with the device. -/
structure Cut (capacity : UInt64) (p q : Partition) : Prop where
  offset_le : q.offset.toNat ≤ capacity.toNat
  size_eq : q.size.toNat = min p.size.toNat (capacity.toNat - q.offset.toNat)
  frame : q = { p with offset := q.offset, size := q.size }

theorem Cut.rawName_eq (h : Cut capacity p q) : q.rawName = p.rawName := by
  rw [h.frame]

/-- A device may be made smaller as long as the partition still fits. -/
theorem Cut.of_le (h : Cut capacity p q) (hle : capacity'.toNat ≤ capacity.toNat)
    (hstop : q.stop ≤ capacity'.toNat) : Cut capacity' p q := by
  have hoffset := h.offset_le
  have hsize := h.size_eq
  rw [Partition.stop] at hstop
  exact ⟨by omega, by omega, h.frame⟩

/-! ## One partition -/

/-- A partition whose place is on the device is laid out. -/
theorem exists_fillOne (clamped : Bool) (p : Partition)
    (h : base.toNat + size.toNat + gap.toNat ≤ capacity.toNat) :
    ∃ q, fillOne capacity clamped base size gap p = (q, none) := by
  have hcapacity : capacity.toNat < UInt64.size := capacity.toNat_lt
  have hfront : (base + size).toNat = base.toNat + size.toNat :=
    Word.toNat_add_of_lt (by omega)
  have hoffset : (base + size + gap).toNat = base.toNat + size.toNat + gap.toNat := by
    rw [Word.toNat_add_of_lt (by omega), hfront]
  have hadd : (Word.add? base size).bind (Word.add? · gap) = some (base + size + gap) := by
    rw [Word.add?_eq_some_iff.mpr hfront.symm, Option.bind_some, Word.add?_eq_some_iff]
    omega
  have hfits : ¬ capacity < base + size + gap := by
    rw [UInt64.lt_iff_toNat_lt]
    omega
  have hsub : Word.sub? capacity (base + size + gap) =
      some (capacity - (base + size + gap)) := Word.sub?_of_le (by omega)
  unfold fillOne
  simp only [hadd, hfits, hsub, if_false]
  split
  · exact ⟨_, rfl⟩
  · exact ⟨_, rfl⟩

theorem fillOne_eq_ok_iff :
    fillOne capacity clamped base size gap p = (q, none) ↔
      q.offset.toNat = base.toNat + size.toNat + gap.toNat ∧
        q.offset.toNat ≤ capacity.toNat ∧
        q.size.toNat =
          (if clamped then min p.size.toNat (capacity.toNat - q.offset.toNat) else p.size.toNat) ∧
        q = { p with offset := q.offset, size := q.size } := by
  refine ⟨fillOne_ok, ?_⟩
  rintro ⟨hoffset, hfits, hsize, hframe⟩
  obtain ⟨q', hq'⟩ := exists_fillOne clamped p (hoffset ▸ hfits)
  obtain ⟨hoffset', -, hsize', hframe'⟩ := fillOne_ok hq'
  -- the numbers leave no choice
  have hsameOffset : q'.offset = q.offset := UInt64.toNat_inj.mp (hoffset'.trans hoffset.symm)
  rw [hsameOffset] at hsize'
  have hsameSize : q'.size = q.size := UInt64.toNat_inj.mp (hsize'.trans hsize.symm)
  rw [hq', hframe', hsameOffset, hsameSize, ← hframe]

/-! ## Many partitions -/

theorem fillBehind_cons_eq_ok_iff :
    fillBehind capacity gap last (p :: rest) = (qs, none) ↔
      ∃ moved others, fillOne capacity true last.offset last.size gap p = (moved, none) ∧
        fillBehind capacity gap moved rest = (others, none) ∧ qs = moved :: others := by
  refine ⟨fillBehind_cons_ok, ?_⟩
  rintro ⟨moved, others, hmoved, hothers, rfl⟩
  simp [fillBehind, hmoved, hothers]

theorem fillOne_clamped_eq_ok_iff :
    fillOne capacity true last.offset last.size gap p = (q, none) ↔
      Spaced gap last q ∧ Cut capacity p q := by
  rw [fillOne_eq_ok_iff, if_pos rfl]
  constructor
  · rintro ⟨hoffset, hfits, hsize, hframe⟩
    exact ⟨hoffset, hfits, hsize, hframe⟩
  · rintro ⟨hoffset, hfits, hsize, hframe⟩
    exact ⟨hoffset, hfits, hsize, hframe⟩

theorem fillBehind_eq_ok_iff :
    fillBehind capacity gap last ps = (qs, none) ↔
      (last :: qs).IsChain (Spaced gap) ∧ List.Forall₂ (Cut capacity) ps qs := by
  induction ps generalizing last qs with
  | nil =>
      constructor
      · intro h
        obtain ⟨rfl, -⟩ := Prod.mk.inj h
        exact ⟨List.isChain_singleton _, .nil⟩
      · rintro ⟨-, hcuts⟩
        cases hcuts
        rfl
  | cons p ps ih =>
      rw [fillBehind_cons_eq_ok_iff, List.forall₂_cons_left_iff]
      simp only [fillOne_clamped_eq_ok_iff, ih]
      constructor
      · rintro ⟨moved, others, ⟨hspaced, hcut⟩, ⟨hchain, hcuts⟩, rfl⟩
        exact ⟨List.isChain_cons_cons.mpr ⟨hspaced, hchain⟩, moved, others, hcut, hcuts, rfl⟩
      · rintro ⟨hchain, moved, others, hcut, hcuts, rfl⟩
        obtain ⟨hspaced, hchain⟩ := List.isChain_cons_cons.mp hchain
        exact ⟨moved, others, ⟨hspaced, hcut⟩, ⟨hchain, hcuts⟩, rfl⟩

/-- **What a fill computes.**  The first partition lies at 0, the second one a gap behind it, and
all others follow each other at their distances, each of them cut to end with the device. -/
theorem fillPartitions_eq_ok_iff :
    fillPartitions capacity gapReserved gap (first :: second :: rest) = (qs, none) ↔
      ∃ moved others, qs = { first with offset := 0 } :: moved :: others ∧
        moved = { second with offset := moved.offset } ∧
        moved.offset.toNat = first.size.toNat + gapReserved.toNat ∧
        moved.offset.toNat ≤ capacity.toNat ∧
        (moved :: others).IsChain (Spaced gap) ∧ List.Forall₂ (Cut capacity) rest others := by
  have hzero : (0 : UInt64).toNat = 0 := rfl
  constructor
  · intro h
    obtain ⟨moved, others, hmoved, hothers, rfl⟩ := fillPartitions_cons_cons_ok h
    obtain ⟨hoffset, hfits, hsize, hframe⟩ := fillOne_eq_ok_iff.mp hmoved
    obtain ⟨hchain, hcuts⟩ := fillBehind_eq_ok_iff.mp hothers
    have hsame : moved.size = second.size := UInt64.toNat_inj.mp (by simpa using hsize)
    rw [hsame] at hframe
    exact ⟨moved, others, rfl, hframe, by omega, hfits, hchain, hcuts⟩
  · rintro ⟨moved, others, rfl, hframe, hoffset, hfits, hchain, hcuts⟩
    have hsame : moved.size = second.size := by rw [hframe]
    have hmoved : fillOne capacity false 0 first.size gapReserved second = (moved, none) := by
      rw [fillOne_eq_ok_iff, hsame]
      exact ⟨by omega, hfits, by simp, hframe⟩
    have hothers := fillBehind_eq_ok_iff.mpr ⟨hchain, hcuts⟩
    simp [fillPartitions, hmoved, hothers]

/-- A fill asks for the vendor's names, and changes nothing but the partitions. -/
theorem fill_eq_ok_iff {t filled : Table} :
    t.fill capacity gapReserved gap = (filled, none) ↔
      t.hasVendorNames = true ∧
        fillPartitions capacity gapReserved gap t.partitions = (filled.partitions, none) ∧
        filled.header = t.header := by
  unfold fill
  split
  · rename_i hnames
    simp only [hnames, true_and]
    constructor
    · intro h
      obtain ⟨rfl, hnone⟩ := Prod.mk.inj h
      exact ⟨Prod.ext rfl hnone, rfl⟩
    · rintro ⟨h, hheader⟩
      rw [h, ← hheader]
  · rename_i hnames
    simp [hnames]

end EmmcLayout.Table
