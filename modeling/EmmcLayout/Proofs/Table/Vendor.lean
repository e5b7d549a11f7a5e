import EmmcLayout.Proofs.Partition
import EmmcLayout.Table.Vendor

/-!
# Vendor layouts are in order

A fill that succeeds computes, over the numbers, what it says: every partition behind the first one
lies a gap behind its predecessor, and from the third one on it is cut to end with the device.
`vendorLayout_inOrder` draws the conclusion for the vendor's own table: its four partitions follow
each other without overlap and all of them end on the device.
-/

namespace EmmcLayout

/-- The partitions follow each other without overlap and end at or below `limit`. -/
structure Partition.InOrder (limit : Nat) (ps : List Partition) : Prop where
  pairwise : ps.Pairwise Partition.Before
  stop_le : ∀ p ∈ ps, p.stop ≤ limit

namespace Table

/-- What became of a partition that was laid out: it lies behind `base + size + gap`, and a clamped
one ends with the device at the latest.  Nothing else of it changed. -/
theorem fillOne_ok {capacity base size gap : UInt64} {clamped : Bool} {p q : Partition}
    (h : fillOne capacity clamped base size gap p = (q, none)) :
    q.offset.toNat = base.toNat + size.toNat + gap.toNat ∧
      q.offset.toNat ≤ capacity.toNat ∧
      q.size.toNat =
        (if clamped then min p.size.toNat (capacity.toNat - q.offset.toNat) else p.size.toNat) ∧
      q = { p with offset := q.offset, size := q.size } := by
  unfold fillOne at h
  split at h
  · simp at h
  · rename_i offset hoffset
    obtain ⟨front, hfront, hadd⟩ := Option.bind_eq_some_iff.mp hoffset
    have hfront' := Word.add?_eq_some_iff.mp hfront
    have hoff : offset.toNat = base.toNat + size.toNat + gap.toNat := by
      have hsum := Word.add?_eq_some_iff.mp hadd
      omega
    simp only at h
    split at h
    · simp at h
    · rename_i hfits
      have hfits' : offset.toNat ≤ capacity.toNat := by
        simpa [UInt64.lt_iff_toNat_lt] using hfits
      split at h
      · rename_i hclamp
        split at h
        · rename_i room hroom
          obtain ⟨rfl, -⟩ := Prod.mk.inj h
          have hroom' := Word.sub?_eq_some_iff.mp hroom
          refine ⟨hoff, hfits', ?_, rfl⟩
          rw [if_pos hclamp.1]
          show room.toNat = min p.size.toNat (capacity.toNat - offset.toNat)
          -- a partition is cut only when it fills the device or ends behind it
          have hge : room.toNat ≤ p.size.toNat := by
            obtain ⟨-, hfull | hpast⟩ := hclamp
            · rw [hfull]
              exact Nat.le_of_lt_succ room.toNat_lt
            · cases hstop : Partition.stop? { p with offset } with
              | none =>
                  have hover : ¬ offset.toNat + p.size.toNat < UInt64.size := by
                    intro hlt
                    simp [Partition.stop?, Word.add?, hlt] at hstop
                  have hcap : capacity.toNat < UInt64.size := capacity.toNat_lt
                  omega
              | some stop =>
                  have hstop' := Partition.stop?_eq_some_iff.mp hstop
                  simp only [Partition.stop] at hstop'
                  have hlt : capacity.toNat < stop.toNat := by
                    simpa [hstop, UInt64.lt_iff_toNat_lt] using hpast
                  omega
          omega
        · simp at h
      · rename_i hclamp
        obtain ⟨rfl, -⟩ := Prod.mk.inj h
        refine ⟨hoff, hfits', ?_, rfl⟩
        by_cases hc : clamped = true
        · rw [if_pos hc]
          have hnot : ¬ ((Partition.stop? { p with offset }).all (capacity < ·) = true) :=
            fun hall => hclamp ⟨hc, Or.inr hall⟩
          cases hstop : Partition.stop? { p with offset } with
          | none => simp [hstop] at hnot
          | some stop =>
              have hstop' := Partition.stop?_eq_some_iff.mp hstop
              simp only [Partition.stop] at hstop'
              have hle : stop.toNat ≤ capacity.toNat := by
                simpa [hstop, UInt64.lt_iff_toNat_lt] using hnot
              show p.size.toNat = min p.size.toNat (capacity.toNat - offset.toNat)
              omega
        · rw [if_neg hc]

theorem fillBehind_cons_ok {capacity gap : UInt64} {last p : Partition}
    {rest filled : List Partition}
    (h : fillBehind capacity gap last (p :: rest) = (filled, none)) :
    ∃ moved others, fillOne capacity true last.offset last.size gap p = (moved, none) ∧
      fillBehind capacity gap moved rest = (others, none) ∧ filled = moved :: others := by
  unfold fillBehind at h
  split at h
  · simp at h
  · rename_i moved hmoved
    obtain ⟨hfilled, hnone⟩ := Prod.mk.inj h
    exact ⟨moved, _, hmoved, Prod.ext rfl hnone, hfilled.symm⟩

theorem fillPartitions_cons_cons_ok {capacity gapReserved gapPartition : UInt64}
    {first second : Partition} {rest filled : List Partition}
    (h : fillPartitions capacity gapReserved gapPartition (first :: second :: rest) =
      (filled, none)) :
    ∃ moved others, fillOne capacity false 0 first.size gapReserved second = (moved, none) ∧
      fillBehind capacity gapPartition moved rest = (others, none) ∧
      filled = { first with offset := 0 } :: moved :: others := by
  simp only [fillPartitions] at h
  split at h
  · simp at h
  · rename_i moved hmoved
    obtain ⟨hfilled, hnone⟩ := Prod.mk.inj h
    exact ⟨moved, _, hmoved, Prod.ext rfl hnone, hfilled.symm⟩

theorem pairwise_before_cons {a b : Partition} {ps : List Partition} (h : a.Before b)
    (hps : (b :: ps).Pairwise Partition.Before) :
    (a :: b :: ps).Pairwise Partition.Before := by
  refine List.Pairwise.cons (List.forall_mem_cons.mpr ⟨h, ?_⟩) hps
  intro q hq
  have hbq := (List.pairwise_cons.mp hps).1 q hq
  simp only [Partition.Before, Partition.stop] at h hbq ⊢
  omega

/-- The partitions behind `last` follow it and each other, and end on the device. -/
theorem fillBehind_inOrder {capacity gap : UInt64} {last : Partition} {rest filled : List Partition}
    (h : fillBehind capacity gap last rest = (filled, none)) :
    (last :: filled).Pairwise Partition.Before ∧
      (∀ q ∈ filled, q.stop ≤ capacity.toNat) ∧
      filled.map Partition.rawName = rest.map Partition.rawName := by
  induction rest generalizing last filled with
  | nil =>
      obtain ⟨rfl, -⟩ := Prod.mk.inj h
      exact ⟨List.pairwise_singleton _ _, by simp, rfl⟩
  | cons p rest ih =>
      obtain ⟨moved, others, hmoved, hothers, rfl⟩ := fillBehind_cons_ok h
      obtain ⟨hoffset, hfits, hsize, hframe⟩ := fillOne_ok hmoved
      obtain ⟨hpairwise, hstop, hnames⟩ := ih hothers
      rw [if_pos rfl] at hsize
      have hmovedStop : moved.stop ≤ capacity.toNat := by
        simp only [Partition.stop]
        omega
      have hlast : last.Before moved := by
        simp only [Partition.Before, Partition.stop]
        omega
      refine ⟨pairwise_before_cons hlast hpairwise, ?_, ?_⟩
      · exact List.forall_mem_cons.mpr ⟨hmovedStop, hstop⟩
      · rw [List.map_cons, List.map_cons, hnames, hframe]

/-- A filled table of three partitions or more is in order. -/
theorem fillPartitions_inOrder {capacity gapReserved gapPartition : UInt64}
    {first second third : Partition} {rest filled : List Partition}
    (h : fillPartitions capacity gapReserved gapPartition (first :: second :: third :: rest) =
      (filled, none)) :
    Partition.InOrder capacity.toNat filled ∧
      filled.map Partition.rawName =
        (first :: second :: third :: rest).map Partition.rawName := by
  obtain ⟨moved, others, hmoved, hothers, rfl⟩ := fillPartitions_cons_cons_ok h
  obtain ⟨hoffset, hfits, hsize, hframe⟩ := fillOne_ok hmoved
  obtain ⟨hpairwise, hstop, hnames⟩ := fillBehind_inOrder hothers
  have hzero : (0 : UInt64).toNat = 0 := rfl
  have hfirst : ({ first with offset := 0 } : Partition).Before moved := by
    simp only [Partition.Before, Partition.stop]
    omega
  -- the second partition is not cut, but the third one lies behind it
  have hmovedStop : moved.stop ≤ capacity.toNat := by
    cases others with
    | nil => simp at hnames
    | cons q others =>
        have hmid := (List.pairwise_cons.mp hpairwise).1 q List.mem_cons_self
        have hq := hstop q List.mem_cons_self
        simp only [Partition.Before, Partition.stop] at hmid hq ⊢
        omega
  have hfirstStop : ({ first with offset := 0 } : Partition).stop ≤ capacity.toNat := by
    simp only [Partition.Before, Partition.stop] at hfirst ⊢
    omega
  refine ⟨⟨pairwise_before_cons hfirst hpairwise, ?_⟩, ?_⟩
  · exact List.forall_mem_cons.mpr ⟨hfirstStop, List.forall_mem_cons.mpr ⟨hmovedStop, hstop⟩⟩
  · simp only [List.map_cons] at hnames ⊢
    rw [hnames, hframe]

theorem filled_eq_ok_iff {t filled : Table} {capacity gapReserved gapPartition : UInt64} :
    (t.filled capacity gapReserved gapPartition).result = .ok filled ↔
      t.fill capacity gapReserved gapPartition = (filled, none) := by
  unfold Table.filled
  split
  · rename_i e h
    simp [h]
  · rename_i table h
    rw [Outcome.result_bind_eq_ok_iff]
    simp [h]

theorem name_namedSlot {name : String} (h : Name.check name = .ok ()) (size : UInt64) :
    (namedSlot name size).name = name := by
  rw [Partition.name, Partition.nameBytes, namedSlot, ByteField.untilNul_ofBytes
    (Name.zero_notMem_of_check h) (Name.check_eq_ok_iff.mp h).2.1, Utf8.decodeLossy_encode]

theorem names_vendorDefault : vendorDefault.partitions.map Partition.name = vendorNames := by
  rw [vendorDefault, ofPartitions, List.map_map, vendorNames]
  refine List.map_congr_left ?_
  intro slot hslot
  exact name_namedSlot
    ((by decide : ∀ slot ∈ vendorPartitions, Name.check slot.1 = .ok ()) slot hslot) slot.2

theorem fillPartitions_of_vendorLayout {capacity : UInt64} {options : LayoutOptions} {base : Table}
    (h : (vendorLayout capacity options).result = .ok base) :
    fillPartitions capacity options.gapReserved options.gapPartition vendorDefault.partitions =
      (base.partitions, none) := by
  unfold vendorLayout at h
  obtain ⟨table, htable, hbase⟩ := Outcome.result_bind_eq_ok_iff.mp h
  obtain rfl : table.updateHeader = base := Except.ok.inj hbase
  have hfill := filled_eq_ok_iff.mp htable
  rw [fill, if_pos (by decide)] at hfill
  generalize fillPartitions capacity options.gapReserved options.gapPartition
    vendorDefault.partitions = filled at hfill ⊢
  obtain ⟨partitions, e⟩ := filled
  obtain ⟨rfl, rfl⟩ := Prod.mk.inj hfill
  rfl

theorem rawNames_vendorLayout {capacity : UInt64} {options : LayoutOptions} {base : Table}
    (h : (vendorLayout capacity options).result = .ok base) :
    base.partitions.map Partition.rawName = vendorDefault.partitions.map Partition.rawName :=
  (fillPartitions_inOrder (fillPartitions_of_vendorLayout h)).2

/-- The vendor's table on a device: the four partitions, in order and on the device. -/
theorem vendorLayout_inOrder {capacity : UInt64} {options : LayoutOptions} {base : Table}
    (h : (vendorLayout capacity options).result = .ok base) :
    Partition.InOrder capacity.toNat base.partitions ∧
      base.partitions.map Partition.name = vendorNames := by
  have hnames : base.partitions.map Partition.name =
      vendorDefault.partitions.map Partition.name := by
    have hmap := congrArg (List.map Utf8.decodeLossy)
      (Partition.map_nameBytes_of_rawNames (rawNames_vendorLayout h))
    rw [List.map_map, List.map_map] at hmap
    exact hmap
  exact ⟨(fillPartitions_inOrder (fillPartitions_of_vendorLayout h)).1,
    hnames.trans names_vendorDefault⟩

end Table

end EmmcLayout
