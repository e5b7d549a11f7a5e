import EmmcLayout.Proofs.Table.Places

/-!
# Tables that a fill leaves as they are

A fill changes nothing of a table exactly when its partitions are `Serial`, that is, follow each
other at the vendor's distances, and end on the device: `fill_eq_self_iff`.  The distances do not
depend on the device, and a fill that succeeds makes them (`serial_of_fill`).  Two results follow.

* `fill_stable`: a filled table is not changed by a second fill with the same gaps, on any device
  that holds it.
* `isVendorLayout_iff`: filling a copy on the smallest device that holds the table, and comparing,
  tells serial tables from others.  That device is computed by saturated sums, so a partition that
  ends behind the greatest word makes the answer negative, whatever the offsets are.
-/

namespace EmmcLayout.Table

variable {capacity gapReserved gapPartition : UInt64} {first second p : Partition}
  {ps qs rest : List Partition} {t filled : Table}

/-! ## Distances -/

/-- The partitions start with the vendor's four and lie where the vendor's boot loader puts
partitions of their sizes. -/
structure Serial (gapReserved gapPartition : UInt64) (ps : List Partition) : Prop where
  starts : StartsLikeVendor ps
  first : ∀ p, ps[0]? = some p → p.offset.toNat = 0
  second : ∀ p q, ps[0]? = some p → ps[1]? = some q →
    q.offset.toNat = p.size.toNat + gapReserved.toNat
  later : ∀ i p q, ps[i + 1]? = some p → ps[i + 2]? = some q →
    q.offset.toNat = p.offset.toNat + p.size.toNat + gapPartition.toNat

theorem isChain_iff_getElem? {R : Partition → Partition → Prop} :
    ps.IsChain R ↔ ∀ i p q, ps[i]? = some p → ps[i + 1]? = some q → R p q := by
  rw [List.isChain_iff_getElem]
  constructor
  · intro h i p q hp hq
    obtain ⟨hi, rfl⟩ := List.getElem?_eq_some_iff.mp hp
    obtain ⟨hi', rfl⟩ := List.getElem?_eq_some_iff.mp hq
    exact h i hi'
  · intro h i hi
    exact h i _ _ (List.getElem?_eq_getElem _) (List.getElem?_eq_getElem hi)

/-- The same, neighbour by neighbour. -/
theorem serial_iff :
    Serial gapReserved gapPartition (first :: second :: rest) ↔
      StartsLikeVendor (first :: second :: rest) ∧ first = { first with offset := 0 } ∧
        second.offset.toNat = first.size.toNat + gapReserved.toNat ∧
        (second :: rest).IsChain (Spaced gapPartition) := by
  have hzero : first = { first with offset := 0 } ↔ first.offset.toNat = 0 := by
    constructor
    · intro h
      rw [h]
      rfl
    · intro h
      rw [← show first.offset = 0 from UInt64.toNat_inj.mp h]
  rw [hzero, isChain_iff_getElem?]
  constructor
  · intro h
    exact ⟨h.starts, h.first first rfl, h.second first second rfl rfl,
      fun i p q hp hq => h.later i p q (by simpa using hp) (by simpa using hq)⟩
  · rintro ⟨hstarts, hfirst, hsecond, hlater⟩
    refine ⟨hstarts, ?_, ?_, fun i p q hp hq => hlater i p q (by simpa using hp) (by simpa using hq)⟩
    · intro p hp
      obtain rfl := Option.some_inj.mp hp
      exact hfirst
    · intro p q hp hq
      obtain rfl := Option.some_inj.mp hp
      obtain rfl := Option.some_inj.mp hq
      exact hsecond

/-- Only the names matter for how a table starts. -/
theorem StartsLikeVendor.of_rawNames (h : StartsLikeVendor ps)
    (hraw : qs.map Partition.rawName = ps.map Partition.rawName) : StartsLikeVendor qs := by
  rw [StartsLikeVendor, Partition.map_nameBytes_of_rawNames hraw]
  exact h

/-! ## Fixed points of a fill -/

theorem cut_self_iff : Cut capacity p p ↔ p.stop ≤ capacity.toNat := by
  rw [Partition.stop]
  constructor
  · intro h
    have hfits := h.offset_le
    have hsize := h.size_eq
    omega
  · intro h
    exact ⟨by omega, by omega, rfl⟩

theorem fillPartitions_eq_self_iff (hstarts : StartsLikeVendor ps) :
    fillPartitions capacity gapReserved gapPartition ps = (ps, none) ↔
      Serial gapReserved gapPartition ps ∧ ∀ p ∈ ps, p.stop ≤ capacity.toNat := by
  obtain ⟨first, second, third, rest, rfl⟩ := hstarts.exists_cons
  rw [serial_iff]
  constructor
  · intro h
    have hstop := (fillPartitions_inOrder h).1.stop_le
    obtain ⟨moved, others, hself, -, hoffset, -, hspaced, -⟩ := fillPartitions_eq_ok_iff.mp h
    obtain ⟨hfirst, htail⟩ := List.cons.inj hself
    obtain ⟨rfl, rfl⟩ := List.cons.inj htail
    exact ⟨⟨hstarts, hfirst, hoffset, hspaced⟩, hstop⟩
  · rintro ⟨⟨-, hfirst, hoffset, hspaced⟩, hstop⟩
    have hsecond := hstop second (by simp)
    have hcuts : List.Forall₂ (Cut capacity) (third :: rest) (third :: rest) :=
      List.forall₂_same.mpr fun p hp =>
        cut_self_iff.mpr (hstop p (List.mem_cons_of_mem _ (List.mem_cons_of_mem _ hp)))
    refine fillPartitions_eq_ok_iff.mpr ⟨second, third :: rest, ?_, rfl, hoffset, ?_, hspaced, hcuts⟩
    · rw [← hfirst]
    · exact Nat.le_trans (Nat.le_add_right _ _) hsecond

/-- **What a fill leaves alone**: serial partitions that end on the device. -/
theorem fill_eq_self_iff :
    t.fill capacity gapReserved gapPartition = (t, none) ↔
      Serial gapReserved gapPartition t.partitions ∧
        ∀ p ∈ t.partitions, p.stop ≤ capacity.toNat := by
  rw [fill_eq_ok_iff, hasVendorNames_iff]
  constructor
  · rintro ⟨hstarts, hfill, -⟩
    exact (fillPartitions_eq_self_iff hstarts).mp hfill
  · intro h
    exact ⟨h.1.starts, (fillPartitions_eq_self_iff h.1.starts).mpr h, rfl⟩

/-- A fill that succeeds leaves serial partitions. -/
theorem serial_of_fill (h : t.fill capacity gapReserved gapPartition = (filled, none)) :
    Serial gapReserved gapPartition filled.partitions := by
  obtain ⟨hnames, hfill, -⟩ := fill_eq_ok_iff.mp h
  have hstarts := hasVendorNames_iff.mp hnames
  obtain ⟨first, second, third, rest, hps⟩ := hstarts.exists_cons
  rw [hps] at hfill hstarts
  have hfilled := hstarts.of_rawNames (fillPartitions_inOrder hfill).2
  obtain ⟨moved, others, hqs, -, hoffset, -, hspaced, -⟩ := fillPartitions_eq_ok_iff.mp hfill
  rw [hqs] at hfilled ⊢
  exact serial_iff.mpr ⟨hfilled, rfl, hoffset, hspaced⟩

/-! ## The smallest device that holds a table -/

theorem stop_le_capacity_iff :
    (∀ p ∈ t.partitions, p.stop ≤ t.capacity.toNat) ↔
      ∀ p ∈ t.partitions, p.stop ≤ UInt64.size - 1 :=
  ⟨fun h p hp => Nat.le_trans (h p hp) (Nat.le_pred_of_lt t.capacity.toNat_lt),
    stop_le_reach (by decide)⟩

theorem stop_le_of_fill (h : t.fill capacity gapReserved gapPartition = (filled, none)) :
    ∀ p ∈ filled.partitions, p.stop ≤ filled.capacity.toNat :=
  stop_le_reach capacity.toNat_lt (laidOut_of_fill h).inOrder.stop_le

theorem capacity_le_of_fill (h : t.fill capacity gapReserved gapPartition = (filled, none)) :
    filled.capacity ≤ capacity :=
  UInt64.le_iff_toNat_le.mpr (reach_le_of_stop_le (laidOut_of_fill h).inOrder.stop_le)

/-- **A filled table stays as it is** when it is filled again on any device that holds it, among
them the device it was filled on. -/
theorem fill_stable (h : t.fill capacity gapReserved gapPartition = (filled, none)) :
    filled.capacity ≤ capacity ∧ ∀ capacity', filled.capacity ≤ capacity' →
      filled.fill capacity' gapReserved gapPartition = (filled, none) := by
  refine ⟨capacity_le_of_fill h, ?_⟩
  intro capacity' hholds
  refine fill_eq_self_iff.mpr ⟨serial_of_fill h, ?_⟩
  intro p hp
  exact Nat.le_trans (stop_le_of_fill h p hp) (UInt64.le_iff_toNat_le.mp hholds)

theorem fill_stable_of_crowdedTable :
    ∃ filled, crowdedTable.fill 0x200000000 0x2000000 0 = (filled, none) ∧
      filled.capacity ≤ 0x300000000 ∧
      filled.fill 0x300000000 0x2000000 0 = (filled, none) := by
  have hnone : (crowdedTable.fill 0x200000000 0x2000000 0).2 = none := by decide +kernel
  have hfill : crowdedTable.fill 0x200000000 0x2000000 0 =
      ((crowdedTable.fill 0x200000000 0x2000000 0).1, none) := Prod.ext rfl hnone
  have hholds : (crowdedTable.fill 0x200000000 0x2000000 0).1.capacity ≤ 0x300000000 := by
    decide +kernel
  exact ⟨_, hfill, hholds, (fill_stable hfill).2 0x300000000 hholds⟩

/-! ## Recognising a filled table -/

theorem isVendorLayout_iff_fill {options : LayoutOptions} :
    (t.isVendorLayout options).result = .ok true ↔
      t.fill t.capacity options.gapReserved options.gapPartition = (t, none) := by
  have hself : t.fill t.capacity options.gapReserved options.gapPartition = (t, none) ↔
      ∃ filled, t.fill t.capacity options.gapReserved options.gapPartition = (filled, none) ∧
        filled.partitions = t.partitions := by
    constructor
    · exact fun h => ⟨t, h, rfl⟩
    · rintro ⟨filled, h, hsame⟩
      -- a fill keeps the header, too
      obtain ⟨-, -, hheader⟩ := fill_eq_ok_iff.mp h
      cases filled
      cases t
      simp only at hsame hheader
      rw [h, hsame, hheader]
  rw [hself]
  simp only [← filled_eq_ok_iff, isVendorLayout]
  cases (t.filled t.capacity options.gapReserved options.gapPartition).result with
  | error e => simp
  | ok filled => simp

/-- **Recognising vendor layouts.**  Whatever the offsets and sizes of a table are, the answer is
positive exactly for serial partitions none of which ends behind the greatest word. -/
theorem isVendorLayout_iff (t : Table) (options : LayoutOptions) :
    (t.isVendorLayout options).result = .ok true ↔
      Serial options.gapReserved options.gapPartition t.partitions ∧
        ∀ p ∈ t.partitions, p.stop ≤ UInt64.size - 1 := by
  rw [isVendorLayout_iff_fill, fill_eq_self_iff, stop_le_capacity_iff]

end EmmcLayout.Table
