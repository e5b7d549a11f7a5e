import EmmcLayout.Layout.Records
import EmmcLayout.Proofs.Table.Fill
import EmmcLayout.Proofs.Table.Snapshot

/-!
# Converting records to a table and back

A table that was made from records is made again from its own records, on the smallest device that
holds it: `ofRecords_toRecords`.

Taking records in keeps the vendor's four partitions in front, of which only the cache changes, and
new partitions behind them (`Described`).  Laying them out gives a `Converted` table.  What its
records say of a partition is its size, or that it is open where the table ends (`Reopens`), and
either way the smaller device cuts it to the size it had.
-/

namespace EmmcLayout

namespace Partition

variable {name : String} {p : Partition}

theorem isNamed_of_name_ne (h : p.name ≠ name) : p.isNamed name = false := by
  rw [Bool.eq_false_iff]
  intro hnamed
  exact h (name_of_nameBytes (isNamed_iff.mp hnamed))

end Partition

namespace Table

open Layout (admissible_vendorDefault notMem_nameBytes)

variable {capacity size limit : UInt64} {mask : UInt32} {options : LayoutOptions} {r : Record}
  {records : List Record} {p q y reserved cache env : Partition}
  {ps qs extra xs : List Partition} {t : Table}

/-- The partitions differ at most in place, size and mask. -/
def Alike (p q : Partition) : Prop :=
  q.rawName = p.rawName ∧ q.padding = p.padding

theorem Alike.trans {x : Partition} (hpq : Alike p q) (hqx : Alike q x) : Alike p x :=
  ⟨hqx.1.trans hpq.1, hqx.2.trans hpq.2⟩

theorem Alike.name_eq (h : Alike p q) : q.name = p.name := by
  rw [Partition.name, Partition.name, Partition.nameBytes, Partition.nameBytes, h.1]

theorem Alike.eq (h : Alike p q) (hsize : q.size = p.size) (hoffset : q.offset = p.offset)
    (hmask : q.mask = p.mask) : q = p := by
  obtain ⟨hraw, hpadding⟩ := h
  cases p
  cases q
  simp only at hraw hsize hoffset hmask hpadding
  rw [hraw, hsize, hoffset, hmask, hpadding]

/-- Being what creating a partition makes of it is a matter of the name field and the padding. -/
theorem Created.of_alike (hp : Created p) (h : Alike p q) : Created q := by
  have hname := h.name_eq
  obtain ⟨hraw, hpadding⟩ := h
  obtain ⟨hcheck, hdata⟩ := Partition.create_eq_ok_iff.mp hp
  have hrawName : p.rawName = ByteField.ofBytes nameFieldLength (Utf8.encode p.name) :=
    congrArg Partition.rawName hdata
  have hzero : p.padding = 0 := congrArg Partition.padding hdata
  rw [Created, hname, Partition.create_eq_ok_iff, ← hrawName, ← hraw]
  refine ⟨hcheck, ?_⟩
  rw [← hzero, ← hpadding]

theorem Cut.alike (h : Cut capacity p q) : Alike p q := by
  rw [h.frame]
  exact ⟨rfl, rfl⟩

theorem map_rawName_of_alike (h : List.Forall₂ Alike ps qs) :
    qs.map Partition.rawName = ps.map Partition.rawName := by
  induction h with
  | nil => rfl
  | cons hpq _ ih => rw [List.map_cons, List.map_cons, hpq.1, ih]

theorem created_of_alike (h : List.Forall₂ Alike ps qs) (hps : ∀ p ∈ ps, Created p) :
    ∀ q ∈ qs, Created q := by
  induction h with
  | nil => exact hps
  | cons hpq _ ih =>
      obtain ⟨hp, hps⟩ := List.forall_mem_cons.mp hps
      exact List.forall_mem_cons.mpr ⟨hp.of_alike hpq, ih hps⟩

theorem alike_modify (index : Nat) (size : UInt64) (mask : UInt32) :
    List.Forall₂ Alike ps (ps.modify index fun p => { p with size, mask }) := by
  induction ps generalizing index with
  | nil => simp
  | cons p ps ih =>
      cases index with
      | zero => exact .cons ⟨rfl, rfl⟩ (List.forall₂_same.mpr fun _ _ => ⟨rfl, rfl⟩)
      | succ index => exact .cons ⟨rfl, rfl⟩ (ih index)

/-! ## Taking records in -/

/-- The cache as a record asks for it. -/
def cacheSlot (size : UInt64) (mask : UInt32) : Partition :=
  { namedSlot "cache" size with mask }

/-- The vendor's partitions with this size and mask of the cache, and others behind them. -/
def vendorSlots (size : UInt64) (mask : UInt32) (extra : List Partition) : List Partition :=
  namedSlot "bootloader" 0x400000 :: namedSlot "reserved" 0x4000000 :: cacheSlot size mask ::
    namedSlot "env" 0x800000 :: extra

theorem vendorSlots_append (size : UInt64) (mask : UInt32) (extra xs : List Partition) :
    vendorSlots size mask (extra ++ xs) = vendorSlots size mask extra ++ xs := rfl

theorem isNamed_cacheSlot (size : UInt64) (mask : UInt32) :
    (cacheSlot size mask).isNamed "cache" = true :=
  (by decide : (namedSlot "cache" 0).isNamed "cache" = true)

/-- What taking records in leaves: names that make a valid table, and behind the vendor's partitions
only such as creating a partition makes. -/
structure Described (size : UInt64) (mask : UInt32) (extra : List Partition) : Prop where
  admissible : Admissible (vendorSlots size mask extra)
  created : ∀ x ∈ extra, Created x

theorem absorb_eq_ok_iff :
    (absorb ps r).result = .ok qs ↔
      match ps.findIdx? (·.isNamed r.name) with
      | some index => qs = ps.modify index fun p => { p with size := r.size, mask := r.mask }
      | none => ps.length < maxPartitions ∧
          ∃ p, Partition.create r.name 0 r.size r.mask = .ok p ∧ qs = ps ++ [p] := by
  unfold absorb
  cases ps.findIdx? (·.isNamed r.name) with
  | some index => simp [eq_comm]
  | none =>
      simp only [Outcome.fail_bind, Outcome.result_guard_eq_ok_iff, Nat.not_le,
        Outcome.result_bind_eq_ok_iff, Outcome.lift_validationExcept,
        Outcome.result_ofExcept_eq_ok_iff, Outcome.mapError_eq_ok_iff]
      simp [eq_comm]

/-- A record under a new name comes behind the others. -/
theorem absorb_new (hnew : ∀ p ∈ ps, p.isNamed r.name = false) (hroom : ps.length < maxPartitions)
    (hp : Partition.create r.name 0 r.size r.mask = .ok p) :
    (absorb ps r).result = .ok (ps ++ [p]) := by
  rw [absorb_eq_ok_iff, List.findIdx?_eq_none_iff.mpr hnew]
  exact ⟨hroom, p, hp, rfl⟩

/-- A record of the cache replaces its size and mask. -/
theorem absorb_cache (hr : r.name = "cache") :
    (absorb (vendorSlots size mask extra) r).result =
      .ok (vendorSlots r.size r.mask extra) := by
  have hindex : (vendorSlots size mask extra).findIdx? (·.isNamed "cache") = some 2 := by
    have hfront : (namedSlot "bootloader" 0x400000).isNamed "cache" = false ∧
        (namedSlot "reserved" 0x4000000).isNamed "cache" = false := by decide
    simp [vendorSlots, List.findIdx?_cons, isNamed_cacheSlot, hfront]
  rw [absorb_eq_ok_iff, hr, hindex]
  rfl

theorem names_vendorSlots (size : UInt64) (mask : UInt32) (extra : List Partition) :
    (vendorSlots size mask extra).map Partition.name =
      vendorNames ++ extra.map Partition.name := by
  rw [← names_vendorDefault]
  rfl

/-- A record with a name of its own is not taken for one of the vendor's. -/
theorem findIdx?_vendorSlots (size : UInt64) (mask : UInt32) (extra : List Partition)
    (hr : r.name ∉ vendorNames) :
    (vendorSlots size mask extra).findIdx? (·.isNamed r.name) =
      (extra.findIdx? (·.isNamed r.name)).map (· + 4) := by
  have hfront : (vendorSlots size mask []).findIdx? (·.isNamed r.name) = none := by
    rw [List.findIdx?_eq_none_iff]
    intro p hp
    refine Partition.isNamed_of_name_ne fun hname => hr ?_
    have hmem := List.mem_map_of_mem (f := Partition.name) hp
    rwa [names_vendorSlots, List.map_nil, List.append_nil, hname] at hmem
  rw [← List.nil_append extra, vendorSlots_append, List.findIdx?_append, hfront, Option.none_or]
  rfl

/-- Only the names and the padding of the partitions behind the vendor's matter. -/
theorem Described.of_alike (hd : Described size mask extra) {size' : UInt64} {mask' : UInt32}
    {extra' : List Partition} (h : List.Forall₂ Alike extra extra') :
    Described size' mask' extra' where
  admissible := by
    refine hd.admissible.of_rawNames ?_
    simp only [vendorSlots, List.map_cons, map_rawName_of_alike h]
    rfl
  created := created_of_alike h hd.created

/-- Whatever its name is, taking a record in keeps what a valid table asks of its partitions. -/
theorem admissible_of_absorb (hps : Admissible ps) (h : (absorb ps r).result = .ok qs) :
    Admissible qs := by
  rw [absorb_eq_ok_iff] at h
  cases hindex : ps.findIdx? (·.isNamed r.name) with
  | some index =>
      rw [hindex] at h
      rw [show qs = _ from h]
      exact hps.of_rawNames (map_rawName_of_alike (alike_modify index r.size r.mask))
  | none =>
      rw [hindex] at h
      obtain ⟨hroom, p, hp, rfl⟩ := h
      refine hps.append hroom (Partition.wellNamed_of_create hp) ?_
      rw [Partition.nameBytes_of_create hp]
      exact notMem_nameBytes fun x hx =>
        Bool.eq_false_iff.mp (List.findIdx?_eq_none_iff.mp hindex x hx)

/-- Taking a record in keeps the vendor's partitions, apart from the cache. -/
theorem described_of_absorb (hd : Described size mask extra) (hr : r.name ∉ tableOnlyNames)
    (h : (absorb (vendorSlots size mask extra) r).result = .ok ps) :
    ∃ size' mask' extra', ps = vendorSlots size' mask' extra' ∧
      Described size' mask' extra' := by
  by_cases hcache : r.name = "cache"
  · rw [absorb_cache hcache] at h
    exact ⟨r.size, r.mask, extra, (Except.ok.inj h).symm,
      hd.of_alike (List.forall₂_same.mpr fun _ _ => ⟨rfl, rfl⟩)⟩
  have hown : r.name ∉ vendorNames := by
    simp only [tableOnlyNames, vendorNames, vendorPartitions, List.map_cons, List.map_nil,
      List.mem_cons, List.not_mem_nil, or_false] at hr ⊢
    tauto
  have hadmissible := admissible_of_absorb hd.admissible h
  rw [absorb_eq_ok_iff, findIdx?_vendorSlots size mask extra hown] at h
  cases hindex : extra.findIdx? (·.isNamed r.name) with
  | some index =>
      rw [hindex] at h
      exact ⟨size, mask, _, h, hd.of_alike (alike_modify index r.size r.mask)⟩
  | none =>
      rw [hindex] at h
      obtain ⟨-, p, hp, rfl⟩ := h
      exact ⟨size, mask, extra ++ [p], rfl, hadmissible,
        List.forall_mem_append.mpr ⟨hd.created, by simpa using created_of_create hp⟩⟩

theorem described_of_absorbAll (hforeign : ∀ r ∈ records, r.name ∉ tableOnlyNames)
    (hd : Described size mask extra)
    (h : (absorbAll (vendorSlots size mask extra) records).result = .ok ps) :
    ∃ size' mask' extra', ps = vendorSlots size' mask' extra' ∧
      Described size' mask' extra' := by
  induction records generalizing size mask extra with
  | nil => exact ⟨size, mask, extra, (Except.ok.inj h).symm, hd⟩
  | cons r records ih =>
      obtain ⟨hr, hforeign⟩ := List.forall_mem_cons.mp hforeign
      obtain ⟨ps', hps', h⟩ := Outcome.result_bind_eq_ok_iff.mp h
      obtain ⟨size', mask', extra', rfl, hd'⟩ := described_of_absorb hd hr hps'
      exact ih hforeign hd' h

theorem described_vendorDefault : Described 0 0 [] :=
  ⟨admissible_vendorDefault, by simp⟩

/-- The records of new partitions are taken in as those partitions. -/
theorem absorbAll_recordOf (hd : Described size mask (extra ++ xs))
    (hxs : ∀ x ∈ xs, x.offset = 0) :
    (absorbAll (vendorSlots size mask extra) (xs.map recordOf)).result =
      .ok (vendorSlots size mask (extra ++ xs)) := by
  induction xs generalizing extra with
  | nil => simp [absorbAll]
  | cons x xs ih =>
      obtain ⟨hx, hxs⟩ := List.forall_mem_cons.mp hxs
      have hcreate : Partition.create x.name 0 x.size x.mask = .ok x := by
        have hcreated : Created x := hd.created x (by simp)
        rwa [Created, hx] at hcreated
      have hnew : ∀ p ∈ vendorSlots size mask extra, p.isNamed x.name = false := by
        intro p hp
        have hdistinct := hd.admissible.distinct
        rw [vendorSlots_append, List.map_append, List.map_cons, List.nodup_append] at hdistinct
        have hne := hdistinct.2.2 p.nameBytes (List.mem_map_of_mem hp) x.nameBytes
          List.mem_cons_self
        rw [Bool.eq_false_iff]
        intro hnamed
        exact hne ((Partition.isNamed_iff.mp hnamed).trans
          (Partition.nameBytes_of_create hcreate).symm)
      have hroom : (vendorSlots size mask extra).length < maxPartitions := by
        have hlength := hd.admissible.length_le
        rw [vendorSlots_append, List.length_append, List.length_cons] at hlength
        omega
      have hfirst : (absorb (vendorSlots size mask extra) (recordOf x)).result =
          .ok (vendorSlots size mask (extra ++ [x])) := by
        rw [absorb_new (r := recordOf x) hnew hroom hcreate, vendorSlots_append]
      have happend : extra ++ x :: xs = extra ++ [x] ++ xs := by simp
      rw [happend] at hd ⊢
      rw [List.map_cons, absorbAll, Logged.result_bind, hfirst, Outcome.ok_bind]
      exact ih hd hxs

/-! ## Laying out -/

theorem hasVendorNames_vendorSlots (h : Header) (size : UInt64) (mask : UInt32)
    (extra : List Partition) : hasVendorNames ⟨h, vendorSlots size mask extra⟩ = true := by
  have hothers : (namedSlot "bootloader" 0x400000).isNamed "bootloader" = true ∧
      (namedSlot "reserved" 0x4000000).isNamed "reserved" = true ∧
        (namedSlot "env" 0x800000).isNamed "env" = true := by decide +kernel
  simp [hasVendorNames, vendorSlots, vendorNames, vendorPartitions, isNamed_cacheSlot, hothers]

theorem ofRecords_eq_ok_iff :
    (ofRecords records capacity options).result = .ok t ↔
      ∃ ps qs, (absorbAll vendorDefault.partitions records).result = .ok ps ∧
        hasVendorNames ⟨vendorDefault.header, ps⟩ = true ∧
        fillPartitions capacity options.gapReserved options.gapPartition ps = (qs, none) ∧
        t = ofPartitions qs := by
  unfold ofRecords
  simp only [Outcome.result_bind_eq_ok_iff, Outcome.lift_layout,
    Outcome.result_ofLogged_eq_ok_iff, filled_eq_ok_iff, fill_eq_ok_iff]
  constructor
  · rintro ⟨ps, hps, filled, ⟨hnames, hfill, -⟩, -, -, h⟩
    exact ⟨ps, filled.partitions, hps, hnames, hfill, (Except.ok.inj h).symm⟩
  · rintro ⟨ps, qs, hps, hnames, hfill, rfl⟩
    exact ⟨ps, hps, ⟨vendorDefault.header, qs⟩, ⟨hnames, hfill, rfl⟩, (), rfl, rfl⟩

/-- The partitions of a table that was made from records, behind the first one. -/
structure Converted (capacity : UInt64) (options : LayoutOptions) (reserved cache env : Partition)
    (extra : List Partition) : Prop where
  described : Described cache.size cache.mask extra
  reserved_eq : reserved = { namedSlot "reserved" 0x4000000 with offset := reserved.offset }
  reserved_offset : reserved.offset.toNat = 0x400000 + options.gapReserved.toNat
  cache_alike : Alike (cacheSlot 0 0) cache
  env_cut : Cut capacity (namedSlot "env" 0x800000) env
  spaced : (reserved :: cache :: env :: extra).IsChain (Spaced options.gapPartition)
  stop_le : ∀ x ∈ namedSlot "bootloader" 0x400000 :: reserved :: cache :: env :: extra,
    x.stop ≤ capacity.toNat

/-- The table of these partitions behind the boot loader. -/
def convertedTable (reserved cache env : Partition) (extra : List Partition) : Table :=
  ofPartitions (namedSlot "bootloader" 0x400000 :: reserved :: cache :: env :: extra)

theorem converted_of_ofRecords (hforeign : ∀ r ∈ records, r.name ∉ tableOnlyNames)
    (h : (ofRecords records capacity options).result = .ok t) :
    ∃ reserved cache env extra, t = convertedTable reserved cache env extra ∧
      Converted capacity options reserved cache env extra := by
  obtain ⟨ps, qs, habsorb, -, hfill, rfl⟩ := ofRecords_eq_ok_iff.mp h
  obtain ⟨size, mask, asked, rfl, hd⟩ :=
    described_of_absorbAll hforeign described_vendorDefault habsorb
  obtain ⟨reserved, others, rfl, hreserved, hoffset, -, hspaced, hcuts⟩ :=
    fillPartitions_eq_ok_iff.mp hfill
  -- the cuts are those of the cache, of `env` and of the partitions behind them
  obtain ⟨cache, behind, hcache, hbehind, rfl⟩ := List.forall₂_cons_left_iff.mp hcuts
  obtain ⟨env, extra, henv, hextra, rfl⟩ := List.forall₂_cons_left_iff.mp hbehind
  have halike : List.Forall₂ Alike asked extra := hextra.imp fun _ _ hcut => hcut.alike
  exact ⟨reserved, cache, env, extra, rfl, hd.of_alike halike, hreserved, hoffset, hcache.alike,
    henv, hspaced, (fillPartitions_inOrder hfill).1.stop_le⟩

/-! ## And back -/

theorem isListed_of_rawName (h : q.rawName = p.rawName) : isListed q = isListed p := by
  rw [isListed, isListed]
  simp only [Partition.isNamed, Partition.nameBytes, h]

/-- The device tree lists all partitions behind the vendor's. -/
theorem Described.isListed (hd : Described size mask extra) : ∀ x ∈ extra, isListed x = true := by
  intro x hx
  have hvendor : ∀ name ∈ tableOnlyNames, ∃ slot ∈ vendorSlots size mask [],
      slot.isNamed name = true := by
    simp only [tableOnlyNames, List.forall_mem_cons, List.not_mem_nil]
    refine ⟨⟨namedSlot "bootloader" 0x400000, by simp [vendorSlots], by decide +kernel⟩,
      ⟨namedSlot "reserved" 0x4000000, by simp [vendorSlots], by decide +kernel⟩,
      ⟨namedSlot "env" 0x800000, by simp [vendorSlots], by decide +kernel⟩, by simp⟩
  have hdistinct := hd.admissible.distinct
  rw [← List.nil_append extra, vendorSlots_append, List.map_append, List.nodup_append] at hdistinct
  rw [Table.isListed, Bool.not_eq_true', List.any_eq_false]
  intro name hname hnamed
  obtain ⟨slot, hslot, hsame⟩ := hvendor name hname
  exact hdistinct.2.2 slot.nameBytes (List.mem_map_of_mem hslot) x.nameBytes
    (List.mem_map_of_mem hx)
    ((Partition.isNamed_iff.mp hsame).trans (Partition.isNamed_iff.mp hnamed).symm)

theorem Converted.filter_isListed (hc : Converted capacity options reserved cache env extra) :
    (convertedTable reserved cache env extra).partitions.filter isListed = cache :: extra := by
  have hboot : isListed (namedSlot "bootloader" 0x400000) = false := by decide +kernel
  have hreserved : isListed reserved = false := by
    rw [isListed_of_rawName (p := namedSlot "reserved" 0x4000000) (by rw [hc.reserved_eq])]
    decide +kernel
  have hcache : isListed cache = true := by
    rw [isListed_of_rawName hc.cache_alike.1]
    decide +kernel
  have henv : isListed env = false := by
    rw [isListed_of_rawName hc.env_cut.rawName_eq]
    decide +kernel
  have hextra : extra.filter isListed = extra := List.filter_eq_self.mpr hc.described.isListed
  simp [convertedTable, ofPartitions, hboot, hreserved, hcache, henv, hextra]

/-- The partition as it is before it is laid out. -/
def atStart (p : Partition) : Partition :=
  { p with offset := 0 }

theorem map_recordOf_atStart (xs : List Partition) :
    (xs.map atStart).map recordOf = xs.map recordOf := by
  rw [List.map_map]
  rfl

/-- The partition as a record may have it: with its size, or open when it ends at the limit. -/
def Reopens (limit : UInt64) (y q : Partition) : Prop :=
  y = q ∨ q.stop? = some limit ∧ y = { q with size := autofillSize }

/-- Either way the partition is cut to the size it had. -/
theorem Reopens.cut (h : Reopens limit y q) (hstop : q.stop ≤ limit.toNat) :
    Cut limit (atStart y) q := by
  rw [Partition.stop] at hstop
  rcases h with rfl | ⟨hlast, rfl⟩
  · exact ⟨by omega, by simp only [atStart]; omega, rfl⟩
  · have hends := Partition.stop?_eq_some_iff.mp hlast
    have hall : autofillSize.toNat = UInt64.size - 1 := rfl
    have hword : limit.toNat < UInt64.size := limit.toNat_lt
    rw [Partition.stop] at hends
    exact ⟨by omega, by simp only [atStart]; omega, rfl⟩

theorem Reopens.alike (h : Reopens limit y q) : Alike q (atStart y) := by
  rcases h with rfl | ⟨-, rfl⟩
  · exact ⟨rfl, rfl⟩
  · exact ⟨rfl, rfl⟩

/-- The records of a table are those of the partitions that the device tree lists, the last one of
which may be open. -/
theorem exists_toRecords (t : Table) :
    ∃ ys, t.toRecords = ys.map recordOf ∧
      List.Forall₂ (Reopens t.capacity) ys (t.partitions.filter isListed) := by
  have hsame : ∀ xs : List Partition, List.Forall₂ (Reopens t.capacity) xs xs :=
    fun xs => List.forall₂_same.mpr fun _ _ => .inl rfl
  cases hlast : (t.partitions.filter isListed).getLast? with
  | none =>
      refine ⟨[], by simp only [toRecords, hlast, List.map_nil], ?_⟩
      rw [List.getLast?_eq_none_iff.mp hlast]
      exact .nil
  | some last =>
      have hlisted := List.dropLast_append_getLast? last hlast
      have hrecords : t.toRecords = (t.partitions.filter isListed).dropLast.map recordOf ++
          [if last.stop? = some t.capacity then { recordOf last with size := autofillSize }
            else recordOf last] := by
        simp only [toRecords, hlast]
      rw [hrecords]
      by_cases hstop : last.stop? = some t.capacity
      · refine ⟨(t.partitions.filter isListed).dropLast ++ [{ last with size := autofillSize }],
          ?_, ?_⟩
        · rw [if_pos hstop, List.map_append]
          rfl
        · nth_rewrite 2 [← hlisted]
          exact List.rel_append (hsame _) (.cons (.inr ⟨hstop, rfl⟩) .nil)
      · refine ⟨t.partitions.filter isListed, ?_, hsame _⟩
        rw [if_neg hstop, ← List.map_singleton, ← List.map_append, hlisted]

theorem Converted.stop_le_capacity
    (hc : Converted capacity options reserved cache env extra) :
    ∀ x ∈ (convertedTable reserved cache env extra).partitions,
      x.stop ≤ (convertedTable reserved cache env extra).capacity.toNat :=
  stop_le_reach capacity.toNat_lt hc.stop_le

theorem Converted.capacity_le (hc : Converted capacity options reserved cache env extra) :
    (convertedTable reserved cache env extra).capacity.toNat ≤ capacity.toNat :=
  reach_le_of_stop_le hc.stop_le

/-- The records of a cache and of new partitions are taken in as those partitions. -/
theorem absorbAll_vendorDefault {c : Partition} (hd : Described c.size c.mask xs)
    (hname : c.name = "cache") (hxs : ∀ x ∈ xs, x.offset = 0) :
    (absorbAll vendorDefault.partitions (recordOf c :: xs.map recordOf)).result =
      .ok (vendorSlots c.size c.mask xs) := by
  have hcache : (absorb vendorDefault.partitions (recordOf c)).result =
      .ok (vendorSlots c.size c.mask []) :=
    absorb_cache hname
  rw [absorbAll, Logged.result_bind, hcache, Outcome.ok_bind]
  exact absorbAll_recordOf hd hxs

/-- A converted table is what its own records make on the smallest device that holds it. -/
theorem Converted.remade (hc : Converted capacity options reserved cache env extra) :
    (ofRecords (convertedTable reserved cache env extra).toRecords
        (convertedTable reserved cache env extra).capacity options).result =
      .ok (convertedTable reserved cache env extra) := by
  obtain ⟨ys, hrecords, hys⟩ := exists_toRecords (convertedTable reserved cache env extra)
  have hstop := hc.stop_le_capacity
  have hle := hc.capacity_le
  rw [hc.filter_isListed] at hys
  obtain ⟨c, xs, hcut, hxs, rfl⟩ := List.forall₂_cons_right_iff.mp hys
  generalize hlimit : (convertedTable reserved cache env extra).capacity = limit at *
  simp only [convertedTable, ofPartitions, List.forall_mem_cons] at hstop
  obtain ⟨-, hreservedStop, hcacheStop, henvStop, hextraStop⟩ := hstop
  have hcache : Alike (cacheSlot c.size c.mask) (atStart c) :=
    Alike.trans hc.cache_alike hcut.alike
  -- what is taken in are the partitions of the table again, before they are laid out
  have hd : Described c.size c.mask (xs.map atStart) := by
    refine hc.described.of_alike ?_
    rw [List.forall₂_map_right_iff]
    exact hxs.flip.imp fun _ _ h => Reopens.alike h
  have habsorb : (absorbAll vendorDefault.partitions
      (convertedTable reserved cache env extra).toRecords).result =
        .ok (vendorSlots c.size c.mask (xs.map atStart)) := by
    have hname : c.name = "cache" := hcache.name_eq.trans (name_namedSlot (by decide) c.size)
    rw [hrecords, List.map_cons, ← map_recordOf_atStart]
    exact absorbAll_vendorDefault hd hname (by simp [atStart])
  refine ofRecords_eq_ok_iff.mpr ⟨_, _, habsorb, hasVendorNames_vendorSlots _ _ _ _, ?_, rfl⟩
  -- and on the smaller device they are laid out as they were
  refine fillPartitions_eq_ok_iff.mpr ⟨reserved, cache :: env :: extra, rfl, hc.reserved_eq,
    hc.reserved_offset, ?_, hc.spaced, .cons ?_ (.cons ?_ ?_)⟩
  · exact Nat.le_trans (Nat.le_add_right _ _) hreservedStop
  · rw [← hcache.eq rfl rfl rfl]
    exact hcut.cut hcacheStop
  · exact hc.env_cut.of_le hle henvStop
  · rw [List.forall₂_map_left_iff]
    have hboth := (List.forall₂_and_left _ _).mpr ⟨hextraStop, hxs.flip⟩
    exact hboth.flip.imp fun _ _ h => Reopens.cut h.2 h.1

/-- **Converting back and forth.**  A table that was made from records, none of which stands for a
partition that the device tree does not list, is made again from its own records. -/
theorem ofRecords_toRecords (hforeign : ∀ r ∈ records, r.name ∉ tableOnlyNames)
    (h : (ofRecords records capacity options).result = .ok t) :
    (ofRecords t.toRecords t.capacity options).result = .ok t := by
  obtain ⟨reserved, cache, env, extra, rfl, hc⟩ := converted_of_ofRecords hforeign h
  exact hc.remade

/-- Records of the cache, of a partition with a size and of one that takes the rest. -/
def convertedRecords : List Record :=
  [⟨"system", 0x40000000, 1, 0, 0⟩, ⟨"cache", 0x20000000, 2, 0, 0⟩, ⟨"data", autofillSize, 4, 0, 0⟩]

theorem ofRecords_toRecords_of_convertedRecords :
    (∀ r ∈ convertedRecords, r.name ∉ tableOnlyNames) ∧
      ∃ t, (ofRecords convertedRecords 0x200000000 {}).result = .ok t ∧
        (ofRecords t.toRecords t.capacity {}).result = .ok t := by
  have hforeign : ∀ r ∈ convertedRecords, r.name ∉ tableOnlyNames := by decide
  obtain ⟨t, ht⟩ : ∃ t, (ofRecords convertedRecords 0x200000000 {}).result = .ok t := by
    apply Outcome.exists_ok_of_isOk
    decide +kernel
  exact ⟨hforeign, t, ht, ofRecords_toRecords hforeign ht⟩

end Table

end EmmcLayout
