import EmmcLayout.Proofs.Table.FromRecords

/-!
# Which records become partitions

Behind the vendor's four, a table that is made from records has one partition for each name, in the
order in which the names first occur, with the mask of the last record of that name:
`ofRecords_slots`.  A record that comes under a known name is not refused and gets no partition of
its own; it takes the place of the one before it.  So every record has its partition exactly if no
two of them have the same name, the vendor's names apart.  `ofRecords_joins_namesakes` is a list of
two records of which the first is lost.

What one record does to the partitions is said once (`absorb_cases`), over names as texts.  The
invariant of the run, `Merged`, then has one lemma for each of the two cases.  A partition that is
renewed keeps its name, so the names say where everything is.
-/

namespace EmmcLayout

/-- What a table takes over of a record, and a fill leaves of a partition. -/
def Partition.label (p : Partition) : String × UInt32 :=
  (p.name, p.mask)

def Record.label (r : Record) : String × UInt32 :=
  (r.name, r.mask)

namespace Table

open Layout (admissible_vendorDefault)

variable {capacity : UInt64} {options : LayoutOptions} {r : Record} {records done : List Record}
  {p q : Partition} {ps qs : List Partition} {t : Table} {name : String} {index : Nat}

/-! ## One record -/

/-- The partition after a record has been taken in that goes by its name, or not. -/
def renew (r : Record) (p : Partition) : Partition :=
  if p.isNamed r.name then { p with size := r.size, mask := r.mask } else p

theorem rawName_renew (r : Record) (p : Partition) : (renew r p).rawName = p.rawName := by
  unfold renew
  split_ifs <;> rfl

theorem name_renew (r : Record) (p : Partition) : (renew r p).name = p.name := by
  rw [Partition.name, Partition.nameBytes, rawName_renew, ← Partition.nameBytes, ← Partition.name]

/-- Among distinct names the first partition of a name is the only one. -/
theorem modify_eq_map_renew (hdistinct : (ps.map Partition.nameBytes).Nodup)
    (h : ps.findIdx? (·.isNamed r.name) = some index) :
    (ps.modify index fun p => { p with size := r.size, mask := r.mask }) = ps.map (renew r) := by
  induction ps generalizing index with
  | nil => simp at h
  | cons p ps ih =>
      rw [List.map_cons, List.nodup_cons] at hdistinct
      rw [List.findIdx?_cons] at h
      by_cases hp : p.isNamed r.name = true
      · rw [if_pos hp, Option.some_inj] at h
        have hothers : ∀ q ∈ ps, renew r q = q := by
          intro q hq
          refine if_neg fun hnamed => hdistinct.1 (List.mem_map.mpr ⟨q, hq, ?_⟩)
          rw [Partition.isNamed_iff.mp hnamed, Partition.isNamed_iff.mp hp]
        rw [← h, List.modify_zero_cons, List.map_cons, renew, if_pos hp,
          List.map_congr_left hothers, List.map_id']
      · rw [if_neg hp, Option.map_eq_some_iff] at h
        obtain ⟨i, hi, rfl⟩ := h
        rw [List.modify_succ_cons, List.map_cons, ih hdistinct.2 hi, renew, if_neg hp]

/-- Taking a record in renews the partition of its name, or appends one where there is none. -/
theorem absorb_cases (hps : Admissible ps) (h : (absorb ps r).result = .ok qs) :
    (r.name ∈ ps.map Partition.name ∧ qs = ps.map (renew r)) ∨
      (r.name ∉ ps.map Partition.name ∧
        ∃ p, Partition.create r.name 0 r.size r.mask = .ok p ∧ qs = ps ++ [p]) := by
  rw [absorb_eq_ok_iff] at h
  cases hindex : ps.findIdx? (·.isNamed r.name) with
  | some index =>
      rw [hindex] at h
      obtain ⟨hlt, hnamed, -⟩ := List.findIdx?_eq_some_iff_getElem.mp hindex
      have hname := ((hps.wellNamed _ (List.getElem_mem hlt)).isNamed_iff).mp hnamed
      refine .inl ⟨hname ▸ List.mem_map_of_mem (List.getElem_mem hlt), ?_⟩
      rw [← modify_eq_map_renew hps.distinct hindex]
      exact h
  | none =>
      rw [hindex] at h
      obtain ⟨-, p, hp, rfl⟩ := h
      refine .inr ⟨fun hmem => ?_, p, hp, rfl⟩
      obtain ⟨x, hx, hname⟩ := List.mem_map.mp hmem
      have hnamed := (hps.wellNamed x hx).isNamed_iff.mpr hname
      rw [List.findIdx?_eq_none_iff.mp hindex x hx] at hnamed
      exact Bool.false_ne_true hnamed

/-! ## Records in their order -/

/-- The records that do not go by one of the vendor's names. -/
def ownRecords (records : List Record) : List Record :=
  records.filter fun r => r.name ∉ vendorNames

/-- The last record of a name. -/
def lastNamed? (records : List Record) (name : String) : Option Record :=
  (records.filter (·.name = name)).getLast?

theorem lastNamed?_concat :
    lastNamed? (records ++ [r]) name =
      if r.name = name then some r else lastNamed? records name := by
  by_cases h : r.name = name
  · simp [lastNamed?, h]
  · simp [lastNamed?, h]

theorem ownRecords_concat_of_mem (h : r.name ∈ vendorNames) :
    ownRecords (records ++ [r]) = ownRecords records := by
  simp [ownRecords, h]

theorem ownRecords_concat_of_notMem (h : r.name ∉ vendorNames) :
    ownRecords (records ++ [r]) = ownRecords records ++ [r] := by
  simp [ownRecords, h]

theorem eraseDups_concat (names : List String) (name : String) :
    (names ++ [name]).eraseDups =
      if name ∈ names then names.eraseDups else names.eraseDups ++ [name] := by
  rw [List.eraseDups_append]
  by_cases h : name ∈ names
  · simp [h, List.removeAll]
  · simp [h, List.removeAll, List.eraseDups_cons]

theorem nodup_eraseDups (names : List String) : names.eraseDups.Nodup := by
  induction names using List.reverseRecOn with
  | nil => simp
  | append_singleton names name ih =>
      rw [eraseDups_concat]
      split_ifs with h
      · exact ih
      · rw [← List.concat_eq_append]
        exact ih.concat fun hmem => h (List.mem_eraseDups.mp hmem)

theorem eraseDups_eq_self_iff {names : List String} : names.eraseDups = names ↔ names.Nodup := by
  refine ⟨fun h => h ▸ nodup_eraseDups names, fun h => ?_⟩
  induction names using List.reverseRecOn with
  | nil => rfl
  | append_singleton names name ih =>
      obtain ⟨hnames, -, hapart⟩ := List.nodup_append.mp h
      have hnew : name ∉ names := fun hmem => hapart name hmem name List.mem_cons_self rfl
      rw [eraseDups_concat, if_neg hnew, ih hnames]

/-- The names of the partitions that these records make, each where it first occurs. -/
def slotNames (records : List Record) : List String :=
  vendorNames ++ ((ownRecords records).map Record.name).eraseDups

theorem slotNames_concat :
    slotNames (records ++ [r]) =
      if r.name ∈ slotNames records then slotNames records else slotNames records ++ [r.name] := by
  by_cases hvendor : r.name ∈ vendorNames
  · have hmem : r.name ∈ slotNames records := List.mem_append_left _ hvendor
    rw [if_pos hmem, slotNames, ownRecords_concat_of_mem hvendor, slotNames]
  · have hmem : r.name ∈ slotNames records ↔ r.name ∈ (ownRecords records).map Record.name := by
      rw [slotNames, List.mem_append, List.mem_eraseDups, or_iff_right hvendor]
    rw [slotNames, ownRecords_concat_of_notMem hvendor, List.map_append, List.map_singleton,
      eraseDups_concat]
    simp only [hmem]
    split_ifs with h
    · rfl
    · rw [slotNames, List.append_assoc]

/-! ## All records -/

/-- What taking these records in leaves: the vendor's partitions, and behind them one partition for
each name, with the mask of the last record of that name. -/
structure Merged (records : List Record) (ps : List Partition) : Prop where
  admissible : Admissible ps
  names_eq : ps.map Partition.name = slotNames records
  mask_eq : ∀ p ∈ ps.drop 4, (lastNamed? records p.name).map Record.mask = some p.mask

theorem merged_vendorDefault : Merged [] vendorDefault.partitions where
  admissible := admissible_vendorDefault
  names_eq := by
    rw [names_vendorDefault]
    rfl
  mask_eq := by
    have hall : vendorDefault.partitions.drop 4 = [] := rfl
    simp [hall]

theorem Merged.names_drop (h : Merged records ps) :
    (ps.drop 4).map Partition.name = ((ownRecords records).map Record.name).eraseDups := by
  rw [List.map_drop, h.names_eq]
  rfl

theorem Merged.four_le (h : Merged records ps) : 4 ≤ ps.length := by
  rw [← List.length_map Partition.name, h.names_eq, slotNames, List.length_append]
  exact Nat.le_add_right _ _

/-- A record under a known name renews the partition of this name. -/
theorem Merged.renewed (h : Merged done ps) (hps : Admissible (ps.map (renew r)))
    (hknown : r.name ∈ ps.map Partition.name) : Merged (done ++ [r]) (ps.map (renew r)) where
  admissible := hps
  names_eq := by
    rw [slotNames_concat, ← h.names_eq, if_pos hknown, List.map_map]
    exact List.map_congr_left fun p _ => name_renew r p
  mask_eq := by
    rw [← List.map_drop]
    refine List.forall_mem_map.mpr fun p hp => ?_
    have hnamed : p.isNamed r.name = true ↔ p.name = r.name :=
      (h.admissible.wellNamed p (List.mem_of_mem_drop hp)).isNamed_iff
    rw [name_renew, lastNamed?_concat]
    by_cases hname : p.name = r.name
    · rw [if_pos hname.symm, renew, if_pos (hnamed.mpr hname)]
      rfl
    · rw [if_neg (Ne.symm hname), renew, if_neg (mt hnamed.mp hname)]
      exact h.mask_eq p hp

/-- A record under a new name comes last, and changes nothing of the others. -/
theorem Merged.appended (h : Merged done ps) (hps : Admissible (ps ++ [p]))
    (hnew : r.name ∉ ps.map Partition.name)
    (hp : Partition.create r.name 0 r.size r.mask = .ok p) : Merged (done ++ [r]) (ps ++ [p]) where
  admissible := hps
  names_eq := by
    rw [slotNames_concat, ← h.names_eq, if_neg hnew, List.map_append, List.map_singleton,
      Partition.name_of_create hp]
  mask_eq := by
    rw [List.drop_append_of_le_length h.four_le]
    refine List.forall_mem_append.mpr ⟨fun q hq => ?_, ?_⟩
    · have hne : r.name ≠ q.name := fun hname =>
        hnew (hname ▸ List.mem_map_of_mem (List.mem_of_mem_drop hq))
      rw [lastNamed?_concat, if_neg hne]
      exact h.mask_eq q hq
    · rw [List.forall_mem_singleton, lastNamed?_concat, if_pos (Partition.name_of_create hp).symm,
        (Partition.create_eq_ok_iff.mp hp).2]
      rfl

theorem Merged.absorb (h : Merged done ps) (habsorb : (absorb ps r).result = .ok qs) :
    Merged (done ++ [r]) qs := by
  have hqs := admissible_of_absorb h.admissible habsorb
  rcases absorb_cases h.admissible habsorb with ⟨hknown, rfl⟩ | ⟨hnew, p, hp, rfl⟩
  · exact h.renewed hqs hknown
  · exact h.appended hqs hnew hp

theorem Merged.absorbAll (h : Merged done ps)
    (habsorb : (absorbAll ps records).result = .ok qs) : Merged (done ++ records) qs := by
  induction records generalizing done ps with
  | nil =>
      obtain rfl := Except.ok.inj habsorb
      rwa [List.append_nil]
  | cons r records ih =>
      obtain ⟨taken, htaken, habsorb⟩ := Outcome.result_bind_eq_ok_iff.mp habsorb
      rw [← List.singleton_append, ← List.append_assoc]
      exact ih (h.absorb htaken) habsorb

theorem map_label_of_relocated (h : List.Forall₂ Relocated ps qs) :
    qs.map Partition.label = ps.map Partition.label := by
  induction h with
  | nil => rfl
  | cons hpq _ ih =>
      rw [List.map_cons, List.map_cons, ih, Partition.label, Partition.label,
        (Relocated.alike hpq).name_eq, hpq]

/-- Moving and cutting partitions changes neither names nor masks. -/
theorem Merged.of_relocated (h : Merged records ps) (hqs : List.Forall₂ Relocated ps qs) :
    Merged records qs where
  admissible := h.admissible.of_rawNames
    (map_rawName_of_alike (hqs.imp fun _ _ hpq => Relocated.alike hpq))
  names_eq := by
    have hlabels := congrArg (List.map Prod.fst) (map_label_of_relocated hqs)
    rw [List.map_map, List.map_map] at hlabels
    exact hlabels.trans h.names_eq
  mask_eq := by
    intro q hq
    have hlabel : q.label ∈ (ps.drop 4).map Partition.label := by
      rw [List.map_drop, ← map_label_of_relocated hqs, ← List.map_drop]
      exact List.mem_map_of_mem hq
    obtain ⟨p, hp, heq⟩ := List.mem_map.mp hlabel
    obtain ⟨hname, hmask⟩ := Prod.mk.inj heq
    rw [← hname, ← hmask]
    exact h.mask_eq p hp

theorem merged_of_ofRecords (h : (ofRecords records capacity options).result = .ok t) :
    Merged records t.partitions := by
  obtain ⟨ps, qs, habsorb, hnames, hfill, rfl⟩ := ofRecords_eq_ok_iff.mp h
  have hmerged : Merged records ps := merged_vendorDefault.absorbAll habsorb
  obtain ⟨first, second, third, rest, rfl⟩ := (hasVendorNames_iff.mp hnames).exists_cons
  exact hmerged.of_relocated (relocated_of_fillPartitions hfill)

/-! ## Distinct names -/

theorem lastNamed?_of_nodup (hdistinct : ((ownRecords records).map Record.name).Nodup)
    (hr : r ∈ ownRecords records) : lastNamed? records r.name = some r := by
  have hmem : r ∈ records.filter (·.name = r.name) := by
    simpa using List.mem_of_mem_filter hr
  obtain ⟨x, hx⟩ := Option.isSome_iff_exists.mp
    (List.getLast?_isSome.mpr (List.ne_nil_of_mem hmem))
  obtain ⟨hxs, hname⟩ : x ∈ records ∧ x.name = r.name := by
    simpa using List.mem_of_getLast? hx
  have hown : x ∈ ownRecords records := by
    rw [ownRecords, List.mem_filter, hname]
    exact ⟨hxs, (List.mem_filter.mp hr).2⟩
  rw [lastNamed?, hx, List.inj_on_of_nodup_map hdistinct hown hr hname]

/-- The records that do not go by a vendor's name are the partitions behind the vendor's exactly if
their names are distinct. -/
theorem Merged.labels_eq_iff (h : Merged records ps) :
    (ps.drop 4).map Partition.label = (ownRecords records).map Record.label ↔
      ((ownRecords records).map Record.name).Nodup := by
  rw [← eraseDups_eq_self_iff, ← h.names_drop]
  constructor
  · intro hlabels
    have hnames := congrArg (List.map Prod.fst) hlabels
    rwa [List.map_map, List.map_map] at hnames
  · intro hnames
    have hdistinct : ((ownRecords records).map Record.name).Nodup := by
      rw [← hnames, h.names_drop]
      exact nodup_eraseDups _
    -- either list is its names, each with the mask of the last record of the name
    have hslots : (ps.drop 4).map Partition.label = ((ps.drop 4).map Partition.name).map
        fun name => (name, ((lastNamed? records name).map Record.mask).getD 0) := by
      rw [List.map_map]
      refine List.map_congr_left fun p hp => ?_
      rw [Function.comp_apply, h.mask_eq p hp]
      rfl
    have hrecords : (ownRecords records).map Record.label =
        ((ownRecords records).map Record.name).map
          fun name => (name, ((lastNamed? records name).map Record.mask).getD 0) := by
      rw [List.map_map]
      refine List.map_congr_left fun r hr => ?_
      rw [Function.comp_apply, lastNamed?_of_nodup hdistinct hr]
      rfl
    rw [hslots, hrecords, hnames]

/-- **Which records become partitions.**  Behind the vendor's four partitions stands one for each
other name, in the order in which these first occur, with the mask of the last record of its name.
So these partitions are the records, in order and one for each, exactly if no name occurs twice. -/
theorem ofRecords_slots (h : (ofRecords records capacity options).result = .ok t) :
    (t.partitions.drop 4).map Partition.name =
        ((ownRecords records).map Record.name).eraseDups ∧
      (∀ p ∈ t.partitions.drop 4, (lastNamed? records p.name).map Record.mask = some p.mask) ∧
      ((t.partitions.drop 4).map Partition.label = (ownRecords records).map Record.label ↔
        ((ownRecords records).map Record.name).Nodup) := by
  have hmerged := merged_of_ofRecords h
  exact ⟨hmerged.names_drop, hmerged.mask_eq, hmerged.labels_eq_iff⟩

theorem ofRecords_slots_of_clashingRecords :
    ∃ t, (ofRecords clashingRecords 0x200000000 denseOptions).result = .ok t ∧
      (t.partitions.drop 4).map Partition.name = ["data"] ∧
      ∀ p ∈ t.partitions.drop 4, p.mask = 1 := by
  obtain ⟨t, ht⟩ : ∃ t, (ofRecords clashingRecords 0x200000000 denseOptions).result = .ok t := by
    apply Outcome.exists_ok_of_isOk
    decide +kernel
  obtain ⟨hnames, hmasks, -⟩ := ofRecords_slots ht
  have hname : (t.partitions.drop 4).map Partition.name = ["data"] :=
    hnames.trans (by decide +kernel)
  refine ⟨t, ht, hname, fun p hp => ?_⟩
  have hdata : p.name ∈ ["data"] := hname ▸ List.mem_map_of_mem hp
  have hmask := hmasks p hp
  rw [List.mem_singleton.mp hdata] at hmask
  exact Option.some_inj.mp (hmask.symm.trans (by decide +kernel))

/-- Two records of one name. -/
def namesakes : List Record :=
  [⟨"data", 0x40000000, 4, 0, 0⟩, ⟨"data", 0x20000000, 2, 0, 0⟩]

/-- Their table is made, and has no partition for the first one. -/
theorem ofRecords_joins_namesakes :
    ownRecords namesakes = namesakes ∧
      ∃ t, (ofRecords namesakes 0x200000000 {}).result = .ok t ∧
        (t.partitions.drop 4).map Partition.label = [("data", 2)] ∧
        (t.partitions.drop 4).map Partition.label ≠ namesakes.map Record.label := by
  have hrun : (ofRecords namesakes 0x200000000 {}).result.toOption.any
      (fun t => (t.partitions.drop 4).map Partition.label == [("data", 2)]) = true := by
    decide +kernel
  obtain ⟨t, ht, hlabels⟩ := Outcome.exists_ok_of_any hrun
  rw [beq_iff_eq] at hlabels
  exact ⟨by decide +kernel, t, ht, hlabels, by rw [hlabels]; decide⟩

end Table

end EmmcLayout
