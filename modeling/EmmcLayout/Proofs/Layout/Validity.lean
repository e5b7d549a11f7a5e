import EmmcLayout.Proofs.Layout.Edit
import EmmcLayout.Proofs.Layout.Modify
import EmmcLayout.Proofs.Table.Validate

/-!
# Operations keep tables valid

Creating, cloning and editing end with a check of the whole table.  `operations_keep_valid` says
that it never strikes: every step that adds a partition or names one looks at the names and at the
number of partitions itself, so the partitions stay admissible all along.

The two halves are apart.  `Admissible` is kept by every step (`admissible_of_append`,
`admissible_of_settle`, `admissible_of_modify`), and the steps fail for other reasons than an
invalid table (`NotInvalid`), whatever the state.
-/

namespace EmmcLayout.Layout

open Outcome (FailsOnly)
open Table (Admissible)

variable {options : LayoutOptions} {capacity : UInt64} {p q : Placer} {ps qs : List Partition}
  {ds : List Definer} {es : List Editor} {base t : Table}

/-! ## Steps keep partitions admissible -/

theorem notMem_nameBytes {name : String} (h : ∀ x ∈ ps, ¬ x.isNamed name = true) :
    Utf8.encode name ∉ ps.map Partition.nameBytes := by
  intro hmem
  obtain ⟨x, hx, hname⟩ := List.mem_map.mp hmem
  exact h x hx (Partition.isNamed_iff.mpr hname)

/-- A name that no partition is shown under is not among their bytes either. -/
theorem notMem_nameBytes_of_names {name : String} (h : name ∉ ps.map Partition.name) :
    Utf8.encode name ∉ ps.map Partition.nameBytes := by
  refine notMem_nameBytes fun x hx hnamed => h ?_
  rw [← Partition.name_of_nameBytes (Partition.isNamed_iff.mp hnamed)]
  exact List.mem_map_of_mem hx

theorem admissible_of_append {d : Definer} (hp : Admissible p.partitions)
    (h : (p.append options d).result = .ok q) : Admissible q.partitions := by
  obtain ⟨part, haccepts, rfl⟩ := Placer.append_eq_ok_iff.mp h
  rw [Placer.partitions_push]
  refine hp.append haccepts.room (Partition.wellNamed_of_create haccepts.created) ?_
  rw [Partition.nameBytes_of_create haccepts.created]
  exact notMem_nameBytes haccepts.fresh

theorem admissible_of_settle (hc : p.Coherent) (hp : Admissible p.partitions)
    (h : (p.settle options).result = .ok q) : Admissible q.partitions := by
  obtain ⟨-, rfl⟩ := (Placer.settle_eq_ok_iff hc).mp h
  exact hp.of_rawNames (Placer.map_rawName_resolved _ p)

/-- An adjustment leaves the name to renaming. -/
theorem rawName_of_adjust {alignment : UInt64} {a : Adjustment} {x y : Partition}
    (h : (Entry.adjust alignment a x).result = .ok y) : y.rawName = x.rawName := by
  obtain ⟨offset, size, -, -, rfl⟩ := adjust_partition_eq_ok_iff.mp h
  rfl

/-- A partition that is renamed keeps its own name, or gets one that no other partition has. -/
theorem wellNamed_of_renames {a : Adjustment} {x y : Partition} (hx : x.WellNamed)
    (h : Renames (ps.map Partition.name) a x y) :
    y.WellNamed ∧ (y.nameBytes = x.nameBytes ∨ y.nameBytes ∉ ps.map Partition.nameBytes) := by
  rcases h.cases with rfl | ⟨name, hfree, hrename⟩
  · exact ⟨hx, .inl rfl⟩
  · refine ⟨Partition.wellNamed_of_rename hrename, ?_⟩
    rw [Partition.nameBytes_of_rename hrename]
    rcases hfree with hsame | hnew
    · left
      rw [hsame]
      exact hx.encode_name
    · right
      exact notMem_nameBytes_of_names hnew

theorem admissible_of_modify {alignment : UInt64} {m : Modifier} (hp : Admissible ps)
    (h : (modify alignment ps m).result = .ok qs) : Admissible qs := by
  cases modified_of_modify h with
  | rearranged hqs =>
      obtain ⟨rest, hperm, hsub⟩ := hqs
      exact (hp.sublist hsub).perm hperm.symm
  | cloned hroom _ hfree hcopy =>
      refine hp.append hroom (Partition.wellNamed_of_rename hcopy) ?_
      rw [Partition.nameBytes_of_rename hcopy]
      exact notMem_nameBytes_of_names hfree
  | @adjusted _ _ entry renamed adjusted hentry hrenames hadjust =>
      have hraw := rawName_of_adjust hadjust
      have hbytes : adjusted.nameBytes = renamed.nameBytes := by
        rw [Partition.nameBytes, hraw, Partition.nameBytes]
      have hentryNamed : entry.WellNamed := hp.wellNamed entry (List.mem_of_getElem? hentry)
      obtain ⟨hnamed, hname⟩ := wellNamed_of_renames hentryNamed hrenames
      refine hp.set hentry ?_ ?_
      · rw [Partition.WellNamed, hraw]
        exact hnamed
      · rw [hbytes]
        exact hname

theorem admissible_of_editStep {e : Editor} (hc : p.Coherent) (hp : Admissible p.partitions)
    (h : (editStep options p e).result = .ok q) : Admissible q.partitions := by
  cases e with
  | definer d => exact admissible_of_append hp h
  | modifier m =>
      obtain ⟨settled, partitions, hsettled, hmodify, rfl⟩ := editStep_modifier_eq_ok_iff.mp h
      exact admissible_of_modify (admissible_of_settle hc hp hsettled) hmodify

/-- What is cloned is admissible as long as it fits into a table. -/
theorem admissible_of_clonePartitions (hp : Admissible ps)
    (hroom : ps.length + ds.length ≤ maxPartitions) (h : clonePartitions ps ds = .ok qs) :
    Admissible qs := by
  induction ds generalizing ps with
  | nil =>
      obtain rfl := Except.ok.inj h
      exact hp
  | cons d ds ih =>
      rw [List.length_cons] at hroom
      obtain ⟨hfresh, part, hcreate, h⟩ := clonePartitions_cons_eq_ok_iff.mp h
      refine ih (hp.append (by omega) (Partition.wellNamed_of_create hcreate) ?_) ?_ h
      · rw [Partition.nameBytes_of_create hcreate]
        exact notMem_nameBytes hfresh
      · rw [List.length_append, List.length_singleton]
        omega

theorem admissible_vendorDefault : Admissible Table.vendorDefault.partitions := by
  refine ⟨?_, ?_, by decide⟩
  · intro x hx
    obtain ⟨slot, hslot, rfl⟩ := List.mem_map.mp hx
    exact Partition.wellNamed_of_rawName
      ((by decide : ∀ slot ∈ Table.vendorPartitions, Name.check slot.1 = .ok ()) slot hslot) rfl
  · -- they are shown under distinct names already
    refine List.Nodup.of_map Utf8.decodeLossy ?_
    rw [List.map_map]
    show (Table.vendorDefault.partitions.map Partition.name).Nodup
    rw [Table.names_vendorDefault]
    decide

theorem admissible_vendorLayout (h : (Table.vendorLayout capacity options).result = .ok base) :
    Admissible base.partitions :=
  admissible_vendorDefault.of_rawNames (Table.rawNames_vendorLayout h)

/-! ## What steps fail for -/

/-- The failure is not that a table is invalid. -/
def NotInvalid (e : Error) : Prop :=
  ∀ cause, e ≠ .validation cause

@[simp]
theorem notInvalid_layout (cause : LayoutError) : NotInvalid (Cause.toError cause) :=
  fun _ => Error.noConfusion

@[simp]
theorem notInvalid_grammar (cause : GrammarError) : NotInvalid (Cause.toError cause) :=
  fun _ => Error.noConfusion

theorem failsOnly_append (d : Definer) : FailsOnly NotInvalid (p.append options d) := by
  unfold Placer.append
  simp only [Outcome.lift_grammarExcept, Outcome.lift_layout, Outcome.lift_layoutExcept,
    Outcome.failsOnly_bind, Outcome.failsOnly_ite, Outcome.failsOnly_ofExcept,
    Outcome.failsOnly_ofLogged, Outcome.failsOnly_fail, notInvalid_layout, notInvalid_grammar,
    Outcome.failsOnly_true, true_and, implies_true, Outcome.fail_bind]
  intro _ _ _ wanted _ offset _ _ size _
  cases Word.add? offset size with
  | none => simp
  | some stop => simp

theorem failsOnly_settle : FailsOnly NotInvalid (Outcome.ofLogged (p.settle options)) := by
  simp

theorem failsOnly_adjust {alignment : UInt64} {a : Adjustment} {x : Partition} :
    FailsOnly NotInvalid (Entry.adjust alignment a x) := by
  show FailsOnly NotInvalid (adjustPartition alignment a x)
  unfold adjustPartition
  simp [Outcome.lift_layout]

theorem failsOnly_modify {alignment : UInt64} {m : Modifier} :
    FailsOnly NotInvalid (modify alignment ps m) :=
  failsOnly_modify_of_adjust notInvalid_grammar fun _ _ => failsOnly_adjust

theorem failsOnly_editStep (e : Editor) : FailsOnly NotInvalid (editStep options p e) := by
  cases e with
  | definer d => exact failsOnly_append d
  | modifier m =>
      unfold editStep
      simp [Outcome.lift_layout, failsOnly_modify]

theorem failsOnly_editAll : FailsOnly NotInvalid (editAll options p es) :=
  failsOnly_editAll_of_editStep (I := fun _ => True) (fun _ _ => trivial)
    (fun e _ => failsOnly_editStep e) es trivial

theorem failsOnly_appendAll : FailsOnly NotInvalid (appendAll options p ds) :=
  failsOnly_appendAll_of_append ds fun _ => failsOnly_append

/-- The check at the end of a run finds nothing to object to in admissible partitions. -/
theorem failsOnly_finish (hps : Admissible ps) : FailsOnly NotInvalid (finish capacity ps) := by
  intro e h
  rw [finish_result, (Table.validate_ofPartitions_iff hps.length_le).mpr hps] at h
  cases hends : checkEnds capacity ps with
  | ok u => simp [hends] at h
  | error cause =>
      simp [hends] at h
      rw [← h]
      exact notInvalid_layout cause

/-! ## Whole operations -/

/-- A run of editors keeps the partitions admissible. -/
theorem admissible_of_editAll (hps : Admissible ps)
    (h : (editAll options (Placer.fresh capacity ps) es).result = .ok p) :
    p.Coherent ∧ Admissible p.partitions :=
  editAll_keeps (I := fun x => x.Coherent ∧ Admissible x.partitions)
    (fun hx hstep => ⟨hx.1.editStep hstep, admissible_of_editStep hx.1 hx.2 hstep⟩)
    ⟨Placer.coherent_fresh _ _, hps⟩ h

theorem admissible_of_appendAll (hps : Admissible ps)
    (h : (appendAll options (Placer.fresh capacity ps) ds).result = .ok p) :
    p.Coherent ∧ Admissible p.partitions :=
  appendAll_keeps (I := fun x => x.Coherent ∧ Admissible x.partitions)
    (fun hx hstep => ⟨hx.1.append hstep, admissible_of_append hx.2 hstep⟩)
    ⟨Placer.coherent_fresh _ _, hps⟩ h

theorem failsOnly_editTable (hbase : Admissible base.partitions) :
    FailsOnly NotInvalid (editTable base es capacity options) := by
  unfold editTable
  rw [failsOnly_start_bind]
  simp only [Outcome.failsOnly_bind, Outcome.lift_layout, failsOnly_editAll, failsOnly_settle,
    Outcome.result_ofLogged_eq_ok_iff, true_and]
  intro p hrun settled hsettle
  obtain ⟨hcoherent, hadmissible⟩ := admissible_of_editAll hbase hrun
  exact failsOnly_finish (admissible_of_settle hcoherent hadmissible hsettle)

theorem failsOnly_createTable : FailsOnly NotInvalid (createTable ds capacity options) := by
  unfold createTable
  rw [Outcome.failsOnly_bind]
  refine ⟨by simp [Outcome.lift_layout], ?_⟩
  intro base hbase
  rw [Outcome.lift_layout, Outcome.result_ofLogged_eq_ok_iff] at hbase
  rw [failsOnly_start_bind]
  simp only [Outcome.failsOnly_bind, Outcome.lift_layout, failsOnly_appendAll, failsOnly_settle,
    Outcome.result_ofLogged_eq_ok_iff, true_and]
  intro p hrun settled hsettle
  obtain ⟨hcoherent, hadmissible⟩ := admissible_of_appendAll (admissible_vendorLayout hbase) hrun
  exact failsOnly_finish (admissible_of_settle hcoherent hadmissible hsettle)

theorem failsOnly_cloneTable : FailsOnly NotInvalid (cloneTable ds) := by
  unfold cloneTable
  simp only [Outcome.fail_bind, Outcome.failsOnly_ite, Outcome.failsOnly_fail, notInvalid_grammar,
    Outcome.failsOnly_bind, Outcome.lift_grammarExcept, Outcome.lift_validationExcept,
    Outcome.failsOnly_ofExcept, Outcome.result_ofExcept_eq_ok_iff, failsOnly_warnOverlaps,
    Outcome.failsOnly_pure, implies_true, true_and, and_true]
  intro hfits ps hps cause hinvalid
  have hadmissible := admissible_of_clonePartitions Admissible.nil (by simpa using hfits) hps
  rw [(Table.validate_ofPartitions_iff hadmissible.length_le).mpr hadmissible] at hinvalid
  simp at hinvalid

/-! ## What comes out -/

theorem length_le_of_editStep {e : Editor} (hc : p.Coherent)
    (h : (editStep options p e).result = .ok q) :
    q.partitions.length ≤ max p.partitions.length maxPartitions := by
  cases e with
  | definer d =>
      obtain ⟨part, haccepts, rfl⟩ := Placer.append_eq_ok_iff.mp h
      rw [Placer.partitions_push, List.length_append, List.length_singleton]
      exact Nat.le_trans haccepts.room (Nat.le_max_right _ _)
  | modifier m =>
      obtain ⟨settled, partitions, hsettled, hmodify, rfl⟩ := editStep_modifier_eq_ok_iff.mp h
      obtain ⟨-, rfl⟩ := (Placer.settle_eq_ok_iff hc).mp hsettled
      rw [← Placer.length_partitions_resolved (p.room options) p]
      exact length_le_of_modify hmodify

/-- A table that is valid, counts its partitions, and is what its own bytes read back as. -/
structure Sound (t : Table) : Prop where
  valid : t.validate = .ok ()
  counted : t.Counted
  reads_back : Table.ofBytes t.toBytes = .ok t

/-- Every partition ends on the device, and none leaves the word. -/
def OnDevice (capacity : UInt64) (t : Table) : Prop :=
  ∀ x ∈ t.partitions, ∃ stop, x.stop? = some stop ∧ stop ≤ capacity

theorem sound_of_validate (hfits : ps.length < UInt32.size)
    (h : (Table.ofPartitions ps).validate = .ok ()) : Sound (Table.ofPartitions ps) :=
  ⟨h, Table.counted_of_validate hfits h, Table.ofBytes_toBytes (Table.counted_of_validate hfits h)⟩

theorem sound_of_finish (hfits : ps.length < UInt32.size)
    (h : (finish capacity ps).result = .ok t) : Sound t ∧ OnDevice capacity t := by
  obtain ⟨rfl, hvalid, hends⟩ := finish_eq_ok_iff.mp h
  refine ⟨sound_of_validate hfits hvalid, ?_⟩
  intro x hx
  have hle := hends x hx
  have hlt : x.stop < UInt64.size := Nat.lt_of_le_of_lt hle capacity.toNat_lt
  have hsat := Partition.toNat_stopSat_of_lt hlt
  refine ⟨x.stopSat, Partition.stop?_eq_some_iff.mpr hsat.symm, ?_⟩
  rw [UInt64.le_iff_toNat_le, hsat]
  exact hle

theorem sound_of_editTable (hbase : base.partitions.length < UInt32.size)
    (h : (editTable base es capacity options).result = .ok t) : Sound t ∧ OnDevice capacity t := by
  rw [editTable_result, resume] at h
  obtain ⟨p, hrun, h⟩ := Outcome.bind_eq_ok_iff.mp h
  obtain ⟨settled, hsettle, hfinish⟩ := Outcome.bind_eq_ok_iff.mp h
  rw [Outcome.mapError_eq_ok_iff] at hsettle
  obtain ⟨hcoherent, hlength⟩ : p.Coherent ∧ p.partitions.length < UInt32.size :=
    editAll_keeps (I := fun x => x.Coherent ∧ x.partitions.length < UInt32.size)
      (fun hx hstep => ⟨hx.1.editStep hstep,
        Nat.lt_of_le_of_lt (length_le_of_editStep hx.1 hstep) (Nat.max_lt.mpr ⟨hx.2, by decide⟩)⟩)
      ⟨Placer.coherent_fresh _ _, hbase⟩ hrun
  obtain ⟨-, rfl⟩ := (Placer.settle_eq_ok_iff hcoherent).mp hsettle
  refine sound_of_finish ?_ hfinish
  rw [Placer.length_partitions_resolved]
  exact hlength

theorem sound_of_createTable (h : (createTable ds capacity options).result = .ok t) :
    Sound t ∧ OnDevice capacity t := by
  obtain ⟨base, p, settled, hbase, hrun, hsettle, hfinish⟩ := createTable_eq_ok_iff.mp h
  obtain ⟨hcoherent, hadmissible⟩ := admissible_of_appendAll (admissible_vendorLayout hbase) hrun
  have hsettled := admissible_of_settle hcoherent hadmissible hsettle
  exact sound_of_finish (Nat.lt_of_le_of_lt hsettled.length_le (by decide)) hfinish

theorem sound_of_cloneTable (h : (cloneTable ds).result = .ok t) : Sound t := by
  obtain ⟨hfits, ps, hps, rfl, hvalid⟩ := cloneTable_eq_ok_iff.mp h
  have hadmissible := admissible_of_clonePartitions Admissible.nil (by simpa using hfits) hps
  exact sound_of_validate (Nat.lt_of_le_of_lt hadmissible.length_le (by decide)) hvalid

/-- **No operation makes a table invalid.**  Whatever is asked for, on whatever device and with
whatever options: an edit of a valid table that counts its partitions never fails because its
outcome is invalid, and neither does creating or cloning.  What any of them returns is sound; what
is created or edited lies on the device.

The outcome of an edit is sound also when its base was not valid, as long as 32 bits can count the
base. -/
theorem operations_keep_valid (capacity : UInt64) (options : LayoutOptions) :
    (∀ base es, base.validate = .ok () → base.header.count.toInt = base.partitions.length →
        FailsOnly NotInvalid (editTable base es capacity options)) ∧
      (∀ ds, FailsOnly NotInvalid (createTable ds capacity options)) ∧
      (∀ ds, FailsOnly NotInvalid (cloneTable ds)) ∧
      (∀ base es t, base.partitions.length < UInt32.size →
        (editTable base es capacity options).result = .ok t → Sound t ∧ OnDevice capacity t) ∧
      (∀ ds t, (createTable ds capacity options).result = .ok t → Sound t ∧ OnDevice capacity t) ∧
      ∀ ds t, (cloneTable ds).result = .ok t → Sound t := by
  refine ⟨?_, ?_, ?_, ?_, ?_, ?_⟩
  · intro base es hvalid hcount
    exact failsOnly_editTable (Table.admissible_of_validate hvalid hcount)
  · intro ds
    exact failsOnly_createTable
  · intro ds
    exact failsOnly_cloneTable
  · intro base es t hbase h
    exact sound_of_editTable hbase h
  · intro ds t h
    exact sound_of_createTable h
  · intro ds t h
    exact sound_of_cloneTable h

/-- A table of one partition. -/
def bootTable : Table :=
  Table.ofPartitions [Table.namedSlot "boot" 0x1000]

/-- An edit that places, clones, renames, moves and deletes, with a partition that waits in between.
-/
def bootEditors : List Editor :=
  [.definer ⟨"data", none, none, none⟩, .modifier ⟨.byName "boot", .clone "boot_b"⟩,
    .modifier ⟨.byIndex 0, .adjust ⟨some "boot_a", .keep, .add 1, some 1⟩⟩,
    .modifier ⟨.byIndex (-1), .place (.absolute 0)⟩, .modifier ⟨.byName "data", .delete⟩]

theorem operations_keep_valid_of_bootTable :
    bootTable.validate = .ok () ∧ bootTable.header.count.toInt = bootTable.partitions.length ∧
      FailsOnly NotInvalid (editTable bootTable bootEditors 0x100000 {}) ∧
      ∃ t, (editTable bootTable bootEditors 0x100000 {}).result = .ok t ∧ Sound t ∧
        OnDevice 0x100000 t := by
  obtain ⟨t, ht⟩ : ∃ t, (editTable bootTable bootEditors 0x100000 {}).result = .ok t := by
    apply Outcome.exists_ok_of_isOk
    rw [editTable_result, resume]
    simp only [finish_result]
    decide +kernel
  have hvalid : bootTable.validate = .ok () := by decide +kernel
  have hcount : bootTable.header.count.toInt = bootTable.partitions.length := by decide
  obtain ⟨hedit, -, -, hsound, -, -⟩ := operations_keep_valid 0x100000 {}
  exact ⟨hvalid, hcount, hedit bootTable bootEditors hvalid hcount, t, ht,
    hsound bootTable bootEditors t (by decide) ht⟩

end EmmcLayout.Layout
