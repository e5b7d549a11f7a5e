import EmmcLayout.Proofs.Layout.Modify
import EmmcLayout.Proofs.Layout.Records
import EmmcLayout.Proofs.Table.Validate

/-!
# Edits of record lists

An edit keeps a list of records well formed (`editRecords_wellFormed`): no more records than a table
has slots, under legal and distinct names, and at most one of them takes the rest of the device.
Room and names are an invariant of the single steps (`Orderly`).  How many records take the rest is
not an invariant, since clones and adjustments may add one or take one away; it is what the end of
the edit checks.

The handles follow the record.  To say so, the edit is run on records that remember the place of
the base that they stem from (`Stemmed`).  Modifiers act on them as on any other entries and do not
see the places (`modify_map`), so that forgetting them gives back the edit itself (`follow_result`).
-/

namespace EmmcLayout.Layout

/-! ## Records that remember their place in the base -/

/-- A record and the place of the base that it stems from, if it does. -/
structure Stemmed where
  record : Record
  stem : Option Nat

/-- What a modifier makes of a record stems from where the record does. -/
instance : Entry Stemmed where
  name s := Entry.name s.record
  rename name s := (Entry.rename name s.record).map fun record => { s with record }
  adjust alignment a s :=
    (fun record => { s with record }) <$> Entry.adjust alignment a s.record

theorem entryMap_record : EntryMap Stemmed.record where
  name_eq _ := rfl
  rename_eq name s := by
    show _ = (Except.map _ _).map _
    cases Entry.rename name s.record with
    | error e => rfl
    | ok record => rfl
  adjust_eq alignment a s := by
    show _ = Stemmed.record <$> _ <$> _
    simp

/-- The records of a base, each with its own place. -/
def stems (base : List Record) : List Stemmed :=
  base.zipIdx.map fun (record, place) => ⟨record, some place⟩

/-- One step of an edit.  What a definer appends stems from no record. -/
def followStep (options : LayoutOptions) (entries : List Stemmed) :
    Editor → Outcome (List Stemmed)
  | .definer d => do
    let _ ← editRecordsStep options (entries.map Stemmed.record) (.definer d)
    return entries ++ [⟨recordOf d, none⟩]
  | .modifier m => modify options.alignment entries m

/-- The steps of an edit, one after the other. -/
def follow (options : LayoutOptions) (entries : List Stemmed) :
    List Editor → Outcome (List Stemmed)
  | [] => return entries
  | e :: rest => do
    let entries ← followStep options entries e
    follow options entries rest

variable {options : LayoutOptions} {alignment : UInt64} {base records after : List Record}
  {entries next : List Stemmed} {e : Editor} {es : List Editor} {d : Definer} {m : Modifier}

/-- A definer needs room and a name that is legal and new. -/
theorem editRecordsStep_definer_eq_ok_iff :
    (editRecordsStep options records (.definer d)).result = .ok after ↔
      records.length < maxPartitions ∧ Name.check d.name = .ok () ∧
        d.name ∉ records.map Record.name ∧ after = records ++ [recordOf d] := by
  have htaken : records.any (·.name = d.name) = true ↔ d.name ∈ records.map Record.name := by
    simp
  have hcloned : ∀ cloned, (cloneRecords [d]).result = .ok cloned ↔
      Name.check d.name = .ok () ∧ cloned = [recordOf d] := by
    intro cloned
    rw [cloneRecords_eq_ok_iff]
    constructor
    · rintro ⟨-, hlegal, -, -, rfl⟩
      exact ⟨hlegal d (List.mem_singleton_self d), rfl⟩
    · rintro ⟨hlegal, rfl⟩
      exact ⟨(by decide : 1 ≤ maxPartitions), List.forall_mem_singleton.mpr hlegal,
        List.nodup_singleton _, List.length_filter_le _ _, rfl⟩
  simp only [editRecordsStep, Outcome.fail_bind, Outcome.result_guard_eq_ok_iff,
    Outcome.result_bind_eq_ok_iff, Outcome.lift_grammarExcept, Outcome.result_ofExcept_eq_ok_iff,
    Placer.ensureRoom_eq_ok_iff, hcloned, htaken, Logged.result_pure, Except.ok.injEq]
  constructor
  · rintro ⟨-, hroom, -, ⟨hlegal, rfl⟩, hnew, rfl⟩
    exact ⟨hroom, hlegal, hnew, rfl⟩
  · rintro ⟨hroom, hlegal, hnew, rfl⟩
    exact ⟨(), hroom, _, ⟨hlegal, rfl⟩, hnew, rfl⟩

/-- Forgetting the places gives back the step. -/
theorem followStep_result (entries : List Stemmed) (e : Editor) :
    (followStep options entries e).result.map (List.map Stemmed.record) =
      (editRecordsStep options (entries.map Stemmed.record) e).result := by
  cases e with
  | definer d =>
      rw [followStep, Logged.result_bind]
      cases h : (editRecordsStep options (entries.map Stemmed.record) (.definer d)).result with
      | error e => rfl
      | ok records =>
          obtain ⟨-, -, -, rfl⟩ := editRecordsStep_definer_eq_ok_iff.mp h
          simp
  | modifier m =>
      rw [editRecordsStep, modify_map entryMap_record, Outcome.result_map]
      rfl

/-- Forgetting the places gives back the edit. -/
theorem follow_result (entries : List Stemmed) (es : List Editor) :
    (follow options entries es).result.map (List.map Stemmed.record) =
      (editRecordsAll options (entries.map Stemmed.record) es).result := by
  induction es generalizing entries with
  | nil => rfl
  | cons e es ih =>
      rw [follow, editRecordsAll, Logged.result_bind, Logged.result_bind, ← followStep_result]
      cases (followStep options entries e).result with
      | error e => rfl
      | ok next => exact ih next

/-! ## Room and names -/

/-- Records under legal and distinct names, no more than a table has slots. -/
structure Orderly (records : List Record) : Prop where
  legal : ∀ r ∈ records, Name.check r.name = .ok ()
  distinct : (records.map Record.name).Nodup
  length_le : records.length ≤ maxPartitions

theorem Orderly.subperm (h : Orderly records) (hafter : after.Subperm records) :
    Orderly after where
  legal r hr := h.legal r (hafter.subset hr)
  distinct := List.pairwise_map.mpr
    (pairwise_of_subperm Ne.symm hafter (List.pairwise_map.mp h.distinct))
  length_le := Nat.le_trans hafter.length_le h.length_le

theorem Orderly.append {r : Record} (h : Orderly records) (hroom : records.length < maxPartitions)
    (hlegal : Name.check r.name = .ok ()) (hnew : r.name ∉ records.map Record.name) :
    Orderly (records ++ [r]) where
  legal := List.forall_mem_append.mpr ⟨h.legal, List.forall_mem_singleton.mpr hlegal⟩
  distinct := by
    rw [List.map_append, List.map_singleton, ← List.concat_eq_append]
    exact h.distinct.concat hnew
  length_le := by
    rw [List.length_append, List.length_singleton]
    exact hroom

/-- A record may be exchanged for one of its name, or for one under a new legal name. -/
theorem Orderly.set {r old : Record} {index : Nat} (h : Orderly records)
    (hold : records[index]? = some old) (hlegal : Name.check r.name = .ok ())
    (hname : r.name = old.name ∨ r.name ∉ records.map Record.name) :
    Orderly (records.set index r) where
  legal x hx := by
    rcases List.mem_or_eq_of_mem_set hx with hx | rfl
    · exact h.legal x hx
    · exact hlegal
  distinct := Table.nodup_map_set h.distinct hold hname
  length_le := by
    rw [List.length_set]
    exact h.length_le

/-- A record that is renamed keeps its name, or gets a legal one that no other record has. -/
theorem legal_of_renames {a : Adjustment} {r renamed : Record}
    (hr : Name.check r.name = .ok ()) (h : Renames (records.map Entry.name) a r renamed) :
    Name.check renamed.name = .ok () ∧
      (renamed.name = r.name ∨ renamed.name ∉ records.map Record.name) := by
  rcases h.cases with rfl | ⟨name, hfree, hrename⟩
  · exact ⟨hr, .inl rfl⟩
  · obtain ⟨hlegal, rfl⟩ := rename_record_eq_ok_iff.mp hrename
    exact ⟨hlegal, hfree⟩

theorem Orderly.modify (h : Orderly records)
    (hmodify : (Layout.modify alignment records m).result = .ok after) : Orderly after := by
  cases modified_of_modify hmodify with
  | rearranged hafter => exact h.subperm hafter
  | cloned hroom _ hfree hcopy =>
      obtain ⟨hlegal, rfl⟩ := rename_record_eq_ok_iff.mp hcopy
      exact h.append hroom hlegal hfree
  | adjusted hentry hrenames hadjust =>
      obtain ⟨hlegal, hname⟩ := legal_of_renames (h.legal _ (List.mem_of_getElem? hentry)) hrenames
      obtain ⟨-, size, -, rfl⟩ := adjust_record_eq_ok_iff.mp hadjust
      exact h.set hentry hlegal hname

theorem Orderly.editRecordsStep (h : Orderly records)
    (hstep : (Layout.editRecordsStep options records e).result = .ok after) : Orderly after := by
  cases e with
  | definer d =>
      obtain ⟨hroom, hlegal, hnew, rfl⟩ := editRecordsStep_definer_eq_ok_iff.mp hstep
      exact h.append hroom hlegal hnew
  | modifier m => exact h.modify hstep

theorem Orderly.editRecordsAll (h : Orderly records)
    (hrun : (Layout.editRecordsAll options records es).result = .ok after) : Orderly after := by
  induction es generalizing records with
  | nil =>
      obtain rfl := Except.ok.inj hrun
      exact h
  | cons e es ih =>
      obtain ⟨next, hnext, hrun⟩ := Outcome.result_bind_eq_ok_iff.mp hrun
      exact ih (h.editRecordsStep hnext) hrun

/-! ## Handles -/

/-- The record carries the handles of the record of the base that it stems from; one that a definer
made carries none. -/
def Stemmed.Carries (base : List Record) (s : Stemmed) : Prop :=
  match s.stem with
  | some place => ∃ x, base[place]? = some x ∧ s.record.phandle = x.phandle ∧
    s.record.linuxPhandle = x.linuxPhandle
  | none => s.record.phandle = 0 ∧ s.record.linuxPhandle = 0

/-- Only the handles matter, and the place. -/
theorem Stemmed.Carries.of_eq {s s' : Stemmed} (h : s.Carries base) (hstem : s'.stem = s.stem)
    (hphandle : s'.record.phandle = s.record.phandle)
    (hlinux : s'.record.linuxPhandle = s.record.linuxPhandle) : s'.Carries base := by
  rw [Carries, hstem, hphandle, hlinux]
  exact h

theorem carries_stems (base : List Record) : ∀ s ∈ stems base, s.Carries base := by
  intro s hs
  obtain ⟨⟨x, place⟩, hx, rfl⟩ := List.mem_map.mp hs
  exact ⟨x, List.mem_zipIdx_iff_getElem?.mp hx, rfl, rfl⟩

theorem carries_of_rename {name : String} {s s' : Stemmed} (hs : s.Carries base)
    (h : Entry.rename name s = .ok s') : s'.Carries base := by
  obtain ⟨record, hrecord, rfl⟩ := Outcome.map_eq_ok_iff.mp h
  obtain ⟨-, rfl⟩ := rename_record_eq_ok_iff.mp hrecord
  exact hs.of_eq rfl rfl rfl

theorem carries_of_adjust {a : Adjustment} {s s' : Stemmed} (hs : s.Carries base)
    (h : (Entry.adjust alignment a s).result = .ok s') : s'.Carries base := by
  change ((fun record => { s with record }) <$> Entry.adjust alignment a s.record).result = _ at h
  rw [Outcome.result_map] at h
  obtain ⟨record, hrecord, rfl⟩ := Outcome.map_eq_ok_iff.mp h
  obtain ⟨-, size, -, rfl⟩ := adjust_record_eq_ok_iff.mp hrecord
  exact hs.of_eq rfl rfl rfl

theorem carries_of_followStep (hentries : ∀ s ∈ entries, s.Carries base)
    (h : (followStep options entries e).result = .ok next) : ∀ s ∈ next, s.Carries base := by
  cases e with
  | definer d =>
      obtain ⟨-, -, h⟩ := Outcome.result_bind_eq_ok_iff.mp h
      obtain rfl := Except.ok.inj h
      exact List.forall_mem_append.mpr
        ⟨hentries, List.forall_mem_singleton.mpr ⟨rfl, rfl⟩⟩
  | modifier m => exact forall_mem_of_modify carries_of_rename carries_of_adjust hentries h

theorem carries_of_follow (hentries : ∀ s ∈ entries, s.Carries base)
    (h : (follow options entries es).result = .ok next) : ∀ s ∈ next, s.Carries base := by
  induction es generalizing entries with
  | nil =>
      obtain rfl := Except.ok.inj h
      exact hentries
  | cons e es ih =>
      obtain ⟨entries', hstep, h⟩ := Outcome.result_bind_eq_ok_iff.mp h
      exact ih (carries_of_followStep hentries hstep) h

/-! ## Whole edits -/

theorem record_stems (base : List Record) : (stems base).map Stemmed.record = base := by
  rw [stems, List.map_map]
  exact List.zipIdx_map_fst 0 base

theorem editRecords_eq_ok_iff :
    (editRecords base es options).result = .ok records ↔
      (editRecordsAll options base es).result = .ok records ∧
        (records.filter Record.isAutofill).length ≤ 1 := by
  simp only [editRecords, Outcome.result_bind_eq_ok_iff, Outcome.lift_layoutExcept,
    Outcome.result_ofExcept_eq_ok_iff, checkAutofill_eq_ok_iff, Logged.result_pure,
    Except.ok.injEq]
  constructor
  · rintro ⟨records, hrun, -, hautofill, rfl⟩
    exact ⟨hrun, hautofill⟩
  · rintro ⟨hrun, hautofill⟩
    exact ⟨records, hrun, (), hautofill, rfl⟩

/-- **Edits keep lists of records well formed.**  From at most 32 records under legal and distinct
names an edit makes such a list again, in which at most one record takes the rest of the device.
The same edit can be followed record by record: whatever stems from a record of the base, or from a
clone of one, carries that record's handles. -/
theorem editRecords_wellFormed (hbase : Orderly base)
    (h : (editRecords base es options).result = .ok records) :
    Orderly records ∧ (records.filter Record.isAutofill).length ≤ 1 ∧
      ∃ entries, (follow options (stems base) es).result = .ok entries ∧
        entries.map Stemmed.record = records ∧ ∀ s ∈ entries, s.Carries base := by
  obtain ⟨hrun, hautofill⟩ := editRecords_eq_ok_iff.mp h
  refine ⟨hbase.editRecordsAll hrun, hautofill, ?_⟩
  rw [← record_stems base, ← follow_result] at hrun
  obtain ⟨entries, hfollow, hrecords⟩ := Outcome.map_eq_ok_iff.mp hrun
  exact ⟨entries, hfollow, hrecords, carries_of_follow (carries_stems base) hfollow⟩

/-- Two records with handles; the second takes the rest of the device. -/
def handledRecords : List Record :=
  [{ name := "boot", size := 0x1000, mask := 1, phandle := 3, linuxPhandle := 4 },
    { name := "data", size := autofillSize, mask := 4, phandle := 5 }]

/-- The clone takes the rest of the device as well, until its original is given a size.  The
original gets another name at that, and the clone takes over its old one. -/
def swappingEditors : List Editor :=
  [.modifier ⟨.byName "data", .clone "cache"⟩, .definer ⟨"logs", none, some (.absolute 1), none⟩,
    .modifier ⟨.byIndex 1, .adjust ⟨some "user", .keep, .set 0x2801, none⟩⟩,
    .modifier ⟨.byIndex (-2), .adjust ⟨some "data", .keep, .keep, some 2⟩⟩,
    .modifier ⟨.byName "boot", .place (.relative 2)⟩]

theorem editRecords_wellFormed_of_handledRecords :
    Orderly handledRecords ∧
      ∃ records, (editRecords handledRecords swappingEditors {}).result = .ok records ∧
        records.map Record.name = ["user", "data", "boot", "logs"] ∧
        records.map Record.phandle = [5, 5, 3, 0] ∧ Orderly records ∧
        ∃ entries : List Stemmed, entries.map Stemmed.record = records ∧
          entries.map Stemmed.stem = [some 1, some 1, some 0, none] := by
  have hbase : Orderly handledRecords := ⟨by decide +kernel, by decide, by decide⟩
  obtain ⟨records, hrecords, hlisted⟩ := Outcome.exists_ok_of_any
    (x := (editRecords handledRecords swappingEditors {}).result)
    (p := fun records => decide (records.map Record.name = ["user", "data", "boot", "logs"] ∧
      records.map Record.phandle = [5, 5, 3, 0])) (by decide +kernel)
  obtain ⟨hnames, hhandles⟩ := of_decide_eq_true hlisted
  obtain ⟨horderly, -, entries, hfollow, hentries, -⟩ := editRecords_wellFormed hbase hrecords
  refine ⟨hbase, records, hrecords, hnames, hhandles, horderly, entries, hentries, ?_⟩
  obtain ⟨followed, hfollowed, hstems⟩ := Outcome.exists_ok_of_any
    (x := (follow {} (stems handledRecords) swappingEditors).result)
    (p := fun entries : List Stemmed =>
      decide (entries.map Stemmed.stem = [some 1, some 1, some 0, none])) (by decide +kernel)
  rw [Except.ok.inj (hfollow.symm.trans hfollowed)]
  exact of_decide_eq_true hstems

end EmmcLayout.Layout
