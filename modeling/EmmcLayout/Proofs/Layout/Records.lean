import EmmcLayout.Layout.Records
import EmmcLayout.Proofs.Grammar.Definer

/-!
# Cloning record lists

`cloneRecords_eq_ok_iff` says which definers can be cloned and what comes of them.  A snapshot of a
list of records reads as definers that say all but the handles (`parseDefiner_argument`), so that
cloning them makes the records again: `snapshot_restores`.  A record that takes the rest of the
device is written by its size, the greatest word, and reads back as one that does.
-/

namespace EmmcLayout

open Grammar (IsMask)

namespace Layout

variable {done records : List Record} {ds : List Definer}

/-! ## Cloning -/

/-- Definers under legal names become records as long as all names are distinct. -/
theorem collectRecords_eq_ok_iff (hdone : (done.map Record.name).Nodup) :
    collectRecords done ds = .ok records ↔
      (∀ d ∈ ds, Name.check d.name = .ok ()) ∧
        (done.map Record.name ++ ds.map Definer.name).Nodup ∧
        records = done ++ ds.map recordOf := by
  induction ds generalizing done with
  | nil => simp [collectRecords, hdone, eq_comm]
  | cons d ds ih =>
      have hany : done.any (·.name = d.name) = true ↔ d.name ∈ done.map Record.name := by
        simp
      rw [collectRecords]
      by_cases htaken : d.name ∈ done.map Record.name
      · rw [if_pos (hany.mpr htaken)]
        have hnot : ¬ (done.map Record.name ++ (d :: ds).map Definer.name).Nodup := by
          intro h
          exact (List.nodup_append.mp h).2.2 _ htaken _ (by simp) rfl
        simp only [hnot, false_and, and_false, reduceCtorEq]
      · rw [if_neg (mt hany.mp htaken)]
        have hnext : ((done ++ [recordOf d]).map Record.name).Nodup := by
          rw [List.map_append, List.nodup_append]
          refine ⟨hdone, List.nodup_singleton _, ?_⟩
          intro name hname other hother heq
          rw [List.map_singleton, List.mem_singleton] at hother
          rw [heq, hother] at hname
          exact htaken hname
        cases hcheck : Name.check d.name with
        | error reason => simp [hcheck]
        | ok u =>
            show collectRecords (done ++ [recordOf d]) ds = .ok records ↔ _
            rw [ih hnext, List.forall_mem_cons, hcheck]
            simp [recordOf]

theorem checkAutofill_eq_ok_iff {u : Unit} :
    checkAutofill records = .ok u ↔ (records.filter Record.isAutofill).length ≤ 1 := by
  unfold checkAutofill
  rcases records.filter Record.isAutofill with _ | ⟨first, _ | ⟨second, rest⟩⟩
  · simp
  · simp
  · simp

/-- Definers can be cloned when a table has room for them, their names are legal and distinct, and
at most one takes the rest of the device. -/
theorem cloneRecords_eq_ok_iff :
    (cloneRecords ds).result = .ok records ↔
      ds.length ≤ maxPartitions ∧ (∀ d ∈ ds, Name.check d.name = .ok ()) ∧
        (ds.map Definer.name).Nodup ∧ (records.filter Record.isAutofill).length ≤ 1 ∧
        records = ds.map recordOf := by
  have hcollect : ∀ cloned, collectRecords [] ds = .ok cloned ↔
      (∀ d ∈ ds, Name.check d.name = .ok ()) ∧ (ds.map Definer.name).Nodup ∧
        cloned = ds.map recordOf :=
    fun cloned => collectRecords_eq_ok_iff List.nodup_nil
  unfold cloneRecords
  simp only [Outcome.fail_bind, Outcome.result_guard_eq_ok_iff, Outcome.result_bind_eq_ok_iff,
    Outcome.lift_grammarExcept, Outcome.lift_layoutExcept, Outcome.result_ofExcept_eq_ok_iff,
    Nat.not_lt, checkAutofill_eq_ok_iff, hcollect]
  constructor
  · rintro ⟨hlength, cloned, ⟨hnames, hdistinct, hcloned⟩, -, hautofill, h⟩
    obtain rfl := Except.ok.inj h
    exact ⟨hlength, hnames, hdistinct, hautofill, hcloned⟩
  · rintro ⟨hlength, hnames, hdistinct, hautofill, hcloned⟩
    exact ⟨hlength, records, ⟨hnames, hdistinct, hcloned⟩, (), hautofill, rfl⟩

end Layout

namespace Record

variable {literal : UInt64 → String} {r : Record} {records : List Record}

/-! ## Arguments -/

/-- The definer that says all of a record but its handles. -/
def definer (r : Record) : Definer :=
  ⟨r.name, none, some (.absolute r.size), some r.mask⟩

/-- The argument of a record reads as its definer. -/
theorem parseDefiner_argument (hs : Style literal) (hname : Name.check r.name = .ok ())
    (hmask : IsMask r.mask) :
    Grammar.parseDefiner .cloneRecords (argument literal r) = .ok (definer r) := by
  have hnameEmpty := Name.ne_empty_of_check hname
  have hmaskEmpty := Literal.toString_ne_empty r.mask.toNat
  have hargument : argument literal r =
      r.name ++ ":" ++ "" ++ ":" ++ literal r.size ++ ":" ++ toString r.mask.toNat := by
    have hcolons : r.name ++ "::" = r.name ++ ":" ++ "" ++ ":" := by
      rw [String.append_empty, String.append_assoc]
      rfl
    rw [argument, hcolons]
  have hempty : ':' ∉ ("" : String).toList := by simp
  have hfields := Grammar.fields_of_parts
    (Name.notMem_of_check hname ⟨0x3A, by decide, by decide⟩)
    hempty (hs.notMem (c := ':') (by decide) r.size) (toString r.mask.toNat)
  simp only [Grammar.parseDefiner, hargument, hfields, Outcome.ok_bind, hnameEmpty, hmaskEmpty,
    hs.ne_empty, Grammar.checkPresence_of_ne_empty, DefinerRules.cloneRecords, ne_eq,
    not_false_eq_true, if_true, if_false, Grammar.checkName_of_check hname,
    Grammar.parseAmount_of_style hs, Grammar.parseMask_toString hmask]
  rfl

theorem notMem_argument (hs : Style literal) (hname : Name.check r.name = .ok ()) :
    ' ' ∉ (argument literal r).toList := by
  have hblank : ' ' ∉ r.name.toList := Name.notMem_of_check hname ⟨0x20, by decide, by decide⟩
  have hsize := hs.notMem (c := ' ') (by decide) r.size
  have hmask := Literal.notMem_toString (c := ' ') (by decide) r.mask.toNat
  simp only [argument, String.toList_append, List.mem_append, hblank, hsize, hmask]
  decide

/-! ## Comparing -/

/-- The two say the same of a partition; only the handles may differ. -/
structure Same (a b : Record) : Prop where
  name_eq : a.name = b.name
  size_eq : a.size = b.size
  mask_eq : a.mask = b.mask

theorem Same.isAutofill_eq {a b : Record} (h : Same a b) : a.isAutofill = b.isAutofill := by
  rw [isAutofill, isAutofill, h.size_eq]

theorem Same.differences_eq {a b : Record} (h : Same a b) : differences a b = 0 := by
  simp [differences, h.name_eq, h.size_eq, h.mask_eq]

theorem foldl_differences_of_same {as bs : List Record} (h : List.Forall₂ Same as bs) :
    (as.zip bs).foldl (fun d (x, y) => d ||| differences x y) 0 = 0 := by
  induction h with
  | nil => rfl
  | @cons a b _ _ hab _ ih =>
      have hnone : 0 ||| differences a b = 0 := by rw [hab.differences_eq, UInt32.or_zero]
      rw [List.zip_cons_cons, List.foldl_cons]
      show List.foldl _ (0 ||| differences a b) _ = 0
      rw [hnone]
      exact ih

theorem compareLists_of_same {as bs : List Record} (h : List.Forall₂ Same as bs) :
    compareLists as bs = 0 := by
  rw [compareLists, foldl_differences_of_same h, h.length_eq, Nat.max_self, Nat.min_self,
    Nat.sub_self]
  rfl

/-! ## Snapshots -/

/-- Cloning the definer of a record loses nothing but its handles. -/
theorem same_recordOf_definer (r : Record) : Same (Layout.recordOf (definer r)) r :=
  ⟨rfl, rfl, rfl⟩

/-- **Snapshots of records clone back.**  Each of the three styles, split at blanks, reads as
definers whose clones are the records again, in order: names, sizes and masks, and which one takes
the rest of the device. -/
theorem snapshot_restores (hne : records ≠ []) (hlength : records.length ≤ maxPartitions)
    (hnames : ∀ r ∈ records, Name.check r.name = .ok ())
    (hdistinct : (records.map Record.name).Nodup) (hmask : ∀ r ∈ records, IsMask r.mask)
    (hautofill : (records.filter Record.isAutofill).length ≤ 1) :
    ∀ style ∈ (snapshot records).styles, ∃ ds clones,
      Grammar.parseDefiners .cloneRecords (Snapshot.arguments style) = .ok ds ∧
        (Layout.cloneRecords ds).result = .ok clones ∧
        List.Forall₂ Same clones records ∧ compareLists clones records = 0 ∧
        clones.map isAutofill = records.map isAutofill := by
  intro style hstyle
  have hread : Grammar.parseDefiners .cloneRecords (Snapshot.arguments style) =
      .ok (records.map definer) := by
    refine Snapshot.parseDefiners_of_styles hne hlength ?_ style hstyle
    intro literal hs r hr
    exact ⟨notMem_argument hs (hnames r hr), parseDefiner_argument hs (hnames r hr) (hmask r hr)⟩
  have hsame : List.Forall₂ Same ((records.map definer).map Layout.recordOf) records := by
    rw [List.map_map, List.forall₂_map_left_iff]
    exact List.forall₂_same.mpr fun r _ => same_recordOf_definer r
  have hfills : ((records.map definer).map Layout.recordOf).map isAutofill =
      records.map isAutofill := by
    rw [List.map_map, List.map_map]
    exact List.map_congr_left fun r _ => (same_recordOf_definer r).isAutofill_eq
  refine ⟨_, _, hread, ?_, hsame, compareLists_of_same hsame, hfills⟩
  rw [Layout.cloneRecords_eq_ok_iff, List.length_map, List.map_map]
  refine ⟨hlength, ?_, hdistinct, ?_, rfl⟩
  · intro d hd
    obtain ⟨r, hr, rfl⟩ := List.mem_map.mp hd
    exact hnames r hr
  · rw [← List.countP_eq_length_filter] at hautofill
    rw [← List.countP_eq_length_filter, List.countP_map, List.countP_map]
    exact hautofill

/-- A record of size zero that has handles, and one that takes the rest of the device. -/
def snapshotRecords : List Record :=
  [{ name := "env-2", size := 0, mask := 0, phandle := 7, linuxPhandle := 7 },
    { name := "data", size := autofillSize, mask := 4 }]

theorem snapshot_restores_of_snapshotRecords :
    (snapshot snapshotRecords).styles =
        ["env-2::0:0 data::18446744073709551615:4", "env-2::0x0:0 data::0xffffffffffffffff:4",
          "env-2::0:0 data::18446744073709551615:4"] ∧
      ∀ style ∈ (snapshot snapshotRecords).styles, ∃ ds clones,
        Grammar.parseDefiners .cloneRecords (Snapshot.arguments style) = .ok ds ∧
          (Layout.cloneRecords ds).result = .ok clones ∧
          List.Forall₂ Same clones snapshotRecords ∧ compareLists clones snapshotRecords = 0 ∧
          clones.map isAutofill = [false, true] :=
  ⟨by decide +kernel, snapshot_restores (by decide) (by decide) (by decide) (by decide)
    (by simp [snapshotRecords, IsMask]) (by decide)⟩

end Record

end EmmcLayout
