import EmmcLayout.Proofs.Grammar.Definer
import EmmcLayout.Proofs.Layout.Validity
import EmmcLayout.Table.Report

/-!
# Snapshots of tables clone back

A snapshot writes every partition as one argument.  Each argument reads as the definer that says all
of its partition (`parseDefiner_argument`), and cloning those definers makes the same partitions
again (`clonePartitions_definers`).  `snapshot_clones_back` puts the two together for the three
styles of number.

The partitions have to be what a new partition can be: a legal name with zeros behind it, no
padding, and a mask that the grammar knows.
-/

namespace EmmcLayout.Table

open Grammar (IsMask)

variable {literal : UInt64 → String} {p : Partition} {ps done : List Partition} {t : Table}

/-- The definer that says all of a partition. -/
def definer (p : Partition) : Definer :=
  ⟨p.name, some (.absolute p.offset), some (.absolute p.size), some p.mask⟩

/-- The partition is what creating one makes of its own fields. -/
def Created (p : Partition) : Prop :=
  Partition.create p.name p.offset p.size p.mask = .ok p

theorem created_of_create {name : String} {offset size : UInt64} {mask : UInt32}
    (h : Partition.create name offset size mask = .ok p) : Created p := by
  have hname := Partition.name_of_create h
  obtain ⟨-, hp⟩ := Partition.create_eq_ok_iff.mp h
  rw [Created, hname]
  rw [hp] at h ⊢
  exact h

theorem Created.check_name (hp : Created p) : Name.check p.name = .ok () :=
  (Partition.create_eq_ok_iff.mp hp).1

/-! ## Arguments -/

/-- The argument of a partition reads as its definer. -/
theorem parseDefiner_argument (hs : Style literal) (hp : Created p) (hmask : IsMask p.mask) :
    Grammar.parseDefiner .cloneTable (argument literal p) = .ok (definer p) := by
  have hname := hp.check_name
  have hnameEmpty := Name.ne_empty_of_check hname
  have hmaskEmpty := Literal.toString_ne_empty p.mask.toNat
  have hfields := Grammar.fields_of_parts
    (Name.notMem_of_check hname ⟨0x3A, by decide, by decide⟩)
    (hs.notMem (c := ':') (by decide) p.offset) (hs.notMem (c := ':') (by decide) p.size)
    (toString p.mask.toNat)
  simp only [Grammar.parseDefiner, argument, hfields, Outcome.ok_bind, hnameEmpty, hmaskEmpty,
    hs.ne_empty, Grammar.checkPresence_of_ne_empty, DefinerRules.cloneTable, ne_eq,
    not_false_eq_true, if_true, if_false, Grammar.checkName_of_check hname,
    Grammar.parseAmount_of_style hs, Grammar.parseMask_toString hmask]
  rfl

theorem notMem_argument (hs : Style literal) (hp : Created p) :
    ' ' ∉ (argument literal p).toList := by
  have hname : ' ' ∉ p.name.toList :=
    Name.notMem_of_check hp.check_name ⟨0x20, by decide, by decide⟩
  have hoffset := hs.notMem (c := ' ') (by decide) p.offset
  have hsize := hs.notMem (c := ' ') (by decide) p.size
  have hmask := Literal.notMem_toString (c := ' ') (by decide) p.mask.toNat
  simp only [argument, String.toList_append, List.mem_append, hname, hoffset, hsize, hmask]
  decide

theorem mapM_parseDefiner (hs : Style literal) (hps : ∀ p ∈ ps, Created p ∧ IsMask p.mask) :
    (ps.map (argument literal)).mapM (Grammar.parseDefiner .cloneTable) = .ok (ps.map definer) :=
  Grammar.mapM_parseDefiner fun p hp => parseDefiner_argument hs (hps p hp).1 (hps p hp).2

/-! ## Cloning -/

/-- Cloning the definers of partitions under distinct names makes those partitions. -/
theorem clonePartitions_definers (hps : ∀ p ∈ ps, Created p)
    (hdistinct : ((done ++ ps).map Partition.nameBytes).Nodup) :
    Layout.clonePartitions done (ps.map definer) = .ok (done ++ ps) := by
  induction ps generalizing done with
  | nil => rw [List.map_nil, List.append_nil, Layout.clonePartitions]
  | cons p ps ih =>
      obtain ⟨hp, hps⟩ := List.forall_mem_cons.mp hps
      rw [List.map_cons, Layout.clonePartitions_cons_eq_ok_iff]
      have hfresh : ∀ x ∈ done, ¬ x.isNamed p.name = true := by
        intro x hx hnamed
        rw [List.map_append, List.map_cons, List.nodup_append] at hdistinct
        refine hdistinct.2.2 x.nameBytes (List.mem_map_of_mem hx) p.nameBytes
          List.mem_cons_self ?_
        rw [Partition.isNamed_iff.mp hnamed, Partition.nameBytes_of_create hp]
      refine ⟨hfresh, p, hp, ?_⟩
      have hrest : Layout.clonePartitions (done ++ [p]) (ps.map definer) =
          .ok (done ++ [p] ++ ps) := ih hps (by simpa using hdistinct)
      rw [hrest, List.append_assoc, List.singleton_append]

theorem cloneTable_definers (hlength : ps.length ≤ maxPartitions) (hps : ∀ p ∈ ps, Created p)
    (hdistinct : (ps.map Partition.nameBytes).Nodup) :
    (Layout.cloneTable (ps.map definer)).result = .ok (ofPartitions ps) := by
  have hclone : Layout.clonePartitions [] (ps.map definer) = .ok ([] ++ ps) :=
    clonePartitions_definers hps hdistinct
  rw [Layout.cloneTable_eq_ok_iff, List.length_map]
  refine ⟨hlength, ps, hclone, rfl, ?_⟩
  rw [validate_ofPartitions_iff hlength]
  exact ⟨fun p hp => Partition.wellNamed_of_create (hps p hp), hdistinct, hlength⟩

/-! ## Snapshots -/

/-- **Snapshots clone back.**  Whatever the offsets and sizes of a table are, each of the three
styles of its snapshot, split at blanks, reads as definers that clone the table. -/
theorem snapshot_clones_back (hne : t.partitions ≠ [])
    (hlength : t.partitions.length ≤ maxPartitions)
    (hbuilt : ∀ p ∈ t.partitions, ∃ name offset size mask,
      Partition.create name offset size mask = .ok p)
    (hdistinct : (t.partitions.map Partition.name).Nodup)
    (hmask : ∀ p ∈ t.partitions, IsMask p.mask) (hheader : t.updateHeader = t) :
    ∀ style ∈ t.snapshot.styles, ∃ ds,
      Grammar.parseDefiners .cloneTable (Snapshot.arguments style) = .ok ds ∧
        (Layout.cloneTable ds).result = .ok t := by
  have hcreated : ∀ p ∈ t.partitions, Created p := by
    intro p hp
    obtain ⟨name, offset, size, mask, h⟩ := hbuilt p hp
    exact created_of_create h
  have hnames : (t.partitions.map Partition.nameBytes).Nodup := by
    refine List.Nodup.of_map Utf8.decodeLossy ?_
    rw [List.map_map]
    exact hdistinct
  have hstyle : ∀ literal, Style literal → ∃ ds,
      Grammar.parseDefiners .cloneTable (Snapshot.arguments
        (" ".intercalate (t.partitions.map (argument literal)))) = .ok ds ∧
        (Layout.cloneTable ds).result = .ok t := by
    intro literal hs
    refine ⟨t.partitions.map definer, ?_, ?_⟩
    · have hblanks : ∀ arg ∈ t.partitions.map (argument literal), ' ' ∉ arg.toList := by
        intro arg harg
        obtain ⟨p, hp, rfl⟩ := List.mem_map.mp harg
        exact notMem_argument hs (hcreated p hp)
      rw [Snapshot.arguments_intercalate (by simpa using hne) hblanks, Grammar.parseDefiners,
        if_neg (by rw [List.length_map]; omega)]
      exact mapM_parseDefiner hs fun p hp => ⟨hcreated p hp, hmask p hp⟩
    · have htable : ofPartitions t.partitions = t := hheader
      rw [cloneTable_definers hlength hcreated hnames, htable]
  intro style hmem
  simp only [snapshot, Snapshot.styles, Snapshot.ofItems, List.mem_cons, List.not_mem_nil,
    or_false] at hmem
  rcases hmem with rfl | rfl | rfl
  · exact hstyle _ style_decimalLiteral
  · exact hstyle _ style_hexLiteral
  · exact hstyle _ style_sizeLiteral

/-- Two partitions, at the ends of the word. -/
def snapshotTable : Table :=
  ofPartitions [namedSlot "boot_a" 0x900000, { namedSlot "data" 0xFFFFFFFFFFFFFFFF with
    offset := 0xFFFFFFFFFFFFFFFE, mask := 4 }]

theorem snapshot_clones_back_of_snapshotTable :
    snapshotTable.snapshot.styles =
        ["boot_a:0:9437184:0 data:18446744073709551614:18446744073709551615:4",
          "boot_a:0x0:0x900000:0 data:0xfffffffffffffffe:0xffffffffffffffff:4",
          "boot_a:0:9M:0 data:18446744073709551614:18446744073709551615:4"] ∧
      ∀ style ∈ snapshotTable.snapshot.styles, ∃ ds,
        Grammar.parseDefiners .cloneTable (Snapshot.arguments style) = .ok ds ∧
          (Layout.cloneTable ds).result = .ok snapshotTable := by
  refine ⟨by decide +kernel,
    snapshot_clones_back (by decide) (by decide) ?_ (by decide +kernel) ?_ rfl⟩
  · simp only [snapshotTable, ofPartitions, List.forall_mem_cons, List.not_mem_nil]
    exact ⟨⟨"boot_a", 0, 0x900000, 0, rfl⟩,
      ⟨"data", 0xFFFFFFFFFFFFFFFE, 0xFFFFFFFFFFFFFFFF, 4, rfl⟩, by simp⟩
  · simp [snapshotTable, ofPartitions, IsMask, namedSlot, Partition.blank]

end EmmcLayout.Table
