import EmmcLayout.Proofs.Grammar.Modifier
import EmmcLayout.Proofs.Layout.Edit
import EmmcLayout.Proofs.Layout.Modify
import EmmcLayout.Proofs.Table.Validate

/-!
# Which partition a name selects

In a valid table a name belongs to one partition at most, so a selector that is a name finds that
partition and no other (`resolve_byName`).  A name may hold digits and minus signs, though, and
positions are written with the same characters.  A selector that starts with one of them is a
position, whatever names there are.

`delete_selected` says both of the shortest modifier, `^name?`: it takes out the partition of that
name, unless the name starts like a position.  `delete_takes_position` is a table where it then
takes out another one.
-/

namespace EmmcLayout

/-! ## Names of valid tables -/

/-- A legal name can be given as an argument, unless it is empty. -/
theorem Partition.WellNamed.check_name {p : Partition} (hp : p.WellNamed) (hne : p.name ≠ "") :
    Name.check p.name = .ok () := by
  rw [Name.check_eq_ok_iff, hp.encode_name]
  refine ⟨fun hempty => hne ?_, ?_, hp.isNameByte⟩
  · rw [Partition.name, hempty]
    decide +kernel
  · obtain ⟨hzero, -⟩ := (Name.checkField_eq_ok_iff p.rawName).mp hp
    rw [← p.rawName.length_eq]
    refine Nat.lt_of_le_of_ne (List.takeWhile_prefix _).length_le fun hlength => ?_
    have hwhole : p.nameBytes = p.rawName.bytes :=
      (List.takeWhile_prefix _).eq_of_length hlength
    have hall := List.takeWhile_eq_self_iff.mp hwhole 0 hzero
    exact absurd hall (by decide)

namespace Table

variable {t : Table} {p : Partition}

theorem wellNamed_of_validate (h : t.validate = .ok ()) : ∀ p ∈ t.partitions, p.WellNamed := by
  rw [validate] at h
  obtain ⟨⟨⟩, -, hnames⟩ := Outcome.bind_eq_ok_iff.mp h
  exact (validateNames_eq_ok_iff.mp hnames).1

/-- The names of a valid table differ also as texts. -/
theorem nodup_names_of_validate (h : t.validate = .ok ()) :
    (t.partitions.map Partition.name).Nodup := by
  have hnamed := wellNamed_of_validate h
  rw [validate] at h
  obtain ⟨⟨⟩, -, hnames⟩ := Outcome.bind_eq_ok_iff.mp h
  refine List.Nodup.of_map Utf8.encode ?_
  have hencoded : (t.partitions.map Partition.name).map Utf8.encode =
      t.partitions.map Partition.nameBytes := by
    rw [List.map_map]
    exact List.map_congr_left fun p hp => (hnamed p hp).encode_name
  rw [hencoded]
  exact (validateNames_eq_ok_iff.mp hnames).2.1

end Table

namespace Layout

variable {alignment capacity : UInt64} {options : LayoutOptions} {t : Table} {p : Partition}
  {slot : Nat}

/-! ## Selecting -/

/-- Among distinct names, a name selects its own place. -/
theorem resolve_byName {names : List String} {name : String} (hdistinct : names.Nodup)
    (h : names[slot]? = some name) : (Selector.byName name).resolve names = .ok slot := by
  obtain ⟨hslot, hname⟩ := List.getElem?_eq_some_iff.mp h
  have hfirst : names.idxOf? name = some slot := by
    rw [List.idxOf?_eq_some_iff]
    refine ⟨hslot, hname, fun j hj heq => ?_⟩
    have hsame := (List.Nodup.getElem_inj_iff hdistinct).mp (heq.trans hname.symm)
    omega
  simp only [Selector.resolve, hfirst]

/-- An edit by one modifier applies it to the partitions and checks the table as a whole. -/
theorem editTable_modifier (base : Table) (m : Modifier) :
    (editTable base [.modifier m] capacity options).result = (do
      let partitions ← (modify options.alignment base.partitions m).result
      (finish capacity partitions).result) := by
  have hsettle : ∀ p : Placer, p.waiting = none → (p.settle options).result = .ok p :=
    fun _ => Placer.settle_of_settled
  have hpartitions : (Placer.fresh capacity base.partitions).partitions = base.partitions := rfl
  rw [editTable_result, resume, editAll, editStep]
  simp only [Logged.result_bind, Outcome.lift_layout, Outcome.result_ofLogged,
    hsettle (Placer.fresh capacity base.partitions) rfl, Outcome.mapError_ok, Outcome.ok_bind,
    hpartitions]
  cases (modify options.alignment base.partitions m).result with
  | error e => rfl
  | ok partitions =>
    simp only [Outcome.ok_bind, Logged.result_pure, editAll,
      hsettle ((Placer.fresh capacity base.partitions).resync partitions) rfl, Outcome.mapError_ok]
    rfl

/-! ## Deleting by name -/

/-- The argument that deletes what the text selects. -/
def deletionArgument (text : String) : String :=
  "^" ++ text ++ "?"

theorem toList_deletionArgument (text : String) :
    (deletionArgument text).toList = '^' :: (text.toList ++ ['?']) := by
  simp [deletionArgument]

theorem parseEditor_deletionArgument (text : String) :
    Grammar.parseEditor .editTable (deletionArgument text) = (do
      let m ← Grammar.parseModifier true (deletionArgument text)
      return .modifier m) := by
  unfold Grammar.parseEditor
  rw [toList_deletionArgument]
  rfl

/-- A legal name that does not start like a position is read as a name. -/
theorem parseEditor_of_name {name : String} (hname : Name.check name = .ok ())
    (h : startsLikePosition name = false) :
    Grammar.parseEditor .editTable (deletionArgument name) =
      pure (.modifier ⟨.byName name, .delete⟩) := by
  have htext : deletionArgument name = Modifier.text ⟨.byName name, .delete⟩ := by
    rw [← String.toList_inj, toList_deletionArgument]
    simp [Modifier.text, Selector.text, Operation.operator, Operation.operand]
  have hplain : (Selector.byName name).Plain := ⟨hname, h⟩
  have hread : Grammar.parseModifier true (Modifier.text ⟨.byName name, .delete⟩) =
      pure ⟨.byName name, .delete⟩ := Grammar.parseModifier_of_plain hplain trivial
  rw [parseEditor_deletionArgument, htext, hread, pure_bind]

/-- One that does is read as a position, or refused. -/
theorem parseEditor_of_position {name : String} (hname : Name.check name = .ok ())
    (h : startsLikePosition name = true) :
    (Grammar.parseEditor .editTable (deletionArgument name)).result =
      (parseI64 name).map fun index => .modifier ⟨.byIndex index, .delete⟩ := by
  have hne : name.toList ≠ [] := by simpa using Name.ne_empty_of_check hname
  rw [parseEditor_deletionArgument,
    Grammar.parseModifier_of_split (toList_deletionArgument name) hne
      (fun c => Grammar.isOperator_of_mem_name hname) rfl,
    String.ofList_toList, Grammar.parseSelector_of_position h]
  cases parseI64 name <;> rfl

theorem modify_delete_byName (hdistinct : (t.partitions.map Partition.name).Nodup)
    (hp : t.partitions[slot]? = some p) :
    (modify alignment t.partitions ⟨.byName p.name, .delete⟩).result =
      .ok (t.partitions.eraseIdx slot) := by
  have hname : (t.partitions.map Partition.name)[slot]? = some p.name := by
    rw [List.getElem?_map, hp]
    rfl
  exact modify_eq_ok_iff.mpr
    ⟨slot, p, resolve_byName hdistinct hname, hp, operate_delete_iff.mpr rfl⟩

theorem name_ne_of_mem_eraseIdx (hdistinct : (t.partitions.map Partition.name).Nodup)
    (hp : t.partitions[slot]? = some p) :
    ∀ q ∈ t.partitions.eraseIdx slot, q.name ≠ p.name := by
  intro q hq heq
  obtain ⟨i, hne, hi⟩ := List.mem_eraseIdx_iff_getElem?.mp hq
  have hnames : ∀ {j : Nat} {x : Partition}, t.partitions[j]? = some x →
      (t.partitions.map Partition.name)[j]? = some x.name := by
    intro j x hx
    rw [List.getElem?_map, hx]
    rfl
  have hlt : slot < (t.partitions.map Partition.name).length :=
    (List.getElem?_eq_some_iff.mp (hnames hp)).1
  have hsame := (List.getElem?_inj hlt hdistinct).mp ((hnames hp).trans (heq ▸ (hnames hi).symm))
  exact hne hsame.symm

/-- **Deleting by name.**  Let a valid table have a partition with a name.  When the name does not
start like a position, the argument that deletes it is read without a warning, takes exactly this
partition out, and leaves all others in their order; no other one has its name.  When the name
starts like a position, the argument is read as that position, whatever partition is there. -/
theorem delete_selected (hvalid : t.validate = .ok ()) (hp : t.partitions[slot]? = some p)
    (hne : p.name ≠ "") :
    (startsLikePosition p.name = false →
      ∃ m, Grammar.parseEditor .editTable (deletionArgument p.name) = pure (.modifier m) ∧
        (∀ alignment, (modify alignment t.partitions m).result =
          .ok (t.partitions.eraseIdx slot)) ∧
        (∀ capacity options, (editTable t [.modifier m] capacity options).result =
          (finish capacity (t.partitions.eraseIdx slot)).result) ∧
        ∀ q ∈ t.partitions.eraseIdx slot, q.name ≠ p.name) ∧
    (startsLikePosition p.name = true →
      (Grammar.parseEditor .editTable (deletionArgument p.name)).result =
        (parseI64 p.name).map fun index => .modifier ⟨.byIndex index, .delete⟩) := by
  have hdistinct := Table.nodup_names_of_validate hvalid
  have hname : Name.check p.name = .ok () :=
    (Table.wellNamed_of_validate hvalid p (List.mem_of_getElem? hp)).check_name hne
  refine ⟨fun h => ⟨⟨.byName p.name, .delete⟩, parseEditor_of_name hname h, ?_, ?_, ?_⟩,
    parseEditor_of_position hname⟩
  · exact fun alignment => modify_delete_byName hdistinct hp
  · intro capacity options
    rw [editTable_modifier, modify_delete_byName hdistinct hp, Outcome.ok_bind]
  · exact name_ne_of_mem_eraseIdx hdistinct hp

/-- Two partitions; the second has the position of the first one for its name. -/
def numberedTable : Table :=
  Table.ofPartitions [Table.namedSlot "boot" 0x1000,
    { Table.namedSlot "0" 0x1000 with offset := 0x1000 }]

/-- The name of the second partition, as an argument, deletes the first one. -/
theorem delete_takes_position :
    numberedTable.validate = .ok () ∧
      numberedTable.partitions.map Partition.name = ["boot", "0"] ∧
      (Grammar.parseEditor .editTable (deletionArgument "0")).result =
        .ok (.modifier ⟨.byIndex 0, .delete⟩) ∧
      (modify 0 numberedTable.partitions ⟨.byIndex 0, .delete⟩).result =
        .ok (numberedTable.partitions.eraseIdx 0) ∧
      ¬ ∃ m, (Grammar.parseEditor .editTable (deletionArgument "0")).result = .ok (.modifier m) ∧
        (modify 0 numberedTable.partitions m).result =
          .ok (numberedTable.partitions.eraseIdx 1) := by
  have hread : (Grammar.parseEditor .editTable (deletionArgument "0")).result =
      .ok (.modifier ⟨.byIndex 0, .delete⟩) := by decide +kernel
  have hdelete : (modify 0 numberedTable.partitions ⟨.byIndex 0, .delete⟩).result =
      .ok (numberedTable.partitions.eraseIdx 0) := by decide +kernel
  refine ⟨by decide +kernel, by decide +kernel, hread, hdelete, ?_⟩
  rintro ⟨m, hm, hother⟩
  obtain rfl := Editor.modifier.inj (Except.ok.inj (hread.symm.trans hm))
  exact absurd (Except.ok.inj (hdelete.symm.trans hother)) (by decide +kernel)

theorem delete_selected_of_numberedTable :
    numberedTable.validate = .ok () ∧
      numberedTable.partitions.map Partition.name = ["boot", "0"] ∧
      startsLikePosition "boot" = false ∧
      ∃ m, Grammar.parseEditor .editTable (deletionArgument "boot") = pure (.modifier m) ∧
        (modify 0x1000 numberedTable.partitions m).result =
          .ok (numberedTable.partitions.eraseIdx 0) := by
  have hvalid : numberedTable.validate = .ok () := by decide +kernel
  have hp : numberedTable.partitions[0]? = some (Table.namedSlot "boot" 0x1000) := rfl
  have hname : (Table.namedSlot "boot" 0x1000).name = "boot" := by decide +kernel
  have hposition : startsLikePosition "boot" = false := by decide
  obtain ⟨m, hread, hdelete, -, -⟩ :=
    (delete_selected hvalid hp (by rw [hname]; decide)).1 (by rw [hname]; exact hposition)
  rw [hname] at hread
  exact ⟨hvalid, by decide +kernel, hposition, m, hread, hdelete 0x1000⟩

end Layout

end EmmcLayout
