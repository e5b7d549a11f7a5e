import EmmcLayout.Proofs.Layout.Creation
import EmmcLayout.Proofs.Layout.Edit
import EmmcLayout.Proofs.Layout.Modify

/-!
# Edits keep tables aligned

`editTable_keeps_alignment`: a table whose offsets and sizes are multiples of the alignment stays
one, whatever the editors ask for.

Only some of the places where an offset or a size is written round it.  A definer is rounded up and
so is a field that an adjustment changes, but a field that is kept, a clone and a moved entry are
taken as they are, and the partitions behind one that waited are shifted by its size, which is
aligned because it was rounded down (`aligned_resolved`).
-/

namespace EmmcLayout.Layout

variable {options : LayoutOptions} {alignment capacity : UInt64} {p q : Placer}
  {ps qs : List Partition} {es : List Editor} {base t : Table}

/-! ## Placing and settling -/

theorem aligned_of_append {d : Definer} (hp : ∀ x ∈ p.partitions, x.AlignedTo options.alignment)
    (h : (p.append options d).result = .ok q) :
    ∀ x ∈ q.partitions, x.AlignedTo options.alignment := by
  obtain ⟨part, haccepts, rfl⟩ := Placer.append_eq_ok_iff.mp h
  rw [Placer.partitions_push]
  exact List.forall_mem_append.mpr
    ⟨hp, List.forall_mem_singleton.mpr haccepts.fulfils.alignedTo⟩

/-- An aligned size moves aligned partitions to aligned places. -/
theorem aligned_resolved (hc : p.Coherent) (hp : ∀ x ∈ p.partitions, x.AlignedTo alignment)
    {amount : UInt64} (hamount : Aligned alignment.toNat amount.toNat)
    (hfits : p.waiting ≠ none → p.cursor.nextFree.toNat + amount.toNat < UInt64.size) :
    ∀ x ∈ (p.resolved amount).partitions, x.AlignedTo alignment := by
  cases hw : p.waiting with
  | none =>
      rw [Placer.resolved_of_none hw]
      exact hp
  | some w =>
      replace hfits := hfits (by simp [hw])
      rw [Placer.partitions_of_waiting hw, List.forall_mem_append, List.forall_mem_cons] at hp
      obtain ⟨hplaced, hwaiting, hbehind⟩ := hp
      rw [Placer.resolved_of_some hw, Placer.partitions, List.forall_mem_append,
        List.forall_mem_cons, List.forall_mem_map]
      exact ⟨hplaced, hwaiting.with_size hamount, fun x hx =>
        (hbehind x hx).shift hamount (hc.behind_fits hw hfits x hx)⟩

theorem aligned_of_settle (hc : p.Coherent)
    (hp : ∀ x ∈ p.partitions, x.AlignedTo options.alignment)
    (h : (p.settle options).result = .ok q) :
    ∀ x ∈ q.partitions, x.AlignedTo options.alignment := by
  obtain ⟨hle, rfl⟩ := (Placer.settle_eq_ok_iff hc).mp h
  exact aligned_resolved hc hp (Placer.aligned_room options p) (Placer.room_fits options hle)

/-! ## Modifiers -/

theorem aligned_of_rename {name : String} {x y : Partition} (hx : x.AlignedTo alignment)
    (h : Partition.rename name x = .ok y) : y.AlignedTo alignment := by
  obtain ⟨-, rfl⟩ := Partition.rename_eq_ok_iff.mp h
  exact ⟨hx.offset, hx.size⟩

/-- A field that is kept stays as it is, and one that is changed is rounded up. -/
theorem changeField_eq_ok_iff {name : String} {field : Field} {value w : UInt64}
    {change : Change} :
    (changeField name field value change alignment).result = .ok w ↔
      ∃ changed, change.apply value = some changed ∧
        if change = .keep then w = changed
        else w.toNat = roundUp alignment.toNat changed.toNat := by
  unfold changeField
  cases happly : change.apply value with
  | none =>
      cases change with
      | keep => exact absurd happly (by simp [Change.apply])
      | set _ => exact absurd happly (by simp [Change.apply])
      | add _ => simp
      | subtract _ => simp
  | some changed =>
      by_cases hkeep : change = .keep
      · simp [hkeep, eq_comm]
      · simp [hkeep, Placer.alignField_eq_ok_iff]

theorem aligned_of_changeField {name : String} {field : Field} {value w : UInt64}
    {change : Change} (hvalue : Aligned alignment.toNat value.toNat)
    (h : (changeField name field value change alignment).result = .ok w) :
    Aligned alignment.toNat w.toNat := by
  obtain ⟨changed, happly, hw⟩ := changeField_eq_ok_iff.mp h
  by_cases hkeep : change = .keep
  · rw [if_pos hkeep] at hw
    rw [hkeep, Change.apply, Option.some.injEq] at happly
    rwa [hw, ← happly]
  · rw [if_neg hkeep] at hw
    rw [hw]
    exact aligned_roundUp _ _

theorem aligned_of_adjust {a : Adjustment} {x y : Partition} (hx : x.AlignedTo alignment)
    (h : (Entry.adjust alignment a x).result = .ok y) : y.AlignedTo alignment := by
  obtain ⟨offset, size, hoffset, hsize, rfl⟩ := adjust_partition_eq_ok_iff.mp h
  exact ⟨aligned_of_changeField hx.offset hoffset, aligned_of_changeField hx.size hsize⟩

theorem aligned_of_modify {m : Modifier} (hps : ∀ x ∈ ps, x.AlignedTo alignment)
    (h : (modify alignment ps m).result = .ok qs) : ∀ x ∈ qs, x.AlignedTo alignment :=
  forall_mem_of_modify aligned_of_rename aligned_of_adjust hps h

/-! ## Whole edits -/

theorem aligned_of_editStep {e : Editor} (hc : p.Coherent)
    (hp : ∀ x ∈ p.partitions, x.AlignedTo options.alignment)
    (h : (editStep options p e).result = .ok q) :
    ∀ x ∈ q.partitions, x.AlignedTo options.alignment := by
  cases e with
  | definer d => exact aligned_of_append hp h
  | modifier m =>
      obtain ⟨settled, partitions, hsettled, hmodify, rfl⟩ := editStep_modifier_eq_ok_iff.mp h
      exact aligned_of_modify (aligned_of_settle hc hp hsettled) hmodify

/-- **Every edit of an aligned table leaves an aligned one.** -/
theorem editTable_keeps_alignment
    (hbase : ∀ x ∈ base.partitions, x.AlignedTo options.alignment)
    (h : (editTable base es capacity options).result = .ok t) :
    ∀ x ∈ t.partitions, x.AlignedTo options.alignment := by
  obtain ⟨q, settled, hrun, hsettle, hfinish⟩ := editTable_eq_ok_iff.mp h
  obtain ⟨hcoherent, haligned⟩ :
      q.Coherent ∧ ∀ x ∈ q.partitions, x.AlignedTo options.alignment :=
    editAll_keeps
      (I := fun p => p.Coherent ∧ ∀ x ∈ p.partitions, x.AlignedTo options.alignment)
      (fun hp hstep => ⟨hp.1.editStep hstep, aligned_of_editStep hp.1 hp.2 hstep⟩)
      ⟨Placer.coherent_fresh _ _, hbase⟩ hrun
  obtain ⟨rfl, -, -⟩ := finish_eq_ok_iff.mp hfinish
  exact aligned_of_settle hcoherent haligned hsettle

/-- A table of one partition. -/
def bootOnly : Table :=
  Table.ofPartitions
    [⟨ByteField.ofBytes nameFieldLength (Utf8.encode "boot"), 0x2000, 0x1000, 0, 0⟩]

/-- Editors of every kind, none of which asks for what is aligned. -/
def unalignedEditors : List Editor :=
  [.definer ⟨"data", none, none, none⟩,
    .definer ⟨"logs", some (.relative 5), some (.absolute 0x801), none⟩,
    .modifier ⟨.byName "boot", .adjust ⟨none, .add 5, .subtract 1, none⟩⟩,
    .modifier ⟨.byName "logs", .clone "more"⟩, .modifier ⟨.byName "data", .place (.relative 1)⟩]

/-- The end of the device is not aligned either. -/
theorem editTable_keeps_alignment_of_bootOnly :
    ∃ t, (editTable bootOnly unalignedEditors 0x100801 {}).result = .ok t ∧
      t.partitions.length = 4 ∧
      ∀ x ∈ t.partitions, 0x1000 ∣ x.offset.toNat ∧ 0x1000 ∣ x.size.toNat := by
  obtain ⟨t, ht, hcount⟩ := Outcome.exists_ok_of_any
    (x := (editTable bootOnly unalignedEditors 0x100801 {}).result)
    (p := fun t => decide (t.partitions.length = 4)) (by
      rw [editTable_result, resume]
      simp only [finish_result]
      decide +kernel)
  have haligned := editTable_keeps_alignment
    (List.forall_mem_singleton.mpr ⟨fun _ => by decide, fun _ => by decide⟩) ht
  refine ⟨t, ht, of_decide_eq_true hcount, fun x hx => ?_⟩
  obtain ⟨hoffset, hsize⟩ := haligned x hx
  exact ⟨hoffset (by decide), hsize (by decide)⟩

end EmmcLayout.Layout
