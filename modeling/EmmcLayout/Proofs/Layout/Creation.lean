import EmmcLayout.Proofs.Layout.Run

/-!
# The contract of creating a table

`createTable_contract` says all that a created table promises: the vendor's partitions, then one
slot for each definer, in order, aligned, without overlap and on the device; and where a definer left
its size out, no aligned piece of the device is left over.

The slots are followed through the run as a list beside the definers (`appendAll_slots`).  Settling
changes offsets and sizes of the last of them, by aligned amounts only (`Fulfils.resolved`).
-/

namespace EmmcLayout.Layout

variable {options : LayoutOptions} {p q : Placer} {d : Definer} {ds : List Definer}

/-- The slot carries the name and the mask that the definer asks for, and is aligned. -/
structure Fulfils (options : LayoutOptions) (d : Definer) (slot : Partition) : Prop where
  name_eq : slot.name = d.name
  mask_eq : slot.mask = d.mask.getD 4
  offset_aligned : Aligned options.alignment.toNat slot.offset.toNat
  size_aligned : Aligned options.alignment.toNat slot.size.toNat

theorem Placer.Accepts.fulfils {part : Partition} (h : Placer.Accepts options p d part) :
    Fulfils options d part := by
  obtain ⟨-, hdata⟩ := Partition.create_eq_ok_iff.mp h.created
  obtain ⟨wanted, -, hoffset⟩ := h.offset_eq
  have hsize := h.size_eq
  refine ⟨Partition.name_of_create h.created, by rw [hdata], ?_, ?_⟩
  · rw [hoffset]
    exact aligned_roundUp _ _
  · cases hd : d.size with
    | some amount =>
        rw [hd] at hsize
        rw [hsize]
        exact aligned_roundUp _ _
    | none =>
        rw [hd] at hsize
        rw [hsize.2]
        exact Aligned.zero _

theorem Fulfils.alignedTo {slot : Partition} (h : Fulfils options d slot) :
    slot.AlignedTo options.alignment :=
  ⟨h.offset_aligned, h.size_aligned⟩

theorem Fulfils.with_size {slot : Partition} (h : Fulfils options d slot) {amount : UInt64}
    (hamount : Aligned options.alignment.toNat amount.toNat) :
    Fulfils options d { slot with size := amount } :=
  ⟨h.name_eq, h.mask_eq, h.offset_aligned, hamount⟩

theorem Fulfils.shift {slot : Partition} (h : Fulfils options d slot) {amount : UInt64}
    (hamount : Aligned options.alignment.toNat amount.toNat)
    (hfits : slot.offset.toNat + amount.toNat < UInt64.size) :
    Fulfils options d (slot.shift amount) := by
  have haligned := h.alignedTo.shift hamount hfits
  exact ⟨h.name_eq, h.mask_eq, haligned.offset, haligned.size⟩

theorem forall₂_of_forall₂ {α β γ : Type} {R : α → β → Prop} {S : β → γ → Prop}
    {T : α → γ → Prop} (hT : ∀ {x y z}, R x y → S y z → T x z) {xs : List α} {ys : List β}
    {zs : List γ} (hR : List.Forall₂ R xs ys) (hS : List.Forall₂ S ys zs) :
    List.Forall₂ T xs zs := by
  induction hR generalizing zs with
  | nil =>
      cases hS
      exact .nil
  | cons hxy _ ih =>
      cases hS with
      | cons hyz hS => exact .cons (hT hxy hyz) (ih hS)

/-! ## The slots of a run -/

/-- A run puts one slot for each definer behind the partitions that were there. -/
theorem appendAll_slots (h : (appendAll options p ds).result = .ok q) :
    ∃ slots, q.partitions = p.partitions ++ slots ∧
      List.Forall₂ (Fulfils options) ds slots := by
  induction ds generalizing p with
  | nil =>
      obtain rfl := appendAll_nil_eq_ok_iff.mp h
      exact ⟨[], (List.append_nil _).symm, .nil⟩
  | cons d ds ih =>
      obtain ⟨p', hp', h⟩ := appendAll_cons_eq_ok_iff.mp h
      obtain ⟨part, haccepts, rfl⟩ := Placer.append_eq_ok_iff.mp hp'
      obtain ⟨slots, hslots, hfulfils⟩ := ih h
      refine ⟨part :: slots, ?_, .cons haccepts.fulfils hfulfils⟩
      rw [hslots, Placer.partitions_push, List.append_assoc, List.singleton_append]

theorem capacity_of_appendAll (h : (appendAll options p ds).result = .ok q) :
    q.cursor.capacity = p.cursor.capacity :=
  appendAll_keeps (I := fun x => x.cursor.capacity = p.cursor.capacity)
    (fun hx hstep => (Placer.capacity_of_append hstep).trans hx) rfl h

/-- What is placed in front of a waiting partition stays in front. -/
theorem placed_prefix_of_append (h : (p.append options d).result = .ok q) :
    p.placed <+: q.placed := by
  obtain ⟨part, -, rfl⟩ := Placer.append_eq_ok_iff.mp h
  cases hw : p.waiting with
  | some w =>
      rw [Placer.push_of_waiting hw]
  | none =>
      cases d.size with
      | some amount =>
          rw [Option.isSome_some, Placer.push_sized hw]
          exact List.prefix_append _ _
      | none =>
          rw [Option.isSome_none, Placer.push_unsized hw]

theorem placed_prefix_of_appendAll (h : (appendAll options p ds).result = .ok q) :
    p.placed <+: q.placed :=
  appendAll_keeps (I := fun x => p.placed <+: x.placed)
    (fun hx hstep => hx.trans (placed_prefix_of_append hstep)) List.prefix_rfl h

theorem waiting_of_append (hw : p.waiting ≠ none) (h : (p.append options d).result = .ok q) :
    q.waiting ≠ none := by
  obtain ⟨part, -, rfl⟩ := Placer.append_eq_ok_iff.mp h
  obtain ⟨w, hw⟩ := Option.ne_none_iff_exists'.mp hw
  rw [Placer.push_of_waiting hw]
  exact Option.some_ne_none _

/-- A definer without a size leaves a partition that waits. -/
theorem waiting_of_unsized (hd : d.size = none) (h : (p.append options d).result = .ok q) :
    q.waiting ≠ none := by
  obtain ⟨part, haccepts, rfl⟩ := Placer.append_eq_ok_iff.mp h
  have hsize := haccepts.size_eq
  rw [hd] at hsize
  rw [hd, Option.isSome_none, Placer.push_unsized hsize.1]
  exact Option.some_ne_none _

theorem waiting_of_appendAll (hd : ∃ d ∈ ds, d.size = none)
    (h : (appendAll options p ds).result = .ok q) : q.waiting ≠ none := by
  obtain ⟨d, hmem, hd⟩ := hd
  obtain ⟨front, back, rfl⟩ := List.append_of_mem hmem
  rw [appendAll_append, Outcome.bind_eq_ok_iff] at h
  obtain ⟨p', -, h⟩ := h
  obtain ⟨p'', hp'', h⟩ := appendAll_cons_eq_ok_iff.mp h
  exact appendAll_keeps (I := fun x => x.waiting ≠ none) waiting_of_append
    (waiting_of_unsized hd hp'') h

/-- Settling keeps the slots of a run, as far as the definers can tell. -/
theorem Fulfils.resolved (hq : q.Coherent) {base slots : List Partition} (hbase : base <+: q.placed)
    (hslots : q.partitions = base ++ slots) (hfulfils : List.Forall₂ (Fulfils options) ds slots)
    {amount : UInt64} (hamount : Aligned options.alignment.toNat amount.toNat)
    (hfits : q.waiting ≠ none → q.cursor.nextFree.toNat + amount.toNat < UInt64.size) :
    ∃ slots', (q.resolved amount).partitions = base ++ slots' ∧
      List.Forall₂ (Fulfils options) ds slots' := by
  cases hw : q.waiting with
  | none =>
      rw [Placer.resolved_of_none hw]
      exact ⟨slots, hslots, hfulfils⟩
  | some w =>
      replace hfits := hfits (by simp [hw])
      -- the waiting partition is one of the slots, since the base is placed
      obtain ⟨front, hfront⟩ := hbase
      have hsplit : slots = front ++ w.partition :: w.behind := by
        rw [Placer.partitions_of_waiting hw, ← hfront, List.append_assoc] at hslots
        exact (List.append_cancel_left hslots).symm
      subst hsplit
      refine ⟨front ++ { w.partition with size := amount } ::
        w.behind.map (Partition.shift amount), ?_, ?_⟩
      · rw [Placer.resolved_of_some hw, Placer.partitions, ← hfront, List.append_assoc]
      · have hwith : ∀ d slot, Fulfils options d slot →
            Fulfils options d { slot with size := amount } :=
          fun _ _ h => h.with_size hamount
        refine forall₂_of_forall₂ (R := Fulfils options)
          (S := fun a b => ∀ d, Fulfils options d a → Fulfils options d b)
          (fun h hS => hS _ h) hfulfils ?_
        refine List.rel_append (List.forall₂_same.mpr fun _ _ _ h => h)
          (.cons (fun d h => hwith d _ h) ?_)
        rw [List.forall₂_map_right_iff, List.forall₂_same]
        intro b hb d h
        exact h.shift hamount (hq.behind_fits hw hfits b hb)

/-! ## The contract -/

/-- Three definers, of which the second one leaves its size out; none asks for what is aligned. -/
def autofillDefiners : List Definer :=
  [⟨"logo", none, some (.absolute 0x800001), some 1⟩, ⟨"system", some (.relative 5), none, none⟩,
    ⟨"data", none, some (.absolute 0x1001), some 2⟩]

theorem createTable_autofillDefiners :
    ∃ t, (createTable autofillDefiners 0x200000000 {}).result = .ok t := by
  apply Outcome.exists_ok_of_isOk
  rw [createTable]
  -- the notes about overlaps sort a list, which the kernel cannot run
  simp only [Logged.result_bind, finish_result]
  decide +kernel

/-- Settling leaves less than one alignment, and nothing when none is asked for. -/
theorem Placer.Coherent.left_over (options : LayoutOptions) (hq : q.Coherent)
    (hw : q.waiting ≠ none) (hle : q.cursor.nextFree.toNat ≤ q.cursor.capacity.toNat) :
    let furthest := (Table.reach (q.resolved (q.room options)).partitions).toNat
    (0 < options.alignment.toNat →
        q.cursor.capacity.toNat - furthest < options.alignment.toNat) ∧
      (options.alignment = 0 → furthest = q.cursor.capacity.toNat) := by
  have hroom := Placer.nextFree_add_room_le options hle
  have hsum := Placer.toNat_room options hle
  have hfits := Placer.room_fits options (fun _ => hle)
  have hreach := (hq.resolved hfits).reach_eq
  obtain ⟨w, hw⟩ := Option.ne_none_iff_exists'.mp hw
  replace hfits := hfits (by simp [hw])
  have hnext : (Table.reach (q.resolved (q.room options)).partitions).toNat =
      q.cursor.nextFree.toNat + (q.room options).toNat := by
    rw [hreach, Placer.resolved_of_some hw]
    show (q.cursor.nextFree + q.room options).toNat = _
    exact Word.toNat_add_of_lt hfits
  intro furthest
  constructor
  · intro hpos
    have hless := sub_roundDown_lt hpos (q.cursor.capacity.toNat - q.cursor.nextFree.toNat)
    omega
  · intro hzero
    have hall : (q.room options).toNat = q.cursor.capacity.toNat - q.cursor.nextFree.toNat := by
      rw [hsum, hzero]
      rfl
    omega

/-- What a created table promises. -/
structure Contract (options : LayoutOptions) (capacity : UInt64) (ds : List Definer) (t : Table) :
    Prop where
  /-- The vendor's four partitions come first, then one slot for each definer, in order. -/
  slots : ∃ vendor slots, t.partitions = vendor ++ slots ∧
    vendor.map Partition.name = ["bootloader", "reserved", "cache", "env"] ∧
    List.Forall₂ (Fulfils options) ds slots
  disjoint : t.partitions.Pairwise Partition.Before
  stop_le : ∀ x ∈ t.partitions, x.stop ≤ capacity.toNat
  /-- A definer without a size leaves less than one alignment over. -/
  left_over : (∃ d ∈ ds, d.size = none) →
    (0 < options.alignment.toNat →
        capacity.toNat - t.capacity.toNat < options.alignment.toNat) ∧
      (options.alignment = 0 → t.capacity.toNat = capacity.toNat)

/-- **The contract of creating a table.**  Whatever definers, device and options are given, a table
that is created keeps the whole of its contract. -/
theorem createTable_contract {capacity : UInt64} {t : Table}
    (h : (createTable ds capacity options).result = .ok t) : Contract options capacity ds t := by
  obtain ⟨base, q, settled, hbase, hrun, hsettle, hfinish⟩ := createTable_eq_ok_iff.mp h
  obtain ⟨rfl, -, hends⟩ := finish_eq_ok_iff.mp hfinish
  obtain ⟨horder, hnames⟩ := Table.vendorLayout_inOrder hbase
  -- what holds at the start holds at the end of the run
  have hcoherent : q.Coherent :=
    appendAll_keeps (fun hp hstep => hp.append hstep) (Placer.coherent_fresh _ _) hrun
  have hinOrder : q.InOrder :=
    appendAll_keeps (fun hp hstep => hp.append hstep) (Placer.inOrder_fresh horder) hrun
  obtain ⟨slots, hslots, hfulfils⟩ := appendAll_slots hrun
  have hprefix := placed_prefix_of_appendAll hrun
  have hcapacity : q.cursor.capacity = capacity := capacity_of_appendAll hrun
  -- and settling keeps it
  obtain ⟨hle, rfl⟩ := (Placer.settle_eq_ok_iff hcoherent).mp hsettle
  obtain ⟨slots', hslots', hfulfils'⟩ :=
    Fulfils.resolved hcoherent hprefix hslots hfulfils (Placer.aligned_room options q)
      (Placer.room_fits options hle)
  refine ⟨⟨base.partitions, slots', hslots', hnames, hfulfils'⟩,
    (Placer.InOrder.resolved hcoherent hinOrder (Placer.room_fits options hle)).pairwise, hends, ?_⟩
  intro hunsized
  have hwaiting := waiting_of_appendAll hunsized hrun
  have hleft := hcoherent.left_over options hwaiting (hle hwaiting)
  rw [hcapacity] at hleft
  exact hleft

theorem createTable_contract_of_autofill :
    ∃ t, (createTable autofillDefiners 0x200000000 {}).result = .ok t ∧
      Contract {} 0x200000000 autofillDefiners t := by
  obtain ⟨t, ht⟩ := createTable_autofillDefiners
  exact ⟨t, ht, createTable_contract ht⟩

end EmmcLayout.Layout
