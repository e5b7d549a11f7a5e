import EmmcLayout.Proofs.Layout.Creation

/-!
# What a definer without a size gets

A partition that waits gets its size only at the end, when those behind it are placed already and
have to move.  A definer with a size is placed at once, and every check behind it sees that size.
`createTable_autofill` says that the two ways agree: the size that comes out is the one greatest
size that could have been asked for.

The proof runs both ways side by side.  A state of the first run, resolved with an aligned amount,
is the state of the second one (`append_resolved_eq_ok_iff`): rounding up commutes with moving by an
aligned amount, and the checks that the first run leaves out all follow from the last one.
-/

namespace EmmcLayout

/-- The definer with a size of so many bytes. -/
def Definer.withSize (amount : UInt64) (d : Definer) : Definer :=
  { d with size := some (.absolute amount) }

namespace Layout

variable {options : LayoutOptions} {capacity amount : UInt64} {p q q' : Placer} {d : Definer}
  {ds : List Definer}

namespace Placer

/-! ## Resolved states -/

theorem fresh_resolved_iff {name : String} :
    (∀ x ∈ (p.resolved amount).partitions, ¬ x.isNamed name = true) ↔
      ∀ x ∈ p.partitions, ¬ x.isNamed name = true := by
  have hnames : ∀ ps : List Partition, (∀ x ∈ ps, ¬ x.isNamed name = true) ↔
      ∀ r ∈ ps.map Partition.rawName, ¬ (Bytes.untilNul r.bytes == Utf8.encode name) = true := by
    intro ps
    rw [List.forall_mem_map]
    rfl
  rw [hnames, hnames, map_rawName_resolved]

theorem nextFree_resolved {w : Waiting} (hw : p.waiting = some w)
    (hfits : p.cursor.nextFree.toNat + amount.toNat < UInt64.size) :
    (p.resolved amount).cursor.nextFree.toNat = p.cursor.nextFree.toNat + amount.toNat := by
  rw [resolved_of_some hw, nextFree_moveTo, Word.toNat_add_of_lt hfits]

/-- Moving a partition that is pushed is the same as pushing the moved one. -/
theorem resolved_push {w : Waiting} (hw : p.waiting = some w) (sized : Bool) (part : Partition)
    (stop : UInt64) :
    (p.push sized part stop).resolved amount =
      (p.resolved amount).push true (part.shift amount) (stop + amount) := by
  rw [push_sized (waiting_resolved amount p), push_of_waiting hw, resolved_of_some hw]
  simp [resolved, DiskCursor.moveTo, DiskCursor.behind]

/-! ## Where a definer goes -/

/-- Behind a waiting partition a definer goes just as far behind the resolved one. -/
theorem wantedOffset_resolved {w : Waiting} (hw : p.waiting = some w) {wanted wanted' : UInt64}
    (hfits : p.cursor.nextFree.toNat + amount.toNat < UInt64.size)
    (h : p.wantedOffset d = .ok wanted) :
    (p.resolved amount).wantedOffset d = .ok wanted' ↔
      wanted'.toNat = wanted.toNat + amount.toNat := by
  have hnext := nextFree_resolved hw hfits
  have hwanted := wantedOffset_eq_ok_iff.mp h
  rw [wantedOffset_eq_ok_iff]
  cases hoffset : d.offset with
  | none =>
      simp only [hoffset] at hwanted ⊢
      rw [← UInt64.toNat_inj, hnext, hwanted]
  | some place =>
      cases place with
      | relative delta =>
          simp only [hoffset] at hwanted ⊢
          rw [hnext, hwanted]
          omega
      | absolute offset =>
          -- refused while a partition waits
          simp only [hoffset] at hwanted
          rw [hw] at hwanted
          exact absurd hwanted.1 (Option.some_ne_none w)

/-- The step behind a waiting partition and the step behind the same partition with its size accept
the same definers, as long as those end on the device. -/
theorem accepts_resolved_iff {w : Waiting} (hw : p.waiting = some w)
    (hamount : Aligned options.alignment.toNat amount.toNat)
    (hfits : p.cursor.nextFree.toNat + amount.toNat < UInt64.size) {part part' : Partition}
    (h : Accepts options p d part) :
    Accepts options (p.resolved amount) d part' ↔
      part.stop + amount.toNat ≤ p.cursor.capacity.toNat ∧ part' = part.shift amount := by
  obtain ⟨wanted, hwanted, hoffset⟩ := h.offset_eq
  obtain ⟨hname, hpart⟩ := Partition.create_eq_ok_iff.mp h.created
  have hcapacity := capacity_resolved amount p
  have hcap : p.cursor.capacity.toNat < UInt64.size := p.cursor.capacity.toNat_lt
  have hsize := h.size_eq
  cases hd : d.size with
  | none =>
      -- a second partition without a size is refused
      rw [hd, hw] at hsize
      exact absurd hsize.1 (Option.some_ne_none w)
  | some value =>
      rw [hd] at hsize
      constructor
      · intro h'
        obtain ⟨wanted', hwanted', hoffset'⟩ := h'.offset_eq
        obtain ⟨-, hpart'⟩ := Partition.create_eq_ok_iff.mp h'.created
        have hsize' := h'.size_eq
        rw [hd] at hsize'
        rw [wantedOffset_resolved hw hfits hwanted] at hwanted'
        -- the amount is aligned, so it can be added behind the rounding
        rw [hwanted', roundUp_add hamount, ← hoffset] at hoffset'
        have hsame : part'.size = part.size := UInt64.toNat_inj.mp (hsize'.trans hsize.symm)
        have hbound : part.offset.toNat + amount.toNat < UInt64.size :=
          hoffset' ▸ part'.offset.toNat_lt
        have hmoved : part'.offset = part.offset + amount := by
          rw [← UInt64.toNat_inj, hoffset', Word.toNat_add_of_lt hbound]
        have heq : part' = part.shift amount := by
          rw [hpart', hsame, hmoved]
          conv_rhs => rw [hpart]
          rfl
        refine ⟨?_, heq⟩
        have hle := h'.stop_le (waiting_resolved amount p)
        rw [hcapacity, heq, Partition.stop_shift hbound] at hle
        exact hle
      · rintro ⟨hle, rfl⟩
        have hbelow : part.offset.toNat ≤ part.stop := Nat.le_add_right _ _
        have hbound : part.offset.toNat + amount.toNat < UInt64.size := by omega
        have hstop := Partition.stop_shift hbound
        have hwantedLe : wanted.toNat ≤ part.offset.toNat := hoffset ▸ le_roundUp _ _
        have hfits' : wanted.toNat + amount.toNat < UInt64.size := by omega
        have hsum := Word.toNat_add_of_lt hfits'
        refine ⟨?_, ?_, ?_, ⟨wanted + amount, ?_, ?_⟩, ?_, ?_, ?_⟩
        · rw [length_partitions_resolved]
          exact h.room
        · rw [fresh_resolved_iff]
          exact h.fresh
        · refine Partition.create_eq_ok_iff.mpr ⟨hname, ?_⟩
          conv_lhs => rw [hpart]
          rfl
        · rw [wantedOffset_resolved hw hfits hwanted]
          exact hsum
        · rw [Partition.toNat_offset_shift hbound, hsum, roundUp_add hamount, hoffset]
        · rw [hd]
          exact hsize
        · rw [hstop]
          omega
        · intro _
          rw [hcapacity, hstop]
          exact hle

theorem nextFree_le_of_append (h : (p.append options d).result = .ok q) :
    p.cursor.nextFree.toNat ≤ q.cursor.nextFree.toNat := by
  obtain ⟨part, haccepts, rfl⟩ := append_eq_ok_iff.mp h
  rw [cursor_push, nextFree_moveTo, haccepts.toNat_stopSat]
  exact haccepts.nextFree_le_stop

/-- **One step of both runs.** -/
theorem append_resolved_eq_ok_iff {w : Waiting} (hw : p.waiting = some w)
    (hamount : Aligned options.alignment.toNat amount.toNat)
    (hfits : p.cursor.nextFree.toNat + amount.toNat < UInt64.size)
    (h : (p.append options d).result = .ok q) :
    ((p.resolved amount).append options d).result = .ok q' ↔
      q.cursor.nextFree.toNat + amount.toNat ≤ p.cursor.capacity.toNat ∧
        q' = q.resolved amount := by
  obtain ⟨part, haccepts, rfl⟩ := append_eq_ok_iff.mp h
  have hsized : d.size.isSome = true := by
    have hsize := haccepts.size_eq
    cases hd : d.size with
    | some value => rfl
    | none =>
        rw [hd, hw] at hsize
        exact absurd hsize.1 (Option.some_ne_none w)
  have hcap : p.cursor.capacity.toNat < UInt64.size := p.cursor.capacity.toNat_lt
  rw [append_eq_ok_iff, cursor_push, nextFree_moveTo, haccepts.toNat_stopSat, resolved_push hw,
    hsized]
  have hpush : part.stop + amount.toNat ≤ p.cursor.capacity.toNat →
      (part.shift amount).stopSat = part.stopSat + amount := by
    intro hle
    have hbelow : part.offset.toNat ≤ part.stop := Nat.le_add_right _ _
    have hlt : part.stop + amount.toNat < UInt64.size := by omega
    have hstop : (part.shift amount).stop = part.stop + amount.toNat :=
      Partition.stop_shift (by omega)
    rw [← haccepts.toNat_stopSat] at hlt hstop
    rw [← UInt64.toNat_inj, Word.toNat_add_of_lt hlt, ← hstop,
      Partition.toNat_stopSat_of_lt (hstop ▸ hlt)]
  constructor
  · rintro ⟨part', haccepts', rfl⟩
    obtain ⟨hle, rfl⟩ := (accepts_resolved_iff hw hamount hfits haccepts).mp haccepts'
    exact ⟨hle, by rw [hpush hle]⟩
  · rintro ⟨hle, rfl⟩
    refine ⟨part.shift amount, ?_, by rw [hpush hle]⟩
    exact (accepts_resolved_iff hw hamount hfits haccepts).mpr ⟨hle, rfl⟩

/-! ## Where the two runs part -/

/-- A definer with a size goes where the same definer without one waits, when it fits there. -/
theorem append_withSize_eq_ok_iff (hd : d.size = none)
    (h : (p.append options d).result = .ok q) :
    (p.append options (d.withSize amount)).result = .ok q' ↔
      ∃ rounded : UInt64, rounded.toNat = roundUp options.alignment.toNat amount.toNat ∧
        q.cursor.nextFree.toNat + rounded.toNat ≤ q.cursor.capacity.toNat ∧
        q' = q.resolved rounded := by
  obtain ⟨part, haccepts, rfl⟩ := append_eq_ok_iff.mp h
  have hsize := haccepts.size_eq
  rw [hd] at hsize
  obtain ⟨hw, hzero⟩ := hsize
  obtain ⟨hname, hpart⟩ := Partition.create_eq_ok_iff.mp haccepts.created
  obtain ⟨wanted, hwanted, hoffset⟩ := haccepts.offset_eq
  have hcap : p.cursor.capacity.toNat < UInt64.size := p.cursor.capacity.toNat_lt
  have hstop : part.stop = part.offset.toNat := by
    rw [Partition.stop, hzero]
    rfl
  have hsat := haccepts.toNat_stopSat
  rw [append_eq_ok_iff, cursor_push, nextFree_moveTo, capacity_moveTo, hsat, hstop, hd]
  show (∃ part', Accepts options p (d.withSize amount) part' ∧
    q' = p.push true part' part'.stopSat) ↔ _
  -- both runs push the partition at the same place
  have hpush : ∀ rounded : UInt64,
      part.offset.toNat + rounded.toNat ≤ p.cursor.capacity.toNat →
      p.push true { part with size := rounded } ({ part with size := rounded }).stopSat =
        (p.push (none : Option Amount).isSome part part.stopSat).resolved rounded := by
    intro rounded hle
    have hlt : part.offset.toNat + rounded.toNat < UInt64.size := by omega
    have hsum : ({ part with size := rounded } : Partition).stop =
        part.offset.toNat + rounded.toNat := rfl
    have hend : ({ part with size := rounded } : Partition).stopSat = part.stopSat + rounded := by
      rw [← hstop, ← hsat] at hlt hsum
      rw [← UInt64.toNat_inj, Word.toNat_add_of_lt hlt, ← hsum,
        Partition.toNat_stopSat_of_lt (hsum ▸ hlt)]
    rw [hend, push_sized hw, Option.isSome_none, push_unsized hw]
    rfl
  constructor
  · rintro ⟨part', haccepts', rfl⟩
    obtain ⟨-, hpart'⟩ := Partition.create_eq_ok_iff.mp haccepts'.created
    obtain ⟨wanted', hwanted', hoffset'⟩ := haccepts'.offset_eq
    have hrounded : part'.size.toNat = roundUp options.alignment.toNat amount.toNat :=
      haccepts'.size_eq
    have hsame : wanted = wanted' := Except.ok.inj (hwanted.symm.trans hwanted')
    have hplace : part'.offset = part.offset := by
      rw [← UInt64.toNat_inj, hoffset', hoffset, hsame]
    have heq : part' = { part with size := part'.size } := by
      conv_lhs => rw [hpart', hplace]
      conv_rhs => rw [hpart]
      rfl
    have hle := haccepts'.stop_le hw
    rw [Partition.stop, hplace] at hle
    refine ⟨part'.size, hrounded, hle, ?_⟩
    rw [← hpush part'.size hle, ← heq]
  · rintro ⟨rounded, hrounded, hle, rfl⟩
    refine ⟨{ part with size := rounded }, ?_, (hpush rounded hle).symm⟩
    refine ⟨haccepts.room, haccepts.fresh, ?_, ⟨wanted, hwanted, hoffset⟩, hrounded, ?_, ?_⟩
    · refine Partition.create_eq_ok_iff.mpr ⟨hname, ?_⟩
      conv_lhs => rw [hpart]
      rfl
    · exact Nat.lt_of_le_of_lt hle hcap
    · intro _
      exact hle

end Placer

/-! ## Both runs to their ends -/

theorem nextFree_le_of_appendAll (h : (appendAll options p ds).result = .ok q) :
    p.cursor.nextFree.toNat ≤ q.cursor.nextFree.toNat :=
  appendAll_keeps (I := fun x => p.cursor.nextFree.toNat ≤ x.cursor.nextFree.toNat)
    (fun hx hstep => Nat.le_trans hx (Placer.nextFree_le_of_append hstep)) (Nat.le_refl _) h

/-- The definers behind a waiting partition can be placed behind it with its size exactly when their
ends, moved by it, are on the device. -/
theorem appendAll_resolved_eq_ok_iff (hw : p.waiting ≠ none)
    (hamount : Aligned options.alignment.toNat amount.toNat)
    (hfits : p.cursor.nextFree.toNat + amount.toNat ≤ p.cursor.capacity.toNat)
    (h : (appendAll options p ds).result = .ok q) :
    (appendAll options (p.resolved amount) ds).result = .ok q' ↔
      q.cursor.nextFree.toNat + amount.toNat ≤ p.cursor.capacity.toNat ∧
        q' = q.resolved amount := by
  induction ds generalizing p with
  | nil =>
      obtain rfl := appendAll_nil_eq_ok_iff.mp h
      rw [appendAll_nil_eq_ok_iff, eq_comm, and_iff_right hfits]
  | cons d ds ih =>
      obtain ⟨p', hp', hrest⟩ := appendAll_cons_eq_ok_iff.mp h
      obtain ⟨w, hw'⟩ := Option.ne_none_iff_exists'.mp hw
      have hlt : p.cursor.nextFree.toNat + amount.toNat < UInt64.size :=
        Nat.lt_of_le_of_lt hfits p.cursor.capacity.toNat_lt
      have hstep : ∀ x, ((p.resolved amount).append options d).result = .ok x ↔
          p'.cursor.nextFree.toNat + amount.toNat ≤ p.cursor.capacity.toNat ∧
            x = p'.resolved amount :=
        fun x => Placer.append_resolved_eq_ok_iff hw' hamount hlt hp'
      have hcapacity := Placer.capacity_of_append hp'
      have hwaiting := waiting_of_append hw hp'
      rw [appendAll_cons_eq_ok_iff]
      constructor
      · rintro ⟨x, hx, hq'⟩
        obtain ⟨hle, rfl⟩ := (hstep x).mp hx
        rw [← hcapacity] at hle ⊢
        exact (ih hwaiting hle hrest).mp hq'
      · rintro ⟨hle, rfl⟩
        -- the cursor never goes back, so what fits at the end fits at every step
        have hle' : p'.cursor.nextFree.toNat + amount.toNat ≤ p.cursor.capacity.toNat :=
          Nat.le_trans (Nat.add_le_add_right (nextFree_le_of_appendAll hrest) _) hle
        refine ⟨p'.resolved amount, (hstep _).mpr ⟨hle', rfl⟩, ?_⟩
        rw [← hcapacity] at hle hle'
        exact (ih hwaiting hle' hrest).mpr ⟨hle, rfl⟩

/-- A run from the definer on that is given a size reaches what the run that waits reaches, resolved
with the rounded size, and fails when that does not fit. -/
theorem appendAll_withSize_eq_ok_iff (hd : d.size = none)
    (h : (appendAll options p (d :: ds)).result = .ok q) :
    (appendAll options p (d.withSize amount :: ds)).result = .ok q' ↔
      ∃ rounded : UInt64, rounded.toNat = roundUp options.alignment.toNat amount.toNat ∧
        q.cursor.nextFree.toNat + rounded.toNat ≤ q.cursor.capacity.toNat ∧
        q' = q.resolved rounded := by
  obtain ⟨p', hp', hrest⟩ := appendAll_cons_eq_ok_iff.mp h
  have hwaiting := waiting_of_unsized hd hp'
  have hcapacity := capacity_of_appendAll hrest
  rw [appendAll_cons_eq_ok_iff, hcapacity]
  have haligned : ∀ rounded : UInt64,
      rounded.toNat = roundUp options.alignment.toNat amount.toNat →
      Aligned options.alignment.toNat rounded.toNat :=
    fun rounded hrounded => hrounded ▸ aligned_roundUp _ _
  constructor
  · rintro ⟨x, hx, hq'⟩
    obtain ⟨rounded, hrounded, hfits, rfl⟩ := (Placer.append_withSize_eq_ok_iff hd hp').mp hx
    obtain ⟨hle, rfl⟩ :=
      (appendAll_resolved_eq_ok_iff hwaiting (haligned rounded hrounded) hfits hrest).mp hq'
    exact ⟨rounded, hrounded, hle, rfl⟩
  · rintro ⟨rounded, hrounded, hle, rfl⟩
    have hfits : p'.cursor.nextFree.toNat + rounded.toNat ≤ p'.cursor.capacity.toNat :=
      Nat.le_trans (Nat.add_le_add_right (nextFree_le_of_appendAll hrest) _) hle
    refine ⟨p'.resolved rounded, ?_, ?_⟩
    · exact (Placer.append_withSize_eq_ok_iff hd hp').mpr ⟨rounded, hrounded, hfits, rfl⟩
    · exact (appendAll_resolved_eq_ok_iff hwaiting (haligned rounded hrounded) hfits hrest).mpr
        ⟨hle, rfl⟩

/-! ## The partition that waits -/

theorem placed_of_append (hw : p.waiting ≠ none) (h : (p.append options d).result = .ok q) :
    q.placed = p.placed := by
  obtain ⟨part, -, rfl⟩ := Placer.append_eq_ok_iff.mp h
  obtain ⟨w, hw⟩ := Option.ne_none_iff_exists'.mp hw
  rw [Placer.push_of_waiting hw]

/-- At the end of the run the partition without a size still waits, behind what was placed before
it. -/
theorem placed_of_unsized (hd : d.size = none)
    (h : (appendAll options p (d :: ds)).result = .ok q) :
    q.waiting ≠ none ∧ q.placed = p.partitions := by
  obtain ⟨p', hp', hrest⟩ := appendAll_cons_eq_ok_iff.mp h
  have hwaiting := waiting_of_unsized hd hp'
  obtain ⟨part, haccepts, hpush⟩ := Placer.append_eq_ok_iff.mp hp'
  have hsize := haccepts.size_eq
  rw [hd] at hsize
  have hplaced : p'.placed = p.partitions := by
    rw [hpush, hd, Option.isSome_none, Placer.push_unsized hsize.1, Placer.partitions, hsize.1]
  exact appendAll_keeps (I := fun x => x.waiting ≠ none ∧ x.placed = p.partitions)
    (fun hx hstep =>
      ⟨waiting_of_append hx.1 hstep, (placed_of_append hx.1 hstep).trans hx.2⟩)
    ⟨hwaiting, hplaced⟩ hrest

/-- The waiting partition is found behind what is placed, with what settling gives it. -/
theorem getElem?_resolved {w : Waiting} (hw : q.waiting = some w) :
    (q.resolved amount).partitions[q.placed.length]? =
      some { w.partition with size := amount } := by
  rw [Placer.resolved_of_some hw, Placer.partitions, List.getElem?_append_right (Nat.le_refl _),
    Nat.sub_self, List.getElem?_cons_zero]

theorem exists_split {k : Nat} (hk : ds[k]? = some d) :
    ∃ front back, ds = front ++ d :: back ∧ front.length = k := by
  obtain ⟨hlt, rfl⟩ := List.getElem?_eq_some_iff.mp hk
  refine ⟨ds.take k, ds.drop (k + 1), ?_, List.length_take_of_le (Nat.le_of_lt hlt)⟩
  rw [← List.drop_eq_getElem_cons hlt, List.take_append_drop]

/-! ## The greatest size -/

/-- The size that settling gives away is aligned and fits, so it may as well be asked for. -/
theorem appendAll_withSize_room (hd : d.size = none)
    (h : (appendAll options p (d :: ds)).result = .ok q)
    (hle : q.cursor.nextFree.toNat ≤ q.cursor.capacity.toNat) :
    (appendAll options p (d.withSize (q.room options) :: ds)).result =
      .ok (q.resolved (q.room options)) := by
  have hround : (q.room options).toNat =
      roundUp options.alignment.toNat (q.room options).toNat :=
    (roundUp_of_aligned (Placer.aligned_room options q)).symm
  exact (appendAll_withSize_eq_ok_iff hd h).mpr
    ⟨q.room options, hround, Placer.nextFree_add_room_le options hle, rfl⟩

/-- A size that can be asked for is no more than what settling gives away. -/
theorem le_room_of_appendAll_withSize (hd : d.size = none)
    (h : (appendAll options p (d :: ds)).result = .ok q)
    (hle : q.cursor.nextFree.toNat ≤ q.cursor.capacity.toNat)
    (h' : (appendAll options p (d.withSize amount :: ds)).result = .ok q') :
    amount ≤ q.room options := by
  obtain ⟨rounded, hrounded, hfits, -⟩ := (appendAll_withSize_eq_ok_iff hd h).mp h'
  have haligned : Aligned options.alignment.toNat rounded.toNat := hrounded ▸ aligned_roundUp _ _
  rw [UInt64.le_iff_toNat_le, Placer.toNat_room options hle]
  calc amount.toNat
      ≤ rounded.toNat := hrounded ▸ le_roundUp _ _
    _ ≤ roundDown options.alignment.toNat
          (q.cursor.capacity.toNat - q.cursor.nextFree.toNat) :=
        le_roundDown_of_aligned haligned (Nat.le_sub_of_add_le' hfits)

/-- The waiting partition lies behind the vendor's partitions and the slots of the definers in
front. -/
theorem length_placed_of_unsized {base : Table} {front back : List Definer}
    (hbase : (Table.vendorLayout capacity options).result = .ok base)
    (hfront : (appendAll options (Placer.fresh capacity base.partitions) front).result = .ok p)
    (hd : d.size = none) (hback : (appendAll options p (d :: back)).result = .ok q) :
    q.placed.length = 4 + front.length := by
  obtain ⟨slots, hslots, hfulfils⟩ := appendAll_slots hfront
  have hvendor := congrArg List.length (Table.vendorLayout_inOrder hbase).2
  rw [List.length_map] at hvendor
  rw [(placed_of_unsized hd hback).2, hslots, List.length_append, ← hfulfils.length_eq]
  exact congrArg (· + front.length) hvendor

/-- **A definer without a size gets the greatest size that fits.**  Asking for the size it got gives
the same table; asking for more fails. -/
theorem createTable_autofill {t : Table} {k : Nat}
    (h : (createTable ds capacity options).result = .ok t) (hk : ds[k]? = some d)
    (hd : d.size = none) :
    ∃ slot, t.partitions[4 + k]? = some slot ∧
      (createTable (ds.set k (d.withSize slot.size)) capacity options).result = .ok t ∧
      ∀ more, slot.size < more →
        ∃ e, (createTable (ds.set k (d.withSize more)) capacity options).result = .error e := by
  obtain ⟨front, back, rfl, rfl⟩ := exists_split hk
  have hset : ∀ x : Definer, (front ++ d :: back).set front.length x = front ++ x :: back := by
    intro x
    rw [List.set_append_right _ _ (Nat.le_refl _), Nat.sub_self, List.set_cons_zero]
  simp only [hset]
  obtain ⟨base, q, settled, hbase, hrun, hsettle, hfinish⟩ := createTable_eq_ok_iff.mp h
  rw [appendAll_append, Outcome.bind_eq_ok_iff] at hrun
  obtain ⟨p, hfront, hback⟩ := hrun
  have hcoherent : q.Coherent := by
    refine appendAll_keeps (fun hp hstep => hp.append hstep) ?_ hback
    exact appendAll_keeps (fun hp hstep => hp.append hstep) (Placer.coherent_fresh _ _) hfront
  have hwaiting := (placed_of_unsized hd hback).1
  obtain ⟨hle, rfl⟩ := (Placer.settle_eq_ok_iff hcoherent).mp hsettle
  replace hle := hle hwaiting
  obtain ⟨w, hw⟩ := Option.ne_none_iff_exists'.mp hwaiting
  have ht := (finish_eq_ok_iff.mp hfinish).1
  refine ⟨{ w.partition with size := q.room options }, ?_, ?_, ?_⟩
  · rw [ht, ← length_placed_of_unsized hbase hfront hd hback]
    exact getElem?_resolved hw
  · rw [createTable_eq_ok_iff]
    refine ⟨base, q.resolved (q.room options), q.resolved (q.room options), hbase, ?_, ?_, hfinish⟩
    · rw [appendAll_append, hfront]
      exact appendAll_withSize_room hd hback hle
    · exact Placer.settle_of_settled (Placer.waiting_resolved _ q)
  · intro more hmore
    cases hresult : (createTable (front ++ d.withSize more :: back) capacity options).result with
    | error e => exact ⟨e, rfl⟩
    | ok t' =>
        -- the run up to the definer is the same, so this one would have to fit behind it
        obtain ⟨base', q', settled', hbase', hrun', -, -⟩ := createTable_eq_ok_iff.mp hresult
        obtain rfl := Except.ok.inj (hbase.symm.trans hbase')
        rw [appendAll_append, hfront, Outcome.ok_bind] at hrun'
        have hatMost := le_room_of_appendAll_withSize hd hback hle hrun'
        exact absurd hatMost (UInt64.not_le.mpr hmore)

theorem createTable_autofill_of_system :
    ∃ t slot, (createTable autofillDefiners 0x200000000 {}).result = .ok t ∧
      t.partitions[5]? = some slot ∧
      (createTable
        [⟨"logo", none, some (.absolute 0x800001), some 1⟩,
          ⟨"system", some (.relative 5), some (.absolute slot.size), none⟩,
          ⟨"data", none, some (.absolute 0x1001), some 2⟩] 0x200000000 {}).result = .ok t ∧
      ∀ more, slot.size < more → ∃ e, (createTable
        [⟨"logo", none, some (.absolute 0x800001), some 1⟩,
          ⟨"system", some (.relative 5), some (.absolute more), none⟩,
          ⟨"data", none, some (.absolute 0x1001), some 2⟩] 0x200000000 {}).result = .error e := by
  obtain ⟨t, ht⟩ := createTable_autofillDefiners
  obtain ⟨slot, hslot, hsame, hmore⟩ := createTable_autofill (k := 1) ht rfl rfl
  exact ⟨t, slot, ht, hslot, hsame, hmore⟩

end Layout

end EmmcLayout
