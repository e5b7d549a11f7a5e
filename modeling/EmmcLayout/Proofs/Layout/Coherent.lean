import EmmcLayout.Proofs.Layout.Placer

/-!
# The invariant of a placement

`Coherent` ties the cursor of a placement to its partitions: it stands at the furthest end of what
is placed, and while a partition waits, all that lies behind it lies between it and the cursor.  This
holds at the start of every placement, is kept by placing a definer, by settling and by starting over
behind changed partitions, and makes settling a plain function of the state: `settle_eq_ok_iff`.

The base may be any list of partitions, also one whose partitions overlap or leave the word.
-/

namespace EmmcLayout

namespace Partition

/-- The partition moved away from the start of the device. -/
def shift (amount : UInt64) (p : Partition) : Partition :=
  { p with offset := p.offset + amount }

theorem toNat_offset_shift {amount : UInt64} {p : Partition}
    (h : p.offset.toNat + amount.toNat < UInt64.size) :
    (p.shift amount).offset.toNat = p.offset.toNat + amount.toNat := by
  rw [shift, Word.toNat_add_of_lt h]

theorem stop_shift {amount : UInt64} {p : Partition}
    (h : p.offset.toNat + amount.toNat < UInt64.size) :
    (p.shift amount).stop = p.stop + amount.toNat := by
  simp only [stop, toNat_offset_shift h]
  show p.offset.toNat + amount.toNat + p.size.toNat = _
  omega

/-- Offset and size are multiples of the alignment. -/
structure AlignedTo (alignment : UInt64) (p : Partition) : Prop where
  offset : Aligned alignment.toNat p.offset.toNat
  size : Aligned alignment.toNat p.size.toNat

theorem AlignedTo.with_size {alignment amount : UInt64} {p : Partition}
    (h : p.AlignedTo alignment) (hamount : Aligned alignment.toNat amount.toNat) :
    AlignedTo alignment { p with size := amount } :=
  ⟨h.offset, hamount⟩

/-- An aligned amount moves an aligned partition to an aligned place. -/
theorem AlignedTo.shift {alignment amount : UInt64} {p : Partition} (h : p.AlignedTo alignment)
    (hamount : Aligned alignment.toNat amount.toNat)
    (hfits : p.offset.toNat + amount.toNat < UInt64.size) :
    (p.shift amount).AlignedTo alignment := by
  refine ⟨?_, h.size⟩
  rw [toNat_offset_shift hfits]
  exact h.offset.add hamount

end Partition

namespace Layout.Placer

variable {options : LayoutOptions} {p q : Placer} {d : Definer}

/-- The cursor stands at the furthest end, and what lies behind a waiting partition lies between it
and the cursor. -/
structure Coherent (p : Placer) : Prop where
  cursor_eq : p.cursor = DiskCursor.behind p.cursor.capacity p.cursor.nextFree
  reach_eq : Table.reach p.partitions = p.cursor.nextFree
  waiting_size : ∀ w, p.waiting = some w → w.partition.size = 0
  placed_le : ∀ w, p.waiting = some w →
    (Table.reach p.placed).toNat ≤ w.partition.offset.toNat
  behind_le : ∀ w, p.waiting = some w → ∀ b ∈ w.behind,
    w.partition.offset.toNat ≤ b.offset.toNat ∧ b.stop ≤ p.cursor.nextFree.toNat

/-- The placement that begins behind these partitions. -/
def fresh (capacity : UInt64) (ps : List Partition) : Placer :=
  ⟨ps, none, DiskCursor.behind capacity (Table.reach ps)⟩

theorem coherent_fresh (capacity : UInt64) (ps : List Partition) :
    (fresh capacity ps).Coherent where
  cursor_eq := rfl
  reach_eq := rfl
  waiting_size := by simp [fresh]
  placed_le := by simp [fresh]
  behind_le := by simp [fresh]

/-- A placement in which nothing waits is known by its partitions and its device. -/
theorem Coherent.eq_fresh (hp : p.Coherent) (hw : p.waiting = none) :
    p = fresh p.cursor.capacity p.partitions := by
  rw [fresh, hp.reach_eq, ← hp.cursor_eq, partitions_of_settled hw, ← hw]

/-- The waiting partition lies at or below the cursor. -/
theorem Coherent.waiting_le (hp : p.Coherent) {w : Waiting} (hw : p.waiting = some w) :
    w.partition.offset.toNat ≤ p.cursor.nextFree.toNat := by
  have hmem : w.partition ∈ p.partitions := by
    rw [partitions_of_waiting hw]
    exact List.mem_append_right _ List.mem_cons_self
  have hstop := Table.stopSat_le_reach hmem
  have hlt : w.partition.offset.toNat < UInt64.size := w.partition.offset.toNat_lt
  rw [hp.reach_eq, Partition.toNat_stopSat, Partition.stop, hp.waiting_size w hw] at hstop
  change min (w.partition.offset.toNat + 0) (UInt64.size - 1) ≤ _ at hstop
  omega

/-- What lies behind the waiting partition can be moved as far as the cursor can. -/
theorem Coherent.behind_fits (hp : p.Coherent) {w : Waiting} (hw : p.waiting = some w)
    {amount : UInt64} (hfits : p.cursor.nextFree.toNat + amount.toNat < UInt64.size) :
    ∀ b ∈ w.behind, b.offset.toNat + amount.toNat < UInt64.size := by
  intro b hb
  have hstop := (hp.behind_le w hw b hb).2
  rw [Partition.stop] at hstop
  omega

/-- What is placed next lies behind everything that was placed, and is the new furthest end. -/
theorem Accepts.reach_eq {part : Partition} (hp : p.Coherent) (h : Accepts options p d part) :
    Table.reach (p.partitions ++ [part]) = part.stopSat := by
  refine Table.reach_eq_of_attained ?_ ⟨part, by simp, rfl⟩
  intro x hx
  rcases List.mem_append.mp hx with hold | hnew
  · have hstop := Table.stopSat_le_reach hold
    have hnext := h.nextFree_le_offset
    rw [hp.reach_eq] at hstop
    rw [h.toNat_stopSat, Partition.stop]
    omega
  · rw [List.mem_singleton.mp hnew]

theorem Accepts.nextFree_le_stop {part : Partition} (h : Accepts options p d part) :
    p.cursor.nextFree.toNat ≤ part.stop :=
  Nat.le_trans h.nextFree_le_offset (Nat.le_add_right _ _)

theorem Accepts.coherent_push {part : Partition} (hp : p.Coherent)
    (h : Accepts options p d part) : (p.push d.size.isSome part part.stopSat).Coherent := by
  have hreach : Table.reach (p.push d.size.isSome part part.stopSat).partitions =
      part.stopSat := by
    rw [partitions_push, h.reach_eq hp]
  have hstop := h.toNat_stopSat
  have hnext := h.nextFree_le_offset
  cases hw : p.waiting with
  | some w =>
      -- it joins those behind the waiting partition
      rw [push_of_waiting hw] at hreach ⊢
      refine ⟨rfl, hreach, ?_, ?_, ?_⟩
      · rintro _ ⟨⟩
        exact hp.waiting_size w hw
      · rintro _ ⟨⟩
        exact hp.placed_le w hw
      · rintro _ ⟨⟩ b hb
        have hwait := hp.waiting_le hw
        have hle := h.nextFree_le_stop
        show w.partition.offset.toNat ≤ b.offset.toNat ∧ b.stop ≤ part.stopSat.toNat
        rcases List.mem_append.mp hb with hold | hnew
        · have hb' := hp.behind_le w hw b hold
          omega
        · rw [List.mem_singleton.mp hnew]
          omega
  | none =>
      cases hd : d.size with
      | some amount =>
          rw [hd, Option.isSome_some, push_sized hw] at hreach
          rw [Option.isSome_some, push_sized hw]
          exact ⟨rfl, hreach, by simp, by simp, by simp⟩
      | none =>
          -- it is the partition that waits from now on
          have hsize := h.size_eq
          rw [hd] at hsize
          rw [hd, Option.isSome_none, push_unsized hw] at hreach
          rw [Option.isSome_none, push_unsized hw]
          refine ⟨rfl, hreach, ?_, ?_, ?_⟩
          · rintro _ ⟨⟩
            exact hsize.2
          · rintro _ ⟨⟩
            rw [← partitions_of_settled hw, hp.reach_eq]
            exact hnext
          · rintro _ ⟨⟩ b hb
            simp at hb

theorem capacity_of_append (h : (p.append options d).result = .ok q) :
    q.cursor.capacity = p.cursor.capacity := by
  obtain ⟨part, -, rfl⟩ := append_eq_ok_iff.mp h
  rw [cursor_push, capacity_moveTo]

/-- Placing a definer keeps the invariant. -/
theorem Coherent.append (hp : p.Coherent) (h : (p.append options d).result = .ok q) :
    q.Coherent := by
  obtain ⟨part, haccepts, rfl⟩ := append_eq_ok_iff.mp h
  exact haccepts.coherent_push hp

theorem start_result {ε : Type} (ps : List Partition) (capacity : UInt64) :
    (start ps capacity : Logged ε Placer).result = .ok (fresh capacity ps) := by
  rw [start, Logged.result_bind]
  rfl

/-! ## Settling -/

/-- The state in which the waiting partition has got `amount`. -/
def resolved (amount : UInt64) (p : Placer) : Placer :=
  match p.waiting with
  | none => p
  | some w =>
    { placed :=
        p.placed ++ { w.partition with size := amount } :: w.behind.map (Partition.shift amount)
      waiting := none
      cursor := p.cursor.moveTo (p.cursor.nextFree + amount) }

theorem resolved_of_none (hw : p.waiting = none) (amount : UInt64) : p.resolved amount = p := by
  simp [resolved, hw]

theorem resolved_of_some {w : Waiting} (hw : p.waiting = some w) (amount : UInt64) :
    p.resolved amount =
      ⟨p.placed ++ { w.partition with size := amount } :: w.behind.map (Partition.shift amount),
        none, p.cursor.moveTo (p.cursor.nextFree + amount)⟩ := by
  simp [resolved, hw]

theorem waiting_resolved (amount : UInt64) (p : Placer) : (p.resolved amount).waiting = none := by
  cases hw : p.waiting with
  | none => rw [resolved_of_none hw, hw]
  | some w => rw [resolved_of_some hw]

theorem capacity_resolved (amount : UInt64) (p : Placer) :
    (p.resolved amount).cursor.capacity = p.cursor.capacity := by
  cases hw : p.waiting with
  | none => rw [resolved_of_none hw]
  | some w => rw [resolved_of_some hw, capacity_moveTo]

/-- Resolving changes no name. -/
theorem map_rawName_resolved (amount : UInt64) (p : Placer) :
    (p.resolved amount).partitions.map Partition.rawName = p.partitions.map Partition.rawName := by
  cases hw : p.waiting with
  | none => rw [resolved_of_none hw]
  | some w =>
      rw [resolved_of_some hw]
      simp only [partitions, hw, List.map_append, List.map_cons, List.map_map]
      rfl

theorem length_partitions_resolved (amount : UInt64) (p : Placer) :
    (p.resolved amount).partitions.length = p.partitions.length := by
  have h := congrArg List.length (map_rawName_resolved amount p)
  rwa [List.length_map, List.length_map] at h

/-- What settling gives to the waiting partition. -/
def room (options : LayoutOptions) (p : Placer) : UInt64 :=
  alignDown (p.cursor.capacity - p.cursor.nextFree) options.alignment

theorem toNat_room (options : LayoutOptions)
    (hle : p.cursor.nextFree.toNat ≤ p.cursor.capacity.toNat) :
    (p.room options).toNat =
      roundDown options.alignment.toNat (p.cursor.capacity.toNat - p.cursor.nextFree.toNat) := by
  rw [room, toNat_alignDown, UInt64.toNat_sub_of_le _ _ (UInt64.le_iff_toNat_le.mpr hle)]

theorem nextFree_add_room_le (options : LayoutOptions)
    (hle : p.cursor.nextFree.toNat ≤ p.cursor.capacity.toNat) :
    p.cursor.nextFree.toNat + (p.room options).toNat ≤ p.cursor.capacity.toNat := by
  have hdown := roundDown_le options.alignment.toNat
    (p.cursor.capacity.toNat - p.cursor.nextFree.toNat)
  rw [toNat_room options hle]
  omega

theorem aligned_room (options : LayoutOptions) (p : Placer) :
    Aligned options.alignment.toNat (p.room options).toNat := by
  rw [room, toNat_alignDown]
  exact aligned_roundDown _ _

/-- Where settling does not fail, what it gives away stays within the word. -/
theorem room_fits (options : LayoutOptions)
    (hle : p.waiting ≠ none → p.cursor.nextFree.toNat ≤ p.cursor.capacity.toNat) :
    p.waiting ≠ none →
      p.cursor.nextFree.toNat + (p.room options).toNat < UInt64.size :=
  fun hw => Nat.lt_of_le_of_lt (nextFree_add_room_le options (hle hw)) p.cursor.capacity.toNat_lt

theorem exactly_some (name : String) (v : UInt64) : exactly name (some v) = .ok v := rfl

/-- Moving partitions that stay within the word never fails. -/
theorem result_mapM_shift {taken : UInt64} {bs : List Partition}
    (h : ∀ b ∈ bs, b.offset.toNat + taken.toNat < UInt64.size) :
    (bs.mapM (m := Logged LayoutError) fun q => do
        let offset ← exactly q.name (Word.add? q.offset taken)
        return { q with offset }).result =
      .ok (bs.map (Partition.shift taken)) := by
  induction bs with
  | nil => rfl
  | cons b bs ih =>
      obtain ⟨hb, hbs⟩ := List.forall_mem_cons.mp h
      rw [List.mapM_cons]
      simp only [Logged.result_bind, Outcome.result_lift, Word.add?_of_lt hb, exactly_some,
        Outcome.ok_bind, Logged.result_pure, ih hbs]
      rfl

/-- **What settling does.**  It fails only for want of space, and gives away all that is left up to
the alignment. -/
theorem settle_eq_ok_iff (hp : p.Coherent) :
    (p.settle options).result = .ok q ↔
      (p.waiting ≠ none → p.cursor.nextFree.toNat ≤ p.cursor.capacity.toNat) ∧
        q = p.resolved (p.room options) := by
  unfold settle
  cases hw : p.waiting with
  | none => simp [resolved_of_none hw, eq_comm]
  | some w =>
      simp only [ne_eq, reduceCtorEq, not_false_eq_true, forall_const]
      by_cases hover : p.cursor.capacity < p.cursor.nextFree
      · have hnot : ¬ p.cursor.nextFree.toNat ≤ p.cursor.capacity.toNat :=
          Nat.not_le.mpr (UInt64.lt_iff_toNat_lt.mp hover)
        simp only [hover, if_true, hnot, false_and, iff_false]
        intro h
        obtain ⟨needed, -, habsurd⟩ := Outcome.result_bind_eq_ok_iff.mp h
        simp at habsurd
      · have hle : p.cursor.nextFree.toNat ≤ p.cursor.capacity.toNat :=
          Nat.le_of_not_lt (fun h => hover (UInt64.lt_iff_toNat_lt.mpr h))
        have hroom := nextFree_add_room_le options hle
        have hcap : p.cursor.capacity.toNat < UInt64.size := p.cursor.capacity.toNat_lt
        have hfits := Nat.lt_of_le_of_lt hroom hcap
        have hsub := Word.sub?_of_le hle
        have hadd := Word.add?_of_lt hfits
        have hmoved := result_mapM_shift (hp.behind_fits hw hfits)
        simp only [room] at hadd hmoved
        simp only [hover, if_false, hle, true_and, Logged.result_bind, Outcome.result_lift, hsub,
          exactly_some, Outcome.ok_bind, hmoved, hadd, Logged.result_info, Logged.result_pure]
        rw [resolved_of_some hw, room, Except.ok.injEq, eq_comm]

theorem settle_of_settled (hw : p.waiting = none) : (p.settle options).result = .ok p := by
  simp [settle, hw]

/-- The cursor stands at the end of the waiting partition or of one behind it. -/
theorem Coherent.exists_stop_eq (hp : p.Coherent) {w : Waiting} (hw : p.waiting = some w) :
    w.partition.offset.toNat = p.cursor.nextFree.toNat ∨
      ∃ b ∈ w.behind, b.stop = p.cursor.nextFree.toNat := by
  by_contra hnone
  rw [not_or, not_exists] at hnone
  obtain ⟨hoffset, hbehind⟩ := hnone
  have hwait := hp.waiting_le hw
  have hzero : w.partition.size.toNat = 0 := by rw [hp.waiting_size w hw]; rfl
  -- then everything ends below the cursor, which is the furthest end
  have hbelow : (Table.reach p.partitions).toNat ≤ p.cursor.nextFree.toNat - 1 := by
    rw [Table.reach_le_iff]
    intro x hx
    have hsat := Partition.toNat_stopSat x
    rw [partitions_of_waiting hw] at hx
    rcases List.mem_append.mp hx with hplaced | hpending
    · have hreach := Table.stopSat_le_reach hplaced
      have hle := hp.placed_le w hw
      omega
    · rcases List.mem_cons.mp hpending with rfl | hb
      · rw [Partition.stop, hzero] at hsat
        omega
      · have hle := (hp.behind_le w hw x hb).2
        have hne : x.stop ≠ p.cursor.nextFree.toNat := fun h => hbehind x ⟨hb, h⟩
        omega
  rw [hp.reach_eq] at hbelow
  omega

/-- A waiting partition that gets an amount within the word leaves the invariant intact. -/
theorem Coherent.resolved (hp : p.Coherent) {amount : UInt64}
    (hfits : p.waiting ≠ none → p.cursor.nextFree.toNat + amount.toNat < UInt64.size) :
    (p.resolved amount).Coherent := by
  cases hw : p.waiting with
  | none =>
      rw [resolved_of_none hw]
      exact hp
  | some w =>
      replace hfits := hfits (by simp [hw])
      have hwait := hp.waiting_le hw
      have hnext := Word.toNat_add_of_lt hfits
      have hshift : ∀ b ∈ w.behind, (b.shift amount).stop = b.stop + amount.toNat :=
        fun b hb => Partition.stop_shift (hp.behind_fits hw hfits b hb)
      have hreach : Table.reach (p.placed ++ { w.partition with size := amount } ::
          w.behind.map (Partition.shift amount)) = p.cursor.nextFree + amount := by
        refine Table.reach_eq_of_attained ?_ ?_
        · intro x hx
          have hsat := Partition.toNat_stopSat x
          rw [hnext]
          rcases List.mem_append.mp hx with hplaced | hpending
          · have hle := hp.placed_le w hw
            have hstop := Table.stopSat_le_reach hplaced
            omega
          · rcases List.mem_cons.mp hpending with rfl | hmoved
            · change _ = min (w.partition.offset.toNat + amount.toNat) _ at hsat
              omega
            · obtain ⟨b, hb, rfl⟩ := List.mem_map.mp hmoved
              have hle := (hp.behind_le w hw b hb).2
              rw [hshift b hb] at hsat
              omega
        · -- what ended at the cursor ends at the new one
          rcases hp.exists_stop_eq hw with hoffset | ⟨b, hb, hstop⟩
          · refine ⟨{ w.partition with size := amount }, by simp, UInt64.toNat_inj.mp ?_⟩
            rw [Partition.toNat_stopSat, hnext, Partition.stop]
            show min (w.partition.offset.toNat + amount.toNat) _ = _
            omega
          · refine ⟨b.shift amount, ?_, UInt64.toNat_inj.mp ?_⟩
            · exact List.mem_append_right _ (List.mem_cons_of_mem _ (List.mem_map_of_mem hb))
            · rw [Partition.toNat_stopSat, hshift b hb, hnext]
              omega
      rw [resolved_of_some hw]
      exact ⟨rfl, hreach, by simp, by simp, by simp⟩

/-- Settling keeps the invariant. -/
theorem Coherent.settle (hp : p.Coherent) (h : (p.settle options).result = .ok q) :
    q.Coherent := by
  obtain ⟨hle, rfl⟩ := (settle_eq_ok_iff hp).mp h
  exact hp.resolved (room_fits options hle)

/-! ## Order -/

/-- The partitions placed so far are in order, and end at or below the cursor. -/
def InOrder (p : Placer) : Prop :=
  Partition.InOrder p.cursor.nextFree.toNat p.partitions

/-- Partitions in order on a device are a placement in order. -/
theorem inOrder_fresh {ps : List Partition} {capacity : UInt64}
    (h : Partition.InOrder capacity.toNat ps) : (fresh capacity ps).InOrder :=
  ⟨h.pairwise, Table.stop_le_reach capacity.toNat_lt h.stop_le⟩

theorem InOrder.append (hp : p.InOrder) (h : (p.append options d).result = .ok q) :
    q.InOrder := by
  obtain ⟨part, haccepts, rfl⟩ := append_eq_ok_iff.mp h
  have hnext := haccepts.nextFree_le_offset
  have hle := haccepts.nextFree_le_stop
  rw [InOrder, partitions_push, cursor_push, nextFree_moveTo, haccepts.toNat_stopSat]
  refine ⟨List.pairwise_append.mpr ⟨hp.pairwise, List.pairwise_singleton _ _, ?_⟩, ?_⟩
  · intro x hx y hy
    rw [List.mem_singleton.mp hy]
    exact Nat.le_trans (hp.stop_le x hx) hnext
  · intro x hx
    rcases List.mem_append.mp hx with hold | hnew
    · exact Nat.le_trans (hp.stop_le x hold) hle
    · rw [List.mem_singleton.mp hnew]

/-- What is settled stays in order: all that lies behind the waiting partition moves with its end.
-/
theorem InOrder.resolved (hc : p.Coherent) (hp : p.InOrder) {amount : UInt64}
    (hfits : p.waiting ≠ none → p.cursor.nextFree.toNat + amount.toNat < UInt64.size) :
    (p.resolved amount).InOrder := by
  cases hw : p.waiting with
  | none =>
      rw [resolved_of_none hw]
      exact hp
  | some w =>
      replace hfits := hfits (by simp [hw])
      have hwait := hc.waiting_le hw
      obtain ⟨hpairwise, hstop⟩ := hp
      rw [partitions_of_waiting hw] at hpairwise hstop
      obtain ⟨hplaced, hpending, hcross⟩ := List.pairwise_append.mp hpairwise
      obtain ⟨-, hbehind⟩ := List.pairwise_cons.mp hpending
      have hbound := hc.behind_fits hw hfits
      have hnext := Word.toNat_add_of_lt hfits
      rw [resolved_of_some hw, InOrder]
      refine ⟨List.pairwise_append.mpr ⟨hplaced, List.pairwise_cons.mpr ⟨?_, ?_⟩, ?_⟩, ?_⟩
      -- the new end of the waiting partition against those behind it
      · intro x hx
        obtain ⟨b, hb, rfl⟩ := List.mem_map.mp hx
        have hle := (hc.behind_le w hw b hb).1
        rw [Partition.Before, Partition.toNat_offset_shift (hbound b hb)]
        show w.partition.offset.toNat + amount.toNat ≤ _
        omega
      -- those behind it among themselves
      · refine List.pairwise_map.mpr (hbehind.imp_of_mem ?_)
        intro a b ha hb hab
        rw [Partition.Before, Partition.stop_shift (hbound a ha),
          Partition.toNat_offset_shift (hbound b hb)]
        exact Nat.add_le_add_right hab _
      -- those in front of it against all others
      · intro x hx y hy
        have hxw : x.Before w.partition := hcross x hx w.partition List.mem_cons_self
        rcases List.mem_cons.mp hy with rfl | hy
        · exact hxw
        · obtain ⟨b, hb, rfl⟩ := List.mem_map.mp hy
          have hxb : x.Before b := hcross x hx b (List.mem_cons_of_mem _ hb)
          rw [Partition.Before, Partition.toNat_offset_shift (hbound b hb)]
          exact Nat.le_trans hxb (Nat.le_add_right _ _)
      -- and the cursor
      · intro x hx
        show x.stop ≤ (p.cursor.nextFree + amount).toNat
        rw [hnext]
        rcases List.mem_append.mp hx with hx | hx
        · exact Nat.le_trans (hstop x (List.mem_append_left _ hx)) (Nat.le_add_right _ _)
        · rcases List.mem_cons.mp hx with rfl | hx
          · simp only [Partition.stop]
            omega
          · obtain ⟨b, hb, rfl⟩ := List.mem_map.mp hx
            rw [Partition.stop_shift (hbound b hb)]
            exact Nat.add_le_add_right (hc.behind_le w hw b hb).2 _

end Layout.Placer

end EmmcLayout
