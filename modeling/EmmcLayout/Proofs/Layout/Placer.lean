import EmmcLayout.Layout.Placer
import EmmcLayout.Proofs.Table.Vendor

/-!
# What one step of a placement does

`append_eq_ok_iff` states once what it takes to place a definer and what comes of it, over the
numbers; nothing else unfolds `append` again.  The conditions are the structure `Accepts`.
-/

namespace EmmcLayout.Layout.Placer

variable {options : LayoutOptions} {p q : Placer} {d : Definer}

/-! ## The parts of a state -/

theorem partitions_of_settled (hw : p.waiting = none) : p.partitions = p.placed := by
  rw [partitions, hw]

theorem partitions_of_waiting {w : Waiting} (hw : p.waiting = some w) :
    p.partitions = p.placed ++ w.partition :: w.behind := by
  rw [partitions, hw]

@[simp]
theorem partitions_push (p : Placer) (sized : Bool) (part : Partition) (stop : UInt64) :
    (p.push sized part stop).partitions = p.partitions ++ [part] := by
  unfold push partitions
  cases p.waiting with
  | none => cases sized <;> simp
  | some w => simp

@[simp]
theorem cursor_push (p : Placer) (sized : Bool) (part : Partition) (stop : UInt64) :
    (p.push sized part stop).cursor = p.cursor.moveTo stop := by
  unfold push
  cases p.waiting with
  | none => cases sized <;> rfl
  | some w => rfl

@[simp]
theorem nextFree_moveTo (c : DiskCursor) (stop : UInt64) : (c.moveTo stop).nextFree = stop := rfl

@[simp]
theorem capacity_moveTo (c : DiskCursor) (stop : UInt64) :
    (c.moveTo stop).capacity = c.capacity := rfl

theorem push_of_waiting {w : Waiting} (hw : p.waiting = some w) (sized : Bool) (part : Partition)
    (stop : UInt64) :
    p.push sized part stop =
      ⟨p.placed, some ⟨w.partition, w.behind ++ [part]⟩, p.cursor.moveTo stop⟩ := by
  simp [push, hw]

theorem push_sized (hw : p.waiting = none) (part : Partition) (stop : UInt64) :
    p.push true part stop = ⟨p.placed ++ [part], none, p.cursor.moveTo stop⟩ := by
  simp [push, hw]

theorem push_unsized (hw : p.waiting = none) (part : Partition) (stop : UInt64) :
    p.push false part stop = ⟨p.placed, some ⟨part, []⟩, p.cursor.moveTo stop⟩ := by
  simp [push, hw]

/-! ## Placing a definer -/

theorem alignField_eq_ok_iff {name : String} {field : Field} {value alignment w : UInt64} :
    (alignField name field value alignment).result = .ok w ↔
      w.toNat = roundUp alignment.toNat value.toNat := by
  rw [← alignUp_eq_some_iff, alignField]
  cases halign : alignUp value alignment with
  | none => simp
  | some aligned =>
      by_cases hchanged : aligned = value
      · simp [hchanged]
      · simp [hchanged]

theorem wantedOffset_eq_ok_iff {w : UInt64} :
    p.wantedOffset d = .ok w ↔
      match d.offset with
      | none => w = p.cursor.nextFree
      | some (.relative delta) => w.toNat = p.cursor.nextFree.toNat + delta.toNat
      | some (.absolute offset) =>
        p.waiting = none ∧ p.cursor.nextFree.toNat ≤ offset.toNat ∧ w = offset := by
  unfold wantedOffset
  cases d.offset with
  | none => simp [eq_comm]
  | some amount =>
      cases amount with
      | relative delta =>
          dsimp only
          rw [eq_comm (a := w.toNat), ← Word.add?_eq_some_iff]
          cases Word.add? p.cursor.nextFree delta with
          | none => simp
          | some offset => simp
      | absolute offset =>
          cases hw : p.waiting with
          | some waiting => simp
          | none =>
              by_cases hbelow : offset < p.cursor.nextFree
              · have hnot := UInt64.lt_iff_toNat_lt.mp hbelow
                simp [hbelow, hnot]
              · have hle : p.cursor.nextFree.toNat ≤ offset.toNat := by
                  simpa [UInt64.lt_iff_toNat_lt] using hbelow
                simp [hbelow, hle, eq_comm]

theorem nextFree_le_wantedOffset {w : UInt64} (h : p.wantedOffset d = .ok w) :
    p.cursor.nextFree.toNat ≤ w.toNat := by
  have hw := wantedOffset_eq_ok_iff.mp h
  cases hoffset : d.offset with
  | none =>
      simp only [hoffset] at hw
      rw [hw]
  | some amount =>
      cases amount with
      | relative delta =>
          simp only [hoffset] at hw
          omega
      | absolute offset =>
          simp only [hoffset] at hw
          rw [hw.2.2]
          exact hw.2.1

/-- The conditions under which the definer `d` is placed as `part`. -/
structure Accepts (options : LayoutOptions) (p : Placer) (d : Definer) (part : Partition) :
    Prop where
  room : p.partitions.length < maxPartitions
  fresh : ∀ q ∈ p.partitions, ¬ q.isNamed d.name = true
  created : Partition.create d.name part.offset part.size (d.mask.getD 4) = .ok part
  offset_eq : ∃ wanted, p.wantedOffset d = .ok wanted ∧
    part.offset.toNat = roundUp options.alignment.toNat wanted.toNat
  size_eq : match d.size with
    | some amount => part.size.toNat = roundUp options.alignment.toNat amount.value.toNat
    | none => p.waiting = none ∧ part.size = 0
  stop_lt : part.stop < UInt64.size
  stop_le : p.waiting = none → part.stop ≤ p.cursor.capacity.toNat

theorem wantedSize_eq_ok_iff {size : UInt64} :
    (p.wantedSize options.alignment d).result = .ok size ↔
      match d.size with
      | some amount => size.toNat = roundUp options.alignment.toNat amount.value.toNat
      | none => p.waiting = none ∧ size = 0 := by
  unfold wantedSize
  cases d.size with
  | some amount => exact alignField_eq_ok_iff
  | none =>
      cases p.waiting with
      | none => simp [eq_comm]
      | some w => simp

theorem ensureRoom_eq_ok_iff {n : Nat} {u : Unit} : ensureRoom n = .ok u ↔ n < maxPartitions := by
  unfold ensureRoom
  split
  · rename_i h
    simp [Nat.not_lt.mpr h]
  · rename_i h
    simp [Nat.lt_of_not_le h]

/-- **What placing a definer takes and does.**  All of `append` is in this statement. -/
theorem append_eq_ok_iff :
    (p.append options d).result = .ok q ↔
      ∃ part, Accepts options p d part ∧ q = p.push d.size.isSome part part.stopSat := by
  have hany : ¬ (p.partitions.any (·.isNamed d.name)) = true ↔
      ∀ q ∈ p.partitions, ¬ q.isNamed d.name = true := by
    rw [List.any_eq_true]
    simp
  unfold append
  simp only [Outcome.result_bind_eq_ok_iff, Outcome.lift_layout, Outcome.lift_layoutExcept,
    Outcome.lift_grammarExcept, Outcome.result_ofExcept_eq_ok_iff,
    Outcome.result_ofLogged_eq_ok_iff, Outcome.fail_bind, Outcome.result_guard_eq_ok_iff,
    ensureRoom_eq_ok_iff, hany, alignField_eq_ok_iff, wantedSize_eq_ok_iff]
  constructor
  · rintro ⟨-, hroom, hfresh, wanted, hwanted, offset, hoffset, hover, size, hsize, h⟩
    cases hstop : Word.add? offset size with
    | none => simp [hstop] at h
    | some stop =>
        rw [hstop] at h
        simp only [pure_bind] at h
        split at h
        · rename_i hpast
          obtain ⟨free, -, habsurd⟩ := Outcome.result_bind_eq_ok_iff.mp h
          simp at habsurd
        · rename_i hpast
          obtain ⟨part, hpart, h⟩ := Outcome.result_bind_eq_ok_iff.mp h
          have hcreate := Outcome.mapError_eq_ok_iff.mp (Outcome.result_ofExcept_eq_ok_iff.mp hpart)
          obtain ⟨-, hdata⟩ := Partition.create_eq_ok_iff.mp hcreate
          have hoff : part.offset = offset := by rw [hdata]
          have hsz : part.size = size := by rw [hdata]
          have hsum : part.stop = stop.toNat := by
            rw [Partition.stop, hoff, hsz]
            exact Word.add?_eq_some_iff.mp hstop
          have hlt : part.stop < UInt64.size := hsum ▸ stop.toNat_lt
          have hsat : part.stopSat = stop :=
            UInt64.toNat_inj.mp ((Partition.toNat_stopSat_of_lt hlt).trans hsum)
          refine ⟨part, ⟨hroom, hfresh, ?_, ⟨wanted, hwanted, ?_⟩, ?_, hlt, ?_⟩, ?_⟩
          · rw [hoff, hsz]
            exact hcreate
          · rw [hoff]
            exact hoffset
          · rw [hsz]
            exact hsize
          · intro hnone
            simp only [hnone, Option.isNone_none, true_and, UInt64.lt_iff_toNat_lt] at hover hpast
            cases hd : d.size with
            | none =>
                -- only its offset is checked, which is its end as well
                simp only [hd] at hsize
                rw [Partition.stop, hoff, hsz, hsize.2]
                show offset.toNat ≤ _
                omega
            | some amount =>
                simp only [hd, Option.isSome_some, true_and] at hpast
                omega
          · rw [hsat]
            simpa using h.symm
  · rintro ⟨part, ⟨hroom, hfresh, hcreate, ⟨wanted, hwanted, hoffset⟩, hsize, hlt, hle⟩, rfl⟩
    have hstop : Word.add? part.offset part.size = some part.stopSat :=
      Word.add?_eq_some_iff.mpr (Partition.toNat_stopSat_of_lt hlt).symm
    refine ⟨(), hroom, hfresh, wanted, hwanted, part.offset, hoffset, ?_, part.size, hsize, ?_⟩
    · rintro ⟨hnone, hover⟩
      have hstopLe := hle (Option.isNone_iff_eq_none.mp hnone)
      have hover' := UInt64.lt_iff_toNat_lt.mp hover
      rw [Partition.stop] at hstopLe
      omega
    · rw [hstop]
      simp only [pure_bind]
      rw [if_neg]
      · rw [Outcome.result_bind_eq_ok_iff]
        refine ⟨part, ?_, by simp⟩
        rw [Outcome.result_ofExcept_eq_ok_iff, Outcome.mapError_eq_ok_iff]
        exact hcreate
      · rintro ⟨hnone, -, hpast⟩
        have hstopLe := hle (Option.isNone_iff_eq_none.mp hnone)
        have hpast' := UInt64.lt_iff_toNat_lt.mp hpast
        rw [Partition.toNat_stopSat_of_lt hlt] at hpast'
        omega

theorem Accepts.nextFree_le_offset {part : Partition} (h : Accepts options p d part) :
    p.cursor.nextFree.toNat ≤ part.offset.toNat := by
  obtain ⟨wanted, hwanted, hoffset⟩ := h.offset_eq
  rw [hoffset]
  exact Nat.le_trans (nextFree_le_wantedOffset hwanted) (le_roundUp _ _)

theorem Accepts.toNat_stopSat {part : Partition} (h : Accepts options p d part) :
    part.stopSat.toNat = part.stop :=
  Partition.toNat_stopSat_of_lt h.stop_lt

end EmmcLayout.Layout.Placer
