import EmmcLayout.Proofs.Layout.Modify
import EmmcLayout.Proofs.Layout.Spans

/-!
# The arithmetic of a placement stays within the word

A placement tests an offset or a size where it comes in, and computes with it untested later on:
what is left of the device, how far the partitions behind a settled one move, what an alignment
asks for, how long a gap is.  Each of these values is safe for a reason that lies elsewhere, in a
test made before or in the invariant of the placement (`Placer.Coherent`).

`arithmetic_within_word` joins them.  The values of a placement are taken through `exactly`, so for
them it says that no operation fails with `outsideWord`; for those of an alignment and of the spans,
which are plain differences, it says that they are what a checked difference gives.

Nothing is asked of the base: its partitions may end behind the device, or leave the word.
-/

namespace EmmcLayout

open Outcome (FailsOnly)

/-! ## Failures -/

/-- The failure is not that a value left the word. -/
def LayoutError.WithinWord : LayoutError → Prop
  | .outsideWord _ => False
  | _ => True

/-- The failure is not that a value of a layout left the word. -/
def Error.WithinWord : Error → Prop
  | .layout cause => cause.WithinWord
  | _ => True

namespace Error

@[simp]
theorem withinWord_layout (cause : LayoutError) :
    Error.WithinWord (Cause.toError cause) ↔ cause.WithinWord := Iff.rfl

@[simp]
theorem withinWord_grammar (cause : GrammarError) : Error.WithinWord (Cause.toError cause) :=
  trivial

@[simp]
theorem withinWord_validation (cause : ValidationError) :
    Error.WithinWord (Cause.toError cause) :=
  trivial

end Error

/-! ## Alignments -/

/-- How far the value lies behind a multiple of the alignment; without an alignment, not at all. -/
def excess (value alignment : UInt64) : UInt64 :=
  if alignment = 0 then 0 else value % alignment

/-- Rounding up adds nothing, or what the excess leaves of the alignment. -/
theorem alignUp_within_word (value alignment : UInt64) :
    (excess value alignment = 0 ∧ alignUp value alignment = some value) ∨
      ∃ missing, Word.sub? alignment (excess value alignment) = some missing ∧
        alignUp value alignment = Word.add? value missing := by
  by_cases hnone : alignment = 0
  · exact .inl ⟨if_pos hnone, by rw [alignUp, if_pos hnone]⟩
  · have hpos : 0 < alignment.toNat :=
      Nat.pos_of_ne_zero fun hzero => hnone ((toNat_eq_zero_iff alignment).mp hzero)
    simp only [excess, alignUp, hnone, if_false]
    by_cases hexcess : value % alignment = 0
    · exact .inl ⟨hexcess, if_pos hexcess⟩
    · refine .inr ⟨_, Word.sub?_of_le ?_, if_neg hexcess⟩
      rw [UInt64.toNat_mod]
      exact (Nat.mod_lt _ hpos).le

theorem alignDown_within_word (value alignment : UInt64) :
    Word.sub? value (excess value alignment) = some (alignDown value alignment) := by
  by_cases hnone : alignment = 0
  · rw [excess, if_pos hnone, alignDown, if_pos hnone, Word.sub?_of_le (Nat.zero_le _),
      UInt64.sub_zero]
  · rw [excess, if_neg hnone, alignDown, if_neg hnone]
    refine Word.sub?_of_le ?_
    rw [UInt64.toNat_mod]
    exact Nat.mod_le _ _

/-! ## Vendor layouts -/

namespace Table

variable {capacity base size gap : UInt64} {clamped : Bool} {p : Partition} {ps : List Partition}
  {e : LayoutError}

theorem withinWord_of_fillOne (h : (fillOne capacity clamped base size gap p).2 = some e) :
    e.WithinWord := by
  unfold fillOne at h
  split at h
  · obtain rfl := Option.some.inj h
    trivial
  · rename_i offset _
    dsimp only at h
    split at h
    · obtain rfl := Option.some.inj h
      trivial
    · -- the offset was found on the device, so there is room behind it
      rename_i hfits
      rw [UInt64.lt_iff_toNat_lt, Nat.not_lt] at hfits
      rw [Word.sub?_of_le hfits] at h
      split at h <;> simp at h

theorem withinWord_of_fillBehind {last : Partition}
    (h : (fillBehind capacity gap last ps).2 = some e) : e.WithinWord := by
  induction ps generalizing last with
  | nil => simp [fillBehind] at h
  | cons p ps ih =>
      have hfirst := @withinWord_of_fillOne capacity last.offset last.size gap true p
      unfold fillBehind at h
      split at h
      · rename_i hone
        exact hfirst (hone ▸ h)
      · exact ih h

theorem withinWord_of_fillPartitions {gapReserved gapPartition : UInt64}
    (h : (fillPartitions capacity gapReserved gapPartition ps).2 = some e) : e.WithinWord := by
  unfold fillPartitions at h
  split at h
  · simp at h
  · simp at h
  · rename_i first second rest
    have hsecond := @withinWord_of_fillOne capacity 0 first.size gapReserved false second
    split at h
    · rename_i hone
      exact hsecond (hone ▸ h)
    · exact withinWord_of_fillBehind h

theorem withinWord_of_fill {t : Table} {gapReserved gapPartition : UInt64}
    (h : (t.fill capacity gapReserved gapPartition).2 = some e) : e.WithinWord := by
  unfold fill at h
  split at h
  · exact withinWord_of_fillPartitions h
  · obtain rfl := Option.some.inj h
    trivial

theorem failsOnly_vendorLayout (capacity : UInt64) (options : LayoutOptions) :
    FailsOnly LayoutError.WithinWord (vendorLayout capacity options) := by
  unfold vendorLayout filled
  rw [Outcome.failsOnly_bind]
  refine ⟨?_, fun table _ => Outcome.failsOnly_pure _⟩
  split
  · rename_i hfill
    exact (Outcome.failsOnly_throw _).mpr (withinWord_of_fill (congrArg Prod.snd hfill))
  · simp

end Table

/-! ## Steps of a placement -/

namespace Layout

variable {options : LayoutOptions} {capacity : UInt64} {p : Placer} {ps : List Partition}

@[simp]
theorem failsOnly_withinWord_alignField (name : String) (field : Field)
    (value alignment : UInt64) :
    FailsOnly LayoutError.WithinWord (alignField name field value alignment) := by
  unfold alignField
  cases alignUp value alignment with
  | none => simp [LayoutError.WithinWord]
  | some aligned => simp [Logged.warn]

theorem withinWord_of_wantedOffset {d : Definer} {e : LayoutError}
    (h : p.wantedOffset d = .error e) : e.WithinWord := by
  unfold Placer.wantedOffset at h
  split at h
  · exact absurd h (by simp)
  · split at h
    · exact absurd h (by simp)
    · obtain rfl := Except.error.inj h
      trivial
  · split at h
    · obtain rfl := Except.error.inj h
      trivial
    · split at h
      · obtain rfl := Except.error.inj h
        trivial
      · exact absurd h (by simp)

@[simp]
theorem failsOnly_withinWord_wantedSize (alignment : UInt64) (d : Definer) :
    FailsOnly LayoutError.WithinWord (p.wantedSize alignment d) := by
  unfold Placer.wantedSize
  cases d.size with
  | some amount => simp
  | none =>
      cases p.waiting with
      | none => simp
      | some w => simp [LayoutError.WithinWord]

/-- A definer that does not fit is refused behind the test of its offset, so that what is free
behind the offset is a word. -/
theorem failsOnly_withinWord_append (d : Definer) :
    FailsOnly Error.WithinWord (p.append options d) := by
  unfold Placer.append
  simp only [Outcome.lift_grammarExcept, Outcome.lift_layout, Outcome.lift_layoutExcept,
    Outcome.failsOnly_bind, Outcome.failsOnly_ite, Outcome.failsOnly_ofExcept,
    Outcome.failsOnly_ofLogged, Outcome.failsOnly_fail, Error.withinWord_layout,
    Error.withinWord_grammar, Outcome.fail_bind, implies_true, true_and,
    failsOnly_withinWord_alignField, failsOnly_withinWord_wantedSize]
  intro _ _ _
  refine ⟨fun _ => withinWord_of_wantedOffset, ?_⟩
  intro wanted _ offset _
  refine ⟨fun _ => trivial, fun hfits size _ => ?_⟩
  cases Word.add? offset size with
  | none => simp [LayoutError.WithinWord]
  | some stop =>
      simp only [pure_bind, Outcome.failsOnly_ite, Outcome.failsOnly_bind,
        Outcome.failsOnly_ofExcept, Outcome.failsOnly_fail, Outcome.failsOnly_debug,
        Outcome.failsOnly_pure, Error.withinWord_grammar, implies_true, and_true]
      rintro ⟨hsettled, -, -⟩
      have hle : offset.toNat ≤ p.cursor.capacity.toNat := by
        rw [← Nat.not_lt, ← UInt64.lt_iff_toNat_lt]
        exact fun hpast => hfits ⟨hsettled, hpast⟩
      rw [Word.sub?_of_le hle]
      simp [exactly, LayoutError.WithinWord]

/-- Settling fails only when the cursor is behind the device.  The waiting partition lies at or
below the cursor, so what was needed is a word. -/
theorem failsOnly_withinWord_settle (hp : p.Coherent) :
    FailsOnly LayoutError.WithinWord (p.settle options) := by
  by_cases hfits : p.waiting ≠ none → p.cursor.nextFree.toNat ≤ p.cursor.capacity.toNat
  · have hok : (p.settle options).result = .ok (p.resolved (p.room options)) :=
      (Placer.settle_eq_ok_iff hp).mpr ⟨hfits, rfl⟩
    intro e herror
    simp [hok] at herror
  · obtain ⟨hwaits, hnot⟩ := not_forall.mp hfits
    obtain ⟨w, hw⟩ := Option.ne_none_iff_exists'.mp hwaits
    have hover : p.cursor.capacity < p.cursor.nextFree :=
      UInt64.lt_iff_toNat_lt.mpr (Nat.lt_of_not_le hnot)
    have hneeded := Word.sub?_of_le (hp.waiting_le hw)
    unfold Placer.settle
    simp [hw, hover, hneeded, exactly, Outcome.throw_bind, LayoutError.WithinWord]

/-! ## Modifiers -/

theorem failsOnly_withinWord_changeField {name : String} {field : Field} {value : UInt64}
    {change : Change} {alignment : UInt64} :
    FailsOnly LayoutError.WithinWord (changeField name field value change alignment) := by
  unfold changeField
  cases change.apply value with
  | none => cases change <;> simp [LayoutError.WithinWord]
  | some changed => simp

theorem failsOnly_withinWord_adjust {alignment : UInt64} {a : Adjustment} {x : Partition} :
    FailsOnly Error.WithinWord (Entry.adjust alignment a x) := by
  show FailsOnly Error.WithinWord (adjustPartition alignment a x)
  unfold adjustPartition
  simp [Outcome.lift_layout, failsOnly_withinWord_changeField]

theorem failsOnly_withinWord_editStep (hp : p.Coherent) (e : Editor) :
    FailsOnly Error.WithinWord (editStep options p e) := by
  cases e with
  | definer d => exact failsOnly_withinWord_append d
  | modifier m =>
      have hmodify : ∀ ps, FailsOnly Error.WithinWord (modify options.alignment ps m) := fun _ =>
        failsOnly_modify_of_adjust Error.withinWord_grammar fun _ _ => failsOnly_withinWord_adjust
      unfold editStep
      simp [Outcome.lift_layout, failsOnly_withinWord_settle hp, hmodify]

/-! ## Whole operations -/

theorem withinWord_of_checkEnds {e : LayoutError} (h : checkEnds capacity ps = .error e) :
    e.WithinWord := by
  induction ps with
  | nil => simp [checkEnds] at h
  | cons x ps ih =>
      unfold checkEnds at h
      split at h
      · obtain rfl := Except.error.inj h
        trivial
      · split at h
        · obtain rfl := Except.error.inj h
          trivial
        · exact ih h

theorem failsOnly_withinWord_finish : FailsOnly Error.WithinWord (finish capacity ps) := by
  unfold finish
  simp only [Outcome.lift_validationExcept, Outcome.lift_layoutExcept, Outcome.failsOnly_bind,
    Outcome.failsOnly_ofExcept, Error.withinWord_validation, Error.withinWord_layout,
    failsOnly_warnOverlaps, Outcome.failsOnly_pure, implies_true, true_and, and_true]
  exact fun _ _ _ => withinWord_of_checkEnds

/-- What is done with a placement at the end of an operation. -/
theorem failsOnly_withinWord_conclude (hp : p.Coherent) :
    FailsOnly Error.WithinWord (do
      let placer ← (liftM (p.settle options) : Outcome Placer)
      finish capacity placer.partitions) := by
  simp [Outcome.lift_layout, failsOnly_withinWord_settle hp, failsOnly_withinWord_finish]

theorem failsOnly_withinWord_editTable (base : Table) (es : List Editor) :
    FailsOnly Error.WithinWord (editTable base es capacity options) := by
  have hstart := Placer.coherent_fresh capacity base.partitions
  unfold editTable
  rw [failsOnly_start_bind, Outcome.failsOnly_bind]
  refine ⟨?_, fun p hrun => ?_⟩
  · exact failsOnly_editAll_of_editStep (fun hp hstep => Placer.Coherent.editStep hp hstep)
      (fun e hp => failsOnly_withinWord_editStep hp e) es hstart
  · exact failsOnly_withinWord_conclude
      (editAll_keeps (fun hp hstep => Placer.Coherent.editStep hp hstep) hstart hrun)

theorem failsOnly_withinWord_createTable (ds : List Definer) :
    FailsOnly Error.WithinWord (createTable ds capacity options) := by
  unfold createTable
  rw [Outcome.failsOnly_bind]
  refine ⟨?_, fun base _ => ?_⟩
  · rw [Outcome.lift_layout, Outcome.failsOnly_ofLogged]
    exact Table.failsOnly_vendorLayout capacity options
  have hstart := Placer.coherent_fresh capacity base.partitions
  rw [failsOnly_start_bind, Outcome.failsOnly_bind]
  refine ⟨failsOnly_appendAll_of_append ds fun _ => failsOnly_withinWord_append, fun p hrun => ?_⟩
  exact failsOnly_withinWord_conclude
    (appendAll_keeps (fun hp hstep => Placer.Coherent.append hp hstep) hstart hrun)

end Layout

/-! ## The report -/

namespace Span

variable {furthest : UInt64} {ps : List Partition} {s : Span}

/-- A furthest end is zero, or the end of one of the partitions. -/
def Attained (ps : List Partition) (furthest : UInt64) : Prop :=
  furthest = 0 ∨ ∃ p ∈ ps, furthest = p.stopSat

/-- The length of a gap or an overlap is a difference that does not wrap, between the furthest end
of some partitions and the offset of another one. -/
inductive WithinWord (ps : List Partition) : Span → Prop
  | partition (index : Nat) (name : String) (offset size : UInt64) :
      WithinWord ps (.partition index name offset size)
  | gap {p : Partition} {furthest size : UInt64} (hp : p ∈ ps) (hend : Attained ps furthest)
      (hsize : Word.sub? p.offset furthest = some size) : WithinWord ps (.gap furthest size)
  | overlap {p : Partition} {furthest size : UInt64} (hp : p ∈ ps) (hend : Attained ps furthest)
      (hsize : Word.sub? furthest p.offset = some size) : WithinWord ps (.overlap p.offset size)

theorem Attained.max (h : Attained ps furthest) {p : Partition} (hp : p ∈ ps) :
    Attained ps (Max.max furthest p.stopSat) := by
  show Attained ps (if furthest ≤ p.stopSat then p.stopSat else furthest)
  split
  · exact .inr ⟨p, hp, rfl⟩
  · exact h

theorem withinWord_of_between {p : Partition} (hp : p ∈ ps) (hend : Attained ps furthest)
    (h : s ∈ between furthest p.offset) : WithinWord ps s := by
  unfold between at h
  split_ifs at h with hgap hoverlap
  · rw [List.mem_singleton] at h
    rw [h]
    exact .gap hp hend (Word.sub?_of_le (UInt64.lt_iff_toNat_lt.mp hgap).le)
  · rw [List.mem_singleton] at h
    rw [h]
    exact .overlap hp hend (Word.sub?_of_le (UInt64.lt_iff_toNat_lt.mp hoverlap).le)
  · exact absurd h List.not_mem_nil

/-- The sweep goes on from a furthest end of partitions of the table. -/
theorem withinWord_of_ofOrdered {rest : List (Partition × Nat)} (hrest : ∀ x ∈ rest, x.1 ∈ ps)
    (hend : Attained ps furthest) (h : s ∈ ofOrdered furthest rest) : WithinWord ps s := by
  induction rest generalizing furthest with
  | nil => exact absurd h List.not_mem_nil
  | cons x rest ih =>
      obtain ⟨hx, hrest⟩ := List.forall_mem_cons.mp hrest
      rw [ofOrdered, List.mem_append, List.mem_cons] at h
      rcases h with h | rfl | h
      · exact withinWord_of_between hx hend h
      · exact .partition _ _ _ _
      · exact ih hrest (hend.max hx) h

end Span

namespace Table

theorem withinWord_spans (t : Table) : ∀ s ∈ t.spans, Span.WithinWord t.partitions s := by
  have hmem := (forall_mem_byOffset_iff (t := t) (q := (· ∈ t.partitions))).mpr fun _ hp => hp
  exact fun s hs => Span.withinWord_of_ofOrdered hmem (.inl rfl) hs

end Table

namespace Layout

/-- **The arithmetic of a placement stays within the word.**  Whatever is asked for, with whatever
gaps and alignment, on whatever device and from whatever base: no operation fails because one of
the values that it computes untested is not a word.  What an alignment adds or takes away is a
difference of words, and so is the length of every gap and every overlap that is reported of a
table. -/
theorem arithmetic_within_word (capacity : UInt64) (options : LayoutOptions) :
    (∀ ds, FailsOnly Error.WithinWord (createTable ds capacity options)) ∧
      (∀ base es, FailsOnly Error.WithinWord (editTable base es capacity options)) ∧
      (∀ value,
        ((excess value options.alignment = 0 ∧
            alignUp value options.alignment = some value) ∨
          ∃ missing,
            Word.sub? options.alignment (excess value options.alignment) = some missing ∧
              alignUp value options.alignment = Word.add? value missing) ∧
        Word.sub? value (excess value options.alignment) =
          some (alignDown value options.alignment)) ∧
      ∀ t : Table, ∀ s ∈ t.spans, Span.WithinWord t.partitions s :=
  ⟨failsOnly_withinWord_createTable, failsOnly_withinWord_editTable,
    fun value => ⟨alignUp_within_word value _, alignDown_within_word value _⟩,
    Table.withinWord_spans⟩

/-- A table whose second partition starts within the first one. -/
def crowdedTable : Table :=
  Table.ofPartitions [Table.namedSlot "boot" 0x1000,
    { Table.namedSlot "misc" 0x1000 with offset := 0x800 }]

/-- A partition that waits for its size, and one behind it that does not fit. -/
def crowdedEditors : List Editor :=
  [.definer ⟨"data", none, none, none⟩, .definer ⟨"logo", none, some (.absolute 0x4000), none⟩]

theorem arithmetic_within_word_of_crowdedTable :
    (editTable crowdedTable crowdedEditors 0x3000 {}).result =
        .error (.layout (.noSpace "data" 0x4000 0x1000)) ∧
      FailsOnly Error.WithinWord (editTable crowdedTable crowdedEditors 0x3000 {}) ∧
      .overlap 0x800 0x800 ∈ crowdedTable.spans ∧
      Span.WithinWord crowdedTable.partitions (.overlap 0x800 0x800) := by
  obtain ⟨-, hedit, -, hspans⟩ := arithmetic_within_word 0x3000 {}
  have hsorted : crowdedTable.byOffset = crowdedTable.partitions.zipIdx :=
    List.mergeSort_of_pairwise (by decide)
  have hoverlap : .overlap 0x800 0x800 ∈ crowdedTable.spans := by
    rw [Table.spans, hsorted]
    decide
  refine ⟨?_, hedit crowdedTable crowdedEditors, hoverlap, hspans crowdedTable _ hoverlap⟩
  rw [editTable]
  simp only [finish_result, Logged.result_bind]
  decide +kernel

end Layout

end EmmcLayout
