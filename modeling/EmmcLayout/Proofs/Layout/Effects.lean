import EmmcLayout.Proofs.Layout.Alignment
import EmmcLayout.Proofs.Layout.Selection

/-!
# What a modifier leaves of a list

A modifier acts on one place of a list.  `Selector.Picks` says which one, and `Placement.wanted`
where a placement asks to go, both over the integers; the signed words of the computation agree with
them as long as they can count the list (`resolve_eq_ok_iff`, `target_eq_ok_iff`).

A list with a picked place is `front ++ x :: back`.  `Operation.Effect` says of each operation what
it leaves of these three parts, and `editTable_of_modifier` that an edit by one modifier leaves just
that.
-/

namespace EmmcLayout

/-! ## Places -/

/-- The place that a signed word means among `count`: a negative one counts from the end. -/
def signedPlace (count : Nat) (word : Int64) : Int :=
  if word.toInt < 0 then count + word.toInt else word.toInt

/-- The place that a selector picks among the names: the first that bears the name, or a position
within the list. -/
def Selector.Picks (names : List String) (place : Nat) : Selector → Prop
  | .byName name => names[place]? = some name ∧ ∀ i < place, names[i]? ≠ some name
  | .byIndex index => (place : Int) = signedPlace names.length index ∧ place < names.length

/-- Where a placement asks to go, from `current` among `count`. -/
def Placement.wanted (current count : Nat) : Placement → Int
  | .stay => current
  | .absolute place => signedPlace count place
  | .relative delta => current + delta.toInt

namespace Layout

section Places

variable {names : List String} {s : Selector} {place : Nat}

theorem idxOf?_eq_some_iff_picks {name : String} :
    names.idxOf? name = some place ↔ (Selector.byName name).Picks names place := by
  rw [List.idxOf?_eq_some_iff]
  constructor
  · rintro ⟨hlt, hname, hfirst⟩
    refine ⟨List.getElem?_eq_some_iff.mpr ⟨hlt, hname⟩, ?_⟩
    intro i hi hsame
    obtain ⟨hlt', hsame⟩ := List.getElem?_eq_some_iff.mp hsame
    exact hfirst i hi hsame
  · rintro ⟨hname, hfirst⟩
    obtain ⟨hlt, hname⟩ := List.getElem?_eq_some_iff.mp hname
    refine ⟨hlt, hname, ?_⟩
    intro i hi hsame
    exact hfirst i hi (List.getElem?_eq_some_iff.mpr ⟨Nat.lt_trans hi hlt, hsame⟩)

theorem resolve_byIndex (names : List String) (index : Int64) :
    (Selector.byIndex index).resolve names =
      if 0 ≤ signedPlace names.length index ∧ signedPlace names.length index < names.length then
        .ok (signedPlace names.length index).toNat
      else .error (.selectorNotFound (Selector.byIndex index).text) := by
  simp only [Selector.resolve]
  rw [← signedPlace]
  by_cases hinside : 0 ≤ signedPlace names.length index ∧
      signedPlace names.length index < names.length
  · simp only [if_pos hinside]
  · simp only [if_neg hinside]

/-- Resolving a selector finds the place that it picks. -/
theorem resolve_eq_ok_iff : s.resolve names = .ok place ↔ s.Picks names place := by
  cases s with
  | byName name =>
      rw [← idxOf?_eq_some_iff_picks]
      simp only [Selector.resolve]
      cases names.idxOf? name with
      | none => simp
      | some found => simp
  | byIndex index =>
      rw [resolve_byIndex, Selector.Picks]
      split
      · rw [Except.ok.injEq]
        omega
      · simp only [reduceCtorEq, false_iff]
        omega

/-- A selector that picks no place is reported as it was given. -/
theorem resolve_of_not_picks (h : ∀ place, ¬ s.Picks names place) :
    s.resolve names = .error (.selectorNotFound s.text) := by
  cases hresolve : s.resolve names with
  | ok place => exact absurd (resolve_eq_ok_iff.mp hresolve) (h place)
  | error e =>
      unfold Selector.resolve at hresolve
      simp only at hresolve
      split at hresolve
      · exact absurd hresolve (by simp)
      · exact hresolve.symm

end Places

section Targets

variable {placement : Placement} {current count target : Nat}

/-- A list that a signed word can count is counted by it. -/
theorem signed_eq {position : Nat} (h : (position : Int) ≤ Int64.maxValue.toInt) :
    Placement.signed position = position := by
  have hmax : Int64.maxValue.toInt = 9223372036854775807 := rfl
  have hsize : (Int64.size : Int) = 18446744073709551616 := rfl
  rw [Placement.signed, Int64.toInt_ofNat', Int.bmod, hsize]
  omega

theorem target_eq (hcount : (count : Int) ≤ Int64.maxValue.toInt) (hcurrent : current < count) :
    placement.target current count =
      if 0 ≤ placement.wanted current count ∧ placement.wanted current count < count then
        .ok (placement.wanted current count).toNat
      else .error (.placeOutOfRange (Placement.clamp (placement.wanted current count)) count) := by
  have hsigned : Placement.signed current = current := signed_eq (by omega)
  unfold Placement.target
  rw [signed_eq hcount, hsigned]
  cases placement <;> rfl

/-- A placement is accepted when it asks for a place within the list. -/
theorem target_eq_ok_iff (hcount : (count : Int) ≤ Int64.maxValue.toInt)
    (hcurrent : current < count) :
    placement.target current count = .ok target ↔
      (target : Int) = placement.wanted current count ∧ target < count := by
  rw [target_eq hcount hcurrent]
  split
  · rw [Except.ok.injEq]
    omega
  · simp only [reduceCtorEq, false_iff]
    omega

end Targets

/-! ## The list around a place -/

section Parts

variable {α : Type} {front back : List α} {x y : α}

theorem eraseIdx_middle (front back : List α) (x : α) :
    (front ++ x :: back).eraseIdx front.length = front ++ back := by
  rw [List.eraseIdx_append_of_length_le (Nat.le_refl _), Nat.sub_self, List.eraseIdx_zero,
    List.tail_cons]

theorem set_middle (front back : List α) (x y : α) :
    (front ++ x :: back).set front.length y = front ++ y :: back := by
  rw [List.set_append_right _ _ (Nat.le_refl _), Nat.sub_self, List.set_cons_zero]

theorem insertIdx_middle (front back : List α) (x : α) :
    (front ++ back).insertIdx front.length x = front ++ x :: back := by
  induction front with
  | nil => rfl
  | cons y front ih =>
      rw [List.cons_append, List.length_cons, List.insertIdx_succ_cons, ih, List.cons_append]

/-- A move takes an entry out and puts it in where the others are as many as asked for. -/
theorem moveEntry_eq_iff {target : Nat} {after : List α}
    (htarget : target ≤ (front ++ back).length) :
    after = moveEntry front.length target (front ++ x :: back) ↔
      ∃ front' back', front' ++ back' = front ++ back ∧ front'.length = target ∧
        after = front' ++ x :: back' := by
  have hentry : (front ++ x :: back)[front.length]? = some x := by simp
  rw [moveEntry, hentry]
  simp only [eraseIdx_middle]
  constructor
  · rintro rfl
    refine ⟨(front ++ back).take target, (front ++ back).drop target,
      List.take_append_drop _ _, List.length_take_of_le htarget, ?_⟩
    rw [← insertIdx_middle, List.length_take_of_le htarget, List.take_append_drop]
  · rintro ⟨front', back', hrest, rfl, rfl⟩
    rw [← hrest, insertIdx_middle]

/-- Moved to where it stands, an entry stays. -/
theorem moveEntry_self (front back : List α) (x : α) :
    moveEntry front.length front.length (front ++ x :: back) = front ++ x :: back :=
  ((moveEntry_eq_iff (by simp)).mpr ⟨front, back, rfl, rfl, rfl⟩).symm

/-- A list is cut at each of its places. -/
theorem exists_parts {entries : List α} {place : Nat} (h : entries[place]? = some x) :
    ∃ front back, entries = front ++ x :: back ∧ front.length = place := by
  obtain ⟨hlt, rfl⟩ := List.getElem?_eq_some_iff.mp h
  refine ⟨entries.take place, entries.drop (place + 1), ?_, ?_⟩
  · rw [List.getElem_cons_drop, List.take_append_drop]
  · exact List.length_take_of_le (Nat.le_of_lt hlt)

end Parts

section Modifying

variable {α : Type} [Entry α] {alignment : UInt64} {entries after front back : List α} {x : α}
  {m : Modifier}

/-- A modifier is its operation at the place that its selector picks. -/
theorem modify_of_picks
    (h : m.selector.Picks ((front ++ x :: back).map Entry.name) front.length) :
    (modify alignment (front ++ x :: back) m).result =
      (operate alignment (front ++ x :: back) ((front ++ x :: back).map Entry.name) front.length x
        m.operation).result := by
  have hentry : (front ++ x :: back)[front.length]? = some x := by simp
  unfold modify
  simp only [Logged.result_bind, Outcome.lift_grammarExcept, Outcome.result_ofExcept,
    resolve_eq_ok_iff.mpr h, Outcome.mapError_ok, Outcome.ok_bind, hentry]

theorem modify_of_not_picks (h : ∀ place, ¬ m.selector.Picks (entries.map Entry.name) place) :
    (modify alignment entries m).result =
      .error (.grammar (.selectorNotFound m.selector.text)) := by
  unfold modify
  simp only [Logged.result_bind, Outcome.lift_grammarExcept, Outcome.result_ofExcept,
    resolve_of_not_picks h]
  rfl

/-- A modifier succeeds at a place that its selector picks, or not at all. -/
theorem modify_eq_ok_iff_parts :
    (modify alignment entries m).result = .ok after ↔
      ∃ front x back, entries = front ++ x :: back ∧
        m.selector.Picks (entries.map Entry.name) front.length ∧
        (operate alignment entries (entries.map Entry.name) front.length x m.operation).result =
          .ok after := by
  rw [modify_eq_ok_iff]
  constructor
  · rintro ⟨place, x, hplace, hx, h⟩
    obtain ⟨front, back, rfl, rfl⟩ := exists_parts hx
    exact ⟨front, x, back, rfl, resolve_eq_ok_iff.mp hplace, h⟩
  · rintro ⟨front, x, back, rfl, hpicks, h⟩
    exact ⟨front.length, x, resolve_eq_ok_iff.mpr hpicks, by simp, h⟩

end Modifying

end Layout

/-! ## Effects -/

/-- The partition under this name, and otherwise as it was. -/
def Partition.withName (name : String) (x : Partition) : Partition :=
  { x with rawName := ByteField.ofBytes nameFieldLength (Utf8.encode name) }

/-- What a change makes of a field: it is kept as it is, or computed without bounds and rounded up
to the alignment. -/
def Change.Leads (alignment old new : UInt64) : Change → Prop
  | .keep => new = old
  | .set value => new.toNat = roundUp alignment.toNat value.toNat
  | .add value => new.toNat = roundUp alignment.toNat (old.toNat + value.toNat)
  | .subtract value =>
    value.toNat ≤ old.toNat ∧ new.toNat = roundUp alignment.toNat (old.toNat - value.toNat)

/-- The partition under the name that an adjustment gives it, if any. -/
def Adjustment.renamed (a : Adjustment) (x : Partition) : Partition :=
  match a.name with
  | none => x
  | some name => x.withName name

/-- What an adjustment makes of a partition: each field that it gives is set, and all else stays. -/
structure Adjustment.Leads (alignment : UInt64) (a : Adjustment) (x y : Partition) : Prop where
  rawName_eq : y.rawName = (a.renamed x).rawName
  /-- The new name reads back. -/
  name_eq : ∀ name, a.name = some name → y.name = name
  offset : a.offset.Leads alignment x.offset y.offset
  size : a.size.Leads alignment x.size y.size
  mask_eq : y.mask = a.mask.getD x.mask
  padding_eq : y.padding = x.padding

/-- What an operation on `x` leaves of a list in which it stands between `front` and `back`. -/
def Operation.Effect (alignment : UInt64) (front : List Partition) (x : Partition)
    (back after : List Partition) : Operation → Prop
  | .delete => after = front ++ back
  | .clone name =>
    after = front ++ x :: back ++ [x.withName name] ∧ (x.withName name).name = name
  | .place placement => ∃ front' back', front' ++ back' = front ++ back ∧
    (front'.length : Int) = placement.wanted front.length (front ++ x :: back).length ∧
    after = front' ++ x :: back'
  | .adjust a => ∃ y, a.Leads alignment x y ∧ after = front ++ y :: back

/-- The names that an operation gives must be legal and free, and a clone needs room. -/
def Operation.Allowed (names : List String) (current : String) : Operation → Prop
  | .delete => True
  | .clone name => names.length < maxPartitions ∧ name ∉ names ∧ Name.check name = .ok ()
  | .place _ => True
  | .adjust a => ∀ name, a.name = some name →
    (name = current ∨ name ∉ names) ∧ Name.check name = .ok ()

theorem Partition.name_withName {name : String} (h : Name.check name = .ok ()) (x : Partition) :
    (x.withName name).name = name :=
  name_of_nameBytes (nameBytes_of_rename (rename_eq_ok_iff.mpr ⟨h, rfl⟩))

namespace Layout

variable {options : LayoutOptions} {alignment capacity : UInt64} {front back after : List Partition}
  {x y : Partition} {base t : Table} {m : Modifier}

theorem leads_iff_changeField {name : String} {field : Field} {value w : UInt64}
    {change : Change} :
    (changeField name field value change alignment).result = .ok w ↔
      change.Leads alignment value w := by
  rw [changeField_eq_ok_iff]
  cases change with
  | keep => simp [Change.apply, Change.Leads]
  | set v => simp [Change.apply, Change.Leads]
  | add v =>
      simp only [Change.apply, Change.Leads, reduceCtorEq, if_false, Word.add?_eq_some_iff]
      constructor
      · rintro ⟨changed, hsum, hw⟩
        rw [hsum, hw]
      · intro hw
        -- the sum stays within the word, since it is not above what it rounds up to
        have hle := le_roundUp alignment.toNat (value.toNat + v.toNat)
        have hlt := w.toNat_lt
        have hsum := Word.toNat_add_of_lt (a := value) (b := v)
          (Nat.lt_of_le_of_lt hle (hw ▸ hlt))
        exact ⟨value + v, hsum.symm, by rw [hsum, hw]⟩
  | subtract v =>
      simp only [Change.apply, Change.Leads, reduceCtorEq, if_false, Word.sub?_eq_some_iff]
      constructor
      · rintro ⟨changed, hsum, hw⟩
        have hdiff : changed.toNat = value.toNat - v.toNat := by omega
        exact ⟨by omega, hdiff ▸ hw⟩
      · rintro ⟨hle, hw⟩
        have hdiff := UInt64.toNat_sub_of_le value v (UInt64.le_iff_toNat_le.mpr hle)
        exact ⟨value - v, by omega, by rw [hdiff, hw]⟩

theorem adjust_eq_ok_iff_leads {a : Adjustment} :
    (Entry.adjust alignment a x).result = .ok y ↔
      a.offset.Leads alignment x.offset y.offset ∧ a.size.Leads alignment x.size y.size ∧
        y = { x with offset := y.offset, size := y.size, mask := a.mask.getD x.mask } := by
  simp only [adjust_partition_eq_ok_iff, leads_iff_changeField]
  constructor
  · rintro ⟨offset, size, hoffset, hsize, rfl⟩
    exact ⟨hoffset, hsize, rfl⟩
  · rintro ⟨hoffset, hsize, hy⟩
    exact ⟨y.offset, y.size, hoffset, hsize, hy⟩

theorem rename_eq_ok_iff_withName {name : String} :
    Entry.rename name x = .ok y ↔ Name.check name = .ok () ∧ y = x.withName name :=
  Partition.rename_eq_ok_iff

theorem renames_iff {names : List String} {a : Adjustment} :
    Renames names a x y ↔
      (∀ name, a.name = some name → (name = x.name ∨ name ∉ names) ∧ Name.check name = .ok ()) ∧
        y = a.renamed x := by
  unfold Renames Adjustment.renamed
  cases a.name with
  | none => simp
  | some name =>
      simp only [rename_eq_ok_iff_withName, Option.some.injEq, forall_eq', and_assoc]
      rfl

/-- Renaming touches the name field only. -/
theorem renamed_fields (a : Adjustment) (x : Partition) :
    (a.renamed x).offset = x.offset ∧ (a.renamed x).size = x.size ∧
      (a.renamed x).mask = x.mask ∧ (a.renamed x).padding = x.padding := by
  unfold Adjustment.renamed
  cases a.name <;> exact ⟨rfl, rfl, rfl, rfl⟩

/-- Adjusting a partition that may get its new name sets what the adjustment gives. -/
theorem adjusts_iff {names : List String} {a : Adjustment} :
    (∃ renamed, Renames names a x renamed ∧ (Entry.adjust alignment a renamed).result = .ok y) ↔
      (Operation.adjust a).Allowed names x.name ∧ a.Leads alignment x y := by
  simp only [renames_iff, adjust_eq_ok_iff_leads, Operation.Allowed]
  obtain ⟨hoffset, hsize, hmask, hpadding⟩ := renamed_fields a x
  constructor
  · rintro ⟨renamed, ⟨hallowed, rfl⟩, hoffsetLeads, hsizeLeads, hy⟩
    rw [hoffset] at hoffsetLeads
    rw [hsize] at hsizeLeads
    have hraw : y.rawName = (a.renamed x).rawName := by rw [hy]
    refine ⟨hallowed, hraw, ?_, hoffsetLeads, hsizeLeads, ?_, ?_⟩
    · intro name hname
      have hrenamed : a.renamed x = x.withName name := by rw [Adjustment.renamed, hname]
      rw [← Partition.name_withName (hallowed name hname).2 x, ← hrenamed, Partition.name,
        Partition.nameBytes, hraw]
      rfl
    · rw [hy, hmask]
    · rw [hy, hpadding]
  · rintro ⟨hallowed, hleads⟩
    refine ⟨_, ⟨hallowed, rfl⟩, hoffset ▸ hleads.offset, hsize ▸ hleads.size, ?_⟩
    rw [hmask, hpadding, ← hleads.mask_eq, ← hleads.padding_eq, ← hleads.rawName_eq]

/-- A placement takes the entry out and puts it in where it asks to go. -/
theorem operate_place_iff_parts {placement : Placement} {names : List String}
    (hcount : ((front ++ x :: back).length : Int) ≤ Int64.maxValue.toInt) :
    (operate alignment (front ++ x :: back) names front.length x (.place placement)).result =
        .ok after ↔
      ∃ front' back', front' ++ back' = front ++ back ∧
        (front'.length : Int) = placement.wanted front.length (front ++ x :: back).length ∧
        after = front' ++ x :: back' := by
  have hlength : (front ++ x :: back).length = (front ++ back).length + 1 := by
    simp only [List.length_append, List.length_cons]
    omega
  have hmove : ∀ target, (if target = front.length then front ++ x :: back
      else moveEntry front.length target (front ++ x :: back)) =
        moveEntry front.length target (front ++ x :: back) := by
    intro target
    split
    · rename_i hstays
      rw [hstays, moveEntry_self]
    · rfl
  rw [operate_place_iff]
  simp only [target_eq_ok_iff hcount (show front.length < (front ++ x :: back).length by simp),
    hmove]
  constructor
  · rintro ⟨target, ⟨htarget, hlt⟩, h⟩
    obtain ⟨front', back', hrest, rfl, rfl⟩ := (moveEntry_eq_iff (by omega)).mp h
    exact ⟨front', back', hrest, htarget, rfl⟩
  · rintro ⟨front', back', hrest, htarget, rfl⟩
    have hle : front'.length ≤ (front ++ back).length := by
      rw [← hrest, List.length_append]
      exact Nat.le_add_right _ _
    exact ⟨front'.length, ⟨htarget, by omega⟩,
      (moveEntry_eq_iff hle).mpr ⟨front', back', hrest, rfl, rfl⟩⟩

/-- **What an operation does at a place**, guards included. -/
theorem operate_eq_ok_iff_effect {op : Operation}
    (hcount : ∀ placement, op = .place placement →
      ((front ++ x :: back).length : Int) ≤ Int64.maxValue.toInt) :
    (operate alignment (front ++ x :: back) ((front ++ x :: back).map Partition.name)
        front.length x op).result = .ok after ↔
      op.Allowed ((front ++ x :: back).map Partition.name) x.name ∧
        op.Effect alignment front x back after := by
  cases op with
  | delete =>
      rw [operate_delete_iff, eraseIdx_middle]
      simp [Operation.Allowed, Operation.Effect]
  | clone name =>
      rw [operate_clone_iff]
      simp only [rename_eq_ok_iff_withName, Operation.Allowed, Operation.Effect, List.length_map]
      constructor
      · rintro ⟨hroom, hfree, copy, ⟨hname, rfl⟩, rfl⟩
        exact ⟨⟨hroom, hfree, hname⟩, rfl, Partition.name_withName hname x⟩
      · rintro ⟨⟨hroom, hfree, hname⟩, rfl, -⟩
        exact ⟨hroom, hfree, _, ⟨hname, rfl⟩, rfl⟩
  | place placement =>
      rw [operate_place_iff_parts (hcount placement rfl)]
      simp [Operation.Allowed, Operation.Effect]
  | adjust a =>
      rw [operate_adjust_iff]
      simp only [set_middle, Operation.Effect]
      constructor
      · rintro ⟨renamed, y, hrenames, hadjust, rfl⟩
        obtain ⟨hallowed, hleads⟩ := adjusts_iff.mp ⟨renamed, hrenames, hadjust⟩
        exact ⟨hallowed, y, hleads, rfl⟩
      · rintro ⟨hallowed, y, hleads, rfl⟩
        obtain ⟨renamed, hrenames, hadjust⟩ := adjusts_iff.mpr ⟨hallowed, hleads⟩
        exact ⟨renamed, y, hrenames, hadjust, rfl⟩

/-! ## Edits by one modifier -/

/-- The checks at the end of an edit find no fault with its arguments. -/
theorem finish_ne_grammar (capacity : UInt64) (ps : List Partition) (e : GrammarError) :
    (finish capacity ps).result ≠ .error (.grammar e) := by
  rw [finish_result]
  cases (Table.ofPartitions ps).validate with
  | error cause => simp
  | ok _ =>
      cases checkEnds capacity ps with
      | error cause => simp
      | ok _ => simp [pure, Except.pure]

/-- A placement within the list is carried out. -/
theorem exists_place_of_inside {placement : Placement} {names : List String}
    (hcount : ((front ++ x :: back).length : Int) ≤ Int64.maxValue.toInt)
    (h : 0 ≤ placement.wanted front.length (front ++ x :: back).length ∧
      placement.wanted front.length (front ++ x :: back).length < (front ++ x :: back).length) :
    ∃ after, (operate alignment (front ++ x :: back) names front.length x
      (.place placement)).result = .ok after := by
  refine ⟨_, operate_place_iff.mpr
    ⟨(placement.wanted front.length (front ++ x :: back).length).toNat, ?_, rfl⟩⟩
  rw [target_eq hcount (by simp), if_pos h]

/-- One that leads out of the list is refused. -/
theorem place_of_outside {placement : Placement} {names : List String}
    (hcount : ((front ++ x :: back).length : Int) ≤ Int64.maxValue.toInt)
    (h : ¬ (0 ≤ placement.wanted front.length (front ++ x :: back).length ∧
      placement.wanted front.length (front ++ x :: back).length < (front ++ x :: back).length)) :
    (operate alignment (front ++ x :: back) names front.length x (.place placement)).result =
      .error (.grammar (.placeOutOfRange
        (Placement.clamp (placement.wanted front.length (front ++ x :: back).length))
        (front ++ x :: back).length)) := by
  simp only [operate, Logged.result_bind, Outcome.lift_grammarExcept, Outcome.result_ofExcept,
    target_eq hcount (show front.length < (front ++ x :: back).length by simp), if_neg h]
  rfl

/-- **Modifiers act as list operations.**  An edit by one modifier is refused when the selector
picks no place.  Otherwise it leaves of the list what its operation says, under the header of the
new list, and succeeds exactly when the names it gives are allowed and the new table is valid and
ends on the device.  A placement is refused exactly when it leads out of the list.

A placement counts the list in a signed word, and no list in memory is longer than that. -/
theorem editTable_of_modifier
    (hcount : ∀ placement, m.operation = .place placement →
      (base.partitions.length : Int) ≤ Int64.maxValue.toInt) :
    ((∀ place, ¬ m.selector.Picks (base.partitions.map Partition.name) place) →
      (editTable base [.modifier m] capacity options).result =
        .error (.grammar (.selectorNotFound m.selector.text))) ∧
    ∀ front x back, base.partitions = front ++ x :: back →
      m.selector.Picks (base.partitions.map Partition.name) front.length →
        (∀ t, (editTable base [.modifier m] capacity options).result = .ok t ↔
          m.operation.Allowed (base.partitions.map Partition.name) x.name ∧
            ∃ after, m.operation.Effect options.alignment front x back after ∧
              t = Table.ofPartitions after ∧ t.validate = .ok () ∧
              ∀ y ∈ after, y.stop ≤ capacity.toNat) ∧
        ∀ placement, m.operation = .place placement →
          ((∃ target count, (editTable base [.modifier m] capacity options).result =
              .error (.grammar (.placeOutOfRange target count))) ↔
            ¬ (0 ≤ placement.wanted front.length base.partitions.length ∧
              placement.wanted front.length base.partitions.length < base.partitions.length)) := by
  rw [editTable_modifier]
  refine ⟨?_, ?_⟩
  · intro hnone
    have hmodify : (modify options.alignment base.partitions m).result = _ :=
      modify_of_not_picks hnone
    rw [hmodify]
    rfl
  · intro front x back hbase hpicks
    rw [hbase] at hcount hpicks ⊢
    have hmodify : (modify options.alignment (front ++ x :: back) m).result = _ :=
      modify_of_picks hpicks
    rw [hmodify]
    refine ⟨?_, ?_⟩
    · intro t
      have heffect : ∀ after, (operate options.alignment (front ++ x :: back)
            ((front ++ x :: back).map Entry.name) front.length x m.operation).result = .ok after ↔
          _ :=
        fun after => operate_eq_ok_iff_effect hcount
      simp only [Outcome.bind_eq_ok_iff, heffect, finish_eq_ok_iff]
      constructor
      · rintro ⟨after, ⟨hallowed, heffect⟩, hfinish⟩
        exact ⟨hallowed, after, heffect, hfinish⟩
      · rintro ⟨hallowed, after, heffect, hfinish⟩
        exact ⟨after, ⟨hallowed, heffect⟩, hfinish⟩
    · intro placement hplacement
      rw [hplacement]
      constructor
      · rintro ⟨target, count, herror⟩ hinside
        obtain ⟨after, hafter⟩ := exists_place_of_inside (hcount placement hplacement) hinside
        rw [hafter, Outcome.ok_bind] at herror
        exact finish_ne_grammar capacity after _ herror
      · intro houtside
        exact ⟨_, _, by rw [place_of_outside (hcount placement hplacement) houtside]; rfl⟩

/-- Three partitions, of which the last two have the same name; the padding of one is used. -/
def threeSlots : Table :=
  Table.ofPartitions [Table.namedSlot "boot" 0x2000,
    { Table.namedSlot "data" 0x1000 with offset := 0x2000, padding := 7 },
    { Table.namedSlot "data" 0x1000 with offset := 0x4000 }]

/-- A name that two partitions have selects the first of them, and a position from the end counts
from there.  The least signed word is no position, and the greatest one leads out of the list. -/
theorem editTable_of_modifier_of_threeSlots :
    (threeSlots.partitions.length : Int) ≤ Int64.maxValue.toInt ∧
      (editTable threeSlots [.modifier ⟨.byIndex Int64.minValue, .delete⟩] 0x10000 {}).result =
        .error (.grammar (.selectorNotFound "-9223372036854775808")) ∧
      (∃ t, (editTable threeSlots [.modifier ⟨.byName "data", .delete⟩] 0x10000 {}).result = .ok t ∧
        t.partitions.map Partition.offset = [0, 0x4000]) ∧
      (∃ t, (editTable threeSlots [.modifier ⟨.byIndex (-2), .adjust
          ⟨some "misc", .add 5, .subtract 1, none⟩⟩] 0x10000 {}).result = .ok t ∧
        t.partitions.map Partition.name = ["boot", "misc", "data"] ∧
        t.partitions.map Partition.offset = [0, 0x3000, 0x4000] ∧
        t.partitions.map Partition.padding = [0, 7, 0]) ∧
      ∃ target count, (editTable threeSlots [.modifier ⟨.byIndex 2,
          .place (.relative Int64.maxValue)⟩] 0x10000 {}).result =
        .error (.grammar (.placeOutOfRange target count)) := by
  have hcount : (threeSlots.partitions.length : Int) ≤ Int64.maxValue.toInt := by decide
  refine ⟨hcount, ?_, ?_, ?_, ?_⟩
  · refine (editTable_of_modifier fun _ _ => hcount).1 ?_
    rintro place ⟨hplace, -⟩
    have hfar : signedPlace (threeSlots.partitions.map Partition.name).length Int64.minValue =
        3 - 9223372036854775808 := by decide
    omega
  · have hpicks : (Selector.byName "data").Picks (threeSlots.partitions.map Partition.name) 1 :=
      ⟨by decide +kernel, by decide +kernel⟩
    refine ⟨_, (((editTable_of_modifier fun _ _ => hcount).2 [_] _ [_] rfl hpicks).1 _).mpr
      ⟨trivial, _, rfl, rfl, ?_, ?_⟩, rfl⟩
    · decide +kernel
    · decide +kernel
  · have hpicks : (Selector.byIndex (-2)).Picks (threeSlots.partitions.map Partition.name) 1 :=
      ⟨by decide, by decide⟩
    have hallowed : (Operation.adjust ⟨some "misc", .add 5, .subtract 1, none⟩).Allowed
        (threeSlots.partitions.map Partition.name) "data" := by
      rintro name ⟨⟩
      exact ⟨.inr (by decide +kernel), by decide +kernel⟩
    have hname : ({ Table.namedSlot "data" 0x1000 with offset := 0x2000, padding := 7 } :
        Partition).name = "data" := by decide +kernel
    refine ⟨_, (((editTable_of_modifier fun _ _ => hcount).2 [_] _ [_] rfl hpicks).1 _).mpr
      ⟨hname.symm ▸ hallowed, _, ⟨{ Table.namedSlot "misc" 0x1000 with
        offset := 0x3000, padding := 7 }, ⟨rfl, ?_, rfl, ⟨by decide, rfl⟩, rfl, rfl⟩, rfl⟩,
      rfl, ?_, ?_⟩, ?_, rfl, rfl⟩
    · rintro name ⟨⟩
      decide +kernel
    · decide +kernel
    · decide +kernel
    · decide +kernel
  · have hpicks : (Selector.byIndex 2).Picks (threeSlots.partitions.map Partition.name) 2 :=
      ⟨by decide, by decide⟩
    refine (((editTable_of_modifier fun _ _ => hcount).2 [_, _] _ [] rfl hpicks).2 _ rfl).mpr ?_
    decide +kernel

end Layout

end EmmcLayout
