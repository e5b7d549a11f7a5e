import EmmcLayout.Layout.Modify
import EmmcLayout.Proofs.Layout.Placer

/-!
# What a modifier does

One statement for each operation says when it succeeds and what list it leaves, guards included
(`operate_delete_iff`, `operate_clone_iff`, `operate_place_iff`, `operate_adjust_iff`), so that what
modifiers do is said without unfolding `operate`.  They hold for partitions and for records alike.

What an invariant has to stand is less: some of the entries in some order, one more under a new
name, or one exchanged (`Modified`).  What modifiers do not see of an entry, they leave as it is
(`modify_map`).
-/

namespace EmmcLayout.Layout

variable {α : Type} [Entry α] {alignment : UInt64} {entries after : List α} {names : List String}
  {index : Nat} {entry : α} {m : Modifier}

/-! ## Moving -/

theorem signed_le (position : Nat) : Placement.signed position ≤ position := by
  have hsize : (Int64.size : Int) = 18446744073709551616 := rfl
  rw [Placement.signed, Int64.toInt_ofNat', Int.bmod, hsize]
  omega

/-- A placement that is accepted lies within the list. -/
theorem target_lt {placement : Placement} {current count target : Nat}
    (h : placement.target current count = .ok target) : target < count := by
  have hsigned := signed_le count
  have hinside : ∀ (wanted : Int) (e : GrammarError),
      (if 0 ≤ wanted ∧ wanted < Placement.signed count then Except.ok wanted.toNat
        else .error e) = .ok target → target < count := by
    intro wanted e h
    split at h
    · have htarget := Except.ok.inj h
      omega
    · simp at h
  exact hinside _ _ h

/-- A move within the list only changes the order. -/
theorem moveEntry_perm {β : Type} {source target : Nat} {xs : List β} (hsource : source < xs.length)
    (htarget : target < xs.length) : (moveEntry source target xs).Perm xs := by
  have hroom : target ≤ (xs.eraseIdx source).length := by
    rw [List.length_eraseIdx_of_lt hsource]
    omega
  rw [moveEntry, List.getElem?_eq_getElem hsource]
  exact (List.perm_insertIdx _ _ hroom).trans (List.getElem_cons_eraseIdx_perm hsource)

theorem map_moveEntry {β γ : Type} (f : β → γ) (source target : Nat) (xs : List β) :
    (moveEntry source target xs).map f = moveEntry source target (xs.map f) := by
  rw [moveEntry, moveEntry, List.getElem?_map]
  cases xs[source]? with
  | none => rfl
  | some x =>
      simp only [Option.map_some]
      rw [List.map_insertIdx, List.eraseIdx_map]

theorem pairwise_of_subperm {β : Type} {R : β → β → Prop} (hR : ∀ {x y}, R x y → R y x)
    {xs ys : List β} (h : xs.Subperm ys) (hys : ys.Pairwise R) : xs.Pairwise R := by
  obtain ⟨zs, hperm, hsub⟩ := h
  exact (hperm.pairwise_iff hR).mp (hys.sublist hsub)

/-! ## The operations -/

theorem modify_eq_ok_iff :
    (modify alignment entries m).result = .ok after ↔
      ∃ index entry, m.selector.resolve (entries.map Entry.name) = .ok index ∧
        entries[index]? = some entry ∧
        (operate alignment entries (entries.map Entry.name) index entry m.operation).result =
          .ok after := by
  unfold modify
  simp only [Outcome.result_bind_eq_ok_iff, Outcome.lift_grammarExcept,
    Outcome.result_ofExcept_eq_ok_iff]
  constructor
  · rintro ⟨index, hindex, h⟩
    cases hentry : entries[index]? with
    | none => simp [hentry] at h
    | some entry =>
        rw [hentry] at h
        exact ⟨index, entry, hindex, hentry, h⟩
  · rintro ⟨index, entry, hindex, hentry, h⟩
    refine ⟨index, hindex, ?_⟩
    rw [hentry]
    exact h

theorem operate_delete_iff :
    (operate alignment entries names index entry .delete).result = .ok after ↔
      after = entries.eraseIdx index := by
  simp [operate, eq_comm]

theorem renameEntry_eq_ok_iff {name : String} {renamed : α} :
    renameEntry name entry = .ok renamed ↔ Entry.rename name entry = .ok renamed :=
  Outcome.mapError_eq_ok_iff

theorem operate_clone_iff {name : String} :
    (operate alignment entries names index entry (.clone name)).result = .ok after ↔
      entries.length < maxPartitions ∧ name ∉ names ∧
        ∃ copy, Entry.rename name entry = .ok copy ∧ after = entries ++ [copy] := by
  unfold operate
  simp only [Outcome.result_bind_eq_ok_iff, Outcome.lift_grammarExcept,
    Outcome.result_ofExcept_eq_ok_iff, Outcome.fail_bind, Outcome.result_guard_eq_ok_iff,
    Placer.ensureRoom_eq_ok_iff, renameEntry_eq_ok_iff]
  simp [eq_comm]

theorem operate_place_iff {placement : Placement} :
    (operate alignment entries names index entry (.place placement)).result = .ok after ↔
      ∃ target, placement.target index entries.length = .ok target ∧
        after = if target = index then entries else moveEntry index target entries := by
  unfold operate
  simp only [Outcome.result_bind_eq_ok_iff, Outcome.lift_grammarExcept,
    Outcome.result_ofExcept_eq_ok_iff]
  refine exists_congr fun target => and_congr_right fun _ => ?_
  split
  · simp [eq_comm]
  · simp [eq_comm]

/-- The entry under the name that an adjustment gives it. -/
def Renames (names : List String) (a : Adjustment) (entry renamed : α) : Prop :=
  match a.name with
  | none => renamed = entry
  | some name =>
    (name = Entry.name entry ∨ name ∉ names) ∧ Entry.rename name entry = .ok renamed

/-- The entry itself, or the same one under a name that it had already or that is free. -/
theorem Renames.cases {a : Adjustment} {renamed : α} (h : Renames names a entry renamed) :
    renamed = entry ∨ ∃ name, (name = Entry.name entry ∨ name ∉ names) ∧
      Entry.rename name entry = .ok renamed := by
  unfold Renames at h
  cases hname : a.name with
  | none =>
      rw [hname] at h
      exact .inl h
  | some name =>
      rw [hname] at h
      exact .inr ⟨name, h⟩

theorem operate_adjust_iff {a : Adjustment} :
    (operate alignment entries names index entry (.adjust a)).result = .ok after ↔
      ∃ renamed adjusted, Renames names a entry renamed ∧
        (Entry.adjust alignment a renamed).result = .ok adjusted ∧
        after = entries.set index adjusted := by
  unfold Renames
  cases hname : a.name with
  | none =>
      simp only [operate, hname, Outcome.result_bind_eq_ok_iff]
      simp [eq_comm]
  | some name =>
      simp only [operate, hname, Outcome.result_bind_eq_ok_iff, Outcome.lift_grammarExcept,
        Outcome.result_ofExcept_eq_ok_iff, Outcome.fail_bind, Outcome.result_guard_eq_ok_iff,
        renameEntry_eq_ok_iff]
      constructor
      · rintro ⟨hfree, renamed, hrenamed, adjusted, hadjusted, h⟩
        exact ⟨renamed, adjusted, ⟨by tauto, hrenamed⟩, hadjusted, (Except.ok.inj h).symm⟩
      · rintro ⟨renamed, adjusted, ⟨hfree, hrenamed⟩, hadjusted, rfl⟩
        exact ⟨by tauto, renamed, hrenamed, adjusted, hadjusted, rfl⟩

/-- What a modifier can make of a list. -/
inductive Modified (alignment : UInt64) (entries : List α) : List α → Prop
  /-- Deleting and moving pass on some of the entries, in some order. -/
  | rearranged {after : List α} (h : after.Subperm entries) : Modified alignment entries after
  | cloned {name : String} {entry copy : α} (hroom : entries.length < maxPartitions)
      (hentry : entry ∈ entries) (hfree : name ∉ entries.map Entry.name)
      (hcopy : Entry.rename name entry = .ok copy) :
      Modified alignment entries (entries ++ [copy])
  | adjusted {a : Adjustment} {index : Nat} {entry renamed adjusted : α}
      (hentry : entries[index]? = some entry)
      (hrenames : Renames (entries.map Entry.name) a entry renamed)
      (hadjust : (Entry.adjust alignment a renamed).result = .ok adjusted) :
      Modified alignment entries (entries.set index adjusted)

theorem modified_of_modify (h : (modify alignment entries m).result = .ok after) :
    Modified alignment entries after := by
  obtain ⟨index, entry, -, hentry, h⟩ := modify_eq_ok_iff.mp h
  obtain ⟨hindex, -⟩ := List.getElem?_eq_some_iff.mp hentry
  cases hop : m.operation with
  | adjust a =>
      rw [hop, operate_adjust_iff] at h
      obtain ⟨renamed, adjusted, hrenames, hadjust, rfl⟩ := h
      exact .adjusted hentry hrenames hadjust
  | delete =>
      rw [hop, operate_delete_iff] at h
      rw [h]
      exact .rearranged (List.eraseIdx_sublist _ _).subperm
  | clone name =>
      rw [hop, operate_clone_iff] at h
      obtain ⟨hroom, hfree, copy, hcopy, rfl⟩ := h
      exact .cloned hroom (List.mem_of_getElem? hentry) hfree hcopy
  | place placement =>
      rw [hop, operate_place_iff] at h
      obtain ⟨target, htarget, rfl⟩ := h
      refine .rearranged ?_
      split
      · exact List.Subperm.refl _
      · exact (moveEntry_perm hindex (target_lt htarget)).subperm

/-- Only cloning makes a list longer, and no longer than a table. -/
theorem length_le_of_modify (h : (modify alignment entries m).result = .ok after) :
    after.length ≤ max entries.length maxPartitions := by
  cases modified_of_modify h with
  | rearranged hafter => exact Nat.le_trans hafter.length_le (Nat.le_max_left _ _)
  | cloned hroom _ _ _ =>
      rw [List.length_append, List.length_singleton]
      exact Nat.le_trans hroom (Nat.le_max_right _ _)
  | adjusted _ _ _ =>
      rw [List.length_set]
      exact Nat.le_max_left _ _

/-- What renaming and adjusting keep of one entry, a modifier keeps of all of them. -/
theorem forall_mem_of_modify {P : α → Prop}
    (hrename : ∀ {name : String} {x y : α}, P x → Entry.rename name x = .ok y → P y)
    (hadjust : ∀ {a : Adjustment} {x y : α}, P x → (Entry.adjust alignment a x).result = .ok y →
      P y)
    (hentries : ∀ x ∈ entries, P x) (h : (modify alignment entries m).result = .ok after) :
    ∀ x ∈ after, P x := by
  cases modified_of_modify h with
  | rearranged hafter => exact fun x hx => hentries x (hafter.subset hx)
  | cloned _ hentry _ hcopy =>
      exact List.forall_mem_append.mpr
        ⟨hentries, List.forall_mem_singleton.mpr (hrename (hentries _ hentry) hcopy)⟩
  | @adjusted _ _ _ renamed _ hentry hrenames hadjusted =>
      have hold := hentries _ (List.mem_of_getElem? hentry)
      have hrenamed : P renamed := by
        rcases hrenames.cases with rfl | ⟨name, -, hcopy⟩
        · exact hold
        · exact hrename hold hcopy
      intro x hx
      rcases List.mem_or_eq_of_mem_set hx with hx | rfl
      · exact hentries x hx
      · exact hadjust hrenamed hadjusted

/-- A modifier fails because of its argument, or for what an adjustment fails for. -/
theorem failsOnly_modify_of_adjust {P : Error → Prop}
    (hgrammar : ∀ cause : GrammarError, P (Cause.toError cause))
    (hadjust : ∀ (a : Adjustment) (x : α), Outcome.FailsOnly P (Entry.adjust alignment a x)) :
    Outcome.FailsOnly P (modify alignment entries m) := by
  unfold modify
  simp only [Outcome.lift_grammarExcept, Outcome.failsOnly_bind, Outcome.failsOnly_ofExcept,
    hgrammar, implies_true, true_and]
  intro index _
  cases entries[index]? with
  | none => simp [hgrammar]
  | some entry =>
      show Outcome.FailsOnly P (operate alignment entries _ index entry m.operation)
      cases m.operation with
      | delete => simp [operate]
      | clone name => simp [operate, hgrammar, Outcome.lift_grammarExcept, Outcome.fail_bind]
      | place placement => simp [operate, hgrammar, Outcome.lift_grammarExcept]
      | adjust a =>
          cases hname : a.name with
          | none => simp [operate, hname, hadjust]
          | some name =>
              simp [operate, hname, hadjust, hgrammar, Outcome.lift_grammarExcept,
                Outcome.fail_bind]

/-! ## Entries seen through a map -/

section Maps

variable {β : Type} [Entry β] {f : α → β}

/-- The map commutes with all that modifiers do to one entry. -/
structure EntryMap (f : α → β) : Prop where
  name_eq : ∀ x, Entry.name (f x) = Entry.name x
  rename_eq : ∀ name x, Entry.rename name (f x) = (Entry.rename name x).map f
  adjust_eq : ∀ alignment a x, Entry.adjust alignment a (f x) = f <$> Entry.adjust alignment a x

theorem EntryMap.names_eq (hf : EntryMap f) (entries : List α) :
    (entries.map f).map Entry.name = entries.map Entry.name := by
  rw [List.map_map]
  exact List.map_congr_left fun x _ => hf.name_eq x

theorem EntryMap.renameEntry_eq (hf : EntryMap f) (name : String) (x : α) :
    (liftM (renameEntry name (f x)) : Outcome β) = f <$> liftM (renameEntry name x) := by
  rw [renameEntry, renameEntry, hf.rename_eq]
  cases Entry.rename name x with
  | error e => rfl
  | ok y => rfl

theorem operate_map (hf : EntryMap f) (names : List String) (index : Nat) (x : α)
    (op : Operation) :
    operate alignment (entries.map f) names index (f x) op =
      List.map f <$> operate alignment entries names index x op := by
  cases op with
  | delete => simp [operate, hf.name_eq, List.eraseIdx_map]
  | clone name =>
      simp only [operate, List.length_map, hf.name_eq, hf.renameEntry_eq, map_bind, bind_map_left]
      refine bind_congr fun _ => ?_
      split
      · rfl
      · simp
  | place placement =>
      simp only [operate, List.length_map, hf.name_eq, map_bind]
      refine bind_congr fun target => ?_
      split
      · rfl
      · simp [map_moveEntry]
  | adjust a =>
      simp only [operate]
      cases a.name with
      | none => simp [hf.adjust_eq, List.map_set]
      | some name =>
          simp only [hf.name_eq, hf.renameEntry_eq]
          split
          · rfl
          · simp [hf.adjust_eq, List.map_set]

/-- Modifiers act on the images as on the entries. -/
theorem modify_map (hf : EntryMap f) (m : Modifier) :
    modify alignment (entries.map f) m = List.map f <$> modify alignment entries m := by
  unfold modify
  simp only [hf.names_eq, map_bind, List.getElem?_map]
  refine bind_congr fun index => ?_
  cases entries[index]? with
  | none => rfl
  | some x => exact operate_map hf _ index x m.operation

end Maps

/-! ## Partitions and records -/

/-- Adjusting a partition changes its offset, its size and its mask. -/
theorem adjust_partition_eq_ok_iff {a : Adjustment} {p adjusted : Partition} :
    (Entry.adjust alignment a p).result = .ok adjusted ↔
      ∃ offset size,
        (changeField p.name .offset p.offset a.offset alignment).result = .ok offset ∧
        (changeField p.name .size p.size a.size alignment).result = .ok size ∧
        adjusted = { p with offset, size, mask := a.mask.getD p.mask } := by
  show (adjustPartition alignment a p).result = .ok adjusted ↔ _
  simp only [adjustPartition, Outcome.result_bind_eq_ok_iff, Outcome.lift_layout,
    Outcome.result_ofLogged_eq_ok_iff, Logged.result_pure, Except.ok.injEq]
  constructor
  · rintro ⟨offset, hoffset, size, hsize, rfl⟩
    exact ⟨offset, size, hoffset, hsize, rfl⟩
  · rintro ⟨offset, size, hoffset, hsize, rfl⟩
    exact ⟨offset, hoffset, size, hsize, rfl⟩

theorem rename_record_eq_ok_iff {name : String} {r renamed : Record} :
    Entry.rename name r = .ok renamed ↔
      Name.check name = .ok () ∧ renamed = { r with name } := by
  show (do Name.check name; return { r with name }) = Except.ok renamed ↔ _
  cases Name.check name with
  | error reason => simp
  | ok u => simp [eq_comm]

/-- Adjusting a record changes its size and its mask. -/
theorem adjust_record_eq_ok_iff {a : Adjustment} {r adjusted : Record} :
    (Entry.adjust alignment a r).result = .ok adjusted ↔
      a.offset = .keep ∧ ∃ size,
        (changeField r.name .size r.size a.size alignment).result = .ok size ∧
        adjusted = { r with size, mask := a.mask.getD r.mask } := by
  show (adjustRecord alignment a r).result = .ok adjusted ↔ _
  simp only [adjustRecord, Outcome.fail_bind, Outcome.result_guard_eq_ok_iff,
    Outcome.result_bind_eq_ok_iff, Outcome.lift_layout, Outcome.result_ofLogged_eq_ok_iff,
    Logged.result_pure, Except.ok.injEq, ne_eq, Decidable.not_not]
  simp [eq_comm]

end EmmcLayout.Layout
