import EmmcLayout.Proofs.Layout.Effects
import EmmcLayout.Proofs.Layout.Validity

/-!
# Edits of different partitions commute

Deleting a partition, or adjusting it without a new name, touches one entry only.  Two such
modifiers that select by different names can change places anywhere in an edit:
`editTable_swap`.

What such a modifier does to a list is the relation `Replaces`: it walks down to the first entry of
the name and puts what is left of it there.  `Replaces.swap` is the induction along that walk.  The
first of two modifiers settles what waits and the cursor is computed from the list behind the
second, so the two runs meet in one state (`editAll_pair_eq_ok_iff`).

Names need not be distinct: a second entry of a name is reached by neither of the two modifiers.
-/

namespace EmmcLayout

/-- The operation deletes, or adjusts without a new name. -/
def Operation.KeepsNames : Operation → Prop
  | .delete => True
  | .clone _ => False
  | .place _ => False
  | .adjust a => a.name = none

namespace Layout

section Entries

variable {α : Type} [Entry α] {alignment : UInt64} {name : String} {op : Operation} {x : α}
  {xs zs front back rest : List α}

/-! ## One entry -/

/-- What an operation that keeps names leaves of an entry. -/
inductive Leaves (alignment : UInt64) (x : α) : Operation → List α → Prop
  | deleted : Leaves alignment x .delete []
  | adjusted {a : Adjustment} {y : α} (h : (Entry.adjust alignment a x).result = .ok y) :
      Leaves alignment x (.adjust a) [y]

theorem operate_eq_ok_iff_leaves {names : List String} (hop : op.KeepsNames) :
    (operate alignment (front ++ x :: back) names front.length x op).result = .ok zs ↔
      ∃ ys, Leaves alignment x op ys ∧ zs = front ++ ys ++ back := by
  cases op with
  | delete =>
      rw [operate_delete_iff, eraseIdx_middle]
      constructor
      · rintro rfl
        exact ⟨[], .deleted, by simp⟩
      · rintro ⟨ys, ⟨⟩, rfl⟩
        simp
  | clone name => exact hop.elim
  | place placement => exact hop.elim
  | adjust a =>
      have hname : a.name = none := hop
      simp only [operate_adjust_iff, Renames, hname, set_middle]
      constructor
      · rintro ⟨renamed, y, rfl, hadjust, rfl⟩
        exact ⟨[y], .adjusted hadjust, by simp⟩
      · rintro ⟨ys, hleaves, rfl⟩
        cases hleaves with
        | adjusted hadjust => exact ⟨x, _, rfl, hadjust, by simp⟩

/-! ## The first entry of a name -/

/-- The first entry of the name is exchanged for what the operation leaves of it. -/
inductive Replaces (alignment : UInt64) (name : String) (op : Operation) : List α → List α → Prop
  | here {x : α} {ys rest : List α} (hname : Entry.name x = name)
      (hleaves : Leaves alignment x op ys) : Replaces alignment name op (x :: rest) (ys ++ rest)
  | there {x : α} {rest rest' : List α} (hname : Entry.name x ≠ name)
      (hrest : Replaces alignment name op rest rest') :
      Replaces alignment name op (x :: rest) (x :: rest')

/-- The walk passes by all entries that do not have the name. -/
theorem replaces_append_iff (hfront : ∀ y ∈ front, Entry.name y ≠ name) :
    Replaces alignment name op (front ++ rest) zs ↔
      ∃ rest', Replaces alignment name op rest rest' ∧ zs = front ++ rest' := by
  induction front generalizing zs with
  | nil => simp
  | cons y front ih =>
      obtain ⟨hy, hfront⟩ := List.forall_mem_cons.mp hfront
      constructor
      · intro h
        cases h with
        | here hname _ => exact absurd hname hy
        | there _ hrest =>
            obtain ⟨rest', hrest', rfl⟩ := (ih hfront).mp hrest
            exact ⟨rest', hrest', rfl⟩
      · rintro ⟨rest', hrest', rfl⟩
        exact .there hy ((ih hfront).mpr ⟨rest', hrest', rfl⟩)

theorem replaces_iff :
    Replaces alignment name op xs zs ↔
      ∃ front x back ys, xs = front ++ x :: back ∧ Entry.name x = name ∧
        (∀ y ∈ front, Entry.name y ≠ name) ∧ Leaves alignment x op ys ∧
        zs = front ++ ys ++ back := by
  constructor
  · intro h
    induction h with
    | here hname hleaves => exact ⟨[], _, _, _, rfl, hname, by simp, hleaves, rfl⟩
    | @there x _ _ hname _ ih =>
        obtain ⟨front, y, back, ys, rfl, hy, hfront, hleaves, rfl⟩ := ih
        exact ⟨x :: front, y, back, ys, rfl, hy, List.forall_mem_cons.mpr ⟨hname, hfront⟩, hleaves,
          rfl⟩
  · rintro ⟨front, x, back, ys, rfl, hname, hfront, hleaves, rfl⟩
    rw [replaces_append_iff hfront]
    exact ⟨ys ++ back, .here hname hleaves, List.append_assoc _ _ _⟩

theorem picks_byName_iff :
    (Selector.byName name).Picks ((front ++ x :: back).map Entry.name) front.length ↔
      Entry.name x = name ∧ ∀ y ∈ front, Entry.name y ≠ name := by
  have hhere : ((front ++ x :: back).map Entry.name)[front.length]? = some (Entry.name x) := by
    simp
  have hfront : (∀ i < front.length, ((front ++ x :: back).map Entry.name)[i]? ≠ some name) ↔
      ∀ y ∈ front, Entry.name y ≠ name := by
    rw [List.forall_mem_iff_forall_getElem]
    refine forall₂_congr fun i hi => ?_
    rw [List.getElem?_map, List.getElem?_append_left hi, List.getElem?_eq_getElem hi]
    simp
  rw [Selector.Picks, hhere, hfront, Option.some.injEq]

/-- A modifier that keeps names replaces the first entry of the name that it selects. -/
theorem modify_byName_eq_ok_iff (hop : op.KeepsNames) :
    (modify alignment xs ⟨.byName name, op⟩).result = .ok zs ↔
      Replaces alignment name op xs zs := by
  rw [modify_eq_ok_iff_parts, replaces_iff]
  constructor
  · rintro ⟨front, x, back, rfl, hpicks, h⟩
    obtain ⟨hname, hfront⟩ := picks_byName_iff.mp hpicks
    obtain ⟨ys, hleaves, rfl⟩ := (operate_eq_ok_iff_leaves hop).mp h
    exact ⟨front, x, back, ys, rfl, hname, hfront, hleaves, rfl⟩
  · rintro ⟨front, x, back, ys, rfl, hname, hfront, hleaves, rfl⟩
    exact ⟨front, x, back, rfl, picks_byName_iff.mpr ⟨hname, hfront⟩,
      (operate_eq_ok_iff_leaves hop).mpr ⟨ys, hleaves, rfl⟩⟩

end Entries

/-! ## Two partitions -/

section Partitions

variable {alignment : UInt64} {name name' : String} {op op' : Operation} {x : Partition}
  {xs ys zs : List Partition}

theorem name_of_adjust {a : Adjustment} {y : Partition}
    (h : (Entry.adjust alignment a x).result = .ok y) : Entry.name y = Entry.name x := by
  show Partition.name y = Partition.name x
  rw [Partition.name, Partition.nameBytes, rawName_of_adjust h]
  rfl

/-- What is left of a partition still has its name. -/
theorem Leaves.name_eq (h : Leaves alignment x op ys) : ∀ y ∈ ys, Entry.name y = Entry.name x := by
  cases h with
  | deleted => simp
  | adjusted hadjust => simpa using name_of_adjust hadjust

/-- Partitions of different names are replaced in either order. -/
theorem Replaces.swap (hne : name ≠ name')
    (h : Replaces alignment name op xs ys) (h' : Replaces alignment name' op' ys zs) :
    ∃ ws, Replaces alignment name' op' xs ws ∧ Replaces alignment name op ws zs := by
  induction h generalizing zs with
  | @here x left rest hname hleaves =>
      -- the second walk passes by what is left
      have hleft : ∀ y ∈ left, Entry.name y ≠ name' := by
        intro y hy hy'
        rw [hleaves.name_eq y hy, hname] at hy'
        exact hne hy'
      obtain ⟨rest', hrest, rfl⟩ := (replaces_append_iff hleft).mp h'
      exact ⟨x :: rest', .there (by rwa [hname]) hrest, .here hname hleaves⟩
  | @there x rest rest' hname hrest ih =>
      cases h' with
      | @here _ left _ hname' hleaves =>
          have hleft : ∀ y ∈ left, Entry.name y ≠ name := by
            intro y hy hy'
            rw [hleaves.name_eq y hy] at hy'
            exact hname hy'
          exact ⟨left ++ rest, .here hname' hleaves,
            (replaces_append_iff hleft).mpr ⟨rest', hrest, rfl⟩⟩
      | there hname' hrest' =>
          obtain ⟨ws, hws, hzs⟩ := ih hrest'
          exact ⟨x :: ws, .there hname' hws, .there hname hzs⟩

end Partitions

/-! ## Edits -/

section Edits

variable {options : LayoutOptions} {capacity : UInt64} {p q : Placer} {base t : Table}
  {m m' : Modifier} {name name' : String} {front back : List Editor}

/-- Two modifiers in a row settle what waits and act one behind the other on the partitions. -/
theorem editAll_pair_eq_ok_iff :
    (editAll options p [.modifier m, .modifier m']).result = .ok q ↔
      ∃ settled ys zs, (p.settle options).result = .ok settled ∧
        (modify options.alignment settled.partitions m).result = .ok ys ∧
        (modify options.alignment ys m').result = .ok zs ∧ q = settled.resync zs := by
  simp only [editAll, Outcome.result_bind_eq_ok_iff, editStep_modifier_eq_ok_iff,
    Logged.result_pure, Except.ok.injEq]
  constructor
  · rintro ⟨p', ⟨settled, ys, hsettled, hys, rfl⟩, q', ⟨settled', zs, hsettled', hzs, rfl⟩, rfl⟩
    -- the second one finds nothing to settle
    rw [Placer.settle_of_settled rfl] at hsettled'
    obtain rfl := Except.ok.inj hsettled'
    exact ⟨settled, ys, zs, hsettled, hys, hzs, rfl⟩
  · rintro ⟨settled, ys, zs, hsettled, hys, hzs, rfl⟩
    exact ⟨_, ⟨settled, ys, hsettled, hys, rfl⟩, _,
      ⟨_, zs, Placer.settle_of_settled rfl, hzs, rfl⟩, rfl⟩

theorem resume_pair_eq_ok_iff :
    resume options capacity p (front ++ [Editor.modifier m, .modifier m'] ++ back) = .ok t ↔
      ∃ q q', (editAll options p front).result = .ok q ∧
        (editAll options q [.modifier m, .modifier m']).result = .ok q' ∧
        resume options capacity q' back = .ok t := by
  rw [List.append_assoc, resume_append, Outcome.bind_eq_ok_iff]
  simp only [resume_append, Outcome.bind_eq_ok_iff, exists_and_left]

/-- The modifier selects the name, and keeps names. -/
structure Modifier.Touches (m : Modifier) (name : String) : Prop where
  selector_eq : m.selector = .byName name
  keepsNames : m.operation.KeepsNames

theorem Modifier.Touches.modify_eq_ok_iff {α : Type} [Entry α] {alignment : UInt64}
    {xs ys : List α} (h : Modifier.Touches m name) :
    (modify alignment xs m).result = .ok ys ↔ Replaces alignment name m.operation xs ys := by
  rw [← modify_byName_eq_ok_iff h.keepsNames, ← h.selector_eq]

theorem editTable_of_swap (hm : Modifier.Touches m name) (hm' : Modifier.Touches m' name')
    (hne : name ≠ name')
    (h : (editTable base (front ++ [Editor.modifier m, .modifier m'] ++ back) capacity
      options).result = .ok t) :
    (editTable base (front ++ [Editor.modifier m', .modifier m] ++ back) capacity options).result =
      .ok t := by
  rw [editTable_result, resume_pair_eq_ok_iff] at h ⊢
  obtain ⟨p, q, hfront, hpair, hback⟩ := h
  obtain ⟨settled, ys, zs, hsettled, hys, hzs, rfl⟩ := editAll_pair_eq_ok_iff.mp hpair
  rw [hm.modify_eq_ok_iff] at hys
  rw [hm'.modify_eq_ok_iff] at hzs
  obtain ⟨ws, hws, hzs⟩ := hys.swap hne hzs
  exact ⟨p, _, hfront, editAll_pair_eq_ok_iff.mpr ⟨settled, ws, zs, hsettled,
    hm'.modify_eq_ok_iff.mpr hws, hm.modify_eq_ok_iff.mpr hzs, rfl⟩, hback⟩

/-- **Edits of different partitions commute.**  Two modifiers in a row that delete or adjust what
they select by different names lead to the same table in either order, whatever stands in front of
them and behind. -/
theorem editTable_swap (hm : Modifier.Touches m name) (hm' : Modifier.Touches m' name')
    (hne : name ≠ name') :
    (editTable base (front ++ [Editor.modifier m, .modifier m'] ++ back) capacity
        options).result = .ok t ↔
      (editTable base (front ++ [Editor.modifier m', .modifier m] ++ back) capacity
        options).result = .ok t :=
  ⟨editTable_of_swap hm hm' hne, editTable_of_swap hm' hm hne.symm⟩

/-- Two partitions in a row. -/
def bootAndLogo : Table :=
  Table.ofPartitions [Table.namedSlot "boot" 0x2000,
    { Table.namedSlot "logo" 0x1000 with offset := 0x2000 }]

/-- Deletes the first of them. -/
def deletesBoot : Modifier := ⟨.byName "boot", .delete⟩

/-- Shrinks a partition by what is no multiple of the alignment. -/
def shrinksData : Modifier := ⟨.byName "data", .adjust ⟨none, .keep, .subtract 0x10001, some 2⟩⟩

/-- Places that partition, which takes the rest of the device. -/
def placesData : List Editor := [.definer ⟨"data", none, none, none⟩]

/-- Places one more, in the space that became free. -/
def placesTail : List Editor := [.definer ⟨"tail", none, some (.absolute 0x8000), none⟩]

/-- The partition that is shrunk waits for its size in front of both modifiers, and another one is
placed behind them. -/
theorem editTable_swap_of_bootAndLogo :
    Modifier.Touches deletesBoot "boot" ∧ Modifier.Touches shrinksData "data" ∧ "boot" ≠ "data" ∧
      ∃ t, t.partitions.map Partition.name = ["logo", "data", "tail"] ∧
        (editTable bootAndLogo (placesData ++
          [.modifier deletesBoot, .modifier shrinksData] ++ placesTail) 0x100000 {}).result =
            .ok t ∧
        (editTable bootAndLogo (placesData ++
          [.modifier shrinksData, .modifier deletesBoot] ++ placesTail) 0x100000 {}).result =
            .ok t := by
  have hdeletes : Modifier.Touches deletesBoot "boot" := ⟨rfl, trivial⟩
  have hshrinks : Modifier.Touches shrinksData "data" := ⟨rfl, rfl⟩
  have hne : "boot" ≠ "data" := by decide
  obtain ⟨t, ht, hnames⟩ := Outcome.exists_ok_of_any
    (x := (editTable bootAndLogo (placesData ++
      [.modifier deletesBoot, .modifier shrinksData] ++ placesTail) 0x100000 {}).result)
    (p := fun t => decide (t.partitions.map Partition.name = ["logo", "data", "tail"])) (by
      rw [editTable_result, resume]
      simp only [finish_result]
      decide +kernel)
  exact ⟨hdeletes, hshrinks, hne, t, of_decide_eq_true hnames, ht,
    (editTable_swap hdeletes hshrinks hne).mp ht⟩

end Edits

end Layout

end EmmcLayout
