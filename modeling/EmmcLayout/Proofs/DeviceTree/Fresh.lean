import EmmcLayout.Proofs.DeviceTree.CarriedOver
import EmmcLayout.Proofs.DeviceTree.Redeclared

/-!
# Fresh phandles

The new partitions get phandles that were free after those of the old ones were given back.  A
phandle that is given back is forgotten altogether, so a new one is used elsewhere in the tree as
well when a node outside of the old partitions had declared the same (`Handed.below`).  In a tree in
which every phandle is declared by one node there is no such phandle.
-/

namespace EmmcLayout.DeviceTree

namespace PartitionsNode

variable {paired : Bool} {census left : PhandleCensus} {records assigned : List Record}
  {v : UInt32}

/-! ## What is handed out -/

theorem ascending_releaseAll (h : PhandleCensus.Ascending census.counts) (records : List Record) :
    PhandleCensus.Ascending (releaseAll census records).counts := by
  rw [releaseAll]
  induction records generalizing census with
  | nil => exact h
  | cons r rest ih => exact ih ((h.release r.phandle).release r.linuxPhandle)

/-- What is free after the handles of these records were given back. -/
theorem mem_values_releaseAll :
    v ∈ (releaseAll census records).counts.map Prod.fst ↔
      v ∈ census.counts.map Prod.fst ∧ ∀ r ∈ records, v ≠ r.phandle ∧ v ≠ r.linuxPhandle := by
  rw [releaseAll]
  induction records generalizing census with
  | nil => simp
  | cons r rest ih =>
      rw [List.foldl_cons, ih, PhandleCensus.mem_values_release, PhandleCensus.mem_values_release,
        List.forall_mem_cons, and_assoc, and_assoc, and_assoc]

/-- **What is handed out is free, in range, and never the same twice.** -/
theorem assign_fresh (h : PhandleCensus.Ascending census.counts)
    (hassign : assign paired census records = (.ok assigned, left)) :
    (assigned.map Record.phandle).Nodup ∧ ∀ a ∈ assigned,
      a.phandle ∉ census.counts.map Prod.fst ∧ 1 ≤ a.phandle.toNat ∧
        a.phandle.toNat ≤ 0xFFFFFFFE := by
  induction records generalizing census assigned with
  | nil =>
      obtain rfl := Except.ok.inj (Prod.mk.inj hassign).1
      exact ⟨.nil, by simp⟩
  | cons r rest ih =>
      rw [assign] at hassign
      split at hassign
      · exact absurd hassign (by simp)
      · cases halloc : census.allocate with
        | error e =>
            rw [halloc] at hassign
            exact absurd hassign (by simp)
        | ok handed =>
            obtain ⟨phandle, census'⟩ := handed
            rw [halloc] at hassign
            obtain ⟨hassigned, hleft⟩ := Prod.mk.inj hassign
            obtain ⟨others, hothers, rfl⟩ := Outcome.map_eq_ok_iff.mp hassigned
            obtain ⟨hfree, hpos, hmax, hascending, hvalues⟩ := PhandleCensus.allocate_fresh h halloc
            obtain ⟨hnodup, hfresh⟩ := ih hascending (Prod.ext hothers hleft)
            refine ⟨?_, List.forall_mem_cons.mpr ⟨⟨hfree, hpos, hmax⟩, ?_⟩⟩
            · rw [List.map_cons, List.nodup_cons]
              refine ⟨?_, hnodup⟩
              intro hmem
              obtain ⟨a, ha, heq⟩ := List.mem_map.mp hmem
              exact (hfresh a ha).1 ((hvalues _).mpr (.inl heq))
            · intro a ha
              obtain ⟨hnot, hrange⟩ := hfresh a ha
              exact ⟨fun hmem => hnot ((hvalues _).mpr (.inr hmem)), hrange⟩

end PartitionsNode

/-- Every phandle is declared by one node. -/
def OneNodeEach (t : DeviceTree) : Prop :=
  ∀ d ∈ t.foundDeclarations, ∀ d' ∈ t.foundDeclarations, d.value = d'.value → d.opened = d'.opened

/-- No node declares a phandle twice under one name. -/
def NoNameTwice (t : DeviceTree) : Prop :=
  (t.foundDeclarations.map fun d => (d.opened, d.nameOffset)).Nodup

instance (t : DeviceTree) : Decidable t.OneNodeEach :=
  inferInstanceAs (Decidable (∀ _ ∈ _, ∀ _ ∈ _, _))

instance (t : DeviceTree) : Decidable t.NoNameTwice :=
  inferInstanceAs (Decidable (List.Nodup _))

open PartitionsNode

namespace Rewrite

variable {b : Bytes} {records : List Record} {w : Rewrite} {names : PhandleCensus.Names}
  {root : Node} {old new : Cut} {d : Declaration} {v : UInt32}

/-! ## The new phandles -/

/-- What a replacement has handed out, and that none of it is a value that the old tree declares,
unless a partition of the old tree declares it. -/
structure Handed (w : Rewrite) (names : PhandleCensus.Names) (root : Node) (old : Cut) : Prop where
  nodup : (w.composed.assigned.map Record.phandle).Nodup
  range : ∀ a ∈ w.composed.assigned, 1 ≤ a.phandle.toNat ∧ a.phandle.toNat ≤ 0xFFFFFFFE
  below : ∀ a ∈ w.composed.assigned, a.phandle ∈ names.values old.content →
    ∃ d ∈ w.found names root old, d.Below old.opens.start ∧ d.value = a.phandle

theorem Splice.handed (h : w.Splice names root old new) (hw : w.Of b records) :
    w.Handed names root old := by
  obtain ⟨-, hassign, -⟩ := compose_eq_ok_iff.mp hw.composed
  obtain ⟨hnodup, hfresh⟩ :=
    assign_fresh (ascending_releaseAll h.settled.ascending w.previous.records) hassign
  refine ⟨hnodup, fun a ha => (hfresh a ha).2, ?_⟩
  intro a ha hvalue
  obtain ⟨hnot, hpos, -⟩ := hfresh a ha
  rw [mem_values_releaseAll, h.settled.mem_values_iff] at hnot
  -- it was in use, so it was given back, and it was given back since a partition had it
  have hreleased : ∃ r ∈ w.previous.records,
      a.phandle = r.phandle ∨ a.phandle = r.linuxPhandle := by
    by_contra hnone
    push Not at hnone
    exact hnot ⟨hvalue, hnone⟩
  have hne : a.phandle ≠ 0 := by
    intro hzero
    rw [hzero] at hpos
    exact absurd hpos (by decide)
  obtain ⟨r, hr, hhandle⟩ := hreleased
  have hhandled := (h.sources hw).records r hr
  rcases hhandle with heq | heq
  · rw [heq] at hne ⊢
    exact hhandled.phandle hne
  · rw [heq] at hne ⊢
    exact hhandled.linuxPhandle hne

/-! ## One node for every phandle -/

theorem count_childHandles (paired : Bool) (rs : List Record) (v : UInt32) :
    (childHandles paired rs).count v =
      (if paired then 2 else 1) * (rs.map Record.phandle).count v := by
  induction rs with
  | nil => rfl
  | cons r rs ih =>
      rw [childHandles, List.flatMap_cons, List.count_append, ← childHandles, ih, List.map_cons,
        List.count_cons]
      cases paired with
      | true =>
          simp only [if_true, List.count_cons, List.count_nil]
          split
          · omega
          · omega
      | false =>
          simp only [Bool.false_eq_true, if_false, List.count_cons, List.count_nil]
          omega

theorem mem_childHandles {paired : Bool} {rs : List Record} :
    v ∈ childHandles paired rs ↔ v ∈ rs.map Record.phandle := by
  rw [← List.count_pos_iff, count_childHandles, ← List.count_pos_iff]
  cases paired with
  | true => simp
  | false => simp

/-- A value that is declared both outside of the node and in it belongs to two nodes. -/
theorem Splice.notMem_inner (h : w.Splice names root old new) (hone : w.tree.OneNodeEach)
    (hv : v ∈ names.values old.front ∨ v ∈ names.values old.back) :
    v ∉ names.values old.inner := by
  intro hinner
  rw [← h.map_value_found] at hinner
  obtain ⟨d', hd', rfl⟩ := List.mem_map.mp hinner
  obtain ⟨hfront, -, hback⟩ := Cut.sized_content h.survey.sized
  have houtside : ∃ d, (d ∈ old.foundFront w.tree.stringsBlock names root.start ∨
      d ∈ old.foundBack w.tree.stringsBlock names root.start) ∧ d.value = d'.value := by
    rcases hv with hv | hv
    · rw [← PhandleCensus.map_value_counted h.survey.names_of h.around_old.front.content hfront
        root.start []] at hv
      obtain ⟨d, hd, heq⟩ := List.mem_map.mp hv
      exact ⟨d, .inl hd, heq⟩
    · rw [← PhandleCensus.map_value_counted h.survey.names_of h.around_old.back hback
        root.start []] at hv
      obtain ⟨d, hd, heq⟩ := List.mem_map.mp hv
      exact ⟨d, .inr hd, heq⟩
  obtain ⟨d, hd, heq⟩ := houtside
  have hopened := hone d (h.mem_found_declarations.mpr (hd.imp_right .inr)) d'
    (h.mem_found_declarations.mpr (.inr (.inl hd'))) heq
  refine Cut.opens_notMem_of_outside h.survey.root_eq h.steps_old hd ?_
  rw [hopened]
  exact Cut.opens_mem_of_inside h.around_old hd'

/-- When every phandle is declared by one node, no new phandle is one that the tree declares outside
of the old partitions. -/
theorem Splice.ne_value (h : w.Splice names root old new) (hw : w.Of b records)
    (hone : w.tree.OneNodeEach) :
    ∀ a ∈ w.composed.assigned, ∀ d ∈ w.tree.foundDeclarations, ¬ d.Below old.opens.start →
      a.phandle ≠ d.value := by
  intro a ha d hd hbelow heq
  have hvalue : a.phandle ∈ names.values old.content := by
    rw [← h.survey.map_value_found, heq]
    exact List.mem_map_of_mem hd
  obtain ⟨d', hd', hbelow', hsame⟩ := (h.handed hw).below a ha hvalue
  have hopened := hone d hd d' (h.mem_found_declarations.mpr (.inr (.inl hd')))
    (heq.symm.trans hsame.symm)
  rw [Declaration.Below, hopened] at hbelow
  exact hbelow hbelow'

/-- No new phandle is one that the node keeps. -/
theorem Splice.notMem_kept (h : w.Splice names root old new) (hw : w.Of b records)
    (hone : w.tree.OneNodeEach) {a : Record} (ha : a ∈ w.composed.assigned) :
    a.phandle ∉ keptHandles w.previous := by
  intro hmem
  obtain ⟨-, d, hd, hopened, heq⟩ := (h.sources hw).exists_of_mem_kept hmem
  refine h.ne_value hw hone a ha d (h.mem_found_declarations.mpr (.inr (.inl hd))) ?_ heq.symm
  have hlt := (Cut.starts_ascend h.survey.root_eq h.steps_old).1
  rw [Declaration.Below, hopened, List.tail_cons, List.mem_singleton]
  exact Nat.ne_of_gt hlt

/-- What is declared in the node is not declared around it. -/
theorem Splice.count_around_eq_zero (h : w.Splice names root old new) (hone : w.tree.OneNodeEach)
    (hv : v ∈ names.values old.inner) :
    (names.values old.front).count v = 0 ∧ (names.values old.back).count v = 0 :=
  ⟨List.count_eq_zero_of_not_mem fun hmem => h.notMem_inner hone (.inl hmem) hv,
    List.count_eq_zero_of_not_mem fun hmem => h.notMem_inner hone (.inr hmem) hv⟩

/-- What is declared around the node is declared there as often as the tree declares it. -/
theorem Splice.count_around (h : w.Splice names root old new) (hone : w.tree.OneNodeEach)
    (hv : v ∈ names.values old.front ∨ v ∈ names.values old.back) :
    (names.values old.front).count v + (names.values old.back).count v =
      w.census.multiplicity := by
  have hcontent := h.around_old.values_content names
  have hused : v ∈ names.values old.content := by
    rw [hcontent, List.mem_append, List.mem_append]
    exact hv.imp_right .inr
  have hcount := h.settled.count_eq v hused
  rw [hcontent, List.count_append, List.count_append,
    List.count_eq_zero_of_not_mem (h.notMem_inner hone hv), Nat.zero_add] at hcount
  exact hcount

/-- What the node keeps is not declared around it. -/
theorem Splice.count_around_of_kept (h : w.Splice names root old new) (hw : w.Of b records)
    (hone : w.tree.OneNodeEach) (hv : v ∈ keptHandles w.previous) :
    (names.values old.front).count v = 0 ∧ (names.values old.back).count v = 0 := by
  obtain ⟨-, d, hd, -, rfl⟩ := (h.sources hw).exists_of_mem_kept hv
  exact h.count_around_eq_zero hone (h.map_value_found ▸ List.mem_map_of_mem hd)

/-- A new phandle is not declared around the node. -/
theorem Splice.count_around_of_handed (h : w.Splice names root old new) (hw : w.Of b records)
    (hone : w.tree.OneNodeEach) {a : Record} (ha : a ∈ w.composed.assigned) :
    (names.values old.front).count a.phandle = 0 ∧
      (names.values old.back).count a.phandle = 0 := by
  by_cases hused : a.phandle ∈ names.values old.content
  · obtain ⟨d, hd, -, heq⟩ := (h.handed hw).below a ha hused
    exact h.count_around_eq_zero hone
      (heq ▸ h.map_value_found ▸ List.mem_map_of_mem hd)
  · rw [h.around_old.values_content, List.mem_append, List.mem_append, not_or, not_or] at hused
    exact ⟨List.count_eq_zero_of_not_mem hused.1, List.count_eq_zero_of_not_mem hused.2.2⟩

/-- The new tree declares every phandle as often as the old one, if that holds of what the
partitions node keeps. -/
theorem Splice.count_values_new (h : w.Splice names root old new) (hw : w.Of b records)
    (hone : w.tree.OneNodeEach)
    (hkept : ∀ v ∈ keptHandles w.previous, (keptHandles w.previous).count v = w.census.multiplicity)
    (hv : v ∈ names.values old.front ++
      ((keptHandles w.previous ++ childHandles w.census.paired w.composed.assigned) ++
        names.values old.back)) :
    (names.values old.front ++
      ((keptHandles w.previous ++ childHandles w.census.paired w.composed.assigned) ++
        names.values old.back)).count v = w.census.multiplicity := by
  simp only [List.mem_append, mem_childHandles] at hv
  simp only [List.count_append, count_childHandles]
  by_cases hchild : v ∈ w.composed.assigned.map Record.phandle
  · have honce := List.count_eq_one_of_mem (h.handed hw).nodup hchild
    obtain ⟨a, ha, rfl⟩ := List.mem_map.mp hchild
    obtain ⟨hfront, hback⟩ := h.count_around_of_handed hw hone ha
    rw [honce, hfront, hback, List.count_eq_zero_of_not_mem (h.notMem_kept hw hone ha),
      PhandleCensus.multiplicity]
    omega
  · rw [List.count_eq_zero_of_not_mem hchild, Nat.mul_zero, Nat.add_zero]
    by_cases hmem : v ∈ keptHandles w.previous
    · obtain ⟨hfront, hback⟩ := h.count_around_of_kept hw hone hmem
      rw [hfront, hback, hkept v hmem]
      omega
    · have haround : v ∈ names.values old.front ∨ v ∈ names.values old.back := by
        rcases hv with hv | (hv | hv) | hv
        · exact .inl hv
        · exact absurd hv hmem
        · exact absurd hv hchild
        · exact .inr hv
      rw [List.count_eq_zero_of_not_mem hmem, Nat.zero_add]
      exact h.count_around hone haround

/-- **The new tree has a census, and declares its phandles the way the old one did.** -/
theorem Splice.exists_census_new (h : w.Splice names root old new) (hw : w.Of b records)
    (hnames : ∀ x ∈ records, 0 ∉ Utf8.encode x.name) (hne : records ≠ [])
    (hlinux : w.strings.find? PropertyName.linuxPhandle.bytes = names.linuxPhandle)
    (hone : w.tree.OneNodeEach)
    (hkept : ∀ v ∈ keptHandles w.previous,
      (keptHandles w.previous).count v = w.census.multiplicity) :
    ∃ c, (PhandleCensus.ofTree w.newTree).result = .ok c ∧ c.paired = w.census.paired := by
  refine (h.survey_new hw hnames hlinux).exists_census ?_ w.census.paired ?_
  · obtain ⟨-, hassign, -⟩ := compose_eq_ok_iff.mp hw.composed
    have hlength := (writable_of_assign hnames hassign).1.length_eq
    have hassigned : w.composed.assigned ≠ [] := by
      rw [← List.length_pos_iff, ← hlength]
      exact List.length_pos_iff.mpr hne
    obtain ⟨a, ha⟩ := List.exists_mem_of_ne_nil _ hassigned
    have hmem : a.phandle ∈ childHandles w.census.paired w.composed.assigned :=
      mem_childHandles.mpr (List.mem_map_of_mem ha)
    rw [h.values_new hw hnames hlinux]
    exact List.ne_nil_of_mem (List.mem_append_right _ (List.mem_append_left _
      (List.mem_append_right _ hmem)))
  · rw [h.values_new hw hnames hlinux]
    exact fun v hv => h.count_values_new hw hone hkept hv

/-! ## Trees that declare their phandles once -/

theorem Splice.nodup_of_single (h : w.Splice names root old new)
    (hsingle : w.census.paired = false) :
    (w.tree.foundDeclarations.map Declaration.value).Nodup := by
  rw [h.survey.map_value_found, List.nodup_iff_count_eq_one]
  intro v hv
  rw [h.settled.count_eq v hv, PhandleCensus.multiplicity, hsingle]
  rfl

theorem Splice.oneNodeEach_of_single (h : w.Splice names root old new)
    (hsingle : w.census.paired = false) : w.tree.OneNodeEach := by
  intro d hd d' hd' heq
  rw [List.inj_on_of_nodup_map (h.nodup_of_single hsingle) hd hd' heq]

/-- The two handles that the node keeps are declared by two declarations, so they differ. -/
theorem Splice.count_kept_of_single (h : w.Splice names root old new) (hw : w.Of b records)
    (hsingle : w.census.paired = false) :
    ∀ v ∈ keptHandles w.previous,
      (keptHandles w.previous).count v = w.census.multiplicity := by
  obtain ⟨hphandle, hlinux⟩ := (h.sources hw).exists_kept
  have hnodup : (keptHandles w.previous).Nodup := by
    rw [keptHandles]
    by_cases hp : w.previous.phandle = 0
    · rw [if_pos hp, List.nil_append]
      split
      · exact .nil
      · exact List.nodup_singleton _
    · by_cases hl : w.previous.linuxPhandle = 0
      · rw [if_pos hl, if_neg hp, List.append_nil]
        exact List.nodup_singleton _
      · rw [if_neg hp, if_neg hl]
        obtain ⟨d, hd, -, hoffset, hvalue⟩ := hphandle hp
        obtain ⟨d', hd', -, hoffset', hvalue'⟩ := hlinux hl
        suffices hne : w.previous.phandle ≠ w.previous.linuxPhandle by simp [hne]
        intro hsame
        have heq : d = d' := List.inj_on_of_nodup_map (h.nodup_of_single hsingle)
          (h.mem_found_declarations.mpr (.inr (.inl hd)))
          (h.mem_found_declarations.mpr (.inr (.inl hd')))
          (hvalue.trans (hsame.trans hvalue'.symm))
        rw [← heq, hoffset] at hoffset'
        exact h.survey.names_of.phandle_ne hoffset'
  intro v hv
  rw [List.count_eq_one_of_mem hnodup hv, PhandleCensus.multiplicity, hsingle]
  rfl

/-! ## Trees that declare their phandles twice -/

/-- A phandle of a node that declares no name twice is declared under both names. -/
theorem Splice.exists_pair (h : w.Splice names root old new) (hpaired : w.census.paired = true)
    (hone : w.tree.OneNodeEach) (honce : w.tree.NoNameTwice)
    (hv : v ∈ names.values old.content) :
    ∃ d ∈ w.tree.foundDeclarations, ∃ d' ∈ w.tree.foundDeclarations, d.value = v ∧ d'.value = v ∧
      d.opened = d'.opened ∧ d.nameOffset = names.phandle ∧
      some d'.nameOffset = names.linuxPhandle := by
  have htwo : 2 ≤ (w.tree.foundDeclarations.map Declaration.value).count v := by
    rw [h.survey.map_value_found, h.settled.count_eq v hv, PhandleCensus.multiplicity, hpaired]
    exact Nat.le_refl 2
  obtain ⟨pair, hsub, hpair⟩ := List.sublist_map_iff.mp (List.replicate_sublist_iff.mpr htwo)
  obtain ⟨x, rest, rfl, hx, hrest⟩ := List.map_eq_cons_iff.mp hpair.symm
  obtain ⟨y, rest', rfl, hy, hnil⟩ := List.map_eq_cons_iff.mp hrest
  have hxmem : x ∈ w.tree.foundDeclarations := hsub.subset (by simp)
  have hymem : y ∈ w.tree.foundDeclarations := hsub.subset (by simp)
  have hopened := hone x hxmem y hymem (hx.trans hy.symm)
  have hdiffer : x.nameOffset ≠ y.nameOffset := by
    intro hsame
    have hnodup := (hsub.map fun d : Declaration => (d.opened, d.nameOffset)).nodup honce
    simp [hopened, hsame] at hnodup
  rcases h.declares_of_mem hxmem with hxname | hxname
  · rcases h.declares_of_mem hymem with hyname | hyname
    · exact absurd (hxname.trans hyname.symm) hdiffer
    · exact ⟨x, hxmem, y, hymem, hx, hy, hopened, hxname, hyname⟩
  · rcases h.declares_of_mem hymem with hyname | hyname
    · exact ⟨y, hymem, x, hxmem, hy, hx, hopened.symm, hyname, hxname⟩
    · exact absurd (Option.some.inj (hxname.trans hyname.symm)) hdiffer

/-- What the node itself declares stands in it. -/
theorem Splice.mem_found_of_opened (h : w.Splice names root old new)
    (hd : d ∈ w.tree.foundDeclarations) (hopened : d.opened = [old.opens.start, root.start]) :
    d ∈ w.found names root old := by
  have hmem : old.opens.start ∈ d.opened := hopened ▸ List.mem_cons_self
  rcases h.mem_found_declarations.mp hd with hfront | hinner | hback
  · exact absurd hmem (Cut.opens_notMem_of_outside h.survey.root_eq h.steps_old (.inl hfront))
  · exact hinner
  · exact absurd hmem (Cut.opens_notMem_of_outside h.survey.root_eq h.steps_old (.inr hback))

/-- A handle that the node declares under a name is the one that is read, if it declares no name
twice. -/
theorem Splice.getLastD_own (h : w.Splice names root old new) (honce : w.tree.NoNameTwice)
    {offset? : Option UInt32} (hd : d ∈ w.tree.foundDeclarations)
    (hopened : d.opened = [old.opens.start, root.start]) (hoffset : some d.nameOffset = offset?) :
    (ownValues [old.opens.start, root.start] offset? (Walk.declarations w.tree.stringsBlock
      [old.opens.start, root.start] old.inner)).getLastD 0 = d.value := by
  obtain ⟨hdeclared, hfound⟩ := mem_found.mp (h.mem_found_of_opened hd hopened)
  refine getLastD_of_once hdeclared hopened hoffset ?_
  intro d' hd' hopened' hoffset'
  have hsame : d'.nameOffset = d.nameOffset := Option.some.inj (hoffset'.trans hoffset.symm)
  have hmem : d' ∈ w.tree.foundDeclarations :=
    h.mem_found_declarations.mpr (.inr (.inl (mem_found.mpr ⟨hd', hsame ▸ hfound⟩)))
  rw [List.inj_on_of_nodup_map honce hmem hd]
  rw [hopened', hopened, hsame]

/-- A handle that the node keeps is kept under both names. -/
theorem Splice.count_kept_of_paired (h : w.Splice names root old new) (hw : w.Of b records)
    (hpaired : w.census.paired = true) (hone : w.tree.OneNodeEach)
    (honce : w.tree.NoNameTwice) :
    ∀ v ∈ keptHandles w.previous,
      (keptHandles w.previous).count v = w.census.multiplicity := by
  intro v hv
  have hsources := h.sources hw
  obtain ⟨hne, d, hd, hopened, rfl⟩ := hsources.exists_of_mem_kept hv
  have hmem := h.mem_found_declarations.mpr (.inr (.inl hd))
  have hused : d.value ∈ names.values old.content := by
    rw [← h.survey.map_value_found]
    exact List.mem_map_of_mem hmem
  obtain ⟨x, hx, y, hy, hxvalue, hyvalue, -, hxname, hyname⟩ :=
    h.exists_pair hpaired hone honce hused
  have hphandle : w.previous.phandle = d.value := by
    rw [hsources.phandle, ← hxvalue]
    exact h.getLastD_own honce hx ((hone x hx d hmem hxvalue).trans hopened)
      (congrArg some hxname)
  have hlinux : w.previous.linuxPhandle = d.value := by
    rw [hsources.linuxPhandle, ← hyvalue]
    exact h.getLastD_own honce hy ((hone y hy d hmem hyvalue).trans hopened) hyname
  rw [keptHandles, hphandle, hlinux, if_neg hne, PhandleCensus.multiplicity, hpaired]
  simp

end Rewrite

/-- **Fresh phandles in a tree that declares each of them once.**  The new phandles differ from each
other, lie in range, and are none of those that the old tree declares outside of the children of
its partitions node under the names that a search finds; and the new tree declares each of its
phandles once. -/
theorem replacePartitions_fresh_of_single {b : Bytes} {records : List Record} {old : DeviceTree}
    {census : PhandleCensus} {r : Replaced} (hopened : DeviceTree.ofBytes b = .ok old)
    (hcensus : (PhandleCensus.ofTree old).result = .ok census) (hsingle : census.paired = false)
    (hne : records ≠ []) (hnames : ∀ x ∈ records, 0 ∉ Utf8.encode x.name)
    (h : (replacePartitions b records).result = .ok r) (hlen : r.bytes.length < UInt32.size) :
    ∃ place new census', locate old = .ok place ∧
      (r.assigned.map Record.phandle).Nodup ∧
      (∀ a ∈ r.assigned, 1 ≤ a.phandle.toNat ∧ a.phandle.toNat ≤ 0xFFFFFFFE) ∧
      (∀ a ∈ r.assigned, ∀ d ∈ old.foundDeclarations, ¬ d.Below place.start →
        a.phandle ≠ d.value) ∧
      DeviceTree.ofBytes r.bytes = .ok new ∧ (PhandleCensus.ofTree new).result = .ok census' ∧
      census'.paired = false := by
  obtain ⟨w, hw, rfl⟩ := replacePartitions_eq_ok_iff.mp h
  obtain rfl : w.tree = old := Except.ok.inj (hw.opened.symm.trans hopened)
  obtain rfl : w.census = census := Except.ok.inj (hw.counted.symm.trans hcensus)
  obtain ⟨names, root, cut, cut', hs⟩ := hw.exists_splice hnames hlen
  have hone := hs.oneNodeEach_of_single hsingle
  obtain ⟨census', hcensus', hpaired⟩ := hs.exists_census_new hw hnames hne
    (hs.find?_linuxPhandle hw hnames hsingle) hone (hs.count_kept_of_single hw hsingle)
  have hhanded := hs.handed hw
  refine ⟨w.place, w.newTree, census', hw.located, hhanded.nodup, hhanded.range, ?_,
    Rewrite.ofBytes_bytes hlen, hcensus', hpaired.trans hsingle⟩
  rw [hs.place_eq]
  exact hs.ne_value hw hone

theorem replacePartitions_fresh_of_boardTree :
    ∃ old census r place new census', DeviceTree.ofBytes boardTree = .ok old ∧
      (PhandleCensus.ofTree old).result = .ok census ∧ census.paired = false ∧
      (replacePartitions boardTree
        [⟨"system", 0x2000, 4, 0, 0⟩, ⟨"data", autofillSize, 4, 0, 0⟩]).result = .ok r ∧
      locate old = .ok place ∧ (r.assigned.map Record.phandle).Nodup ∧
      (∀ a ∈ r.assigned, ∀ d ∈ old.foundDeclarations, ¬ d.Below place.start →
        a.phandle ≠ d.value) ∧
      DeviceTree.ofBytes r.bytes = .ok new ∧ (PhandleCensus.ofTree new).result = .ok census' ∧
      census'.paired = false := by
  obtain ⟨old, hold, hcounted⟩ := Outcome.exists_ok_of_any (x := DeviceTree.ofBytes boardTree)
    (p := fun old => (PhandleCensus.ofTree old).result.toOption.any fun c => !c.paired)
    (by decide +kernel)
  obtain ⟨census, hcensus, hsingle⟩ := Outcome.exists_ok_of_any hcounted
  have hsingle' : census.paired = false := by simpa using hsingle
  obtain ⟨r, hr, hlen⟩ := Outcome.exists_ok_of_any (x := (replacePartitions boardTree
      [⟨"system", 0x2000, 4, 0, 0⟩, ⟨"data", autofillSize, 4, 0, 0⟩]).result)
    (p := fun r => decide (r.bytes.length < UInt32.size)) (by decide +kernel)
  obtain ⟨place, new, census', hplace, hnodup, -, hfresh, hnew, hcensus', hsame⟩ :=
    replacePartitions_fresh_of_single hold hcensus hsingle' (by decide) (by decide) hr
      (of_decide_eq_true hlen)
  exact ⟨old, census, r, place, new, census', hold, hcensus, hsingle', hr, hplace, hnodup, hfresh,
    hnew, hcensus', hsame⟩

/-- A tree whose strings block holds the name `phandle` twice.  The node `soc` declares its phandle
under the second copy. -/
def twoCopiesTree : Bytes :=
  let front := emitAll ⟨[]⟩
    (.beginNode [] :: emissions empty false [⟨"boot", 0x1000, 1, 2, 0⟩] ++
      [.beginNode (Utf8.encode "soc")])
  let (copy, strings) := front.2.append PropertyName.phandle.bytes
  let declaration := Bytes.be32 Tag.property.word ++ Bytes.be32 4 ++ Bytes.be32 copy ++ Bytes.be32 1
  let behind := emitAll strings [.endNode, .endNode, .endTree]
  assemble {} emptyReservations (front.1 ++ declaration ++ behind.1) strings.bytes

/-- A declaration under another copy of the name is not counted, so its value is handed out
again. -/
theorem replacePartitions_meets_second_copy :
    ∃ old census r place, DeviceTree.ofBytes twoCopiesTree = .ok old ∧
      (PhandleCensus.ofTree old).result = .ok census ∧ census.paired = false ∧
      (replacePartitions twoCopiesTree [⟨"data", 0x1000, 4, 0, 0⟩]).result = .ok r ∧
      r.bytes.length < UInt32.size ∧ locate old = .ok place ∧
      ∃ a ∈ r.assigned, ∃ d ∈ old.declarations, ¬ d.Below place.start ∧ a.phandle = d.value := by
  obtain ⟨old, hold, hfacts⟩ := Outcome.exists_ok_of_any (x := DeviceTree.ofBytes twoCopiesTree)
    (p := fun old =>
      ((PhandleCensus.ofTree old).result.toOption.any fun c : PhandleCensus => !c.paired) &&
      (locate old).toOption.any fun place : Node =>
        (replacePartitions twoCopiesTree [⟨"data", 0x1000, 4, 0, 0⟩]).result.toOption.any
          fun r : Replaced => decide (r.bytes.length < UInt32.size ∧
            ∃ a ∈ r.assigned, ∃ d ∈ old.declarations,
              ¬ d.Below place.start ∧ a.phandle = d.value))
    (by decide +kernel)
  obtain ⟨hcounted, hplaced⟩ := (Bool.and_eq_true _ _).mp hfacts
  obtain ⟨census, hcensus, hsingle⟩ := Outcome.exists_ok_of_any hcounted
  obtain ⟨place, hplace, hreplaced⟩ := Outcome.exists_ok_of_any hplaced
  obtain ⟨r, hr, hmeets⟩ := Outcome.exists_ok_of_any hreplaced
  obtain ⟨hlen, hmeets⟩ := of_decide_eq_true hmeets
  exact ⟨old, census, r, place, hold, hcensus, by simpa using hsingle, hr, hlen, hplace, hmeets⟩

/-- **Fresh phandles in a tree that declares each of them twice.**  A new phandle that the old tree
declares under a name that a search finds is one that a child of its partitions node declares so.
When no two nodes declare the same phandle, and no node declares one twice under one name, there is
no such phandle, and the new tree declares each of its phandles twice. -/
theorem replacePartitions_fresh_of_paired {b : Bytes} {records : List Record} {old : DeviceTree}
    {census : PhandleCensus} {r : Replaced} (hopened : DeviceTree.ofBytes b = .ok old)
    (hcensus : (PhandleCensus.ofTree old).result = .ok census) (hpaired : census.paired = true)
    (hne : records ≠ []) (hnames : ∀ x ∈ records, 0 ∉ Utf8.encode x.name)
    (h : (replacePartitions b records).result = .ok r) (hlen : r.bytes.length < UInt32.size) :
    ∃ place new, locate old = .ok place ∧ DeviceTree.ofBytes r.bytes = .ok new ∧
      (∀ a ∈ r.assigned, ∀ d ∈ old.foundDeclarations, a.phandle = d.value →
        ∃ d' ∈ old.foundDeclarations, d'.Below place.start ∧ d'.value = d.value) ∧
      (old.OneNodeEach → old.NoNameTwice →
        (∀ a ∈ r.assigned, ∀ d ∈ old.foundDeclarations, ¬ d.Below place.start →
          a.phandle ≠ d.value) ∧
        ∃ census', (PhandleCensus.ofTree new).result = .ok census' ∧ census'.paired = true) := by
  obtain ⟨w, hw, rfl⟩ := replacePartitions_eq_ok_iff.mp h
  obtain rfl : w.tree = old := Except.ok.inj (hw.opened.symm.trans hopened)
  obtain rfl : w.census = census := Except.ok.inj (hw.counted.symm.trans hcensus)
  obtain ⟨names, root, cut, cut', hs⟩ := hw.exists_splice hnames hlen
  refine ⟨w.place, w.newTree, hw.located, Rewrite.ofBytes_bytes hlen, ?_, ?_⟩
  · intro a ha d hd heq
    have hused : a.phandle ∈ names.values cut.content := by
      rw [← hs.survey.map_value_found, heq]
      exact List.mem_map_of_mem hd
    obtain ⟨d', hd', hbelow, hvalue⟩ := (hs.handed hw).below a ha hused
    rw [hs.place_eq]
    exact ⟨d', hs.mem_found_declarations.mpr (.inr (.inl hd')), hbelow, hvalue.trans heq⟩
  · intro hone honce
    refine ⟨by rw [hs.place_eq]; exact hs.ne_value hw hone, ?_⟩
    -- some phandle is declared, so `linux,phandle` is found
    obtain ⟨v, hv⟩ := List.exists_mem_of_ne_nil _ hs.settled.ne_nil
    obtain ⟨-, -, y, -, -, -, -, -, hyname⟩ := hs.exists_pair hpaired hone honce hv
    have hlinux := hs.survey.names_of.linuxPhandle
    rw [← hyname] at hlinux
    obtain ⟨census', hcensus', hpaired'⟩ := hs.exists_census_new hw hnames hne
      ((StringsBlock.find?_of_extends hw.extends_strings (PropertyName.zero_notMem _)
        hlinux).trans hyname) hone (hs.count_kept_of_paired hw hpaired hone honce)
    exact ⟨census', hcensus', hpaired'.trans hpaired⟩

/-- A tree that declares two phandles twice: that of `soc`, and that of its partition. -/
def pairedTree : Bytes :=
  let written := emitAll ⟨[]⟩
    (.beginNode [] :: emissions empty true [⟨"boot", 0x1000, 1, 2, 2⟩] ++
      [.beginNode (Utf8.encode "soc"), .word PropertyName.phandle.bytes 1,
        .word PropertyName.linuxPhandle.bytes 1, .endNode, .endNode, .endTree])
  assemble {} emptyReservations written.1 written.2.bytes

theorem replacePartitions_fresh_of_pairedTree :
    ∃ old census r place new census', DeviceTree.ofBytes pairedTree = .ok old ∧
      (PhandleCensus.ofTree old).result = .ok census ∧ census.paired = true ∧
      (replacePartitions pairedTree
        [⟨"system", 0x2000, 4, 0, 0⟩, ⟨"data", autofillSize, 4, 0, 0⟩]).result = .ok r ∧
      old.OneNodeEach ∧ old.NoNameTwice ∧ locate old = .ok place ∧
      (∀ a ∈ r.assigned, ∀ d ∈ old.foundDeclarations, ¬ d.Below place.start →
        a.phandle ≠ d.value) ∧
      DeviceTree.ofBytes r.bytes = .ok new ∧ (PhandleCensus.ofTree new).result = .ok census' ∧
      census'.paired = true := by
  obtain ⟨old, hold, hfacts⟩ := Outcome.exists_ok_of_any (x := DeviceTree.ofBytes pairedTree)
    (p := fun old => ((PhandleCensus.ofTree old).result.toOption.any fun c => c.paired) &&
      decide (old.OneNodeEach ∧ old.NoNameTwice))
    (by decide +kernel)
  obtain ⟨hcounted, hpairs⟩ := (Bool.and_eq_true _ _).mp hfacts
  obtain ⟨census, hcensus, hpaired⟩ := Outcome.exists_ok_of_any hcounted
  obtain ⟨hone, honce⟩ := of_decide_eq_true hpairs
  obtain ⟨r, hr, hlen⟩ := Outcome.exists_ok_of_any (x := (replacePartitions pairedTree
      [⟨"system", 0x2000, 4, 0, 0⟩, ⟨"data", autofillSize, 4, 0, 0⟩]).result)
    (p := fun r => decide (r.bytes.length < UInt32.size)) (by decide +kernel)
  obtain ⟨place, new, hplace, hnew, -, hproper⟩ :=
    replacePartitions_fresh_of_paired hold hcensus hpaired (by decide) (by decide) hr
      (of_decide_eq_true hlen)
  obtain ⟨hfresh, census', hcensus', hsame⟩ := hproper hone honce
  exact ⟨old, census, r, place, new, census', hold, hcensus, hpaired, hr, hone, honce, hplace,
    hfresh, hnew, hcensus', hsame⟩

/-- A tree that declares two phandles twice: one in the node `cpu`, the other in `soc` and in its
partition, once in each. -/
def sharedTree : Bytes :=
  let written := emitAll ⟨[]⟩
    (.beginNode [] :: emissions empty false [⟨"boot", 0x1000, 1, 1, 0⟩] ++
      [.beginNode (Utf8.encode "cpu"), .word PropertyName.phandle.bytes 5,
        .word PropertyName.linuxPhandle.bytes 5, .endNode,
        .beginNode (Utf8.encode "soc"), .word PropertyName.phandle.bytes 1, .endNode,
        .endNode, .endTree])
  assemble {} emptyReservations written.1 written.2.bytes

/-- A phandle that a partition shares with another node is given back with the partition, and handed
out again.  The new tree then declares it three times. -/
theorem replacePartitions_meets_shared :
    ∃ old census r place new, DeviceTree.ofBytes sharedTree = .ok old ∧
      (PhandleCensus.ofTree old).result = .ok census ∧ census.paired = true ∧
      (replacePartitions sharedTree [⟨"data", 0x1000, 4, 0, 0⟩]).result = .ok r ∧
      r.bytes.length < UInt32.size ∧ locate old = .ok place ∧
      (∃ a ∈ r.assigned, ∃ d ∈ old.foundDeclarations, ¬ d.Below place.start ∧
        a.phandle = d.value) ∧
      DeviceTree.ofBytes r.bytes = .ok new ∧
      (PhandleCensus.ofTree new).result = .error (.phandleCount 1 3) := by
  obtain ⟨old, hold, hfacts⟩ := Outcome.exists_ok_of_any (x := DeviceTree.ofBytes sharedTree)
    (p := fun old =>
      ((PhandleCensus.ofTree old).result.toOption.any fun c : PhandleCensus => c.paired) &&
      (locate old).toOption.any fun place : Node =>
        (replacePartitions sharedTree [⟨"data", 0x1000, 4, 0, 0⟩]).result.toOption.any
          fun r : Replaced => decide (r.bytes.length < UInt32.size ∧
            ∃ a ∈ r.assigned, ∃ d ∈ old.foundDeclarations,
              ¬ d.Below place.start ∧ a.phandle = d.value) &&
            (DeviceTree.ofBytes r.bytes).toOption.any fun new : DeviceTree =>
              decide ((PhandleCensus.ofTree new).result = .error (.phandleCount 1 3)))
    (by decide +kernel)
  obtain ⟨hcounted, hplaced⟩ := (Bool.and_eq_true _ _).mp hfacts
  obtain ⟨census, hcensus, hpaired⟩ := Outcome.exists_ok_of_any hcounted
  obtain ⟨place, hplace, hreplaced⟩ := Outcome.exists_ok_of_any hplaced
  obtain ⟨r, hr, hrest⟩ := Outcome.exists_ok_of_any hreplaced
  obtain ⟨hmeets, hreopened⟩ := (Bool.and_eq_true _ _).mp hrest
  obtain ⟨hlen, hmeets⟩ := of_decide_eq_true hmeets
  obtain ⟨new, hnew, hthrice⟩ := Outcome.exists_ok_of_any hreopened
  exact ⟨old, census, r, place, new, hold, hcensus, hpaired, hr, hlen, hplace, hmeets, hnew,
    of_decide_eq_true hthrice⟩

end EmmcLayout.DeviceTree
