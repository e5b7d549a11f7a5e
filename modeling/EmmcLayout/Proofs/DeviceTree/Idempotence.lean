import EmmcLayout.Proofs.DeviceTree.Counting
import EmmcLayout.Proofs.DeviceTree.ReadBack

/-!
# Replacing twice

A tree whose partitions were replaced is left as it is when they are replaced by the same records
again: `replacePartitions_idempotent`.  The second replacement finds the node where the first one
put it (`Splice.start_eq`, `Splice.stop_eq`).  It gives back what the first one handed out, so it has
the same phandles to hand out (`Splice.mem_released_iff`, `Splice.mem_released_new_iff`), and it
finds every name where the first one put it.
-/

namespace EmmcLayout.DeviceTree

open PartitionsNode

/-! ## Handing out the same phandles -/

/-- The phandles that are handed out depend on the free ones alone. -/
theorem PartitionsNode.assign_congr {paired : Bool} {census census' left : PhandleCensus}
    {records assigned : List Record} (h : PhandleCensus.Ascending census.counts)
    (h' : PhandleCensus.Ascending census'.counts)
    (hsame : ∀ v, v ≠ 0 → (v ∈ census.counts.map Prod.fst ↔ v ∈ census'.counts.map Prod.fst))
    (hassign : assign paired census records = (.ok assigned, left)) :
    ∃ left', assign paired census' records = (.ok assigned, left') := by
  induction records generalizing census census' assigned with
  | nil =>
      obtain rfl := Except.ok.inj (Prod.mk.inj hassign).1
      exact ⟨census', rfl⟩
  | cons r rest ih =>
      rw [assign] at hassign ⊢
      by_cases hlong : nameFieldLength ≤ (Utf8.encode r.name).length
      · rw [if_pos hlong] at hassign
        exact absurd hassign (by simp)
      · rw [if_neg hlong] at hassign ⊢
        cases halloc : census.allocate with
        | error e =>
            rw [halloc] at hassign
            exact absurd hassign (by simp)
        | ok handed =>
            obtain ⟨phandle, next⟩ := handed
            rw [halloc] at hassign
            obtain ⟨hassigned, hleft⟩ := Prod.mk.inj hassign
            obtain ⟨others, hothers, rfl⟩ := Outcome.map_eq_ok_iff.mp hassigned
            obtain ⟨hvalue, hlt, -⟩ := PhandleCensus.allocate_eq_ok_iff.mp halloc
            rw [PhandleCensus.leastFree_congr (List.pairwise_map.mpr h)
              (List.pairwise_map.mpr h') hsame] at hvalue
            have halloc' := PhandleCensus.allocate_eq_ok_iff.mpr ⟨hvalue, hlt, rfl⟩
            obtain ⟨-, -, -, hnext, hvalues⟩ := PhandleCensus.allocate_fresh h halloc
            obtain ⟨-, -, -, hnext', hvalues'⟩ := PhandleCensus.allocate_fresh h' halloc'
            obtain ⟨left', hrest⟩ := ih hnext hnext' (by
              intro v hv
              rw [hvalues, hvalues', hsame v hv]) (Prod.ext hothers hleft)
            refine ⟨left', ?_⟩
            simp only [halloc', hrest, Outcome.map_ok]

namespace Rewrite

variable {b : Bytes} {records : List Record} {w : Rewrite} {names : PhandleCensus.Names}
  {root : Node} {old new : Cut} {d : Declaration} {v : UInt32} {c : PhandleCensus}

/-! ## The place of the new node -/

theorem Of.length_before (hw : w.Of b records) : w.before.length = w.place.start :=
  (Bytes.cut_zero_eq_ok_iff.mp hw.before_eq).1

theorem length_strings_lt (hlen : w.bytes.length < UInt32.size) :
    w.strings.bytes.length < UInt32.size := by
  rw [Rewrite.bytes, length_assemble] at hlen
  omega

/-- The new node starts where the old one did. -/
theorem Splice.start_eq (h : w.Splice names root old new) : new.opens.start = old.opens.start := by
  have hold := start_of_runAt h.steps_old
  have hnew := start_of_runAt h.steps_new
  rw [h.front] at hnew
  exact hnew.trans hold.symm

theorem Splice.length_before (h : w.Splice names root old new) (hw : w.Of b records) :
    w.before.length = new.opens.start := by
  rw [hw.length_before, h.place_eq, h.start_eq]

/-- The new node takes the bytes that were composed. -/
theorem Splice.stop_eq (h : w.Splice names root old new) (hw : w.Of b records)
    (hnames : ∀ x ∈ records, 0 ∉ Utf8.encode x.name) (hlen : w.bytes.length < UInt32.size) :
    new.closes.stop = new.opens.start + w.composed.bytes.length := by
  obtain ⟨-, -, hemit⟩ := compose_eq_ok_iff.mp hw.composed
  rw [paired_releaseAll] at hemit
  have hbody : root.body % 4 = 0 :=
    body_mod_of_root h.root_eq (by rw [h.steps_new, Cut.steps]; simp)
  obtain ⟨-, opens, inner, closes, hrun, -, -, hinner⟩ := run_of_emissions w.behind
    (hw.writable hnames) (start_mod_of_runAt hbody h.steps_new) (length_strings_lt hlen) hemit
  -- the tokens of the new node are those of its emissions, so the same tokens follow both
  have hdrop : w.newTree.structBlock.drop new.opens.start = w.composed.bytes ++ w.behind := by
    rw [newTree, List.append_assoc, ← h.length_before hw, List.drop_left]
  have hsteps := runAt_start h.steps_new
  rw [runAt_eq, hdrop, hrun] at hsteps
  have hlength : inner.length = new.inner.length := hinner.length_eq.symm.trans h.inner.length_eq
  obtain ⟨-, htail⟩ := List.append_inj (List.cons.inj hsteps).2 hlength
  obtain ⟨-, hbehind⟩ := List.cons.inj htail
  have hdrop' : w.newTree.structBlock.drop (new.opens.start + w.composed.bytes.length) =
      w.behind := by
    rw [← List.drop_drop, hdrop, List.drop_left]
  rw [← hdrop', ← runAt_eq] at hbehind
  have hclosed := Cut.runAt_closes h.steps_new
  obtain ⟨first, more, hfirst⟩ : ∃ first more,
      new.back ++ new.last :: new.more = first :: more :=
    List.exists_cons_of_ne_nil (by simp)
  rw [hfirst] at hclosed hbehind
  rw [← start_of_runAt_head hclosed, start_of_runAt_head hbehind]

/-! ## The phandles of the new tree -/

/-- In a tree that declares its phandles twice `linux,phandle` is found already. -/
theorem Splice.find?_linuxPhandle_of_paired (h : w.Splice names root old new) (hw : w.Of b records)
    (hpaired : w.census.paired = true) (hone : w.tree.OneNodeEach) (honce : w.tree.NoNameTwice) :
    w.strings.find? PropertyName.linuxPhandle.bytes = names.linuxPhandle := by
  obtain ⟨v, hv⟩ := List.exists_mem_of_ne_nil _ h.settled.ne_nil
  obtain ⟨-, -, y, -, -, -, -, -, hname⟩ := h.exists_pair hpaired hone honce hv
  have hlinux := h.survey.names_of.linuxPhandle
  rw [← hname] at hlinux ⊢
  exact StringsBlock.find?_of_extends hw.extends_strings (PropertyName.zero_notMem _) hlinux

/-- A tree in which every phandle is declared by one node, and by no node twice under one name, keeps
its scheme, and the offset of `linux,phandle`. -/
theorem Splice.exists_census_again (h : w.Splice names root old new) (hw : w.Of b records)
    (hnames : ∀ x ∈ records, 0 ∉ Utf8.encode x.name) (hne : records ≠ [])
    (hone : w.tree.OneNodeEach) (honce : w.tree.NoNameTwice) :
    w.strings.find? PropertyName.linuxPhandle.bytes = names.linuxPhandle ∧
      ∃ c, (PhandleCensus.ofTree w.newTree).result = .ok c ∧ c.paired = w.census.paired := by
  cases hpaired : w.census.paired with
  | false =>
      have hlinux := h.find?_linuxPhandle hw hnames hpaired
      have hcensus := h.exists_census_new hw hnames hne hlinux hone
        (h.count_kept_of_single hw hpaired)
      rw [hpaired] at hcensus
      exact ⟨hlinux, hcensus⟩
  | true =>
      have hlinux := h.find?_linuxPhandle_of_paired hw hpaired hone honce
      have hcensus := h.exists_census_new hw hnames hne hlinux hone
        (h.count_kept_of_paired hw hpaired hone honce)
      rw [hpaired] at hcensus
      exact ⟨hlinux, hcensus⟩

/-- A handle of the old partitions is declared nowhere but in the partitions. -/
theorem Splice.ne_handle (h : w.Splice names root old new) (hw : w.Of b records)
    (hone : w.tree.OneNodeEach) (hne : v ≠ 0)
    (hv : v ∈ names.values old.front ∨ v ∈ keptHandles w.previous ∨ v ∈ names.values old.back) :
    ∀ r ∈ w.previous.records, v ≠ r.phandle ∧ v ≠ r.linuxPhandle := by
  have hbelow : ∀ d ∈ w.found names root old, d.Below old.opens.start → d.value ≠ v := by
    rintro d hd hbelow rfl
    have hinner : d.value ∈ names.values old.inner :=
      h.map_value_found ▸ List.mem_map_of_mem hd
    rcases hv with hv | hv | hv
    · exact h.notMem_inner hone (.inl hv) hinner
    · obtain ⟨-, d', hd', hopened, heq⟩ := (h.sources hw).exists_of_mem_kept hv
      have hsame := hone d (h.mem_found_declarations.mpr (.inr (.inl hd))) d'
        (h.mem_found_declarations.mpr (.inr (.inl hd'))) heq.symm
      have hlt := (Cut.starts_ascend h.survey.root_eq h.steps_old).1
      rw [Declaration.Below, hsame, hopened, List.tail_cons, List.mem_singleton] at hbelow
      omega
    · exact h.notMem_inner hone (.inr hv) hinner
  intro r hr
  have hhandled := (h.sources hw).records r hr
  constructor
  · rintro rfl
    obtain ⟨d, hd, hdbelow, hvalue⟩ := hhandled.phandle hne
    exact hbelow d hd hdbelow hvalue
  · rintro rfl
    obtain ⟨d, hd, hdbelow, hvalue⟩ := hhandled.linuxPhandle hne
    exact hbelow d hd hdbelow hvalue

/-- What the node declares itself it keeps. -/
theorem Splice.mem_kept_of_own (h : w.Splice names root old new) (hw : w.Of b records)
    (honce : w.tree.NoNameTwice) (hd : d ∈ w.found names root old)
    (hown : ¬ d.Below old.opens.start) (hne : d.value ≠ 0) :
    d.value ∈ keptHandles w.previous := by
  have hopened : d.opened = [old.opens.start, root.start] := by
    obtain ⟨deeper, hdeeper⟩ :=
      Walk.suffix_opened_of_mem h.around_old.inner (mem_found.mp hd).1
    rw [Declaration.Below, ← hdeeper] at hown
    cases deeper with
    | nil => exact hdeeper.symm
    | cons o deeper => exact absurd (by simp) hown
  have hmem := h.mem_found_declarations.mpr (.inr (.inl hd))
  rw [mem_keptHandles]
  refine ⟨hne, ?_⟩
  rcases h.declares_of_mem hmem with hoffset | hoffset
  · left
    rw [(h.sources hw).phandle]
    exact (h.getLastD_own honce hmem hopened (congrArg some hoffset)).symm
  · right
    rw [(h.sources hw).linuxPhandle]
    exact (h.getLastD_own honce hmem hopened hoffset).symm

/-- What is declared below the node is a handle of a partition. -/
theorem Splice.exists_record_of_below (h : w.Splice names root old new) (hw : w.Of b records)
    (honce : w.tree.NoNameTwice) (hd : d ∈ w.found names root old)
    (hbelow : d.Below old.opens.start) :
    ∃ r ∈ w.previous.records, d.value = r.phandle ∨ d.value = r.linuxPhandle := by
  obtain ⟨-, -, hgathered⟩ := h.exists_gathered hw
  obtain ⟨hdeclared, hnamed⟩ := mem_found.mp hd
  rw [h.survey.names_of.declares_eq] at hnamed
  refine hgathered.covered ?_ d hdeclared hnamed hbelow
  intro d₁ hd₁ d₂ hd₂ hnamed₁ hopened hoffset
  rw [← h.survey.names_of.declares_eq] at hnamed₁
  have hmem : ∀ d' ∈ Walk.declarations w.tree.stringsBlock [old.opens.start, root.start] old.inner,
      names.declares d'.nameOffset → d' ∈ w.tree.foundDeclarations :=
    fun d' hd' hnamed' => h.mem_found_declarations.mpr (.inr (.inl (mem_found.mpr ⟨hd', hnamed'⟩)))
  rw [List.inj_on_of_nodup_map honce (hmem d₁ hd₁ hnamed₁) (hmem d₂ hd₂ (hoffset ▸ hnamed₁))
    (by rw [hopened, hoffset])]

/-- **What is taken when the old phandles are given back**: what is declared around the node, and
what it keeps. -/
theorem Splice.mem_released_iff (h : w.Splice names root old new) (hw : w.Of b records)
    (hone : w.tree.OneNodeEach) (honce : w.tree.NoNameTwice) (hne : v ≠ 0) :
    v ∈ (releaseAll w.census w.previous.records).counts.map Prod.fst ↔
      v ∈ names.values old.front ∨ v ∈ keptHandles w.previous ∨ v ∈ names.values old.back := by
  rw [mem_values_releaseAll, h.settled.mem_values_iff, h.around_old.values_content,
    List.mem_append, List.mem_append]
  constructor
  · rintro ⟨hfront | hinner | hback, hfree⟩
    · exact .inl hfront
    · rw [← h.map_value_found] at hinner
      obtain ⟨d, hd, rfl⟩ := List.mem_map.mp hinner
      by_cases hbelow : d.Below old.opens.start
      · obtain ⟨r, hr, hvalue⟩ := h.exists_record_of_below hw honce hd hbelow
        obtain ⟨hphandle, hlinux⟩ := hfree r hr
        exact absurd hvalue (not_or.mpr ⟨hphandle, hlinux⟩)
      · exact .inr (.inl (h.mem_kept_of_own hw honce hd hbelow hne))
    · exact .inr (.inr hback)
  · intro hv
    refine ⟨?_, h.ne_handle hw hone hne hv⟩
    rcases hv with hfront | hkept | hback
    · exact .inl hfront
    · obtain ⟨-, d, hd, -, rfl⟩ := (h.sources hw).exists_of_mem_kept hkept
      exact .inr (.inl (h.map_value_found ▸ List.mem_map_of_mem hd))
    · exact .inr (.inr hback)

/-- **What is taken when the new phandles are given back** is the same. -/
theorem Splice.mem_released_new_iff (h : w.Splice names root old new) (hw : w.Of b records)
    (hnames : ∀ x ∈ records, 0 ∉ Utf8.encode x.name)
    (hlinux : w.strings.find? PropertyName.linuxPhandle.bytes = names.linuxPhandle)
    (hone : w.tree.OneNodeEach) (hc : (PhandleCensus.ofTree w.newTree).result = .ok c)
    (hne : v ≠ 0) :
    v ∈ (releaseAll c w.composed.assigned).counts.map Prod.fst ↔
      v ∈ names.values old.front ∨ v ∈ keptHandles w.previous ∨ v ∈ names.values old.back := by
  rw [mem_values_releaseAll, (PhandleCensus.tallies_ofTree hc).mem_values_iff,
    (h.survey_new hw hnames hlinux).map_value_found, h.values_new hw hnames hlinux]
  simp only [List.mem_append, mem_childHandles]
  constructor
  · rintro ⟨hfront | (hkept | hchild) | hback, hfree⟩
    · exact .inl hfront
    · exact .inr (.inl hkept)
    · obtain ⟨a, ha, rfl⟩ := List.mem_map.mp hchild
      exact absurd rfl (hfree a ha).1
    · exact .inr (.inr hback)
  · intro hv
    refine ⟨?_, ?_⟩
    · rcases hv with hfront | hkept | hback
      · exact .inl hfront
      · exact .inr (.inl (.inl hkept))
      · exact .inr (.inr hback)
    · intro a ha
      have hphandle : v ≠ a.phandle := by
        rintro rfl
        obtain ⟨hfront, hback⟩ := h.count_around_of_handed hw hone ha
        rcases hv with hv | hv | hv
        · exact List.count_eq_zero.mp hfront hv
        · exact h.notMem_kept hw hone ha hv
        · exact List.count_eq_zero.mp hback hv
      refine ⟨hphandle, ?_⟩
      rw [(hw.writable hnames a ha).linuxPhandle_eq]
      split
      · exact hphandle
      · exact hne

/-! ## The second replacement -/

/-- A header hands on what it was given. -/
theorem assembledHeader_base (base : HeaderBase) (reservations tokens strings : Bytes)
    (reservations' tokens' strings' : Bytes) :
    assembledHeader (assembledHeader base reservations tokens strings).base reservations' tokens'
      strings' = assembledHeader base reservations' tokens' strings' := by
  have hkeep : ∀ version default : UInt32, default ≠ 0 →
      (if (if version = 0 then default else version) = 0 then default
        else if version = 0 then default else version) =
        if version = 0 then default else version := by
    intro version default hdefault
    by_cases hzero : version = 0
    · rw [if_pos hzero, if_neg hdefault]
    · rw [if_neg hzero, if_neg hzero]
  simp only [assembledHeader, Header.base, Header.mk.injEq, true_and, and_true]
  exact ⟨hkeep _ _ (by decide), hkeep _ _ (by decide)⟩

/-- The new node reads as the records that were assigned, with the handles that were kept. -/
theorem Splice.exists_read_new (h : w.Splice names root old new) (hw : w.Of b records)
    (hnames : ∀ x ∈ records, 0 ∉ Utf8.encode x.name) :
    ∃ references, (read w.newTree ⟨nodeName, new.opens.start, new.opens.stop⟩).result =
      .ok ⟨w.composed.assigned, references, w.previous.phandle, w.previous.linuxPhandle,
        UInt32.ofNat w.composed.assigned.length⟩ := by
  obtain ⟨hmany, hassign, -⟩ := compose_eq_ok_iff.mp hw.composed
  have hcount : w.composed.assigned.length ≤ maxPartitions :=
    (writable_of_assign hnames hassign).1.length_eq ▸ hmany
  obtain ⟨-, readerNames, hreader, -, -⟩ := read_eq_ok_iff.mp hw.read
  obtain ⟨readerNames', hreader'⟩ := hreader.extends hw.extends_strings
  obtain ⟨references, -, hread⟩ :=
    readTokens_content hreader' w.previous (hw.writable hnames) hcount
  refine ⟨references, read_eq_ok_iff.mpr ⟨rfl, readerNames', hreader', ?_, rfl⟩⟩
  have hclosed : Emission.endNode.ReadsAs w.strings new.closes.token := by
    rw [h.around_new.closes]
    exact .endNode
  have hcontent := hread (w.newTree.runAt new.opens.stop).failure new.opens.start
    (new.inner ++ [new.closes]) (new.back ++ new.last :: new.more)
    (List.rel_append h.inner (.cons hclosed .nil))
  rw [List.append_assoc, List.singleton_append] at hcontent
  rw [Cut.runAt_opens h.steps_new]
  exact hcontent

/-- **A replacement of what was replaced goes through, and writes the same bytes.** -/
theorem Splice.exists_again (h : w.Splice names root old new) (hw : w.Of b records)
    (hnames : ∀ x ∈ records, 0 ∉ Utf8.encode x.name) (hne : records ≠ [])
    (hlen : w.bytes.length < UInt32.size) (hone : w.tree.OneNodeEach)
    (honce : w.tree.NoNameTwice) :
    ∃ w' : Rewrite, w'.Of w.bytes records ∧ w'.bytes = w.bytes ∧ w'.composed = w.composed := by
  obtain ⟨hmany, hassign, hemit⟩ := compose_eq_ok_iff.mp hw.composed
  rw [paired_releaseAll] at hassign hemit
  obtain ⟨references, hread⟩ := h.exists_read_new hw hnames
  obtain ⟨hlinux, c, hc, hpaired⟩ := h.exists_census_again hw hnames hne hone honce
  -- the phandles that are free are those that were free the first time
  obtain ⟨left, hassign'⟩ := assign_congr
    (ascending_releaseAll h.settled.ascending w.previous.records)
    (ascending_releaseAll (PhandleCensus.tallies_ofTree hc).ascending w.composed.assigned)
    (fun v hv => (h.mem_released_iff hw hone honce hv).trans
      (h.mem_released_new_iff hw hnames hlinux hone hc hv).symm) hassign
  -- every name is found where it was put
  have hemitted : (emitAll w.tree.stringsBlock
      (emissions w.previous w.census.paired w.composed.assigned)).2 = w.strings := by
    rw [hemit]
  have hextends : (emitAll w.tree.stringsBlock
      (emissions w.previous w.census.paired w.composed.assigned)).2.Extends w.strings := by
    rw [hemitted]
    exact .refl w.strings
  obtain ⟨hknows, hrender⟩ := StringsBlock.knows_of_extends
    (legal_emissions w.previous (hw.writable hnames))
    (by rw [hemitted]; exact length_strings_lt hlen) hextends
  rw [hemit] at hrender
  have hemit' : emitAll w.strings (emissions w.previous w.census.paired w.composed.assigned) =
      (w.composed.bytes, w.strings) := by
    rw [StringsBlock.emitAll_of_knows hknows, hrender]
  refine ⟨⟨w.newTree, ⟨nodeName, new.opens.start, new.opens.stop⟩,
    ⟨w.composed.assigned, references, w.previous.phandle, w.previous.linuxPhandle,
      UInt32.ofNat w.composed.assigned.length⟩, new.closes.stop, c, left, w.composed, w.strings,
    w.before, w.behind, w.reservations⟩, ?_, ?_, rfl⟩
  · refine ⟨ofBytes_bytes hlen, ?_, hread, h.around_new.nodeStop_eq h.steps_new, hc, ?_, ?_, ?_,
      hw.reservationBlock⟩
    · refine locate_eq_ok_iff.mpr ⟨root, h.root_eq, ?_⟩
      rw [DeviceTree.findChild, h.steps_new, Cut.steps, Walk.findChild_without h.around_new.front,
        Walk.findChild_opened h.around_new.opens]
    · refine compose_eq_ok_iff.mpr ⟨hmany, ?_, ?_⟩
      · rw [paired_releaseAll, hpaired]
        exact hassign'
      · rw [paired_releaseAll, hpaired]
        exact hemit'
    · rw [Bytes.cut_zero_eq_ok_iff]
      refine ⟨h.length_before hw, ?_⟩
      rw [newTree, List.append_assoc]
      exact List.prefix_append _ _
    · have hstop : (w.before ++ w.composed.bytes).length = new.closes.stop := by
        rw [List.length_append, h.length_before hw, h.stop_eq hw hnames hlen]
      have hcut := Bytes.cut_middle (w.before ++ w.composed.bytes) w.behind []
      rw [List.append_nil, ← List.length_append, hstop] at hcut
      exact hcut
  · rw [Rewrite.bytes, Rewrite.bytes, assemble_eq, assemble_eq]
    simp only [newTree, assembledHeader_base]

end Rewrite

/-- **Replacing is idempotent** in a tree in which every phandle is declared by one node, and by no
node twice under one name: replacing the partitions of the new tree by the same records gives the
same bytes and the same phandles. -/
theorem replacePartitions_idempotent {b : Bytes} {records : List Record} {old : DeviceTree}
    {r : Replaced} (hopened : DeviceTree.ofBytes b = .ok old) (hone : old.OneNodeEach)
    (honce : old.NoNameTwice) (hne : records ≠ [])
    (hnames : ∀ x ∈ records, 0 ∉ Utf8.encode x.name)
    (h : (replacePartitions b records).result = .ok r) (hlen : r.bytes.length < UInt32.size) :
    (replacePartitions r.bytes records).result = .ok r := by
  obtain ⟨w, hw, rfl⟩ := replacePartitions_eq_ok_iff.mp h
  obtain rfl : w.tree = old := Except.ok.inj (hw.opened.symm.trans hopened)
  obtain ⟨names, root, cut, cut', hs⟩ := hw.exists_splice hnames hlen
  obtain ⟨w', hw', hbytes, hcomposed⟩ := hs.exists_again hw hnames hne hlen hone honce
  refine replacePartitions_eq_ok_iff.mpr ⟨w', hw', ?_⟩
  rw [hbytes, hcomposed]

theorem replacePartitions_idempotent_of_boardTree :
    ∃ old r, DeviceTree.ofBytes boardTree = .ok old ∧ old.OneNodeEach ∧ old.NoNameTwice ∧
      (replacePartitions boardTree
        [⟨"system", 0x2000, 4, 0, 0⟩, ⟨"data", autofillSize, 4, 0, 0⟩]).result = .ok r ∧
      r.bytes ≠ boardTree ∧ (replacePartitions r.bytes
        [⟨"system", 0x2000, 4, 0, 0⟩, ⟨"data", autofillSize, 4, 0, 0⟩]).result = .ok r := by
  obtain ⟨old, hold, hfacts⟩ := Outcome.exists_ok_of_any (x := DeviceTree.ofBytes boardTree)
    (p := fun old => decide (old.OneNodeEach ∧ old.NoNameTwice)) (by decide +kernel)
  obtain ⟨hone, honce⟩ := of_decide_eq_true hfacts
  obtain ⟨r, hr, hfacts'⟩ := Outcome.exists_ok_of_any (x := (replacePartitions boardTree
      [⟨"system", 0x2000, 4, 0, 0⟩, ⟨"data", autofillSize, 4, 0, 0⟩]).result)
    (p := fun r => decide (r.bytes.length < UInt32.size ∧ r.bytes ≠ boardTree)) (by decide +kernel)
  obtain ⟨hlen, hchanged⟩ := of_decide_eq_true hfacts'
  exact ⟨old, r, hold, hone, honce, hr, hchanged,
    replacePartitions_idempotent hold hone honce (by decide) (by decide) hr hlen⟩

end EmmcLayout.DeviceTree
