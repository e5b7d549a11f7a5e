import EmmcLayout.Proofs.DeviceTree.Handles
import EmmcLayout.Proofs.DeviceTree.Splice

/-!
# What a replacement declares

The declarations of a tree fall into those in front of the partitions node, those in it, and those
behind it (`Cut.foundDeclarations_eq`).  A replacement takes the handles that it keeps or gives back
from those in the node (`Splice.sources`), and the new tree declares what stands around the node,
what the node keeps, and the new phandles (`Splice.values_new`).
-/

namespace EmmcLayout.DeviceTree

/-! ## What a tree declares around a child of its root -/

namespace Cut

variable {t : DeviceTree} {s : StringsBlock} {names : PhandleCensus.Names} {root : Node}
  {cut : Cut} {name : Bytes} {d : Declaration}

/-- The declarations in front of the child of a root at `start` that a search finds. -/
def foundFront (cut : Cut) (s : StringsBlock) (names : PhandleCensus.Names) (start : Nat) :
    List Declaration :=
  names.counted (Walk.declarations s [start] cut.front)

/-- The declarations in the child that a search finds. -/
def foundInner (cut : Cut) (s : StringsBlock) (names : PhandleCensus.Names) (start : Nat) :
    List Declaration :=
  names.counted (Walk.declarations s [cut.opens.start, start] cut.inner)

/-- The declarations behind the child that a search finds. -/
def foundBack (cut : Cut) (s : StringsBlock) (names : PhandleCensus.Names) (start : Nat) :
    List Declaration :=
  names.counted (Walk.declarations s [start] cut.back)

theorem foundDeclarations_eq (h : PhandleCensus.Survey t names root cut.content)
    (haround : cut.Around name) :
    t.foundDeclarations = cut.foundFront t.stringsBlock names root.start ++
      (cut.foundInner t.stringsBlock names root.start ++
        cut.foundBack t.stringsBlock names root.start) := by
  rw [← h.counted_eq, content, Walk.declarations_append haround.front.content,
    PhandleCensus.Names.counted_append]
  rw [Walk.declarations_child haround.opens haround.inner haround.closes,
    PhandleCensus.Names.counted_append]
  rfl

theorem sized_content (h : names.Sized cut.content) :
    names.Sized cut.front ∧ names.Sized cut.inner ∧ names.Sized cut.back := by
  obtain ⟨hfront, hrest⟩ := PhandleCensus.Names.sized_append.mp h
  obtain ⟨hinner, hback⟩ :=
    PhandleCensus.Names.sized_append.mp (PhandleCensus.Names.sized_cons.mp hrest).2
  exact ⟨hfront, hinner, (PhandleCensus.Names.sized_cons.mp hback).2⟩

theorem Around.values_content (haround : cut.Around name) (names : PhandleCensus.Names) :
    names.values cut.content =
      names.values cut.front ++ (names.values cut.inner ++ names.values cut.back) := by
  have hopens : names.value? cut.opens.token = none := by rw [haround.opens]; rfl
  have hcloses : names.value? cut.closes.token = none := by rw [haround.closes]; rfl
  rw [Cut.content, PhandleCensus.Names.values_append, PhandleCensus.Names.values_cons,
    PhandleCensus.Names.values_append, PhandleCensus.Names.values_cons, hopens, hcloses]
  rfl

theorem root_start_lt (hroot : t.root = .ok root) : root.start < root.body := by
  obtain ⟨nops, s, after, hsteps, -, hstart, hstop, -⟩ := Walk.root_split hroot
  rw [← hstart, ← hstop]
  refine Cursor.start_lt_stop (Cursor.ofBlock t.structBlock 0) s ?_
  change s ∈ (t.runAt 0).steps
  rw [hsteps]
  simp

/-- The root, the tokens in front of the child, the child, and the tokens behind it stand in this
order. -/
theorem starts_ascend (hroot : t.root = .ok root)
    (hsteps : (t.runAt root.body).steps = cut.steps) :
    root.start < cut.opens.start ∧ (∀ s ∈ cut.front, s.start < cut.opens.start) ∧
      ∀ s ∈ cut.back, cut.opens.start < s.start := by
  have hpairwise := Cursor.pairwise_start (Cursor.ofBlock t.structBlock root.body)
  have hle := Cursor.position_le_start (Cursor.ofBlock t.structBlock root.body)
  change (t.runAt root.body).steps.Pairwise _ at hpairwise
  change ∀ s ∈ (t.runAt root.body).steps, root.body ≤ s.start at hle
  rw [hsteps, Cut.steps] at hpairwise hle
  obtain ⟨-, hrest, hfront⟩ := List.pairwise_append.mp hpairwise
  obtain ⟨hopens, -⟩ := List.pairwise_cons.mp hrest
  refine ⟨?_, fun s hs => hfront s hs cut.opens List.mem_cons_self, fun s hs => hopens s ?_⟩
  · exact Nat.lt_of_lt_of_le (root_start_lt hroot) (hle cut.opens (by simp))
  · simp [hs]

/-- What is declared outside of the child does not lie in it. -/
theorem opens_notMem_of_outside (hroot : t.root = .ok root)
    (hsteps : (t.runAt root.body).steps = cut.steps)
    (hd : d ∈ cut.foundFront s names root.start ∨ d ∈ cut.foundBack s names root.start) :
    cut.opens.start ∉ d.opened := by
  obtain ⟨hlt, hfront, hback⟩ := starts_ascend hroot hsteps
  obtain ⟨steps, hd, hne⟩ : ∃ steps, d ∈ Walk.declarations s [root.start] steps ∧
      ∀ step ∈ steps, step.start ≠ cut.opens.start := by
    rcases hd with hd | hd
    · exact ⟨cut.front, (PhandleCensus.Names.mem_counted.mp hd).1,
        fun step hstep => Nat.ne_of_lt (hfront step hstep)⟩
    · exact ⟨cut.back, (PhandleCensus.Names.mem_counted.mp hd).1,
        fun step hstep => Nat.ne_of_gt (hback step hstep)⟩
  intro hmem
  rcases Walk.mem_opened hd _ hmem with hopened | ⟨step, hstep, heq⟩
  · rw [List.mem_singleton] at hopened
    omega
  · exact hne step hstep heq

/-- What is declared in the child lies in it. -/
theorem opens_mem_of_inside (haround : cut.Around name)
    (hd : d ∈ cut.foundInner s names root.start) : cut.opens.start ∈ d.opened := by
  have hsuffix :=
    Walk.suffix_opened_of_mem haround.inner (PhandleCensus.Names.mem_counted.mp hd).1
  exact hsuffix.subset List.mem_cons_self

end Cut

open PartitionsNode

namespace Rewrite

variable {b : Bytes} {records : List Record} {w : Rewrite} {names : PhandleCensus.Names}
  {root : Node} {old new : Cut} {d : Declaration} {v : UInt32}

/-! ## What the reader has taken -/

/-- The declarations in the partitions node of the old tree that a search finds. -/
def found (w : Rewrite) (names : PhandleCensus.Names) (root : Node) (old : Cut) :
    List Declaration :=
  old.foundInner w.tree.stringsBlock names root.start

/-- Where the handles of the old node come from: its own ones are the last that it declares, and
those of its partitions are declared below it. -/
structure Sources (w : Rewrite) (names : PhandleCensus.Names) (root : Node) (old : Cut) : Prop where
  phandle : w.previous.phandle =
    (ownValues [old.opens.start, root.start] (some names.phandle)
      (Walk.declarations w.tree.stringsBlock [old.opens.start, root.start] old.inner)).getLastD 0
  linuxPhandle : w.previous.linuxPhandle =
    (ownValues [old.opens.start, root.start] names.linuxPhandle
      (Walk.declarations w.tree.stringsBlock [old.opens.start, root.start] old.inner)).getLastD 0
  records : ∀ r ∈ w.previous.records, Handled (fun v => ∃ d ∈ w.found names root old,
    d.Below old.opens.start ∧ d.value = v) r

/-- What the reader of the old node has gathered from the declarations in it. -/
theorem Splice.exists_gathered (h : w.Splice names root old new) (hw : w.Of b records) :
    w.previous.phandle = (ownValues [old.opens.start, root.start] (some names.phandle)
        (Walk.declarations w.tree.stringsBlock [old.opens.start, root.start] old.inner)).getLastD 0 ∧
      w.previous.linuxPhandle = (ownValues [old.opens.start, root.start] names.linuxPhandle
        (Walk.declarations w.tree.stringsBlock [old.opens.start, root.start] old.inner)).getLastD 0 ∧
      Gathered w.tree.stringsBlock old.opens.start
        (Walk.declarations w.tree.stringsBlock [old.opens.start, root.start] old.inner)
        w.previous.records := by
  obtain ⟨-, readerNames, hreader, hread, -⟩ := read_eq_ok_iff.mp hw.read
  -- reader and census look the names up alike
  obtain rfl : names = readerNames.handles := by
    have hphandle := h.survey.names_of.phandle.symm.trans hreader.phandle
    have hlinux := h.survey.names_of.linuxPhandle.symm.trans hreader.linuxPhandle
    cases names
    simp only [Option.some.injEq] at hphandle hlinux
    rw [Names.handles, hphandle, hlinux]
  have houter : old.opens.start ∉ [root.start] := by
    have hlt := (Cut.starts_ascend h.survey.root_eq h.steps_old).1
    rw [List.mem_singleton]
    exact Nat.ne_of_gt hlt
  rw [h.place_eq, Cut.runAt_opens h.steps_old] at hread
  obtain ⟨mid, rs, hmid, hphandle, hlinux, hrecords, hgathered⟩ :=
    readTokens_handles hreader houter h.around_old.inner hread
  rw [readTokens, h.around_old.closes] at hmid
  obtain rfl := Except.ok.inj hmid
  obtain rfl : w.previous.records = rs := hrecords
  exact ⟨hphandle, hlinux, hgathered⟩

theorem Splice.sources (h : w.Splice names root old new) (hw : w.Of b records) :
    w.Sources names root old := by
  obtain ⟨hphandle, hlinux, hgathered⟩ := h.exists_gathered hw
  refine ⟨hphandle, hlinux, fun r hr => (hgathered.handled r hr).imp ?_⟩
  rintro v ⟨d, hd, hfound, hbelow, hvalue⟩
  refine ⟨d, PhandleCensus.Names.mem_counted.mpr ⟨hd, ?_⟩, hbelow, hvalue⟩
  rw [h.survey.names_of.declares_eq]
  exact hfound

theorem mem_found : d ∈ w.found names root old ↔
    d ∈ Walk.declarations w.tree.stringsBlock [old.opens.start, root.start] old.inner ∧
      names.declares d.nameOffset :=
  PhandleCensus.Names.mem_counted

/-- The handles that the node keeps are declared by the node, each under its name. -/
theorem Sources.exists_kept (h : w.Sources names root old) :
    (w.previous.phandle ≠ 0 → ∃ d ∈ w.found names root old,
      d.opened = [old.opens.start, root.start] ∧ d.nameOffset = names.phandle ∧
        d.value = w.previous.phandle) ∧
    (w.previous.linuxPhandle ≠ 0 → ∃ d ∈ w.found names root old,
      d.opened = [old.opens.start, root.start] ∧ some d.nameOffset = names.linuxPhandle ∧
        d.value = w.previous.linuxPhandle) := by
  constructor
  · intro hne
    rw [h.phandle] at hne ⊢
    obtain ⟨d, hd, hopened, hoffset, hvalue⟩ := getLastD_mem hne
    have hsame := Option.some.inj hoffset
    refine ⟨d, mem_found.mpr ⟨hd, ?_⟩, hopened, hsame, hvalue⟩
    rw [PhandleCensus.Names.declares, hsame, decide_eq_true rfl, Bool.true_or]
  · intro hne
    rw [h.linuxPhandle] at hne ⊢
    obtain ⟨d, hd, hopened, hoffset, hvalue⟩ := getLastD_mem hne
    refine ⟨d, mem_found.mpr ⟨hd, ?_⟩, hopened, hoffset, hvalue⟩
    rw [PhandleCensus.Names.declares, ← hoffset, decide_eq_true rfl, Bool.or_true]

theorem Sources.exists_of_mem_kept (h : w.Sources names root old)
    (hv : v ∈ keptHandles w.previous) :
    v ≠ 0 ∧ ∃ d ∈ w.found names root old, d.opened = [old.opens.start, root.start] ∧
      d.value = v := by
  obtain ⟨hphandle, hlinux⟩ := h.exists_kept
  obtain ⟨hne, rfl | rfl⟩ := mem_keptHandles.mp hv
  · obtain ⟨d, hd, hopened, -, hvalue⟩ := hphandle hne
    exact ⟨hne, d, hd, hopened, hvalue⟩
  · obtain ⟨d, hd, hopened, -, hvalue⟩ := hlinux hne
    exact ⟨hne, d, hd, hopened, hvalue⟩

theorem Splice.map_value_found (h : w.Splice names root old new) :
    (w.found names root old).map Declaration.value = names.values old.inner :=
  PhandleCensus.map_value_counted h.survey.names_of h.around_old.inner
    (Cut.sized_content h.survey.sized).2.1 _ _

theorem Splice.mem_found_declarations (h : w.Splice names root old new) :
    d ∈ w.tree.foundDeclarations ↔
      d ∈ old.foundFront w.tree.stringsBlock names root.start ∨
        d ∈ w.found names root old ∨ d ∈ old.foundBack w.tree.stringsBlock names root.start := by
  rw [Cut.foundDeclarations_eq h.survey h.around_old, List.mem_append, List.mem_append]
  rfl

theorem Splice.declares_of_mem (h : w.Splice names root old new)
    (hd : d ∈ w.tree.foundDeclarations) :
    d.nameOffset = names.phandle ∨ some d.nameOffset = names.linuxPhandle := by
  have hfound := (List.mem_filter.mp hd).2
  rw [← h.survey.names_of.declares_eq, PhandleCensus.Names.declares, Bool.or_eq_true,
    decide_eq_true_eq, decide_eq_true_eq] at hfound
  exact hfound.imp_right Eq.symm

/-! ## What the new tree declares -/

theorem Of.writable (hw : w.Of b records) (hnames : ∀ x ∈ records, 0 ∉ Utf8.encode x.name) :
    ∀ a ∈ w.composed.assigned, Writable w.census.paired a := by
  obtain ⟨-, hassign, -⟩ := compose_eq_ok_iff.mp hw.composed
  rw [paired_releaseAll] at hassign
  exact (writable_of_assign hnames hassign).2

theorem legal_content {paired : Bool} {rs : List Record} (previous : PartitionsNode)
    (hrs : ∀ r ∈ rs, Writable paired r) : ∀ e ∈ content previous paired rs, e.Legal := by
  intro e he
  refine legal_emissions previous hrs e ?_
  rw [emissions_eq]
  exact .tail _ (List.mem_append_left _ he)

/-- A census of the new tree reads its content, if `linux,phandle` is found where it was. -/
theorem Splice.survey_new (h : w.Splice names root old new) (hw : w.Of b records)
    (hnames : ∀ x ∈ records, 0 ∉ Utf8.encode x.name)
    (hlinux : w.strings.find? PropertyName.linuxPhandle.bytes = names.linuxPhandle) :
    PhandleCensus.Survey w.newTree names root new.content := by
  have hwritable := hw.writable hnames
  have hfound : PhandleCensus.Names.Of w.strings names :=
    ⟨StringsBlock.find?_of_extends hw.extends_strings (PropertyName.zero_notMem _)
      h.survey.names_of.phandle, hlinux⟩
  obtain ⟨hfront, -, hback⟩ := Cut.sized_content h.survey.sized
  have hinner := Emission.sized_of_reads hfound (legal_content w.previous hwritable)
    (sized_content w.previous w.census.paired w.composed.assigned) h.inner
  refine ⟨hfound, h.root_eq, h.around_new.content, ?_, new.last, new.more, ?_, h.around_new.last⟩
  · refine PhandleCensus.Names.sized_append.mpr ⟨h.front ▸ hfront,
      PhandleCensus.Names.sized_cons.mpr ⟨?_, PhandleCensus.Names.sized_append.mpr ⟨hinner,
        PhandleCensus.Names.sized_cons.mpr ⟨?_, hback.alike h.back⟩⟩⟩⟩
    · simp [h.around_new.opens]
    · simp [h.around_new.closes]
  · rw [h.steps_new, Cut.steps_eq]

/-- **What the new tree declares**: what the old one has declared around the node, what the node
keeps, and the new phandles. -/
theorem Splice.values_new (h : w.Splice names root old new) (hw : w.Of b records)
    (hnames : ∀ x ∈ records, 0 ∉ Utf8.encode x.name)
    (hlinux : w.strings.find? PropertyName.linuxPhandle.bytes = names.linuxPhandle) :
    names.values new.content = names.values old.front ++
      ((keptHandles w.previous ++ childHandles w.census.paired w.composed.assigned) ++
        names.values old.back) := by
  have hwritable := hw.writable hnames
  have hinner := Emission.values_of_reads (h.survey_new hw hnames hlinux).names_of
    (legal_content w.previous hwritable) h.inner
  rw [h.around_new.values_content, h.front, hinner, filterMap_content w.previous hwritable,
    PhandleCensus.Names.values_alike names h.back]

theorem getLast?_referenceName_ne :
    ∀ i < maxPartitions, referenceName i ≠ [] ∧
      (referenceName i).getLast? ≠ PropertyName.linuxPhandle.bytes.getLast? := by
  decide +kernel

/-- A composed node of a tree that declares its phandles once brings no names but those of its
references, when it keeps no `linux,phandle`. -/
theorem names_of_emissions {s : StringsBlock} {readerNames : PartitionsNode.Names}
    {previous : PartitionsNode} {rs : List Record} (hreader : PartitionsNode.Names.Of s readerNames)
    (hprevious : previous.linuxPhandle = 0) (hcount : rs.length ≤ maxPartitions) :
    ∀ e ∈ emissions previous false rs, ∀ name value, e = .property name value →
      0 ∉ name ∧ ((∃ offset, s.find? name = some offset) ∨
        (name ≠ [] ∧ name.getLast? ≠ PropertyName.linuxPhandle.bytes.getLast?)) := by
  have hold : ∀ (n : PropertyName) (offset : UInt32), s.find? n.bytes = some offset →
      0 ∉ n.bytes ∧ ((∃ offset, s.find? n.bytes = some offset) ∨
        (n.bytes ≠ [] ∧ n.bytes.getLast? ≠ PropertyName.linuxPhandle.bytes.getLast?)) :=
    fun n offset hn => ⟨n.zero_notMem, .inl ⟨offset, hn⟩⟩
  intro e he name value heq
  simp only [emissions_eq, content, childEmissions, hprevious, if_true, Bool.false_eq_true,
    if_false, List.append_nil, List.mem_cons, List.mem_append, List.not_mem_nil, or_false,
    List.mem_map, List.mem_flatMap] at he
  rcases he with rfl | (((rfl | ⟨⟨r, i⟩, hr, rfl⟩) | he) | ⟨r, -, he⟩) | rfl
  · exact absurd heq (by simp)
  · obtain ⟨rfl, -⟩ := Emission.property.inj heq
    exact hold .parts _ hreader.parts
  · obtain ⟨rfl, -⟩ := Emission.property.inj heq
    have hi : i < maxPartitions :=
      Nat.lt_of_lt_of_le (List.snd_lt_of_mem_zipIdx hr) (by simpa using hcount)
    exact ⟨zero_notMem_referenceName i, .inr (getLast?_referenceName_ne i hi)⟩
  · split at he
    · exact absurd he List.not_mem_nil
    · rw [List.mem_singleton] at he
      subst he
      obtain ⟨rfl, -⟩ := Emission.property.inj heq
      exact hold .phandle _ hreader.phandle
  · rcases he with (rfl | rfl | rfl | rfl | rfl) | rfl
    · exact absurd heq (by simp)
    · obtain ⟨rfl, -⟩ := Emission.property.inj heq
      exact hold .pname _ hreader.pname
    · obtain ⟨rfl, -⟩ := Emission.property.inj heq
      exact hold .size _ hreader.size
    · obtain ⟨rfl, -⟩ := Emission.property.inj heq
      exact hold .mask _ hreader.mask
    · obtain ⟨rfl, -⟩ := Emission.property.inj heq
      exact hold .phandle _ hreader.phandle
    · exact absurd heq (by simp)
  · exact absurd heq (by simp)

/-- A tree that declares its phandles once gets no name `linux,phandle` that it did not have. -/
theorem Splice.find?_linuxPhandle (h : w.Splice names root old new) (hw : w.Of b records)
    (hnames : ∀ x ∈ records, 0 ∉ Utf8.encode x.name) (hsingle : w.census.paired = false) :
    w.strings.find? PropertyName.linuxPhandle.bytes = names.linuxPhandle := by
  have hold := h.survey.names_of.linuxPhandle
  cases hlinux : names.linuxPhandle with
  | some offset =>
      rw [hlinux] at hold
      exact StringsBlock.find?_of_extends hw.extends_strings (PropertyName.zero_notMem _) hold
  | none =>
      rw [hlinux] at hold
      have hprevious : w.previous.linuxPhandle = 0 := by
        by_contra hne
        obtain ⟨d, -, -, hoffset, -⟩ := (h.sources hw).exists_kept.2 hne
        rw [hlinux] at hoffset
        exact absurd hoffset (by simp)
      obtain ⟨-, readerNames, hreader, -, -⟩ := read_eq_ok_iff.mp hw.read
      obtain ⟨hmany, hassign, hemit⟩ := compose_eq_ok_iff.mp hw.composed
      have hcount : w.composed.assigned.length ≤ maxPartitions :=
        (writable_of_assign hnames hassign).1.length_eq ▸ hmany
      rw [paired_releaseAll, hsingle] at hemit
      have hstrings : (emitAll w.tree.stringsBlock
          (emissions w.previous false w.composed.assigned)).2 = w.strings := by rw [hemit]
      rw [← hstrings]
      refine find?_emitAll_eq_none (PropertyName.zero_notMem _) (by decide) hold ?_
      exact names_of_emissions hreader hprevious hcount

end Rewrite

end EmmcLayout.DeviceTree
