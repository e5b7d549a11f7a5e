import EmmcLayout.Proofs.DeviceTree.Partitions
import EmmcLayout.Proofs.DeviceTree.Phandles

/-!
# A replaced node reads back

`replacePartitions_eq_ok_iff` lays open what a replacement goes through, and
`replacePartitions_reads_back` says what comes of it: the new tree opens, and its partitions node
reads as the records with their new phandles, in order, with the phandles of the old node.
-/

namespace EmmcLayout.DeviceTree

namespace PartitionsNode

variable {paired : Bool} {census left : PhandleCensus} {records assigned : List Record}
  {previous : PartitionsNode} {strings strings' : StringsBlock} {composed : Composed}

/-! ## Composing -/

/-- The second record says the same of its partition as the first one, phandles aside. -/
structure SamePartition (a b : Record) : Prop where
  name_eq : b.name = a.name
  size_eq : b.size = a.size
  mask_eq : b.mask = a.mask

/-- Every record keeps what it says, and gets a phandle that it declares the way the tree does. -/
theorem writable_of_assign (hnames : ∀ r ∈ records, 0 ∉ Utf8.encode r.name)
    (h : assign paired census records = (.ok assigned, left)) :
    List.Forall₂ SamePartition records assigned ∧ ∀ a ∈ assigned, Writable paired a := by
  induction records generalizing census assigned with
  | nil =>
      obtain rfl := Except.ok.inj (Prod.mk.inj h).1
      exact ⟨.nil, by simp⟩
  | cons r rest ih =>
      obtain ⟨hzero, hrest⟩ := List.forall_mem_cons.mp hnames
      rw [assign] at h
      split at h
      · exact absurd h (by simp)
      · rename_i hshort
        cases halloc : census.allocate with
        | error e =>
            rw [halloc] at h
            exact absurd h (by simp)
        | ok handed =>
            obtain ⟨phandle, census'⟩ := handed
            rw [halloc] at h
            obtain ⟨hassigned, hleft⟩ := Prod.mk.inj h
            obtain ⟨others, hothers, rfl⟩ := Outcome.map_eq_ok_iff.mp hassigned
            obtain ⟨hsame, hwritable⟩ := ih hrest (Prod.ext hothers hleft)
            refine ⟨.cons ⟨rfl, rfl, rfl⟩ hsame, List.forall_mem_cons.mpr ⟨?_, hwritable⟩⟩
            exact ⟨hzero, Nat.lt_of_not_le hshort, PhandleCensus.ne_zero_of_allocate halloc, rfl⟩

theorem compose_eq_ok_iff :
    compose previous records census strings = (.ok composed, left, strings') ↔
      records.length ≤ maxPartitions ∧
        assign census.paired census records = (.ok composed.assigned, left) ∧
        emitAll strings (emissions previous census.paired composed.assigned) =
          (composed.bytes, strings') := by
  unfold compose
  by_cases hmany : maxPartitions < records.length
  · rw [if_pos hmany]
    constructor
    · intro h
      exact absurd h (by simp)
    · rintro ⟨hle, -, -⟩
      exact absurd hmany (Nat.not_lt.mpr hle)
  · rw [if_neg hmany]
    cases hassign : assign census.paired census records with
    | mk result left' =>
        cases result with
        | error e => simp
        | ok assigned =>
            cases composed
            simp only [Prod.mk.injEq, Except.ok.injEq, Composed.mk.injEq]
            constructor
            · rintro ⟨⟨hbytes, rfl⟩, rfl, hstrings⟩
              exact ⟨Nat.le_of_not_lt hmany, ⟨rfl, rfl⟩, Prod.ext hbytes hstrings⟩
            · rintro ⟨-, ⟨rfl, rfl⟩, hemit⟩
              rw [hemit]
              exact ⟨⟨rfl, rfl⟩, rfl, rfl⟩

/-- The bytes of a composed node: the tag and the name of the node, then tokens that read as its
content and its end. -/
theorem spelling_of_emissions {pos : Nat} {bytes : Bytes}
    (hwritable : ∀ a ∈ assigned, Writable paired a) (hpos : pos % 4 = 0)
    (hstrings : strings'.bytes.length < UInt32.size)
    (h : emitAll strings (emissions previous paired assigned) = (bytes, strings')) :
    ∃ a a' steps, bytes = a ++ a' ∧ Token.Spelled pos (.beginNode nodeName) a ∧
      Spelling (pos + a.length) steps a' ∧
      List.Forall₂ (fun e step => e.ReadsAs strings' step.token)
        (content previous paired assigned ++ [.endNode]) steps := by
  have hlegal := legal_emissions previous hwritable
  have hemitted : (emitAll strings (emissions previous paired assigned)).2 = strings' := by
    rw [h]
  have hextends : (emitAll strings (emissions previous paired assigned)).2.Extends strings' := by
    rw [hemitted]
    exact .refl strings'
  rw [← hemitted] at hstrings
  obtain ⟨steps, hspelling, hreads⟩ := spelling_emitAll hlegal hpos hstrings hextends
  rw [h] at hspelling
  rw [emissions_eq] at hreads
  cases hreads with
  | cons hfirst hcontent =>
      cases hspelling with
      | cons hspelled hrest =>
          cases hfirst with
          | beginNode => exact ⟨_, _, _, rfl, hspelled, hrest, hcontent⟩

/-- **A node that was written is read as it was written**, with its records in the order in which
they were written. -/
theorem ofTree_of_spelling {t : DeviceTree} {names : Names} {start body : Nat} {a behind : Bytes}
    {steps : List Step} (hlocated : locate t = .ok ⟨nodeName, start, body⟩)
    (hnames : Names.Of t.stringsBlock names) (hwritable : ∀ r ∈ assigned, Writable paired r)
    (hlen : assigned.length ≤ maxPartitions) (hdrop : t.structBlock.drop body = a ++ behind)
    (hspelling : Spelling body steps a)
    (hcontent : List.Forall₂ (fun e step => e.ReadsAs t.stringsBlock step.token)
      (content previous paired assigned ++ [.endNode]) steps) :
    ∃ references, (ofTree t).result = .ok ⟨assigned, references, previous.phandle,
      previous.linuxPhandle, UInt32.ofNat assigned.length⟩ := by
  obtain ⟨references, hprefix, hread⟩ := readTokens_content hnames previous hwritable hlen
  have hnode : (read t ⟨nodeName, start, body⟩).result =
      .ok ⟨assigned, references, previous.phandle, previous.linuxPhandle,
        UInt32.ofNat assigned.length⟩ := by
    refine read_eq_ok_iff.mpr ⟨rfl, names, hnames, ?_, rfl⟩
    rw [runAt_eq, hdrop, Cursor.run_of_spelling hspelling]
    exact hread _ _ _ _ hcontent
  -- the references hold the phandles in the order of the records
  rw [← map_handle_of_writable hwritable] at hprefix
  have hsorted : (⟨assigned, references, previous.phandle, previous.linuxPhandle,
      UInt32.ofNat assigned.length⟩ : PartitionsNode).sortedRecords = (assigned, 0) :=
    sortedRecords_of_prefix hlen hprefix
  refine ⟨references, ofTree_eq_ok_iff.mpr ⟨_, _, hlocated, hnode, ?_⟩⟩
  rw [hsorted]

end PartitionsNode

open PartitionsNode

/-! ## Replacing -/

/-- What a replacement goes through, from the old tree to the parts of the new one. -/
structure Rewrite where
  tree : DeviceTree
  place : Node
  previous : PartitionsNode
  stop : Nat
  census : PhandleCensus
  left : PhandleCensus
  composed : Composed
  strings : StringsBlock
  before : Bytes
  behind : Bytes
  reservations : Bytes

/-- The tree that comes of a replacement. -/
def Rewrite.bytes (w : Rewrite) : Bytes :=
  assemble w.tree.header.base w.reservations (w.before ++ w.composed.bytes ++ w.behind)
    w.strings.bytes

/-- The steps of a replacement, all of them without a failure. -/
structure Rewrite.Of (b : Bytes) (records : List Record) (w : Rewrite) : Prop where
  opened : DeviceTree.ofBytes b = .ok w.tree
  located : locate w.tree = .ok w.place
  read : (read w.tree w.place).result = .ok w.previous
  stop_eq : w.tree.nodeStop w.place = .ok w.stop
  counted : (PhandleCensus.ofTree w.tree).result = .ok w.census
  composed : compose w.previous records (releaseAll w.census w.previous.records)
    w.tree.stringsBlock = (.ok w.composed, w.left, w.strings)
  before_eq : Bytes.cut w.tree.structBlock 0 w.place.start = .ok w.before
  behind_eq : Bytes.cut w.tree.structBlock w.stop w.tree.structBlock.length = .ok w.behind
  reserved : w.tree.reservationBlock = .ok w.reservations

theorem Located.ofBytes_eq_ok_iff {b : Bytes} {old : Located} :
    (Located.ofBytes b).result = .ok old ↔
      DeviceTree.ofBytes b = .ok old.tree ∧ locate old.tree = .ok old.place ∧
        (PartitionsNode.read old.tree old.place).result = .ok old.previous ∧
        old.tree.nodeStop old.place = .ok old.stop := by
  unfold Located.ofBytes
  simp only [Outcome.result_bind_eq_ok_iff, Outcome.result_lift]
  constructor
  · rintro ⟨tree, hopened, place, hlocated, previous, hread, stop, hstop, h⟩
    obtain rfl := Except.ok.inj h
    exact ⟨hopened, hlocated, hread, hstop⟩
  · rintro ⟨hopened, hlocated, hread, hstop⟩
    exact ⟨old.tree, hopened, old.place, hlocated, old.previous, hread, old.stop, hstop, rfl⟩

theorem replacePartitions_eq_ok_iff {b : Bytes} {records : List Record} {r : Replaced} :
    (replacePartitions b records).result = .ok r ↔
      ∃ w : Rewrite, w.Of b records ∧ r = ⟨w.bytes, w.composed.assigned⟩ := by
  unfold replacePartitions Located.replace
  simp only [Outcome.result_bind_eq_ok_iff, Outcome.result_lift, Located.ofBytes_eq_ok_iff]
  constructor
  · rintro ⟨⟨tree, place, previous, stop⟩, ⟨hopened, hlocated, hread, hstop⟩, census, hcounted,
      composed, hcomposed, before, hbefore, behind, hbehind, reservations, hreserved, -, -, h⟩
    generalize hcompose : compose previous records (releaseAll census previous.records)
      tree.stringsBlock = c at hcomposed h
    obtain ⟨result, left, strings⟩ := c
    obtain rfl : result = .ok composed := hcomposed
    obtain rfl := Except.ok.inj h
    exact ⟨⟨tree, place, previous, stop, census, left, composed, strings, before, behind,
      reservations⟩, ⟨hopened, hlocated, hread, hstop, hcounted, hcompose, hbefore, hbehind,
        hreserved⟩, rfl⟩
  · rintro ⟨w, hw, rfl⟩
    have hcomposed := hw.composed
    refine ⟨⟨w.tree, w.place, w.previous, w.stop⟩,
      ⟨hw.opened, hw.located, hw.read, hw.stop_eq⟩, w.census, hw.counted, w.composed, ?_,
      w.before, hw.before_eq, w.behind, hw.behind_eq, w.reservations, hw.reserved, (), rfl, ?_⟩
    · rw [hcomposed]
    · rw [hcomposed]
      rfl

/-- **A replaced node reads back as it was written.** -/
theorem replacePartitions_reads_back {b : Bytes} {records : List Record} {r : Replaced}
    (hnames : ∀ x ∈ records, 0 ∉ Utf8.encode x.name)
    (h : (replacePartitions b records).result = .ok r)
    (hlen : r.bytes.length < UInt32.size) :
    ∃ oldTree old tree node,
      DeviceTree.ofBytes b = .ok oldTree ∧ (ofTree oldTree).result = .ok old ∧
      DeviceTree.ofBytes r.bytes = .ok tree ∧ (ofTree tree).result = .ok node ∧
      node.records = r.assigned ∧ node.declared.toNat = records.length ∧
      node.phandle = old.phandle ∧ node.linuxPhandle = old.linuxPhandle ∧
      List.Forall₂ SamePartition records r.assigned := by
  obtain ⟨w, hw, rfl⟩ := replacePartitions_eq_ok_iff.mp h
  obtain ⟨hmany, hassign, hemit⟩ := compose_eq_ok_iff.mp hw.composed
  obtain ⟨hsame, hwritable⟩ := writable_of_assign hnames hassign
  -- the old node is found behind some bytes, which are kept
  obtain ⟨root, hroot, hchild⟩ := locate_eq_ok_iff.mp hw.located
  obtain ⟨head, tail, hblock, hplace, hstart, hmod, hfind⟩ := findChild_of_head hroot hchild
  have hbefore : w.before = head := by
    obtain ⟨-, -, hcut⟩ := Bytes.cut_eq_ok_iff.mp hw.before_eq
    rw [hcut, hblock, hstart, List.drop_zero, Nat.sub_zero, List.take_left]
  -- the names that it uses are kept as well
  obtain ⟨-, names, hnamesOld, -, -⟩ := read_eq_ok_iff.mp hw.read
  have hextends : w.tree.stringsBlock.Extends w.strings := by
    have hext := extends_emitAll w.tree.stringsBlock
      (emissions w.previous (releaseAll w.census w.previous.records).paired w.composed.assigned)
    rw [hemit] at hext
    exact hext
  obtain ⟨names', hnamesNew⟩ := hnamesOld.extends hextends
  -- the new tokens stand behind those bytes, and read as the emissions
  have hcount : w.composed.assigned.length ≤ maxPartitions := hsame.length_eq ▸ hmany
  have hstrings : w.strings.bytes.length < UInt32.size := by
    rw [Rewrite.bytes, length_assemble] at hlen
    omega
  obtain ⟨a, a', steps, hbytes, hspelled, hrest, hcontent⟩ :=
    spelling_of_emissions hwritable hmod hstrings hemit
  obtain ⟨tree, hopened, hstruct, hstringsBlock⟩ : ∃ tree,
      DeviceTree.ofBytes w.bytes = .ok tree ∧
        tree.structBlock = head ++ (a ++ (a' ++ w.behind)) ∧ tree.stringsBlock = w.strings := by
    have hopen := ofBytes_assemble hlen []
    rw [List.append_nil] at hopen
    refine ⟨_, hopen, ?_, rfl⟩
    rw [hbefore, hbytes]
    simp only [List.append_assoc]
  obtain ⟨hroot', hchild'⟩ := hfind tree a (a' ++ w.behind) hstruct hspelled
  have hlocated := locate_eq_ok_iff.mpr ⟨root, hroot', hchild'⟩
  have hdrop : tree.structBlock.drop (head.length + a.length) = a' ++ w.behind := by
    rw [hstruct, ← List.append_assoc, ← List.length_append, List.drop_left]
  rw [← hstringsBlock] at hnamesNew hcontent
  obtain ⟨references, hnode⟩ :=
    ofTree_of_spelling hlocated hnamesNew hwritable hcount hdrop hrest hcontent
  refine ⟨w.tree, _, tree, _, hw.opened,
    ofTree_eq_ok_iff.mpr ⟨w.place, w.previous, hw.located, hw.read, rfl⟩, hopened, hnode, rfl, ?_,
    rfl, rfl, hsame⟩
  show (UInt32.ofNat w.composed.assigned.length).toNat = records.length
  rw [← hsame.length_eq]
  have hsmall : records.length < UInt32.size := Nat.lt_of_le_of_lt hmany (by decide)
  exact UInt32.toNat_ofNat_of_lt' hsmall

/-- A tree of a root and a partitions node with one partition. -/
def smallTree : Bytes :=
  let written := emitAll ⟨[]⟩
    ([.beginNode []] ++ emissions empty false [⟨"boot", 0x1000, 1, 7, 0⟩] ++ [.endNode, .endTree])
  assemble {} emptyReservations written.1 written.2.bytes

theorem replacePartitions_reads_back_of_smallTree :
    ∃ r tree node, (replacePartitions smallTree
        [⟨"system", 0x2000, 4, 0, 0⟩, ⟨"data", autofillSize, 4, 0, 0⟩]).result = .ok r ∧
      DeviceTree.ofBytes r.bytes = .ok tree ∧ (ofTree tree).result = .ok node ∧
      node.records = r.assigned ∧ node.declared.toNat = 2 := by
  obtain ⟨r, hr, hlen⟩ := Outcome.exists_ok_of_any (x := (replacePartitions smallTree
      [⟨"system", 0x2000, 4, 0, 0⟩, ⟨"data", autofillSize, 4, 0, 0⟩]).result)
    (p := fun r => decide (r.bytes.length < UInt32.size)) (by decide +kernel)
  obtain ⟨-, -, tree, node, -, -, htree, hnode, hrecords, hcount, -⟩ :=
    replacePartitions_reads_back (by decide) hr (of_decide_eq_true hlen)
  exact ⟨r, tree, node, hr, htree, hnode, hrecords, hcount⟩

end EmmcLayout.DeviceTree
