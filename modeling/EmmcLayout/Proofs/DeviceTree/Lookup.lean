import EmmcLayout.Proofs.DeviceTree.Tree

/-!
# Looking nodes up in a written tree

`Tree.Lies` says where a node lies in a block that knows its names: behind what was written before
it, from its first byte to its last.  A search among the children of such a node finds the first one
of the name, and where it lies (`Lies.findChild`).  By induction along the path, a search on the
written tree answers as a lookup on the tree that was meant: `findNode_blob`.
-/

namespace EmmcLayout.DeviceTree

/-! ## Properties -/

namespace Walk

variable {stop : FormatError} {s : StringsBlock} {steps rest : List Step} {e : Step}
  {properties : List (Bytes × Bytes)} {ps : List Property}

/-- A written property and the token that it is read as. -/
structure IsProperty (s : StringsBlock) (written : Bytes × Bytes) (p : Property) : Prop where
  found : s.find? written.1 = some p.nameOffset
  value_eq : p.value = written.2

theorem properties_of_own
    (h : List.Forall₂ (fun e step => e.ReadsAs s step.token) (Tree.own properties) steps)
    (he : e.EndsProperties) (stop : FormatError) (rest : List Step) :
    ∃ ps, Walk.properties stop (steps ++ e :: rest) = (ps, none) ∧
      List.Forall₂ (IsProperty s) properties ps := by
  induction properties generalizing steps with
  | nil =>
      cases h
      exact ⟨[], he stop rest, .nil⟩
  | cons written properties ih =>
      cases h with
      | cons hfirst hrest =>
          obtain ⟨p, hp, hfound, hvalue⟩ := hfirst.exists_property
          obtain ⟨ps, hps, hall⟩ := ih hrest
          refine ⟨p :: ps, ?_, .cons ⟨hfound, hvalue⟩ hall⟩
          rw [List.cons_append, Walk.properties, hp]
          simp only [hps]

/-- The first property of an offset is looked for among the properties. -/
theorem findProperty_of_properties (h : Walk.properties stop steps = (ps, none))
    (nameOffset : UInt32) :
    findProperty stop nameOffset steps = .ok (ps.find? (·.nameOffset = nameOffset)) := by
  induction steps generalizing ps with
  | nil => exact absurd h (by simp [Walk.properties])
  | cons step steps ih =>
      rw [Walk.properties] at h
      rw [findProperty]
      cases htoken : step.token with
      | property p =>
          simp only [htoken] at h ⊢
          obtain ⟨rfl, hfailure⟩ := Prod.mk.inj h
          have hrest : Walk.properties stop steps = ((Walk.properties stop steps).1, none) :=
            Prod.ext rfl hfailure
          by_cases hp : p.nameOffset = nameOffset
          · rw [if_pos hp, List.find?_cons_of_pos (by simpa using hp)]
          · rw [if_neg hp, List.find?_cons_of_neg (by simpa using hp), ih hrest]
      | nop =>
          simp only [htoken] at h ⊢
          exact ih h
      | beginNode name =>
          simp only [htoken] at h ⊢
          obtain ⟨rfl, -⟩ := Prod.mk.inj h
          rfl
      | endNode =>
          simp only [htoken] at h ⊢
          obtain ⟨rfl, -⟩ := Prod.mk.inj h
          rfl
      | endTree =>
          simp only [htoken] at h ⊢
          obtain ⟨rfl, -⟩ := Prod.mk.inj h
          rfl

/-- Names and offsets in the strings block say the same of a property. -/
theorem find?_of_isProperty (h : List.Forall₂ (IsProperty s) properties ps)
    (nameOffset : UInt32) :
    (ps.find? (·.nameOffset = nameOffset)).map Property.value =
      (properties.find? fun written => s.find? written.1 = some nameOffset).map (·.2) := by
  induction h with
  | nil => rfl
  | @cons written p properties ps hp _ ih =>
      by_cases hoffset : p.nameOffset = nameOffset
      · rw [List.find?_cons_of_pos (by simpa using hoffset),
          List.find?_cons_of_pos (by simpa [hp.found] using hoffset)]
        exact congrArg some hp.value_eq
      · rw [List.find?_cons_of_neg (by simpa using hoffset),
          List.find?_cons_of_neg (by simpa [hp.found] using hoffset), ih]

theorem names_of_isProperty (h : List.Forall₂ (IsProperty s) properties ps)
    (hnames : ∀ written ∈ properties, 0 ∉ written.1) :
    ps.map (fun p => (s.get? p.nameOffset, p.value)) =
      properties.map fun written => (some written.1, written.2) := by
  induction h with
  | nil => rfl
  | cons hp _ ih =>
      obtain ⟨hname, hnames⟩ := List.forall_mem_cons.mp hnames
      rw [List.map_cons, List.map_cons, StringsBlock.get?_of_find? hname hp.found, hp.value_eq,
        ih hnames]

end Walk

namespace Tree

variable {t : DeviceTree} {before front back : List Emission} {tree child : Tree} {node : Node}
  {name : Bytes}

/-! ## Where a node lies -/

/-- The node stands in the block for this tree, behind what was written before it. -/
structure Lies (t : DeviceTree) (before : List Emission) (tree : Tree) (node : Node) : Prop where
  strings_lt : t.stringsBlock.bytes.length < UInt32.size
  legal : tree.Legal
  knows_before : t.stringsBlock.Knows before
  knows : t.stringsBlock.Knows tree.emissions
  aligned : (t.stringsBlock.render before).length % 4 = 0
  block_eq : ∃ rest, t.structBlock =
    t.stringsBlock.render before ++ (t.stringsBlock.render tree.emissions ++ rest)
  name_eq : node.name = tree.name
  start_eq : node.start = (t.stringsBlock.render before).length
  body_eq : node.body = node.start + (emit t.stringsBlock (.beginNode tree.name)).1.length

/-- The emissions between the name of a node and its end. -/
def inside (tree : Tree) : List Emission :=
  own tree.properties ++ forest tree.children

theorem emissions_eq_inside (tree : Tree) :
    tree.emissions = .beginNode tree.name :: (tree.inside ++ [.endNode]) := by
  rw [emissions_eq, inside, List.append_assoc]

theorem exists_emissions_eq (tree : Tree) :
    ∃ es, tree.emissions = .beginNode tree.name :: es :=
  ⟨_, emissions_eq tree⟩

namespace Lies

theorem legal_of_mem (h : Lies t before tree node) (hsplit : tree.inside = front ++ back) :
    ∀ e ∈ front, e.Legal := by
  intro e he
  apply h.legal
  rw [emissions_eq_inside, hsplit]
  simp [he]

theorem knows_of_mem (h : Lies t before tree node) (hsplit : tree.inside = front ++ back) :
    t.stringsBlock.Knows front := by
  intro e he
  apply h.knows
  rw [emissions_eq_inside, hsplit]
  simp [he]

theorem start_mod (h : Lies t before tree node) : node.start % 4 = 0 := by
  rw [h.start_eq]
  exact h.aligned

theorem body_mod (h : Lies t before tree node) : node.body % 4 = 0 := by
  have hlegal : (Emission.beginNode tree.name).Legal := by
    apply h.legal
    rw [emissions_eq]
    exact List.mem_cons_self
  obtain ⟨t', hspelled, -⟩ := spelled_emit hlegal h.start_mod h.strings_lt
  have hmod := hspelled.mod_length h.start_mod
  have hstart := h.start_mod
  rw [h.body_eq]
  omega

/-- The bytes behind the name of a node. -/
theorem drop_body (h : Lies t before tree node) :
    ∃ rest, t.structBlock.drop node.body =
      t.stringsBlock.render (tree.inside ++ [.endNode]) ++ rest := by
  obtain ⟨rest, hblock⟩ := h.block_eq
  refine ⟨rest, ?_⟩
  rw [hblock, h.body_eq, h.start_eq, emissions_eq_inside, StringsBlock.render_cons,
    List.append_assoc, ← List.append_assoc, ← List.length_append, List.drop_left]

/-- The tokens behind the name of a node, read up to some of what is inside. -/
theorem runAt_body (h : Lies t before tree node) (hsplit : tree.inside = front ++ back) :
    ∃ steps rest, (t.runAt node.body).steps =
        steps ++ (⟨t.stringsBlock.render (back ++ [.endNode]) ++ rest,
          node.body + (t.stringsBlock.render front).length⟩ : Cursor).run.steps ∧
      List.Forall₂ (fun e step => e.ReadsAs t.stringsBlock step.token) front steps ∧
      (node.body + (t.stringsBlock.render front).length) % 4 = 0 := by
  obtain ⟨rest, hdrop⟩ := h.drop_body
  have hlegal := h.legal_of_mem hsplit
  have hknows := h.knows_of_mem hsplit
  rw [hsplit, List.append_assoc, StringsBlock.render_append, List.append_assoc] at hdrop
  obtain ⟨steps, hrun, hreads⟩ :=
    StringsBlock.exists_run_render hlegal hknows h.strings_lt h.body_mod
      (t.stringsBlock.render (back ++ [.endNode]) ++ rest)
  refine ⟨steps, rest, ?_, hreads, ?_⟩
  · rw [runAt_eq, hdrop, hrun]
  · have hmod := StringsBlock.length_render_mod hlegal hknows h.strings_lt
    have hbody := h.body_mod
    omega

/-- All tokens of a node: what is inside, and its end. -/
theorem runAt_inside (h : Lies t before tree node) :
    ∃ steps e more, (t.runAt node.body).steps = steps ++ e :: more ∧
      List.Forall₂ (fun e step => e.ReadsAs t.stringsBlock step.token) tree.inside steps ∧
      e.token = .endNode ∧
      e.start = node.body + (t.stringsBlock.render tree.inside).length := by
  obtain ⟨steps, rest, hsteps, hreads, hmod⟩ := h.runAt_body (List.append_nil tree.inside).symm
  have hend : t.stringsBlock.render ([] ++ [.endNode]) =
      (emit t.stringsBlock .endNode).1 := List.flatMap_singleton _ _
  obtain ⟨token, hrun, hread⟩ := exists_run_emit (e := .endNode) trivial h.strings_lt hmod rest
  rw [hend, hrun] at hsteps
  exact ⟨steps, _, _, hsteps, hreads, hread.eq_endNode, rfl⟩

/-! ## Children -/

theorem findChild_none (h : Lies t before tree node) (hnone : tree.child? name = none) :
    t.findChild node name = .ok none := by
  obtain ⟨steps, e, more, hsteps, hreads, he, -⟩ := h.runAt_inside
  have hwithout := avoids_content t.stringsBlock tree.properties (name_ne_of_child? hnone) _ hreads
  rw [findChild, hsteps, Walk.findChild_without hwithout, Walk.findChild_closed he]

/-- A part of what is inside a node stands behind its name and the rest in front of it. -/
theorem block_of_inside (h : Lies t before tree node) (hsplit : tree.inside = front ++ back) :
    (∃ rest, t.structBlock = t.stringsBlock.render (before ++ .beginNode tree.name :: front) ++
        (t.stringsBlock.render back ++ rest)) ∧
      node.body + (t.stringsBlock.render front).length =
        (t.stringsBlock.render (before ++ .beginNode tree.name :: front)).length := by
  obtain ⟨rest, hblock⟩ := h.block_eq
  constructor
  · refine ⟨t.stringsBlock.render [.endNode] ++ rest, ?_⟩
    rw [hblock, emissions_eq_inside, hsplit]
    simp only [StringsBlock.render_append, StringsBlock.render_cons, List.append_assoc]
  · rw [h.body_eq, h.start_eq, StringsBlock.render_append, StringsBlock.render_cons,
      List.length_append, List.length_append]
    omega

/-- The tokens of a node up to one of its children, which lies there. -/
theorem runAt_child (h : Lies t before tree node)
    (hsplit : tree.inside = front ++ (child.emissions ++ back)) :
    ∃ steps s more, (t.runAt node.body).steps = steps ++ s :: more ∧
      List.Forall₂ (fun e step => e.ReadsAs t.stringsBlock step.token) front steps ∧
      s.token = .beginNode child.name ∧
      Lies t (before ++ .beginNode tree.name :: front) child ⟨child.name, s.start, s.stop⟩ := by
  obtain ⟨es, hes⟩ := exists_emissions_eq child
  have hmem : ∀ e ∈ child.emissions, e ∈ tree.emissions := by
    intro e he
    rw [emissions_eq_inside, hsplit]
    simp [he]
  have hlegal : (Emission.beginNode child.name).Legal := by
    apply h.legal
    apply hmem
    rw [hes]
    exact List.mem_cons_self
  obtain ⟨steps, rest, hsteps, hreads, hmod⟩ := h.runAt_body hsplit
  obtain ⟨⟨more, hblock⟩, hplace⟩ := h.block_of_inside hsplit
  rw [hes, List.cons_append, List.cons_append, StringsBlock.render_cons, List.append_assoc]
    at hsteps
  obtain ⟨token, hrun, hread⟩ := exists_run_emit hlegal h.strings_lt hmod
    (t.stringsBlock.render (es ++ back ++ [.endNode]) ++ rest)
  rw [hrun] at hsteps
  refine ⟨steps, _, _, hsteps, hreads, hread.eq_beginNode, h.strings_lt,
    fun e he => h.legal e (hmem e he), ?_, fun e he => h.knows e (hmem e he), ?_, ?_, rfl, hplace,
    rfl⟩
  · exact StringsBlock.knows_append.mpr
      ⟨h.knows_before, StringsBlock.knows_cons.mpr ⟨rfl, h.knows_of_mem hsplit⟩⟩
  · rw [← hplace]
    exact hmod
  · refine ⟨t.stringsBlock.render back ++ more, ?_⟩
    rw [hblock, StringsBlock.render_append _ child.emissions, List.append_assoc]

/-- The first child of a name is found where it lies. -/
theorem findChild_some (h : Lies t before tree node) (hchild : tree.child? name = some child) :
    ∃ node', t.findChild node name = .ok (some node') ∧
      Lies t (before ++ .beginNode tree.name :: (own tree.properties ++ forest (tree.elder name)))
        child node' := by
  obtain ⟨rfl, helders, younger, hchildren⟩ := children_of_child? hchild
  have hsplit : tree.inside = (own tree.properties ++ forest (tree.elder child.name)) ++
      (child.emissions ++ forest younger) := by
    rw [inside, hchildren, forest_append, forest, List.append_assoc]
  obtain ⟨steps, s, more, hsteps, hreads, hs, hlies⟩ := h.runAt_child hsplit
  have hwithout := avoids_content t.stringsBlock tree.properties helders _ hreads
  refine ⟨⟨child.name, s.start, s.stop⟩, ?_, hlies⟩
  rw [findChild, hsteps, Walk.findChild_without hwithout, Walk.findChild_opened hs]

/-- **A search below a node answers as a lookup on its tree.** -/
theorem descend (h : Lies t before tree node) (names : List Bytes) :
    match tree.lookup names with
    | none => t.descend node names = .ok none
    | some found => ∃ node', t.descend node names = .ok (some node') ∧
        Lies t (before ++ tree.before names) found node' := by
  induction names generalizing before tree node with
  | nil =>
      rw [Tree.before, List.append_nil]
      exact ⟨node, rfl, h⟩
  | cons name names ih =>
      rw [Tree.lookup, Tree.before, DeviceTree.descend]
      cases hchild : tree.child? name with
      | none =>
          rw [h.findChild_none hchild]
      | some child =>
          obtain ⟨node', hfound, hlies⟩ := h.findChild_some hchild
          rw [hfound, ← List.append_assoc]
          exact ih hlies

end Lies

/-! ## What is found -/

/-- The node is the one that was written for this tree, behind what was written before it. -/
structure Stands (t : DeviceTree) (before : List Emission) (tree : Tree) (node : Node) : Prop where
  name_eq : node.name = tree.name
  start_eq : node.start = (emitAll t.stringsBlock before).1.length
  /-- From its first byte to its last, it is what is written for the tree. -/
  bytes_eq : ∃ stop bytes, t.nodeStop node = .ok stop ∧
    Bytes.cut t.structBlock node.start stop = .ok bytes ∧
    emitAll t.stringsBlock tree.emissions = (bytes, t.stringsBlock)
  /-- Its properties are those of the tree, in order. -/
  properties_eq : ∃ ps, t.properties node = (ps, none) ∧
    ps.map (fun p => (t.stringsBlock.get? p.nameOffset, p.value)) =
      tree.properties.map fun p => (some p.1, p.2)
  /-- A value is looked for among them by the offset of its name. -/
  propertyValue_eq : ∀ nameOffset, t.propertyValue node nameOffset =
    .ok ((tree.properties.find? fun p => t.stringsBlock.find? p.1 = some nameOffset).map (·.2))

namespace Lies

theorem nodeStop_eq (h : Lies t before tree node) :
    t.nodeStop node = .ok (node.start + (t.stringsBlock.render tree.emissions).length) := by
  obtain ⟨steps, e, more, hsteps, hreads, he, hstart⟩ := h.runAt_inside
  have hcontent := (renders_own t.stringsBlock tree.properties).append
    (renders_forest t.stringsBlock tree.children) _ hreads
  have hskip : ∀ halt, Walk.skip halt node.body 0 (t.runAt node.body).steps = .ok e := by
    intro halt
    rw [hsteps, Walk.skip_content hcontent, Walk.skip, he]
  have htag : (t.stringsBlock.render [.endNode]).length = 4 := rfl
  rw [nodeStop_of_skip hskip, hstart, h.body_eq, emissions_eq_inside, StringsBlock.render_cons,
    StringsBlock.render_append, List.length_append, List.length_append, htag]
  simp only [Nat.add_assoc]

/-- What follows the properties of a node is a child or its end. -/
theorem runAt_own (h : Lies t before tree node) :
    ∃ steps e more, (t.runAt node.body).steps = steps ++ e :: more ∧
      List.Forall₂ (fun e step => e.ReadsAs t.stringsBlock step.token) (own tree.properties)
        steps ∧ e.EndsProperties := by
  cases hchildren : tree.children with
  | nil =>
      obtain ⟨steps, e, more, hsteps, hreads, he, -⟩ := h.runAt_inside
      rw [inside, hchildren, forest, List.append_nil] at hreads
      exact ⟨steps, e, more, hsteps, hreads, Step.endsProperties_of_endNode he⟩
  | cons child younger =>
      have hsplit : tree.inside = own tree.properties ++ (child.emissions ++ forest younger) := by
        rw [inside, hchildren, forest]
      obtain ⟨steps, s, more, hsteps, hreads, hs, -⟩ := h.runAt_child hsplit
      exact ⟨steps, s, more, hsteps, hreads, Step.endsProperties_of_beginNode hs⟩

theorem stands (h : Lies t before tree node) : Stands t before tree node := by
  obtain ⟨rest, hblock⟩ := h.block_eq
  obtain ⟨steps, e, more, hsteps, hreads, hends⟩ := h.runAt_own
  obtain ⟨ps, hps, hall⟩ :=
    Walk.properties_of_own hreads hends (t.runAt node.body).failure more
  rw [← hsteps] at hps
  refine ⟨h.name_eq, ?_, ?_, ⟨ps, hps, ?_⟩, ?_⟩
  · rw [StringsBlock.emitAll_of_knows h.knows_before]
    exact h.start_eq
  · refine ⟨_, t.stringsBlock.render tree.emissions, h.nodeStop_eq, ?_,
      StringsBlock.emitAll_of_knows h.knows⟩
    rw [h.start_eq, hblock]
    exact Bytes.cut_middle _ _ _
  · apply Walk.names_of_isProperty hall
    intro p hp
    have hlegal : (Emission.property p.1 p.2).Legal := by
      apply h.legal
      rw [emissions_eq, own]
      simp only [List.mem_cons, List.mem_append, List.mem_map]
      exact .inr (.inl ⟨p, hp, rfl⟩)
    exact hlegal.1
  · intro nameOffset
    rw [propertyValue, Walk.findProperty_of_properties hps, ← Walk.find?_of_isProperty hall]
    rfl

end Lies

/-! ## Whole trees -/

variable {root : Tree}

/-- The root lies at the start of a block that starts with what is written for it. -/
theorem exists_root (hlen : t.stringsBlock.bytes.length < UInt32.size) (hlegal : root.Legal)
    (hknows : t.stringsBlock.Knows root.emissions) {rest : Bytes}
    (hblock : t.structBlock = t.stringsBlock.render root.emissions ++ rest) :
    ∃ node, t.root = .ok node ∧ Lies t [] root node := by
  obtain ⟨es, hes⟩ := exists_emissions_eq root
  have hzero : 0 % 4 = 0 := rfl
  have hname : (Emission.beginNode root.name).Legal := by
    apply hlegal
    rw [hes]
    exact List.mem_cons_self
  obtain ⟨token, hrun, hread⟩ := exists_run_emit hname hlen hzero
    (t.stringsBlock.render es ++ rest)
  rw [← List.append_assoc, ← StringsBlock.render_cons, ← hes, ← hblock, Nat.zero_add] at hrun
  refine ⟨⟨root.name, 0, (emit t.stringsBlock (.beginNode root.name)).1.length⟩, ?_, hlen,
    hlegal, List.forall_mem_nil _, hknows, rfl, ⟨rest, hblock⟩, rfl, rfl, (Nat.zero_add _).symm⟩
  rw [DeviceTree.root, runAt_eq, List.drop_zero, hrun, Walk.root, hread.eq_beginNode]

/-- A written tree opens to blocks that start with what is written for its root. -/
theorem exists_ofBytes_blob (base : HeaderBase) (reservations : Bytes) (strings : StringsBlock)
    (hlegal : root.Legal) (hlen : (root.blob base reservations strings).length < UInt32.size) :
    ∃ t rest, DeviceTree.ofBytes (root.blob base reservations strings) = .ok t ∧
      t.stringsBlock.bytes.length < UInt32.size ∧ t.stringsBlock.Knows root.emissions ∧
      t.structBlock = t.stringsBlock.render root.emissions ++ rest := by
  obtain ⟨tokens, names, hwritten⟩ :
      ∃ tokens names, emitAll strings (root.emissions ++ [.endTree]) = (tokens, names) :=
    ⟨_, _, rfl⟩
  have hblob : root.blob base reservations strings =
      assemble base reservations tokens names.bytes := by
    rw [blob, hwritten]
  rw [hblob] at hlen ⊢
  have hnames : names.bytes.length < UInt32.size := by
    rw [length_assemble] at hlen
    omega
  have hopen := ofBytes_assemble hlen []
  rw [List.append_nil] at hopen
  -- the strings block that is left at the end knows all the names
  have hall : ∀ e ∈ root.emissions ++ [.endTree], e.Legal := by
    intro e he
    rcases List.mem_append.mp he with he | he
    · exact hlegal e he
    · rw [List.mem_singleton.mp he]
      trivial
  have hagain := StringsBlock.knows_of_extends hall (by rw [hwritten]; exact hnames) (.refl _)
  rw [hwritten] at hagain
  obtain ⟨hknows, htokens⟩ := hagain
  refine ⟨_, names.render [.endTree], hopen, hnames, (StringsBlock.knows_append.mp hknows).1, ?_⟩
  rw [StringsBlock.render_append] at htokens
  exact htokens.symm

end Tree

/-- **Looking a path up in a written tree is looking it up in the tree that was meant.**  An absolute
path leads to the node that the first children of its names lead to, as it was written, and to
nothing when some name has no such child. -/
theorem findNode_blob {root : Tree} (base : HeaderBase) (reservations : Bytes)
    (strings : StringsBlock) (hlegal : root.Legal)
    (hlen : (root.blob base reservations strings).length < UInt32.size) :
    ∃ t, DeviceTree.ofBytes (root.blob base reservations strings) = .ok t ∧
      ∀ path : String, path.toList.head? = some '/' →
        match root.lookup (pathNames path) with
        | none => t.findNode path = .ok none
        | some tree => ∃ node, t.findNode path = .ok (some node) ∧
            tree.Stands t (root.before (pathNames path)) node := by
  obtain ⟨t, rest, hopen, hnames, hknows, hblock⟩ :=
    Tree.exists_ofBytes_blob base reservations strings hlegal hlen
  obtain ⟨node, hroot, hlies⟩ := Tree.exists_root hnames hlegal hknows hblock
  refine ⟨t, hopen, ?_⟩
  intro path habsolute
  have hfind : t.findNode path = t.descend node (pathNames path) := by
    rw [findNode, if_pos habsolute, hroot, Outcome.ok_bind]
  rw [hfind]
  have hdescend := hlies.descend (pathNames path)
  cases hlookup : root.lookup (pathNames path) with
  | none =>
      rw [hlookup] at hdescend
      exact hdescend
  | some tree =>
      rw [hlookup] at hdescend
      obtain ⟨node', hfound, hlies'⟩ := hdescend
      exact ⟨node', hfound, hlies'.stands⟩

/-- A node inside of one that is called the same, in front of another one of that name. -/
def nested : Tree :=
  .node [] [(Utf8.encode "model", [1])]
    [.node (Utf8.encode "bus") [] [.node (Utf8.encode "uart") [] [],
        .node (Utf8.encode "bus") [(PropertyName.phandle.bytes, [0, 0, 0, 7])] []],
      .node (Utf8.encode "bus") [(PropertyName.phandle.bytes, [0, 0, 0, 8])] [],
      .node (Utf8.encode "uart") [(PropertyName.phandle.bytes, [0, 0, 0, 9])] []]

theorem findNode_blob_of_nested :
    ∃ t node, DeviceTree.ofBytes (nested.blob {} emptyReservations ⟨[]⟩) = .ok t ∧
      t.findNode "/bus//bus" = .ok (some node) ∧ t.findNode "/bus/bus/uart" = .ok none ∧
      (Tree.node (Utf8.encode "bus") [(PropertyName.phandle.bytes, [0, 0, 0, 7])] []).Stands t
        (nested.before (pathNames "/bus//bus")) node := by
  have hlegal : nested.Legal := by decide +kernel
  obtain ⟨t, hopen, hpaths⟩ :=
    findNode_blob {} emptyReservations ⟨[]⟩ hlegal (by decide +kernel)
  have hinner := hpaths "/bus//bus" (by decide)
  have hnone := hpaths "/bus/bus/uart" (by decide)
  have hlookup : nested.lookup (pathNames "/bus//bus") =
      some (.node (Utf8.encode "bus") [(PropertyName.phandle.bytes, [0, 0, 0, 7])] []) := by rfl
  have hnothing : nested.lookup (pathNames "/bus/bus/uart") = none := by rfl
  rw [hlookup] at hinner
  rw [hnothing] at hnone
  obtain ⟨node, hfound, hstands⟩ := hinner
  exact ⟨t, node, hopen, hfound, hnone, hstands⟩

end EmmcLayout.DeviceTree
