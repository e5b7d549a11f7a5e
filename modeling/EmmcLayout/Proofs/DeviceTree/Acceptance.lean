import EmmcLayout.Proofs.DeviceTree.WellFormed

/-!
# Which partitions nodes are read

The reader of a partitions node goes by offsets and takes one token at a time.  A property has the
offset of a name exactly when it has that name, so what the reader does with one property is said in
terms of names (`readOwn_eq_ok_iff`, `readChild_eq_ok_iff`).  By induction on the items that were
written it gets through a child, and through the node, exactly when nothing in them is refused
(`readTokens_items_inside`, `readTokens_items`).  Hence `read_eq_ok_iff_wellFormed`: a written node
is read exactly when it is well-formed, and then the result is its summary.
-/

namespace EmmcLayout.DeviceTree

namespace PartitionsNode

/-! ## Properties taken in -/

/-- The node after these properties of its own were taken in. -/
def withOwn (node : PartitionsNode) (ps : List (Bytes × Bytes)) : PartitionsNode where
  records := node.records
  references := Vector.ofFn fun i => lastOf (IsReference · i) wordOf (node.references.get i) ps
  phandle := lastOf (· = PropertyName.phandle.bytes) wordOf node.phandle ps
  linuxPhandle := lastOf (· = PropertyName.linuxPhandle.bytes) wordOf node.linuxPhandle ps
  declared := lastOf (· = PropertyName.parts.bytes) wordOf node.declared ps

/-- The record after these properties of its child were taken in. -/
def withProperties (r : Record) (ps : List (Bytes × Bytes)) : Record where
  name := r.name
  size := lastOf (· = PropertyName.size.bytes) longWordOf r.size ps
  mask := lastOf (· = PropertyName.mask.bytes) wordOf r.mask ps
  phandle := lastOf (· = PropertyName.phandle.bytes) wordOf r.phandle ps
  linuxPhandle := lastOf (· = PropertyName.linuxPhandle.bytes) wordOf r.linuxPhandle ps

theorem ofFn_references (references : Vector UInt32 maxPartitions) :
    Vector.ofFn references.get = references :=
  Vector.ext fun _ hi => Vector.getElem_ofFn hi

theorem withOwn_nil (node : PartitionsNode) : node.withOwn [] = node := by
  simp only [withOwn, lastOf_nil, ofFn_references]

@[simp]
theorem records_withOwn (node : PartitionsNode) (ps : List (Bytes × Bytes)) :
    (node.withOwn ps).records = node.records := by
  rw [withOwn]

theorem withOwn_cons (node : PartitionsNode) (p : Bytes × Bytes) (ps : List (Bytes × Bytes)) :
    node.withOwn (p :: ps) = (node.withOwn [p]).withOwn ps := by
  have hget : ∀ (f : Fin maxPartitions → UInt32) (i : Fin maxPartitions),
      (Vector.ofFn f).get i = f i := fun _ i => Vector.getElem_ofFn i.isLt
  simp only [withOwn, lastOf_cons, lastOf_nil, hget]

theorem withProperties_cons (r : Record) (p : Bytes × Bytes) (ps : List (Bytes × Bytes)) :
    withProperties r (p :: ps) = withProperties (withProperties r [p]) ps := by
  simp only [withProperties, lastOf_cons, lastOf_nil]

section Property

variable {s : StringsBlock} {names : Names} {p : Property} {name : Bytes} {n : PropertyName}
  {offset : UInt32} {node node' : PartitionsNode} {child child' : Child}

/-- A property has the offset of a name exactly when it has the name. -/
theorem nameOffset_eq_iff (hzero : 0 ∉ name) (hfind : s.find? name = some p.nameOffset)
    (hn : s.find? n.bytes = some offset) : p.nameOffset = offset ↔ name = n.bytes := by
  constructor
  · rintro rfl
    exact StringsBlock.eq_of_find? hzero n.zero_notMem hfind hn
  · rintro rfl
    exact Option.some.inj (hfind.symm.trans hn)

theorem nameOffset_eq_linuxPhandle_iff (hnames : Names.Of s names) (hzero : 0 ∉ name)
    (hfind : s.find? name = some p.nameOffset) :
    some p.nameOffset = names.linuxPhandle ↔ name = PropertyName.linuxPhandle.bytes := by
  rw [← hnames.linuxPhandle]
  constructor
  · intro h
    exact StringsBlock.eq_of_find? hzero PropertyName.linuxPhandle.zero_notMem hfind h.symm
  · rintro rfl
    exact hfind.symm

/-- A step that takes the value of a property in, which must have this length. -/
theorem fixedValue_map_eq_ok_iff {α β : Type} {length : Nat} {value : Bytes → α} {f : α → β}
    {b : β} :
    ((fixedValue s p length).map value >>= fun a => pure (f a)) = .ok b ↔
      p.value.length = length ∧ b = f (value p.value) := by
  rw [fixedValue]
  split
  · rename_i hlen
    exact ⟨fun h => ⟨hlen, (Except.ok.inj h).symm⟩, fun h => congrArg Except.ok h.2.symm⟩
  · rename_i hlen
    exact ⟨fun h => absurd h (by simp [Except.map]), fun h => absurd h.1 hlen⟩

/-- A property of the node that is not one of the three named ones has to be a reference. -/
theorem readOwn_reference (hnames : Names.Of s names) (hzero : 0 ∉ name)
    (hfind : s.find? name = some p.nameOffset) (hparts : name ≠ PropertyName.parts.bytes)
    (hphandle : name ≠ PropertyName.phandle.bytes)
    (hlinux : name ≠ PropertyName.linuxPhandle.bytes) :
    readOwn s names node p = .ok node' ↔
      p.value.length = 4 ∧ ∃ i, IsReference name i ∧
        node' = { node with references := node.references.set i (wordOf p.value) i.isLt } := by
  rw [readOwn, Outcome.bind_eq_ok_iff]
  simp only [wordValue_eq_ok_iff, nameOffset_eq_iff hzero hfind hnames.parts,
    nameOffset_eq_iff hzero hfind hnames.phandle,
    nameOffset_eq_linuxPhandle_iff hnames hzero hfind,
    StringsBlock.nameText_of_find? hzero hfind, if_neg hparts, if_neg hphandle, if_neg hlinux,
    isReference_iff, referenceOf?_eq_some_iff]
  constructor
  · rintro ⟨value, ⟨hlen, rfl⟩, h⟩
    refine ⟨hlen, ?_⟩
    split at h
    · rename_i digits htext
      split at h
      · rename_i i hi
        exact ⟨i, ⟨digits, htext, hi⟩, (Except.ok.inj h).symm⟩
      · exact absurd h (by simp [throw, throwThe, MonadExceptOf.throw])
    · exact absurd h (by simp [throw, throwThe, MonadExceptOf.throw])
  · rintro ⟨hlen, i, ⟨digits, htext, hi⟩, rfl⟩
    refine ⟨_, ⟨hlen, rfl⟩, ?_⟩
    simp only [htext, hi]
    rfl

theorem withOwn_bytes (node : PartitionsNode) (n : PropertyName) (value : Bytes) :
    node.withOwn [(n.bytes, value)] =
      { node with
        phandle := if n = .phandle then wordOf value else node.phandle
        linuxPhandle := if n = .linuxPhandle then wordOf value else node.linuxPhandle
        declared := if n = .parts then wordOf value else node.declared } := by
  simp only [withOwn, lastOf_cons, lastOf_nil, not_isReference_bytes, if_false,
    PropertyName.bytes_injective.eq_iff, ofFn_references]

theorem withOwn_reference {i : Fin maxPartitions} (h : IsReference name i) (value : Bytes) :
    node.withOwn [(name, value)] =
      { node with references := node.references.set i (wordOf value) i.isLt } := by
  have hne : ∀ n : PropertyName, name ≠ n.bytes := by
    rintro n rfl
    exact not_isReference_bytes n i h
  have honly : ∀ j : Fin maxPartitions, IsReference name j ↔ i = j := by
    intro j
    rw [isReference_iff, isReference_iff.mp h, Option.some.injEq]
  have hset : Vector.ofFn (fun j : Fin maxPartitions =>
      if i = j then wordOf value else node.references.get j) =
        node.references.set i (wordOf value) i.isLt := by
    refine Vector.ext fun k hk => ?_
    rw [Vector.getElem_ofFn, Vector.getElem_set]
    simp only [Fin.ext_iff]
    rfl
  simp only [withOwn, lastOf_cons, lastOf_nil, hne, if_false, honly, hset]

/-- What the reader does with a property of the node itself. -/
theorem readOwn_eq_ok_iff (hnames : Names.Of s names) (hzero : 0 ∉ name)
    (hfind : s.find? name = some p.nameOffset) :
    readOwn s names node p = .ok node' ↔
      OwnAllowed (name, p.value) ∧ node' = node.withOwn [(name, p.value)] := by
  have hparts := nameOffset_eq_iff hzero hfind hnames.parts
  have hphandle := nameOffset_eq_iff hzero hfind hnames.phandle
  have hlinux := nameOffset_eq_linuxPhandle_iff hnames hzero hfind
  by_cases hname : ∃ n : PropertyName, name = n.bytes
  · -- none of the fixed names is a reference
    obtain ⟨n, rfl⟩ := hname
    simp only [PropertyName.bytes_injective.eq_iff] at hparts hphandle hlinux
    simp only [OwnAllowed, not_isReference_bytes, PropertyName.bytes_injective.eq_iff,
      withOwn_bytes]
    cases n with
    | parts | phandle | linuxPhandle =>
        simp only [readOwn, hparts, hphandle, hlinux, reduceCtorEq, if_true, if_false, true_or,
          or_true, and_true]
        exact fixedValue_map_eq_ok_iff
    | pname | size | mask =>
        rw [readOwn_reference hnames hzero hfind (by decide) (by decide) (by decide)]
        simp [not_isReference_bytes]
  · have hne : ∀ n : PropertyName, name ≠ n.bytes := fun n h => hname ⟨n, h⟩
    rw [readOwn_reference hnames hzero hfind (hne _) (hne _) (hne _)]
    simp only [OwnAllowed, hne, false_or]
    constructor
    · rintro ⟨hlen, i, hi, rfl⟩
      exact ⟨⟨hlen, i, hi⟩, (withOwn_reference hi p.value).symm⟩
    · rintro ⟨⟨hlen, i, hi⟩, rfl⟩
      exact ⟨hlen, i, hi, withOwn_reference hi p.value⟩

theorem checkPname_eq_ok_iff :
    checkPname child p = .ok () ↔
      p.value.length ≤ nameFieldLength ∧ Bytes.untilNul p.value = child.name := by
  unfold checkPname
  dsimp only
  split
  · rename_i hlong
    exact ⟨fun h => absurd h (by simp), fun h => absurd h.1 (Nat.not_le_of_lt hlong)⟩
  · rename_i hlong
    split
    · rename_i hne
      exact ⟨fun h => absurd h (by simp), fun h => absurd h.2 hne⟩
    · rename_i hsame
      exact ⟨fun _ => ⟨Nat.le_of_not_lt hlong, Decidable.not_not.mp hsame⟩, fun _ => rfl⟩

theorem withProperties_bytes (r : Record) (n : PropertyName) (value : Bytes) :
    withProperties r [(n.bytes, value)] =
      { r with
        size := if n = .size then longWordOf value else r.size
        mask := if n = .mask then wordOf value else r.mask
        phandle := if n = .phandle then wordOf value else r.phandle
        linuxPhandle := if n = .linuxPhandle then wordOf value else r.linuxPhandle } := by
  simp only [withProperties, lastOf_cons, lastOf_nil, PropertyName.bytes_injective.eq_iff]

/-- What the reader does with a property of a child. -/
theorem readChild_eq_ok_iff (hnames : Names.Of s names) (hzero : 0 ∉ name)
    (hfind : s.find? name = some p.nameOffset) :
    readChild s names child p = .ok child' ↔
      ChildAllowed child.name (name, p.value) ∧
        child' = { child with record := withProperties child.record [(name, p.value)] } := by
  have hpname := nameOffset_eq_iff hzero hfind hnames.pname
  have hsize := nameOffset_eq_iff hzero hfind hnames.size
  have hmask := nameOffset_eq_iff hzero hfind hnames.mask
  have hphandle := nameOffset_eq_iff hzero hfind hnames.phandle
  have hlinux := nameOffset_eq_linuxPhandle_iff hnames hzero hfind
  simp only [readChild, ChildAllowed, hpname, hsize, hmask, hphandle, hlinux]
  by_cases hname : ∃ n : PropertyName, name = n.bytes
  · obtain ⟨n, rfl⟩ := hname
    simp only [PropertyName.bytes_injective.eq_iff, withProperties_bytes]
    cases n with
    | parts => simp [throw, throwThe, MonadExceptOf.throw]
    | pname =>
        simp only [reduceCtorEq, if_true, if_false, true_and, false_and, or_false, or_self]
        rw [Outcome.bind_eq_ok_iff]
        constructor
        · rintro ⟨u, hcheck, h⟩
          exact ⟨checkPname_eq_ok_iff.mp hcheck, (Except.ok.inj h).symm⟩
        · rintro ⟨hcheck, rfl⟩
          exact ⟨(), checkPname_eq_ok_iff.mpr hcheck, rfl⟩
    | size | mask | phandle | linuxPhandle =>
        simp only [reduceCtorEq, if_true, if_false, true_and, false_and, or_false, or_self,
          false_or]
        exact fixedValue_map_eq_ok_iff
  · have hne : ∀ n : PropertyName, name ≠ n.bytes := fun n h => hname ⟨n, h⟩
    simp [hne, throw, throwThe, MonadExceptOf.throw]

end Property

/-! ## The reader on items -/

variable {s : StringsBlock} {names : Names} {node node' : PartitionsNode} {child : Child}
  {content : List Item} {more : List Emission} {steps : List Step} {stop : FormatError}
  {start : Nat}

/-- What may follow inside of a child that is being read. -/
structure Child.Accepts (child : Child) (content : List Item) : Prop where
  no_children : Item.children content = []
  allowed : ∀ p ∈ Item.properties content, ChildAllowed child.name p
  agree : Agree (withProperties child.record (Item.properties content)).phandle
    (withProperties child.record (Item.properties content)).linuxPhandle

theorem Child.accepts_nil :
    child.Accepts [] ↔ Agree child.record.phandle child.record.linuxPhandle :=
  ⟨fun h => h.agree, fun h => ⟨rfl, List.forall_mem_nil _, h⟩⟩

theorem Child.accepts_property {name value : Bytes} {items : List Item} :
    child.Accepts (.property name value :: items) ↔ ChildAllowed child.name (name, value) ∧
      Child.Accepts { child with record := withProperties child.record [(name, value)] } items := by
  constructor
  · intro h
    obtain ⟨hfirst, hrest⟩ := List.forall_mem_cons.mp h.allowed
    have hagree := h.agree
    rw [Item.properties, withProperties_cons] at hagree
    exact ⟨hfirst, h.no_children, hrest, hagree⟩
  · intro h
    refine ⟨h.2.no_children, List.forall_mem_cons.mpr ⟨h.1, h.2.allowed⟩, ?_⟩
    rw [Item.properties, withProperties_cons]
    exact h.2.agree

theorem Child.not_accepts_node {name : Bytes} {inner items : List Item} :
    ¬ child.Accepts (.node name inner :: items) :=
  fun h => absurd h.no_children (List.cons_ne_nil _ _)

/-- A child is well-formed when its name fits and the reader accepts what is inside. -/
theorem wellFormedChild_iff {name : Bytes} (start : Nat) :
    WellFormedChild name content ↔ name.length < nameFieldLength ∧
      Child.Accepts ⟨name, start, { name := Utf8.decodeLossy name, size := 0, mask := 0 }⟩ content :=
  ⟨fun h => ⟨h.length_lt, h.no_children, h.allowed, h.agree⟩,
    fun h => ⟨h.1, h.2.no_children, h.2.allowed, h.2.agree⟩⟩

/-- Inside a child: the reader gets to its end exactly when it accepts what is there, and has its
record then. -/
theorem readTokens_items_inside (hnames : Names.Of s names)
    (hzero : ∀ e ∈ Item.forest content, e.ZeroFree)
    (hreading : Reading s (Item.forest content ++ .endNode :: more) steps) :
    ∃ steps', (child.Accepts content → Reading s more steps') ∧
      ∀ node', readTokens stop start s names node (some child) steps = .ok node' ↔
        child.Accepts content ∧
          readTokens stop start s names
            { node with records :=
                node.records ++ [withProperties child.record (Item.properties content)] }
            none steps' = .ok node' := by
  -- on the items, while the child that is being read moves on with each property
  induction content generalizing child steps with
  | nil =>
      cases hreading with
      | @read _ _ step steps' head tail =>
          refine ⟨steps', fun _ => tail, ?_⟩
          intro node'
          rw [readTokens_endNode_inside head.eq_endNode, Child.accepts_nil]
          simp only [closeChild_eq_ok_iff, and_assoc, exists_and_left, exists_eq_left]
          rfl
  | cons item items ih =>
      cases item with
      | property name value =>
          rw [Item.forest_property] at hzero hreading
          obtain ⟨hname, hitems⟩ := List.forall_mem_cons.mp hzero
          cases hreading with
          | @read _ _ step steps head tail =>
              obtain ⟨p, htoken, hfind, rfl⟩ := head.exists_property
              obtain ⟨steps', htail, hiff⟩ := @ih
                { child with record := withProperties child.record [(name, p.value)] } steps hitems
                tail
              refine ⟨steps', fun h => htail (Child.accepts_property.mp h).2, ?_⟩
              intro node'
              rw [readTokens_property_inside htoken, Child.accepts_property, Item.properties,
                withProperties_cons child.record (name, p.value) (Item.properties items)]
              simp only [readChild_eq_ok_iff hnames hname hfind, and_assoc, exists_and_left,
                exists_eq_left, hiff]
      | node name inner =>
          -- it is refused at once, whether or not its name can be read
          refine ⟨[], fun h => absurd h Child.not_accepts_node, ?_⟩
          intro node'
          rw [Item.forest_node] at hreading
          refine iff_of_false ?_ fun h => Child.not_accepts_node h.1
          cases hreading with
          | @read _ _ step steps head tail => simp [readTokens, head.eq_beginNode]
          | unread hlong => simp [readTokens]

/-- A whole child: the reader gets behind it exactly when there is room and the child is well-formed,
and has its record then. -/
theorem readTokens_child {name : Bytes} (hnames : Names.Of s names)
    (hzero : ∀ e ∈ Item.forest content, e.ZeroFree)
    (hreading : Reading s (.beginNode name :: (Item.forest content ++ .endNode :: more)) steps) :
    ∃ steps', (WellFormedChild name content → Reading s more steps') ∧
      ∀ node', readTokens stop start s names node none steps = .ok node' ↔
        node.records.length < maxPartitions ∧ WellFormedChild name content ∧
          readTokens stop start s names
            { node with records := node.records ++ [recordOf name content] } none steps' =
              .ok node' := by
  cases hreading with
  | @read _ _ step steps head tail =>
      obtain ⟨steps', hmore, hiff⟩ := @readTokens_items_inside s names node
        ⟨name, step.stop, { name := Utf8.decodeLossy name, size := 0, mask := 0 }⟩ content
        more steps stop start hnames hzero tail
      refine ⟨steps', fun h => hmore ((wellFormedChild_iff step.stop).mp h).2, ?_⟩
      intro node'
      rw [readTokens_beginNode_own head.eq_beginNode, wellFormedChild_iff step.stop]
      simp only [openChild_eq_ok_iff, and_assoc, exists_and_left, exists_eq_left, hiff]
      rfl
  | unread hlong =>
      have hlarge : ¬ WellFormedChild name content := by
        intro h
        exact absurd (Nat.lt_of_lt_of_le h.length_lt (by decide)) (Nat.not_lt_of_le hlong)
      refine ⟨[], fun h => absurd h hlarge, ?_⟩
      intro node'
      exact iff_of_false (by simp [readTokens]) fun h => hlarge h.2.1

/-- The node after all of these items were taken in. -/
def withItems (node : PartitionsNode) (content : List Item) : PartitionsNode :=
  { node.withOwn (Item.properties content) with
    records := node.records ++ (Item.children content).map fun child => recordOf child.1 child.2 }

/-- What may follow in a node that has this many children already. -/
structure Accepts (count : Nat) (content : List Item) : Prop where
  allowed : ∀ p ∈ Item.properties content, OwnAllowed p
  length_le : count + (Item.children content).length ≤ maxPartitions
  children : ∀ child ∈ Item.children content, WellFormedChild child.1 child.2

theorem accepts_property {count : Nat} {name value : Bytes} {items : List Item} :
    Accepts count (.property name value :: items) ↔
      OwnAllowed (name, value) ∧ Accepts count items := by
  constructor
  · intro h
    obtain ⟨hfirst, hrest⟩ := List.forall_mem_cons.mp h.allowed
    exact ⟨hfirst, hrest, h.length_le, h.children⟩
  · intro h
    exact ⟨List.forall_mem_cons.mpr ⟨h.1, h.2.allowed⟩, h.2.length_le, h.2.children⟩

theorem accepts_node {count : Nat} {name : Bytes} {inner items : List Item} :
    Accepts count (.node name inner :: items) ↔
      WellFormedChild name inner ∧ Accepts (count + 1) items := by
  constructor
  · intro h
    obtain ⟨hfirst, hrest⟩ := List.forall_mem_cons.mp h.children
    have hlength := h.length_le
    rw [Item.children, List.length_cons] at hlength
    exact ⟨hfirst, h.allowed, by omega, hrest⟩
  · intro h
    have hlength := h.2.length_le
    refine ⟨h.2.allowed, ?_, List.forall_mem_cons.mpr ⟨h.1, h.2.children⟩⟩
    rw [Item.children, List.length_cons]
    omega

theorem withItems_nil (node : PartitionsNode) : node.withItems [] = node := by
  simp only [withItems, Item.properties, Item.children, withOwn_nil, List.map_nil, List.append_nil]

theorem withItems_property (node : PartitionsNode) (name value : Bytes) (items : List Item) :
    node.withItems (.property name value :: items) =
      (node.withOwn [(name, value)]).withItems items := by
  rw [withItems, withItems, Item.properties, Item.children, records_withOwn,
    withOwn_cons node (name, value) (Item.properties items)]

theorem withItems_node (node : PartitionsNode) (name : Bytes) (inner items : List Item) :
    node.withItems (.node name inner :: items) =
      { node with records := node.records ++ [recordOf name inner] }.withItems items := by
  rw [withItems, withItems, Item.properties, Item.children, List.map_cons, List.append_assoc,
    List.singleton_append]
  simp only [withOwn]

/-- Between its children: the reader gets to the end of the node exactly when it accepts what is
there, and has taken it all in then. -/
theorem readTokens_items (hnames : Names.Of s names) (hlen : node.records.length ≤ maxPartitions)
    (hzero : ∀ e ∈ Item.forest content, e.ZeroFree)
    (hreading : Reading s (Item.forest content ++ .endNode :: more) steps) :
    readTokens stop start s names node none steps = .ok node' ↔
      Accepts node.records.length content ∧ node' = node.withItems content := by
  induction content generalizing node steps with
  | nil =>
      have haccepts : Accepts node.records.length [] :=
        ⟨List.forall_mem_nil _, hlen, List.forall_mem_nil _⟩
      cases hreading with
      | @read _ _ step steps' head tail =>
          simp only [readTokens, head.eq_endNode, withItems_nil, haccepts, true_and,
            Except.ok.injEq]
          exact eq_comm
  | cons item items ih =>
      cases item with
      | property name value =>
          rw [Item.forest_property] at hzero hreading
          obtain ⟨hname, hitems⟩ := List.forall_mem_cons.mp hzero
          cases hreading with
          | @read _ _ step steps head tail =>
              obtain ⟨p, htoken, hfind, rfl⟩ := head.exists_property
              have hrest := @ih (node.withOwn [(name, p.value)]) steps
                (by rw [records_withOwn]; exact hlen) hitems tail
              rw [records_withOwn] at hrest
              rw [readTokens_property_own htoken, accepts_property, withItems_property]
              simp only [readOwn_eq_ok_iff hnames hname hfind, and_assoc, exists_and_left,
                exists_eq_left, hrest]
      | node name inner =>
          rw [Item.forest_node] at hzero hreading
          obtain ⟨-, hitems⟩ := List.forall_mem_cons.mp hzero
          obtain ⟨hinner, hitems⟩ := List.forall_mem_append.mp hitems
          obtain ⟨-, hitems⟩ := List.forall_mem_cons.mp hitems
          rw [List.cons_append, List.append_assoc, List.cons_append] at hreading
          obtain ⟨steps', hmore, hiff⟩ := readTokens_child hnames hinner hreading
          have hrest := @ih { node with records := node.records ++ [recordOf name inner] } steps'
          simp only [List.length_append, List.length_singleton] at hrest
          rw [hiff, accepts_node, withItems_node]
          constructor
          · intro h
            obtain ⟨hroom, hchild, hread⟩ := h
            obtain ⟨haccepts, hnode⟩ := (hrest hroom hitems (hmore hchild)).mp hread
            exact ⟨⟨hchild, haccepts⟩, hnode⟩
          · intro h
            obtain ⟨⟨hchild, haccepts⟩, hnode⟩ := h
            have hroom : node.records.length < maxPartitions := by
              have hlength := haccepts.length_le
              omega
            exact ⟨hroom, hchild, (hrest hroom hitems (hmore hchild)).mpr ⟨haccepts, hnode⟩⟩

/-! ## Whole trees -/

theorem exists_names_iff :
    (∃ names, Names.Of s names) ↔
      ∀ n ∈ [PropertyName.parts, .pname, .size, .mask, .phandle], ∃ offset,
        s.get? offset = some n.bytes := by
  simp only [exists_get?_iff, Option.isSome_iff_exists, List.forall_mem_cons]
  constructor
  · intro h
    obtain ⟨names, hnames⟩ := h
    exact ⟨⟨_, hnames.parts⟩, ⟨_, hnames.pname⟩, ⟨_, hnames.size⟩, ⟨_, hnames.mask⟩,
      ⟨_, hnames.phandle⟩, List.forall_mem_nil _⟩
  · intro h
    obtain ⟨⟨parts, hparts⟩, ⟨pname, hpname⟩, ⟨size, hsize⟩, ⟨mask, hmask⟩, ⟨phandle, hphandle⟩,
      -⟩ := h
    exact ⟨⟨parts, pname, size, mask, phandle, _⟩, hparts, hpname, hsize, hmask, hphandle, rfl⟩

theorem withItems_empty (content : List Item) : empty.withItems content = summary content := by
  have hzero : ∀ i : Fin maxPartitions, (Vector.replicate maxPartitions (0 : UInt32)).get i = 0 :=
    fun i => Vector.getElem_replicate i.isLt
  simp only [withItems, withOwn, empty, summary, List.nil_append, hzero]

theorem ofNat_eq_iff {k : Nat} {w : UInt32} (h : k ≤ maxPartitions) :
    UInt32.ofNat k = w ↔ w.toNat = k := by
  have hlt : k < UInt32.size := Nat.lt_of_le_of_lt h (by decide)
  rw [← UInt32.toNat_inj, UInt32.toNat_ofNat_of_lt' hlt]
  exact eq_comm

/-- **Exactly the well-formed nodes are read.** -/
theorem read_eq_ok_iff_of_reading {t : DeviceTree} {place : Node} (hplace : place.name = nodeName)
    (hzero : ∀ e ∈ Item.forest content, e.ZeroFree)
    (hreading : Reading t.stringsBlock (Item.forest content ++ .endNode :: more)
      (t.runAt place.body).steps) :
    (read t place).result = .ok node ↔
      WellFormed t.stringsBlock content ∧ node = summary content := by
  have hreads : ∀ names, Names.Of t.stringsBlock names →
      (readTokens (t.runAt place.body).failure place.start t.stringsBlock names empty none
        (t.runAt place.body).steps = .ok node ↔ Accepts 0 content ∧ node = summary content) := by
    intro names hnames
    rw [readTokens_items hnames (Nat.zero_le _) hzero hreading, withItems_empty]
    rfl
  have hlength : (summary content).records.length = (Item.children content).length :=
    List.length_map _
  rw [read_eq_ok_iff]
  constructor
  · intro h
    obtain ⟨-, names, hnames, hread, hcount⟩ := h
    obtain ⟨haccepts, rfl⟩ := (hreads names hnames).mp hread
    have hle := haccepts.length_le
    rw [Nat.zero_add] at hle
    rw [hlength, ofNat_eq_iff hle] at hcount
    exact ⟨⟨exists_names_iff.mp ⟨names, hnames⟩, haccepts.allowed, hle, haccepts.children, hcount⟩,
      rfl⟩
  · intro h
    obtain ⟨hwell, rfl⟩ := h
    obtain ⟨names, hnames⟩ := exists_names_iff.mpr hwell.named
    have haccepts : Accepts 0 content :=
      ⟨hwell.allowed, by rw [Nat.zero_add]; exact hwell.length_le, hwell.children⟩
    refine ⟨hplace, names, hnames, (hreads names hnames).mpr ⟨haccepts, rfl⟩, ?_⟩
    rw [hlength, ofNat_eq_iff hwell.length_le]
    exact hwell.counted

/-- A list of emissions with a partitions node in it: what is written in front of the node, what
stands inside it, and what is written behind it. -/
def around (front : List Emission) (content : List Item) (back : List Emission) : List Emission :=
  front ++ .beginNode nodeName :: (Item.forest content ++ .endNode :: back)

/-- **A written partitions node is read exactly when it is well-formed**, and then it says what its
summary says: one record for each child, in order, and of every property the value that it has
last. -/
theorem read_eq_ok_iff_wellFormed (base : HeaderBase) (reservations : Bytes)
    (strings : StringsBlock) (front : List Emission) (content : List Item) (back : List Emission)
    (hzero : ∀ e ∈ around front content back, e.ZeroFree)
    (hlen : (written base reservations strings (around front content back)).length <
      UInt32.size) :
    ∃ t, DeviceTree.ofBytes (written base reservations strings (around front content back)) =
        .ok t ∧
      t.stringsBlock = (emitAll strings (around front content back)).2 ∧
      ∀ place node, place.name = nodeName →
        place.body = (emitAll strings (front ++ [.beginNode nodeName])).1.length →
        ((read t place).result = .ok node ↔
          WellFormed t.stringsBlock content ∧ node = summary content) := by
  have hsplit : around front content back =
      (front ++ [.beginNode nodeName]) ++ (Item.forest content ++ .endNode :: back) := by
    rw [around, List.append_assoc, List.singleton_append]
  have hinside : ∀ e ∈ Item.forest content ++ .endNode :: back, e.ZeroFree := by
    intro e he
    apply hzero
    rw [hsplit]
    exact List.mem_append_right _ he
  rw [hsplit] at hlen ⊢
  obtain ⟨t, hopen, hstrings, hreading⟩ :=
    exists_reading base reservations strings _ _ hinside hlen
  refine ⟨t, hopen, hstrings, ?_⟩
  intro place node hname hbody
  rw [← hbody] at hreading
  exact read_eq_ok_iff_of_reading hname (List.forall_mem_append.mp hinside).1 hreading

/-- A content in which properties and children mix and several properties come again; one of the
children has a name that is no text. -/
def scattered : List Item :=
  [.property PropertyName.parts.bytes [0, 0, 0, 7],
    .property (Utf8.encode "part-+01") [0, 0, 0, 6],
    .node (Utf8.encode "boot")
      [.property PropertyName.pname.bytes (Utf8.encode "boot" ++ [0, 1]),
        .property PropertyName.phandle.bytes [0, 0, 0, 5],
        .property PropertyName.size.bytes [0, 0, 0, 0, 0, 0, 64, 0],
        .property PropertyName.mask.bytes [0, 0, 0, 4],
        .property PropertyName.linuxPhandle.bytes [0, 0, 0, 6],
        .property PropertyName.phandle.bytes [0, 0, 0, 6]],
    .property PropertyName.parts.bytes [0, 0, 0, 2],
    .node [0x61, 0xFF] []]

/-- What stands in front of it: a root, with a name that ends in `phandle`. -/
def scatteredFront : List Emission :=
  [.beginNode [], .property PropertyName.linuxPhandle.bytes [0, 0, 0, 9]]

/-- The node is the one that is looked up at its path. -/
theorem read_eq_ok_iff_wellFormed_of_scattered :
    ∃ t place node, DeviceTree.ofBytes (written {} emptyReservations ⟨[]⟩
        (around scatteredFront scattered [.endNode, .endTree])) = .ok t ∧
      locate t = .ok place ∧ (read t place).result = .ok node ∧
      node.records = [⟨"boot", 0x4000, 4, 6, 6⟩, ⟨"a\uFFFD", 0, 0, 0, 0⟩] ∧
      node.references.toList = [0, 6] ++ List.replicate 30 0 := by
  obtain ⟨t, hopen, hstrings, hread⟩ := read_eq_ok_iff_wellFormed {} emptyReservations ⟨[]⟩
    scatteredFront scattered [.endNode, .endTree] (by decide +kernel) (by decide +kernel)
  obtain ⟨place, hplace, hfacts⟩ := Outcome.exists_ok_of_any
    (x := DeviceTree.ofBytes (written {} emptyReservations ⟨[]⟩
      (around scatteredFront scattered [.endNode, .endTree])) >>= locate)
    (p := fun place => decide (place.name = nodeName ∧ place.body =
      (emitAll ⟨[]⟩ (scatteredFront ++ [.beginNode nodeName])).1.length)) (by decide +kernel)
  rw [hopen, Outcome.ok_bind] at hplace
  obtain ⟨hname, hbody⟩ := of_decide_eq_true hfacts
  have hwell : WellFormed t.stringsBlock scattered := by
    rw [hstrings]
    decide +kernel
  exact ⟨t, place, summary scattered, hopen, hplace,
    (hread place _ hname hbody).mpr ⟨hwell, rfl⟩, by decide +kernel, by decide +kernel⟩

end PartitionsNode

end EmmcLayout.DeviceTree
