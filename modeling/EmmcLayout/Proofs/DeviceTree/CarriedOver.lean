import EmmcLayout.Proofs.DeviceTree.Reservations
import EmmcLayout.Proofs.DeviceTree.Splice

/-!
# What a replacement carries over

Two nodes of two trees are `Twins` when their contents are alike.  Twins have the same properties,
and a search below one goes as it does below the other (`Twins.descend`).  Every child of the root
but `/partitions` has a twin in the new tree, so all that lies outside of `/partitions` is carried
over: `replacePartitions_carries_over`.
-/

namespace EmmcLayout.DeviceTree

variable {t t' : DeviceTree} {node node' : Node} {name : Bytes} {steps steps' : List Step}

/-! ## Properties -/

/-- Two properties say the same: the second one has the value of the first one, and its name, if the
first one has a name at all. -/
structure SameProperty (s s' : StringsBlock) (p p' : Property) : Prop where
  nameOffset_eq : p'.nameOffset = p.nameOffset
  value_eq : p'.value = p.value
  name_eq : ∀ name, s.get? p.nameOffset = some name → s'.get? p'.nameOffset = some name

/-- Two nodes have the same name, and properties that say the same, all of them readable. -/
structure SameNode (t t' : DeviceTree) (node node' : Node) : Prop where
  name_eq : node'.name = node.name
  properties : ∃ ps ps', t.properties node = (ps, none) ∧ t'.properties node' = (ps', none) ∧
    List.Forall₂ (SameProperty t.stringsBlock t'.stringsBlock) ps ps'

/-- A list of properties ends in front of this token. -/
def Step.EndsProperties (s : Step) : Prop :=
  ∀ stop rest, Walk.properties stop (s :: rest) = ([], none)

theorem Step.endsProperties_of_beginNode {s : Step} (h : s.token = .beginNode name) :
    s.EndsProperties := by
  intro stop rest
  rw [Walk.properties, h]

theorem Step.endsProperties_of_endNode {s : Step} (h : s.token = .endNode) :
    s.EndsProperties := by
  intro stop rest
  rw [Walk.properties, h]

/-- Contents that are alike have properties that say the same. -/
theorem Walk.properties_alike {s s' : Step} {strings strings' : StringsBlock}
    (hstrings : strings.Extends strings') (h : Content steps) (halike : Alike steps steps')
    (hs : s.EndsProperties) (hs' : s'.EndsProperties) (stop stop' : FormatError)
    (rest rest' : List Step) :
    ∃ ps ps', Walk.properties stop (steps ++ s :: rest) = (ps, none) ∧
      Walk.properties stop' (steps' ++ s' :: rest') = (ps', none) ∧
      List.Forall₂ (SameProperty strings strings') ps ps' := by
  induction h generalizing steps' with
  | nil =>
      cases halike
      exact ⟨[], [], hs stop rest, hs' stop' rest', .nil⟩
  | property token tail ih =>
      cases halike with
      | cons hfirst hrest =>
          rw [token] at hfirst
          obtain ⟨p', htoken', hoffset, hvalue⟩ := hfirst.exists_property
          obtain ⟨ps, ps', hps, hps', hsame⟩ := ih hrest
          refine ⟨_ :: ps, p' :: ps', ?_, ?_, .cons ⟨hoffset, hvalue, ?_⟩ hsame⟩
          · rw [List.cons_append, Walk.properties, token]
            simp only [hps]
          · rw [List.cons_append, Walk.properties, htoken']
            simp only [hps']
          · intro name hname
            rw [hoffset]
            exact StringsBlock.get?_of_extends hstrings hname
  | nop token tail ih =>
      cases halike with
      | cons hfirst hrest =>
          rw [token] at hfirst
          obtain ⟨ps, ps', hps, hps', hsame⟩ := ih hrest
          refine ⟨ps, ps', ?_, ?_, hsame⟩
          · rw [List.cons_append, Walk.properties, token]
            exact hps
          · rw [List.cons_append, Walk.properties, hfirst.eq_nop]
            exact hps'
  | child opens body closes tail ihBody ih =>
      cases halike with
      | cons hfirst hrest =>
          rw [opens] at hfirst
          exact ⟨[], [], Step.endsProperties_of_beginNode opens stop _,
            Step.endsProperties_of_beginNode hfirst.eq_beginNode stop' _, .nil⟩

/-! ## Twins -/

/-- Two nodes of the same name whose contents are alike. -/
structure Twins (t t' : DeviceTree) (node node' : Node) : Prop where
  name_eq : node'.name = node.name
  content : ∃ inner e more inner' e' more', (t.runAt node.body).steps = inner ++ e :: more ∧
    (t'.runAt node'.body).steps = inner' ++ e' :: more' ∧ Content inner ∧ Alike inner inner' ∧
    e.token = .endNode ∧ e'.token = .endNode

theorem Twins.sameNode (h : Twins t t' node node')
    (hstrings : t.stringsBlock.Extends t'.stringsBlock) : SameNode t t' node node' := by
  obtain ⟨inner, e, more, inner', e', more', hsteps, hsteps', hinner, halike, he, he'⟩ := h.content
  refine ⟨h.name_eq, ?_⟩
  rw [properties, properties, hsteps, hsteps']
  exact Walk.properties_alike hstrings hinner halike (Step.endsProperties_of_endNode he)
    (Step.endsProperties_of_endNode he') _ _ _ _

/-- Children with contents that are alike are twins. -/
theorem Twins.of_child {offset offset' : Nat} {before before' inner inner' after after' : List Step}
    {s s' e e' : Step} (hsteps : (t.runAt offset).steps = before ++ s :: (inner ++ e :: after))
    (hsteps' : (t'.runAt offset').steps = before' ++ s' :: (inner' ++ e' :: after'))
    (hinner : Content inner) (halike : Alike inner inner') (he : e.token = .endNode)
    (he' : e'.token = .endNode) (name : Bytes) :
    Twins t t' ⟨name, s.start, s.stop⟩ ⟨name, s'.start, s'.stop⟩ :=
  ⟨rfl, inner, e, after, inner', e', after', runAt_behind hsteps, runAt_behind hsteps', hinner,
    halike, he, he'⟩

/-- What two searches find: nothing, or twins. -/
def SameFind (t t' : DeviceTree) (found found' : Except FormatError (Option Node)) : Prop :=
  (found = .ok none ∧ found' = .ok none) ∨
    ∃ node node', found = .ok (some node) ∧ found' = .ok (some node') ∧ Twins t t' node node'

/-- Searches in contents that are alike find the same. -/
theorem Walk.sameFind_of_alike {offset offset' : Nat}
    {front front' inner inner' more more' : List Step} {e e' : Step}
    (hsteps : (t.runAt offset).steps = front ++ (inner ++ e :: more))
    (hsteps' : (t'.runAt offset').steps = front' ++ (inner' ++ e' :: more'))
    (hinner : Content inner) (halike : Alike inner inner') (he : e.token = .endNode)
    (he' : e'.token = .endNode) (name : Bytes) (stop stop' : FormatError) (parent parent' : Nat) :
    SameFind t t' (Walk.findChild stop parent name .between (inner ++ e :: more))
      (Walk.findChild stop' parent' name .between (inner' ++ e' :: more')) := by
  rcases hinner.without_or_split name with hwithout |
    ⟨before, s, content, close, after, rfl, hbefore, hs, hcontent, hclose, -⟩
  · left
    rw [findChild_without hwithout, findChild_without (hwithout.alike halike),
      findChild_closed he, findChild_closed he']
    exact ⟨rfl, rfl⟩
  · right
    obtain ⟨before', back, rfl, hbefore', hback⟩ := halike.split
    obtain ⟨s', content', close', after', rfl, hs', hcontent', hclose', -⟩ := hback.split_child
    rw [hs] at hs'
    rw [hclose] at hclose'
    refine ⟨⟨name, s.start, s.stop⟩, ⟨name, s'.start, s'.stop⟩, ?_, ?_, ?_⟩
    · rw [List.append_assoc, findChild_without hbefore]
      exact findChild_opened hs _ _ _
    · rw [List.append_assoc, findChild_without (hbefore.alike hbefore')]
      exact findChild_opened hs'.eq_beginNode _ _ _
    · simp only [List.append_assoc, List.cons_append] at hsteps hsteps'
      rw [← List.append_assoc] at hsteps hsteps'
      exact Twins.of_child hsteps hsteps' hcontent hcontent' hclose hclose'.eq_endNode name

theorem Twins.findChild (h : Twins t t' node node') (name : Bytes) :
    SameFind t t' (t.findChild node name) (t'.findChild node' name) := by
  obtain ⟨inner, e, more, inner', e', more', hsteps, hsteps', hinner, halike, he, he'⟩ := h.content
  have hwhole : (t.runAt node.body).steps = [] ++ (inner ++ e :: more) := hsteps
  have hwhole' : (t'.runAt node'.body).steps = [] ++ (inner' ++ e' :: more') := hsteps'
  have hfind := Walk.sameFind_of_alike hwhole hwhole' hinner halike he he' name
    (t.runAt node.body).failure (t'.runAt node'.body).failure node.start node'.start
  rw [← hsteps, ← hsteps'] at hfind
  exact hfind

/-- **A search below one of two twins goes as it does below the other.** -/
theorem Twins.descend (h : Twins t t' node node') (names : List Bytes) :
    SameFind t t' (t.descend node names) (t'.descend node' names) := by
  induction names generalizing node node' with
  | nil => exact .inr ⟨node, node', rfl, rfl, h⟩
  | cons name names ih =>
      rw [DeviceTree.descend, DeviceTree.descend]
      rcases h.findChild name with ⟨hnone, hnone'⟩ | ⟨child, child', hchild, hchild', htwins⟩
      · left
        rw [hnone, hnone']
        exact ⟨rfl, rfl⟩
      · rw [hchild, hchild']
        exact ih htwins

/-! ## Around the new node -/

open PartitionsNode

namespace Rewrite

variable {w : Rewrite} {names : PhandleCensus.Names} {root : Node} {old new : Cut}
  {b : Bytes} {records : List Record}

/-- The other children of the root have twins in the new tree. -/
theorem Splice.findChild (h : w.Splice names root old new) (hname : name ≠ nodeName) :
    SameFind w.tree w.newTree (w.tree.findChild root name) (w.newTree.findChild root name) := by
  rw [DeviceTree.findChild, DeviceTree.findChild]
  have hold := h.steps_old
  have hnew := h.steps_new
  rw [Cut.steps] at hold hnew
  rw [h.front] at hnew
  rcases h.around_old.front.content.without_or_split name with hwithout |
    ⟨before, s, content, close, after, hfront, hbefore, hs, hcontent, hclose, -⟩
  · -- it stands behind the partitions node, if there is one
    have hbehind : (w.tree.runAt root.body).steps =
        (old.front ++ old.opens :: (old.inner ++ [old.closes])) ++
          (old.back ++ old.last :: old.more) := by
      rw [hold]
      simp only [List.append_assoc, List.cons_append, List.nil_append]
    have hbehind' : (w.newTree.runAt root.body).steps =
        (old.front ++ new.opens :: (new.inner ++ [new.closes])) ++
          (new.back ++ new.last :: new.more) := by
      rw [hnew]
      simp only [List.append_assoc, List.cons_append, List.nil_append]
    have hback := Walk.sameFind_of_alike hbehind hbehind' h.around_old.back h.back
      h.around_old.last h.around_new.last name (w.tree.runAt root.body).failure
      (w.newTree.runAt root.body).failure root.start root.start
    rw [hold, hnew, Walk.findChild_without hwithout, Walk.findChild_without hwithout,
      Walk.findChild_child h.around_old.opens hname.symm h.around_old.inner h.around_old.closes,
      Walk.findChild_child h.around_new.opens hname.symm h.around_new.inner h.around_new.closes]
    exact hback
  · right
    rw [hfront] at hold hnew
    refine ⟨⟨name, s.start, s.stop⟩, ⟨name, s.start, s.stop⟩, ?_, ?_, ?_⟩
    · rw [hold, List.append_assoc, Walk.findChild_without hbefore]
      exact Walk.findChild_opened hs _ _ _
    · rw [hnew, List.append_assoc, Walk.findChild_without hbefore]
      exact Walk.findChild_opened hs _ _ _
    · simp only [List.append_assoc, List.cons_append] at hold hnew
      exact Twins.of_child hold hnew hcontent (.refl content) hclose hclose name

/-- The root keeps its properties, since the partitions node stands behind them. -/
theorem Splice.sameNode_root (h : w.Splice names root old new) (hw : w.Of b records) :
    SameNode w.tree w.newTree root root := by
  refine ⟨rfl, ?_⟩
  rw [properties, properties, h.steps_old, h.steps_new, Cut.steps, Cut.steps, h.front]
  exact Walk.properties_alike hw.extends_strings h.around_old.front.content (.refl old.front)
    (Step.endsProperties_of_beginNode h.around_old.opens)
    (Step.endsProperties_of_beginNode h.around_new.opens) _ _ _ _

/-- **Every node outside of the partitions node is found in the new tree as it was in the old
one.** -/
theorem Splice.findNode (h : w.Splice names root old new) (hw : w.Of b records) {path : String}
    (habsolute : path.toList.head? = some '/')
    (hpath : (pathNames path).head? ≠ some nodeName) :
    (w.tree.findNode path = .ok none ∧ w.newTree.findNode path = .ok none) ∨
      ∃ node node', w.tree.findNode path = .ok (some node) ∧
        w.newTree.findNode path = .ok (some node') ∧ SameNode w.tree w.newTree node node' := by
  rw [DeviceTree.findNode, DeviceTree.findNode, if_pos habsolute, if_pos habsolute,
    h.survey.root_eq, h.root_eq]
  simp only [Outcome.ok_bind]
  cases hnames : pathNames path with
  | nil => exact .inr ⟨root, root, rfl, rfl, h.sameNode_root hw⟩
  | cons name rest =>
      rw [hnames, List.head?_cons] at hpath
      have hname : name ≠ nodeName := fun heq => hpath (congrArg some heq)
      rw [DeviceTree.descend, DeviceTree.descend]
      rcases h.findChild hname with ⟨hnone, hnone'⟩ | ⟨child, child', hchild, hchild', htwins⟩
      · left
        rw [hnone, hnone']
        exact ⟨rfl, rfl⟩
      · rw [hchild, hchild']
        rcases htwins.descend rest with hnothing | ⟨node, node', hnode, hnode', hsame⟩
        · exact .inl hnothing
        · exact .inr ⟨node, node', hnode, hnode', hsame.sameNode hw.extends_strings⟩

end Rewrite

/-- The reservations of the old tree are those of the new one. -/
theorem Rewrite.Of.reservationBlock {w : Rewrite} {b : Bytes} {records : List Record}
    (hw : w.Of b records) : w.newTree.reservationBlock = .ok w.reservations := by
  have hreservations := (reservationBlock_eq_ok_iff.mp hw.reserved).1
  exact reservationBlock_eq_ok_iff.mpr
    ⟨hreservations, reservations_prefix_assemble hreservations _ _ _⟩

/-! ## The whole -/

/-- **Everything outside of the partitions node is carried over.**  A path that does not go there
leads to nothing in the new tree if it led to nothing in the old one, and else to a node that says
the same; the reservations and the boot CPU stay as they are. -/
theorem replacePartitions_carries_over {b : Bytes} {records : List Record} {r : Replaced}
    (hnames : ∀ x ∈ records, 0 ∉ Utf8.encode x.name)
    (h : (replacePartitions b records).result = .ok r)
    (hlen : r.bytes.length < UInt32.size) :
    ∃ old new, DeviceTree.ofBytes b = .ok old ∧ DeviceTree.ofBytes r.bytes = .ok new ∧
      (∀ path : String, path.toList.head? = some '/' → (pathNames path).head? ≠ some nodeName →
        (old.findNode path = .ok none ∧ new.findNode path = .ok none) ∨
          ∃ node node', old.findNode path = .ok (some node) ∧
            new.findNode path = .ok (some node') ∧ SameNode old new node node') ∧
      (∃ reservations, old.reservationBlock = .ok reservations ∧
        new.reservationBlock = .ok reservations) ∧
      new.header.bootCpu = old.header.bootCpu := by
  obtain ⟨w, hw, rfl⟩ := replacePartitions_eq_ok_iff.mp h
  obtain ⟨names, root, old, new, hsplice⟩ := hw.exists_splice hnames hlen
  exact ⟨w.tree, w.newTree, hw.opened, Rewrite.ofBytes_bytes hlen,
    fun path habsolute hpath => hsplice.findNode hw habsolute hpath,
    ⟨w.reservations, hw.reserved, hw.reservationBlock⟩, rfl⟩

/-- A tree with nodes and phandles on either side of its partitions node. -/
def boardTree : Bytes :=
  let written := emitAll ⟨[]⟩
    ([.beginNode [], .beginNode (Utf8.encode "chosen"),
        .text (Utf8.encode "bootargs") (Utf8.encode "ro"), .endNode] ++
      emissions empty false [⟨"boot", 0x1000, 1, 7, 0⟩] ++
      [.beginNode (Utf8.encode "soc"), .word PropertyName.phandle.bytes 1,
        .beginNode (Utf8.encode "uart"), .text (Utf8.encode "status") (Utf8.encode "okay"),
        .word PropertyName.phandle.bytes 3, .endNode, .endNode, .endNode, .endTree])
  assemble {} emptyReservations written.1 written.2.bytes

theorem replacePartitions_carries_over_of_boardTree :
    ∃ r old new node node', (replacePartitions boardTree
        [⟨"system", 0x2000, 4, 0, 0⟩, ⟨"data", autofillSize, 4, 0, 0⟩]).result = .ok r ∧
      DeviceTree.ofBytes boardTree = .ok old ∧ DeviceTree.ofBytes r.bytes = .ok new ∧
      old.findNode "/soc/uart" = .ok (some node) ∧ new.findNode "/soc/uart" = .ok (some node') ∧
      SameNode old new node node' := by
  obtain ⟨r, hr, hlen⟩ := Outcome.exists_ok_of_any (x := (replacePartitions boardTree
      [⟨"system", 0x2000, 4, 0, 0⟩, ⟨"data", autofillSize, 4, 0, 0⟩]).result)
    (p := fun r => decide (r.bytes.length < UInt32.size)) (by decide +kernel)
  obtain ⟨old, new, hold, hnew, hpaths, -, -⟩ :=
    replacePartitions_carries_over (by decide) hr (of_decide_eq_true hlen)
  have hfound : (DeviceTree.ofBytes boardTree >>= (·.findNode "/soc/uart")).toOption.any
      Option.isSome = true := by decide +kernel
  rw [hold, Outcome.ok_bind] at hfound
  rcases hpaths "/soc/uart" (by decide) (by decide +kernel) with
    ⟨hnone, -⟩ | ⟨node, node', hnode, hnode', hsame⟩
  · rw [hnone] at hfound
    exact absurd hfound (by decide)
  · exact ⟨r, old, new, node, node', hr, hold, hnew, hnode, hnode', hsame⟩

end EmmcLayout.DeviceTree
