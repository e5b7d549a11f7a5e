import EmmcLayout.Proofs.DeviceTree.CarriedOver
import EmmcLayout.Proofs.DeviceTree.ReadBack

/-!
# Nodes as trees

`Tree` is a device tree as it is meant: nodes with properties and children, and no offsets.  It is
written node by node (`Tree.emissions`), and its nodes are looked up by the names along a path
(`Tree.lookup`).

What is written for a list of trees is a content (`Tree.renders_forest`), and one that a search for
a name passes over when none of the trees has that name (`Tree.avoids_forest`).
-/

namespace EmmcLayout.DeviceTree

/-- A node with its properties, each a name and a value, and its children. -/
inductive Tree
  | node (name : Bytes) (properties : List (Bytes × Bytes)) (children : List Tree)

namespace Tree

/-- The name of a node. -/
def name : Tree → Bytes
  | node name _ _ => name

/-- The properties of a node. -/
def properties : Tree → List (Bytes × Bytes)
  | node _ properties _ => properties

/-- The children of a node. -/
def children : Tree → List Tree
  | node _ _ children => children

/-- The properties of a node as they are written. -/
def own (properties : List (Bytes × Bytes)) : List Emission :=
  properties.map fun p => .property p.1 p.2

mutual

/-- A node as it is written: its name, its properties, its children and its end. -/
def emissions : Tree → List Emission
  | node name properties children =>
    .beginNode name :: (own properties ++ (forest children ++ [.endNode]))

/-- Nodes written one after the other. -/
def forest : List Tree → List Emission
  | [] => []
  | tree :: trees => tree.emissions ++ forest trees

end

/-- A tree that can be written. -/
def Legal (tree : Tree) : Prop :=
  ∀ e ∈ tree.emissions, e.Legal

instance : DecidablePred Legal := fun tree =>
  inferInstanceAs (Decidable (∀ e ∈ tree.emissions, e.Legal))

/-- The first child of this name. -/
def child? (tree : Tree) (name : Bytes) : Option Tree :=
  tree.children.find? (·.name = name)

/-- The children in front of the first one of this name. -/
def elder (tree : Tree) (name : Bytes) : List Tree :=
  tree.children.takeWhile (·.name ≠ name)

/-- Goes down from a node along the names of children. -/
def lookup (tree : Tree) : List Bytes → Option Tree
  | [] => some tree
  | name :: names =>
    match tree.child? name with
    | none => none
    | some child => child.lookup names

/-- What is written between the start of a node and the start of the one that is found below it. -/
def before (tree : Tree) : List Bytes → List Emission
  | [] => []
  | name :: names =>
    .beginNode tree.name :: (own tree.properties ++ forest (tree.elder name)) ++
      match tree.child? name with
      | none => []
      | some child => child.before names

/-- A whole device tree around these nodes, in which the names go behind those in `strings`. -/
def blob (tree : Tree) (base : HeaderBase) (reservations : Bytes) (strings : StringsBlock) : Bytes :=
  let written := emitAll strings (tree.emissions ++ [.endTree])
  assemble base reservations written.1 written.2.bytes

theorem emissions_eq (tree : Tree) :
    tree.emissions =
      .beginNode tree.name :: (own tree.properties ++ (forest tree.children ++ [.endNode])) := by
  cases tree
  rfl

theorem forest_append (trees trees' : List Tree) :
    forest (trees ++ trees') = forest trees ++ forest trees' := by
  induction trees with
  | nil => rfl
  | cons tree trees ih => rw [List.cons_append, forest, forest, ih, List.append_assoc]

/-- The first child of a name has its elders in front of it, and none of them has the name. -/
theorem children_of_child? {tree child : Tree} {name : Bytes} (h : tree.child? name = some child) :
    child.name = name ∧ (∀ elder ∈ tree.elder name, elder.name ≠ name) ∧
      ∃ younger, tree.children = tree.elder name ++ child :: younger := by
  obtain ⟨hname, elders, younger, hchildren, helders⟩ := List.find?_eq_some_iff_append.mp h
  have hchild : child.name = name := of_decide_eq_true hname
  have hnone : ∀ elder ∈ elders, elder.name ≠ name := by
    intro elder helder
    simpa using helders elder helder
  have htake : tree.elder name = elders := by
    rw [elder, hchildren, List.takeWhile_append_of_pos fun elder helder =>
      decide_eq_true (hnone elder helder), List.takeWhile_cons_of_neg (by simpa using hchild),
      List.append_nil]
  rw [htake]
  exact ⟨hchild, hnone, younger, hchildren⟩

theorem name_ne_of_child? {tree : Tree} {name : Bytes} (h : tree.child? name = none) :
    ∀ child ∈ tree.children, child.name ≠ name := by
  intro child hchild
  simpa using List.find?_eq_none.mp h child hchild

end Tree

/-! ## Contents -/

variable {s : StringsBlock} {name : Bytes} {es es' : List Emission} {steps steps' : List Step}
  {t : Token} {e : Emission}

theorem Without.append (h : Without name steps) (h' : Without name steps') :
    Without name (steps ++ steps') := by
  induction h with
  | nil => exact h'
  | property token tail ih => exact .property token ih
  | nop token tail ih => exact .nop token ih
  | child opens differs body closes tail ih =>
      rw [List.cons_append, List.append_assoc, List.cons_append]
      exact .child opens differs body closes ih

theorem Emission.ReadsAs.exists_property {value : Bytes}
    (h : (Emission.property name value).ReadsAs s t) :
    ∃ p, t = .property p ∧ s.find? name = some p.nameOffset ∧ p.value = value := by
  cases h with
  | property hname => exact ⟨_, rfl, hname, rfl⟩

theorem Emission.ReadsAs.eq_beginNode (h : (Emission.beginNode name).ReadsAs s t) :
    t = .beginNode name := by
  cases h
  rfl

theorem Emission.ReadsAs.eq_endNode (h : Emission.endNode.ReadsAs s t) : t = .endNode := by
  cases h
  rfl

/-- The tokens of these emissions are a content without a child of this name. -/
def Emission.Avoids (s : StringsBlock) (name : Bytes) (es : List Emission) : Prop :=
  ∀ steps : List Step, List.Forall₂ (fun e step => e.ReadsAs s step.token) es steps →
    Without name steps

namespace Tree

open PartitionsNode (forall₂_split)

theorem renders_own (s : StringsBlock) (properties : List (Bytes × Bytes)) :
    Emission.Renders s (own properties) := by
  apply Emission.renders_properties
  intro e he
  obtain ⟨p, -, rfl⟩ := List.mem_map.mp he
  exact ⟨p.1, p.2, rfl⟩

mutual

theorem renders_emissions (s : StringsBlock) : ∀ tree : Tree, Emission.Renders s tree.emissions
  | node name properties children => by
      have hbody : Emission.Renders s (own properties ++ forest children) :=
        (renders_own s properties).append (renders_forest s children)
      have hnode := hbody.child name
      rw [List.append_assoc] at hnode
      exact hnode

theorem renders_forest (s : StringsBlock) : ∀ trees : List Tree, Emission.Renders s (forest trees)
  | [] => .nil
  | tree :: trees => (renders_emissions s tree).append (renders_forest s trees)

end

theorem avoids_own (s : StringsBlock) (name : Bytes) (properties : List (Bytes × Bytes)) :
    Emission.Avoids s name (own properties) := by
  intro steps h
  induction properties generalizing steps with
  | nil =>
      cases h
      exact .nil
  | cons p properties ih =>
      cases h with
      | cons hfirst hrest =>
          obtain ⟨p', hp', -, -⟩ := hfirst.exists_property
          exact .property hp' (ih _ hrest)

/-- A node that is called otherwise is passed over. -/
theorem avoids_emissions (s : StringsBlock) {tree : Tree} (hname : tree.name ≠ name) :
    Emission.Avoids s name tree.emissions := by
  intro steps h
  rw [emissions_eq, ← List.append_assoc] at h
  cases h with
  | cons hopens hbody =>
      obtain ⟨inner, ends, rfl, hinner, hends⟩ := forall₂_split hbody
      cases hends with
      | cons hcloses hnil =>
          cases hnil
          have hcontent := (renders_own s tree.properties).append (renders_forest s tree.children)
          exact .child hopens.eq_beginNode hname (hcontent inner hinner) hcloses.eq_endNode .nil

theorem avoids_forest (s : StringsBlock) {trees : List Tree}
    (hnames : ∀ tree ∈ trees, tree.name ≠ name) : Emission.Avoids s name (forest trees) := by
  induction trees with
  | nil =>
      intro steps h
      cases h
      exact .nil
  | cons tree trees ih =>
      intro steps h
      obtain ⟨htree, htrees⟩ := List.forall_mem_cons.mp hnames
      obtain ⟨steps₁, steps₂, rfl, h₁, h₂⟩ := forall₂_split h
      exact (avoids_emissions s htree steps₁ h₁).append (ih htrees steps₂ h₂)

/-- Properties, and nodes that are called otherwise. -/
theorem avoids_content (s : StringsBlock) (properties : List (Bytes × Bytes)) {trees : List Tree}
    (hnames : ∀ tree ∈ trees, tree.name ≠ name) :
    Emission.Avoids s name (own properties ++ forest trees) := by
  intro steps h
  obtain ⟨steps₁, steps₂, rfl, h₁, h₂⟩ := forall₂_split h
  exact (avoids_own s name properties steps₁ h₁).append (avoids_forest s hnames steps₂ h₂)

end Tree

end EmmcLayout.DeviceTree
