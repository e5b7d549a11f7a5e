import EmmcLayout.Proofs.DeviceTree.Walk
import EmmcLayout.Proofs.DeviceTree.Partitions

/-!
# The content of a node

Between the name of a node and its end stand properties, paddings and children, which are closed
again.  `Content` is the grammar of such tokens.  Every walker is known by what it does with a
content: `skip_content` and `findChild_inside` pass over it, and `Content.without_or_split` says
which child a search finds in it.

Two runs of tokens are `Alike` when they say the same at different places.  What a walker does with
a content it does with every content alike to it.
-/

namespace EmmcLayout.DeviceTree

/-! ## The grammar -/

/-- The tokens between the name of a node and its end. -/
inductive Content : List Step → Prop
  | nil : Content []
  | property {s : Step} {p : Property} {rest : List Step} (token : s.token = .property p)
      (tail : Content rest) : Content (s :: rest)
  | nop {s : Step} {rest : List Step} (token : s.token = .nop) (tail : Content rest) :
      Content (s :: rest)
  | child {s e : Step} {name : Bytes} {inner rest : List Step} (opens : s.token = .beginNode name)
      (body : Content inner) (closes : e.token = .endNode) (tail : Content rest) :
      Content (s :: (inner ++ e :: rest))

/-- The content of a node that has no child of this name. -/
inductive Without (name : Bytes) : List Step → Prop
  | nil : Without name []
  | property {s : Step} {p : Property} {rest : List Step} (token : s.token = .property p)
      (tail : Without name rest) : Without name (s :: rest)
  | nop {s : Step} {rest : List Step} (token : s.token = .nop) (tail : Without name rest) :
      Without name (s :: rest)
  | child {s e : Step} {other : Bytes} {inner rest : List Step}
      (opens : s.token = .beginNode other) (differs : other ≠ name) (body : Content inner)
      (closes : e.token = .endNode) (tail : Without name rest) :
      Without name (s :: (inner ++ e :: rest))

variable {stop stop' : FormatError} {parent parent' start depth : Nat} {name : Bytes}
  {steps steps' inner rest : List Step} {s e : Step}

theorem Content.append (h : Content steps) (h' : Content steps') : Content (steps ++ steps') := by
  induction h with
  | nil => exact h'
  | property token tail ih => exact .property token ih
  | nop token tail ih => exact .nop token ih
  | child opens body closes tail ihBody ih =>
      rw [List.cons_append, List.append_assoc, List.cons_append]
      exact .child opens body closes ih

theorem Without.content (h : Without name steps) : Content steps := by
  induction h with
  | nil => exact .nil
  | property token tail ih => exact .property token ih
  | nop token tail ih => exact .nop token ih
  | child opens differs body closes tail ih => exact .child opens body closes ih

/-- The first child of a name, with what stands in front of it, in it and behind it. -/
theorem Content.without_or_split (h : Content steps) (name : Bytes) :
    Without name steps ∨
      ∃ before s inner e after, steps = before ++ s :: (inner ++ e :: after) ∧
        Without name before ∧ s.token = .beginNode name ∧ Content inner ∧ e.token = .endNode ∧
        Content after := by
  induction h with
  | nil => exact .inl .nil
  | @property s p rest token tail ih =>
      rcases ih with hrest | ⟨before, s', inner, e, after, rfl, hbefore, hrest⟩
      · exact .inl (.property token hrest)
      · exact .inr ⟨s :: before, s', inner, e, after, rfl, .property token hbefore, hrest⟩
  | @nop s rest token tail ih =>
      rcases ih with hrest | ⟨before, s', inner, e, after, rfl, hbefore, hrest⟩
      · exact .inl (.nop token hrest)
      · exact .inr ⟨s :: before, s', inner, e, after, rfl, .nop token hbefore, hrest⟩
  | @child s e other inner rest opens body closes tail ihBody ih =>
      by_cases hname : other = name
      · subst hname
        exact .inr ⟨[], s, inner, e, rest, rfl, .nil, opens, body, closes, tail⟩
      · rcases ih with hrest | ⟨before, s', inner', e', after, rfl, hbefore, hrest⟩
        · exact .inl (.child opens hname body closes hrest)
        · refine .inr ⟨s :: (inner ++ e :: before), s', inner', e', after, ?_,
            .child opens hname body closes hbefore, hrest⟩
          simp

/-! ## Walking over a content -/

namespace Walk

theorem skip_content (h : Content steps) (halt : Halt) (start depth : Nat) (rest : List Step) :
    skip halt start depth (steps ++ rest) = skip halt start depth rest := by
  induction h generalizing depth rest with
  | nil => rfl
  | property token tail ih => simp only [List.cons_append, skip, token, ih]
  | nop token tail ih => simp only [List.cons_append, skip, token, ih]
  | child opens body closes tail ihBody ih =>
      simp only [List.cons_append, List.append_assoc, skip, opens, ihBody, closes, ih]

theorem findChild_inside (h : Content steps) (stop : FormatError) (parent : Nat) (name : Bytes)
    (start depth : Nat) (rest : List Step) :
    findChild stop parent name (.inside start depth) (steps ++ rest) =
      findChild stop parent name (.inside start depth) rest := by
  induction h generalizing depth rest with
  | nil => rfl
  | property token tail ih => simp only [List.cons_append, findChild, token, ih]
  | nop token tail ih => simp only [List.cons_append, findChild, token, ih]
  | child opens body closes tail ihBody ih =>
      simp only [List.cons_append, List.append_assoc, findChild, opens, ihBody, closes, ih]

/-- A whole child of another name is passed over. -/
theorem findChild_child {other : Bytes} (opens : s.token = .beginNode other)
    (differs : other ≠ name) (body : Content inner) (closes : e.token = .endNode)
    (stop : FormatError) (parent : Nat) (rest : List Step) :
    findChild stop parent name .between (s :: (inner ++ e :: rest)) =
      findChild stop parent name .between rest := by
  simp only [findChild, opens, differs, if_false, findChild_inside body, closes]

theorem findChild_without (h : Without name steps) (stop : FormatError) (parent : Nat)
    (rest : List Step) :
    findChild stop parent name .between (steps ++ rest) =
      findChild stop parent name .between rest := by
  induction h with
  | nil => rfl
  | property token tail ih => simp only [List.cons_append, findChild, token, ih]
  | nop token tail ih => simp only [List.cons_append, findChild, token, ih]
  | child opens differs body closes tail ih =>
      rw [List.cons_append, List.append_assoc, List.cons_append,
        findChild_child opens differs body closes, ih]

theorem findChild_opened (h : s.token = .beginNode name) (stop : FormatError) (parent : Nat)
    (rest : List Step) :
    findChild stop parent name .between (s :: rest) = .ok (some ⟨name, s.start, s.stop⟩) := by
  simp only [findChild, h, if_true]

theorem findChild_closed (h : e.token = .endNode) (stop : FormatError) (parent : Nat)
    (rest : List Step) : findChild stop parent name .between (e :: rest) = .ok none := by
  simp only [findChild, h]

end Walk

/-! ## Tokens that say the same -/

/-- Two tokens that say the same; only the offset of a property may differ. -/
inductive Token.Alike : Token → Token → Prop
  | beginNode {name : Bytes} : Alike (.beginNode name) (.beginNode name)
  | endNode : Alike .endNode .endNode
  | property {offset offset' : Nat} {nameOffset : UInt32} {value : Bytes} :
      Alike (.property ⟨offset, nameOffset, value⟩) (.property ⟨offset', nameOffset, value⟩)
  | nop : Alike .nop .nop
  | endTree : Alike .endTree .endTree

theorem Token.Alike.refl (t : Token) : t.Alike t := by
  cases t with
  | beginNode name => exact .beginNode
  | endNode => exact .endNode
  | property p => exact .property
  | nop => exact .nop
  | endTree => exact .endTree

theorem Token.Alike.symm {t t' : Token} (h : t.Alike t') : t'.Alike t := by
  cases h with
  | beginNode => exact .beginNode
  | endNode => exact .endNode
  | property => exact .property
  | nop => exact .nop
  | endTree => exact .endTree

/-- Two runs of tokens that say the same. -/
def Alike (steps steps' : List Step) : Prop :=
  List.Forall₂ (fun s s' : Step => s.token.Alike s'.token) steps steps'

theorem Alike.refl (steps : List Step) : Alike steps steps :=
  List.forall₂_same.mpr fun s _ => Token.Alike.refl s.token

theorem Alike.split (h : Alike (steps ++ rest) steps') :
    ∃ front back, steps' = front ++ back ∧ Alike steps front ∧ Alike rest back :=
  PartitionsNode.forall₂_split h

/-- A child has its tag, its content and its end in every run alike. -/
theorem Alike.split_child (h : Alike (s :: (inner ++ e :: rest)) steps') :
    ∃ s' inner' e' rest', steps' = s' :: (inner' ++ e' :: rest') ∧ s.token.Alike s'.token ∧
      Alike inner inner' ∧ e.token.Alike e'.token ∧ Alike rest rest' := by
  cases h with
  | cons hs h =>
      obtain ⟨inner', back, rfl, hinner, hback⟩ := Alike.split h
      cases hback with
      | cons he hrest => exact ⟨_, inner', _, _, rfl, hs, hinner, he, hrest⟩

theorem Token.Alike.eq_beginNode {t : Token} (h : (Token.beginNode name).Alike t) :
    t = .beginNode name := by
  cases h
  rfl

theorem Token.Alike.eq_endNode {t : Token} (h : Token.endNode.Alike t) : t = .endNode := by
  cases h
  rfl

theorem Token.Alike.eq_nop {t : Token} (h : Token.nop.Alike t) : t = .nop := by
  cases h
  rfl

theorem Token.Alike.exists_property {p : Property} {t : Token} (h : (Token.property p).Alike t) :
    ∃ p', t = .property p' ∧ p'.nameOffset = p.nameOffset ∧ p'.value = p.value := by
  cases h
  exact ⟨_, rfl, rfl, rfl⟩

theorem Content.alike (h : Content steps) (halike : Alike steps steps') : Content steps' := by
  induction h generalizing steps' with
  | nil =>
      cases halike
      exact .nil
  | property token tail ih =>
      cases halike with
      | cons hs hrest =>
          rw [token] at hs
          obtain ⟨p', hp', -, -⟩ := hs.exists_property
          exact .property hp' (ih hrest)
  | nop token tail ih =>
      cases halike with
      | cons hs hrest =>
          rw [token] at hs
          exact .nop hs.eq_nop (ih hrest)
  | child opens body closes tail ihBody ih =>
      obtain ⟨s', inner', e', rest', rfl, hs, hinner, he, hrest⟩ := halike.split_child
      rw [opens] at hs
      rw [closes] at he
      exact .child hs.eq_beginNode (ihBody hinner) he.eq_endNode (ih hrest)

theorem Without.alike (h : Without name steps) (halike : Alike steps steps') :
    Without name steps' := by
  induction h generalizing steps' with
  | nil =>
      cases halike
      exact .nil
  | property token tail ih =>
      cases halike with
      | cons hs hrest =>
          rw [token] at hs
          obtain ⟨p', hp', -, -⟩ := hs.exists_property
          exact .property hp' (ih hrest)
  | nop token tail ih =>
      cases halike with
      | cons hs hrest =>
          rw [token] at hs
          exact .nop hs.eq_nop (ih hrest)
  | child opens differs body closes tail ih =>
      obtain ⟨s', inner', e', rest', rfl, hs, hinner, he, hrest⟩ := halike.split_child
      rw [opens] at hs
      rw [closes] at he
      exact .child hs.eq_beginNode differs (body.alike hinner) he.eq_endNode (ih hrest)

end EmmcLayout.DeviceTree
