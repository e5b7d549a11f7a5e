import EmmcLayout.DeviceTree.Blob
import EmmcLayout.Proofs.DeviceTree.Token
import EmmcLayout.Proofs.Outcome

/-!
# What a search depends on

A search that finds a node has read the tokens in front of it and no others.  `Leads` says of those
tokens that they bring a search to whatever child of that name comes next, and `findChild_split`
that every search that succeeds has read such tokens.  On whole trees, `findChild_of_head`: two
structure blocks that agree up to a child of the root have it at the same place.
-/

namespace EmmcLayout.DeviceTree

namespace Walk

variable {stop : FormatError} {parent : Nat} {name : Bytes} {place place' : Place}
  {steps before : List Step} {node : Node} {s : Step}

/-! ## The root -/

theorem root_split (h : root stop steps = .ok node) :
    ∃ nops s after, steps = nops ++ s :: after ∧ s.token = .beginNode node.name ∧
      s.start = node.start ∧ s.stop = node.body ∧
      ∀ stop' after', root stop' (nops ++ s :: after') = .ok node := by
  induction steps with
  | nil => exact absurd h (by simp [root])
  | cons s steps ih =>
      rw [root] at h
      cases htoken : s.token with
      | nop =>
          simp only [htoken] at h
          obtain ⟨nops, s', after, rfl, hrest⟩ := ih h
          refine ⟨s :: nops, s', after, rfl, hrest.1, hrest.2.1, hrest.2.2.1, ?_⟩
          intro stop' after'
          rw [List.cons_append, root, htoken]
          exact hrest.2.2.2 stop' after'
      | beginNode name =>
          simp only [htoken] at h
          obtain rfl := Except.ok.inj h
          refine ⟨[], s, steps, rfl, htoken, rfl, rfl, ?_⟩
          intro stop' after'
          rw [List.nil_append, root, htoken]
      | endNode => simp [htoken] at h
      | property p => simp [htoken] at h
      | endTree => simp [htoken] at h

/-! ## Children -/

/-- A search that has read these tokens finds the child of that name that comes next. -/
def Leads (parent : Nat) (name : Bytes) (place : Place) (before : List Step) : Prop :=
  ∀ (stop : FormatError) (s : Step) (after : List Step), s.token = .beginNode name →
    findChild stop parent name place (before ++ s :: after) =
      .ok (some ⟨name, s.start, s.stop⟩)

theorem Leads.nil : Leads parent name .between [] := by
  intro stop s after hs
  rw [List.nil_append, findChild, hs]
  exact if_pos rfl

theorem Leads.cons (hstep : ∀ stop rest, findChild stop parent name place (s :: rest) =
      findChild stop parent name place' rest)
    (h : Leads parent name place' before) : Leads parent name place (s :: before) := by
  intro stop s' after hs'
  rw [List.cons_append, hstep]
  exact h stop s' after hs'

/-- The search as one step: it ends with an answer, or goes on from some place. -/
theorem findChild_step (parent : Nat) (name : Bytes) (place : Place) (s : Step) :
    (∃ place', ∀ stop rest, findChild stop parent name place (s :: rest) =
        findChild stop parent name place' rest) ∨
      (place = .between ∧ s.token = .beginNode name) ∨
      ∀ stop rest node, findChild stop parent name place (s :: rest) ≠ .ok (some node) := by
  cases place with
  | between =>
      cases htoken : s.token with
      | beginNode child =>
          by_cases hchild : child = name
          · right; left
            exact ⟨rfl, by rw [hchild]⟩
          · left
            refine ⟨.inside s.stop 0, ?_⟩
            intro stop rest
            simp [findChild, htoken, hchild]
      | endNode =>
          right; right
          intro stop rest node
          simp [findChild, htoken]
      | property p =>
          left
          refine ⟨.between, ?_⟩
          intro stop rest
          simp [findChild, htoken]
      | nop =>
          left
          refine ⟨.between, ?_⟩
          intro stop rest
          simp [findChild, htoken]
      | endTree =>
          right; right
          intro stop rest node
          simp [findChild, htoken]
  | inside start depth =>
      cases htoken : s.token with
      | beginNode child =>
          left
          refine ⟨.inside start (depth + 1), ?_⟩
          intro stop rest
          simp [findChild, htoken]
      | endNode =>
          left
          cases depth with
          | zero =>
              refine ⟨.between, ?_⟩
              intro stop rest
              simp [findChild, htoken]
          | succ depth =>
              refine ⟨.inside start depth, ?_⟩
              intro stop rest
              simp [findChild, htoken]
      | property p =>
          left
          refine ⟨.inside start depth, ?_⟩
          intro stop rest
          simp [findChild, htoken]
      | nop =>
          left
          refine ⟨.inside start depth, ?_⟩
          intro stop rest
          simp [findChild, htoken]
      | endTree =>
          right; right
          intro stop rest node
          simp [findChild, htoken]

theorem findChild_split (h : findChild stop parent name place steps = .ok (some node)) :
    ∃ before s after, steps = before ++ s :: after ∧ s.token = .beginNode name ∧
      node = ⟨name, s.start, s.stop⟩ ∧ Leads parent name place before := by
  induction steps generalizing place with
  | nil =>
      cases place with
      | between => exact absurd h (by simp [findChild])
      | inside start depth => exact absurd h (by simp [findChild])
  | cons s steps ih =>
      rcases findChild_step parent name place s with ⟨place', hstep⟩ | ⟨rfl, htoken⟩ | hnever
      · rw [hstep] at h
        obtain ⟨before, s', after, rfl, htoken, hnode, hleads⟩ := ih h
        exact ⟨s :: before, s', after, rfl, htoken, hnode, hleads.cons hstep⟩
      · have hfound := (Leads.nil : Leads parent name .between []) stop s steps htoken
        rw [List.nil_append, h] at hfound
        obtain rfl := Option.some.inj (Except.ok.inj hfound)
        exact ⟨[], s, steps, rfl, htoken, rfl, .nil⟩
      · exact absurd h (hnever stop steps node)

end Walk

/-! ## On whole trees -/

theorem runAt_eq (t : DeviceTree) (offset : Nat) :
    t.runAt offset = (⟨t.structBlock.drop offset, offset⟩ : Cursor).run := rfl

/-- **A child of the root is found by what stands in front of it.**  Every tree with the same bytes
there, and a node of that name behind them, has its root and that child at the same places. -/
theorem findChild_of_head {t : DeviceTree} {root child : Node} {name : Bytes}
    (hroot : t.root = .ok root) (hchild : t.findChild root name = .ok (some child)) :
    ∃ head tail, t.structBlock = head ++ tail ∧ child.name = name ∧ child.start = head.length ∧
      head.length % 4 = 0 ∧
      ∀ (t' : DeviceTree) (a tail' : Bytes), t'.structBlock = head ++ (a ++ tail') →
        Token.Spelled head.length (.beginNode name) a →
        t'.root = .ok root ∧
          t'.findChild root name = .ok (some ⟨name, head.length, head.length + a.length⟩) := by
  obtain ⟨nops, s₀, after₀, hsteps₀, htoken₀, hstart₀, hstop₀, hroots⟩ := Walk.root_split hroot
  obtain ⟨before, s, after, hsteps, htoken, rfl, hleads⟩ := Walk.findChild_split hchild
  rw [runAt_eq, List.drop_zero] at hsteps₀
  rw [runAt_eq] at hsteps
  -- the bytes up to the root's tag, those of the tag and its name, and those up to the child
  obtain ⟨a₀, b₀, hblock, hspelled₀, hrun₀⟩ := Cursor.spelling_of_run hsteps₀
  rw [Nat.zero_add] at hrun₀
  obtain ⟨c', hnext₀, hat₀, hbody₀, -⟩ := Cursor.next_of_run hrun₀
  obtain ⟨a₂, b₂, hdrop, hspelled₂, hrun₂⟩ := Cursor.spelling_of_run hsteps
  obtain ⟨c'', -, hat, -, -⟩ := Cursor.next_of_run hrun₂
  have hfits : c'.position ≤ a₀.length + b₀.length := by
    have hmore : t.structBlock.drop root.body ≠ [] := by
      rw [hdrop]
      have hbehind : b₂ ≠ [] := by
        refine Cursor.rest_ne_nil_of_run (c := ⟨b₂, root.body + a₂.length⟩) ?_
        rw [hrun₂]
        exact List.cons_ne_nil _ _
      simp [hbehind]
    rw [ne_eq, List.drop_eq_nil_iff, hblock, List.length_append] at hmore
    omega
  obtain ⟨a₁, b₁, rfl, hspelled₁, rfl⟩ := Cursor.spelled_of_next hnext₀ hfits
  have hbody : root.body = (a₀ ++ a₁).length := by
    rw [List.length_append, ← hstop₀, hbody₀]
  rw [← List.append_assoc] at hblock
  obtain rfl : b₁ = a₂ ++ b₂ := by
    rw [← hdrop, hblock, hbody, List.drop_left]
  have hs₀ : s₀ = ⟨a₀.length, s₀.token, a₀.length + a₁.length⟩ := by
    cases s₀
    simp only at hat₀ hbody₀
    rw [hat₀, hbody₀]
  rw [hbody, List.length_append] at hspelled₂ hat
  have hhead : Spelling 0 (nops ++ s₀ :: before) (a₀ ++ (a₁ ++ a₂)) := by
    refine hspelled₀.append ?_
    rw [Nat.zero_add, hs₀]
    exact .cons hspelled₁ hspelled₂
  refine ⟨a₀ ++ (a₁ ++ a₂), b₂, ?_, rfl, ?_, ?_, ?_⟩
  · rw [hblock]
    simp only [List.append_assoc]
  · change s.start = a₀.length + a₁.length + a₂.length at hat
    show s.start = _
    rw [hat, List.length_append, List.length_append]
    omega
  · exact hhead.mod_length rfl
  · intro t' a tail' hblock' hspelled
    have hchild' := Cursor.run_of_ok (Cursor.next_of_spelled hspelled tail')
    constructor
    · have hrun := Cursor.run_of_spelling hhead (a ++ tail')
      rw [DeviceTree.root, runAt_eq, List.drop_zero, hblock', hrun, List.append_assoc]
      exact hroots _ _
    · have hdrop' : t'.structBlock.drop root.body = a₂ ++ (a ++ tail') := by
        rw [hblock', hbody]
        simp only [List.append_assoc]
        rw [← List.append_assoc, List.drop_left]
      have hrun := Cursor.run_of_spelling hspelled₂ (a ++ tail')
      have hlen : (a₀ ++ (a₁ ++ a₂)).length = a₀.length + a₁.length + a₂.length := by
        simp only [List.length_append]
        omega
      rw [hlen] at hchild' ⊢
      rw [DeviceTree.findChild, runAt_eq, hdrop', hbody, List.length_append, hrun, hchild']
      exact hleads _ _ _ rfl

end EmmcLayout.DeviceTree
