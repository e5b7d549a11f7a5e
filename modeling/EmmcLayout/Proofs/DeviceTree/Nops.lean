import EmmcLayout.Proofs.DeviceTree.Blob
import EmmcLayout.Proofs.DeviceTree.Declarations
import EmmcLayout.Proofs.DeviceTree.Run

/-!
# Paddings between tokens

A NOP is a token that says nothing.  `WithNops b b'` says that the block `b'` is `b` with NOPs put
in between its tokens.  They shift all that stands behind them, so that the runs of the two blocks
differ in every offset, and all that is left in common is `AlikeButNops` (`run_withNops`).

That is enough for the walks.  None of them acts on a NOP (`Walk.root_nop`, `Walk.findChild_nop`,
`PartitionsNode.readTokens_nop`, `PhandleCensus.sweep_nop`), and an offset goes into nothing but
failures and the places of nodes, from which the walks go on in runs that are alike again (`Meet`).
So NOPs change neither the partitions nor the phandles that are read: `nops_invisible`.
-/

namespace EmmcLayout.DeviceTree

variable {t t' : DeviceTree} {pos pos' : Nat} {token : Token} {a b b' : Bytes} {s s' : Step}
  {steps steps' : List Step} {stop : FormatError} {node node' : Node}

/-! ## Blocks -/

/-- The second block is the first one with NOPs in front of some of its tokens, or behind them. -/
inductive WithNops : Bytes → Bytes → Prop
  | rest (b : Bytes) : WithNops b b
  | nop {b b' : Bytes} (tail : WithNops b b') : WithNops b (Bytes.be32 Tag.nop.word ++ b')
  | token {pos : Nat} {t : Token} {a b b' : Bytes} (aligned : pos % 4 = 0)
      (spelled : t.Spelled pos a) (tail : WithNops b b') : WithNops (a ++ b) (a ++ b')

/-- NOPs may stand behind any run of tokens. -/
theorem Spelling.withNops (h : Spelling pos steps a) (hpos : pos % 4 = 0)
    (htail : WithNops b b') : WithNops (a ++ b) (a ++ b') := by
  induction h with
  | nil => exact htail
  | cons head tail ih =>
      have hmod := head.mod_length hpos
      rw [List.append_assoc, List.append_assoc]
      exact .token hpos head (ih (by omega))

/-- A token is spelled alike at every place of the same alignment. -/
theorem Token.Spelled.moved (h : token.Spelled pos a) (hmod : pos % 4 = pos' % 4) :
    ∃ token', token.Alike token' ∧ token'.Spelled pos' a := by
  cases h with
  | beginNode hname hlen hpad =>
      exact ⟨_, .beginNode, .beginNode hname hlen (by unfold Bytes.align4 at hpad ⊢; omega)⟩
  | endNode => exact ⟨_, .endNode, .endNode⟩
  | property hlen hpad =>
      exact ⟨_, .property, .property hlen (by unfold Bytes.align4 at hpad ⊢; omega)⟩
  | nop => exact ⟨_, .nop, .nop⟩
  | endTree => exact ⟨_, .endTree, .endTree⟩

/-! ## Runs -/

/-- Two runs of tokens that say the same once the NOPs are left out. -/
inductive AlikeButNops : List Step → List Step → Prop
  | nil : AlikeButNops [] []
  | left {s : Step} {steps steps' : List Step} (nop : s.token = .nop)
      (tail : AlikeButNops steps steps') : AlikeButNops (s :: steps) steps'
  | right {s : Step} {steps steps' : List Step} (nop : s.token = .nop)
      (tail : AlikeButNops steps steps') : AlikeButNops steps (s :: steps')
  | both {s s' : Step} {steps steps' : List Step} (speaks : s.token ≠ .nop)
      (tokens : s.token.Alike s'.token) (tail : AlikeButNops steps steps') :
      AlikeButNops (s :: steps) (s' :: steps')

theorem AlikeButNops.cons (tokens : s.token.Alike s'.token) (tail : AlikeButNops steps steps') :
    AlikeButNops (s :: steps) (s' :: steps') := by
  by_cases hnop : s.token = .nop
  · rw [hnop] at tokens
    exact .left hnop (.right tokens.eq_nop tail)
  · exact .both hnop tokens tail

theorem AlikeButNops.symm (h : AlikeButNops steps steps') : AlikeButNops steps' steps := by
  induction h with
  | nil => exact .nil
  | left nop tail ih => exact .right nop ih
  | right nop tail ih => exact .left nop ih
  | both speaks tokens tail ih => exact .cons tokens.symm ih

theorem Alike.alikeButNops (h : Alike steps steps') : AlikeButNops steps steps' := by
  induction h with
  | nil => exact .nil
  | cons tokens tail ih => exact .cons tokens ih

/-- **The tokens of a block stay the same but for the NOPs that are inserted**, wherever the two
blocks are read. -/
theorem run_withNops (h : WithNops b b') (hpos : pos % 4 = 0) (hpos' : pos' % 4 = 0) :
    AlikeButNops (⟨b, pos⟩ : Cursor).run.steps (⟨b', pos'⟩ : Cursor).run.steps := by
  induction h generalizing pos pos' with
  | rest b => exact (Cursor.run_alike (hpos.trans hpos'.symm)).alikeButNops
  | @nop b b' tail ih =>
      have hspelled : Token.nop.Spelled pos' (Bytes.be32 Tag.nop.word) := .nop
      rw [Cursor.run_of_ok (Cursor.next_of_spelled hspelled b')]
      exact .right rfl (ih hpos (by rw [Bytes.length_be32]; omega))
  | @token place t a b b' aligned spelled tail ih =>
      -- the token holds the place where it stands, so it is another one in each block
      have hmod := spelled.mod_length aligned
      obtain ⟨token, -, hspelled⟩ := spelled.moved (aligned.trans hpos.symm)
      obtain ⟨token', htoken', hspelled'⟩ := hspelled.moved (hpos.trans hpos'.symm)
      rw [Cursor.run_of_ok (Cursor.next_of_spelled hspelled b),
        Cursor.run_of_ok (Cursor.next_of_spelled hspelled' b')]
      exact .cons htoken' (ih (by omega) (by omega))

/-! ## Places -/

/-- The openings of two nodes of the same name, with runs behind them that are alike. -/
structure Meet (steps steps' : List Step) (node node' : Node) : Prop where
  name_eq : node'.name = node.name
  behind : ∃ s back s' back', s :: back <:+ steps ∧ s' :: back' <:+ steps' ∧
    node.body = s.stop ∧ node'.body = s'.stop ∧ AlikeButNops back back'

theorem Meet.left (h : Meet steps steps' node node') (s : Step) :
    Meet (s :: steps) steps' node node' := by
  obtain ⟨hname, o, back, o', back', hsuffix, hsuffix', hbody⟩ := h
  exact ⟨hname, o, back, o', back', hsuffix.trans (List.suffix_cons s steps), hsuffix', hbody⟩

theorem Meet.right (h : Meet steps steps' node node') (s' : Step) :
    Meet steps (s' :: steps') node node' := by
  obtain ⟨hname, o, back, o', back', hsuffix, hsuffix', hbody⟩ := h
  exact ⟨hname, o, back, o', back', hsuffix, hsuffix'.trans (List.suffix_cons s' steps'), hbody⟩

theorem Meet.here (tail : AlikeButNops steps steps') (s s' : Step) (name : Bytes) :
    Meet (s :: steps) (s' :: steps') ⟨name, s.start, s.stop⟩ ⟨name, s'.start, s'.stop⟩ :=
  ⟨rfl, s, steps, s', steps', List.suffix_refl _, List.suffix_refl _, rfl, rfl, tail⟩

/-- Two nodes of the same name whose contents are alike but for NOPs, and all that follows too. -/
structure SameContent (t t' : DeviceTree) (node node' : Node) : Prop where
  name_eq : node'.name = node.name
  runs : AlikeButNops (t.runAt node.body).steps (t'.runAt node'.body).steps

theorem Meet.sameContent {offset offset' : Nat}
    (h : Meet (t.runAt offset).steps (t'.runAt offset').steps node node') :
    SameContent t t' node node' := by
  obtain ⟨hname, s, back, s', back', ⟨front, hfront⟩, ⟨front', hfront'⟩, hbody, hbody', halike⟩ := h
  refine ⟨hname, ?_⟩
  rw [hbody, hbody', runAt_behind hfront.symm, runAt_behind hfront'.symm]
  exact halike

/-! ## Walks -/

namespace Walk

theorem root_nop (h : s.token = .nop) (stop : FormatError) (rest : List Step) :
    root stop (s :: rest) = root stop rest := by
  rw [root, h]

theorem root_alikeButNops (h : AlikeButNops steps steps') (hroot : root stop steps = .ok node)
    (stop' : FormatError) :
    ∃ node', root stop' steps' = .ok node' ∧ Meet steps steps' node node' := by
  induction h with
  | nil => exact absurd hroot (by simp [root])
  | @left s steps steps' nop tail ih =>
      rw [root_nop nop] at hroot
      obtain ⟨node', hroot', hmeet⟩ := ih hroot
      exact ⟨node', hroot', hmeet.left s⟩
  | @right s' steps steps' nop tail ih =>
      obtain ⟨node', hroot', hmeet⟩ := ih hroot
      rw [root_nop nop]
      exact ⟨node', hroot', hmeet.right s'⟩
  | @both s s' steps steps' speaks tokens tail ih =>
      generalize htoken : s.token = token at tokens
      generalize htoken' : s'.token = token' at tokens
      cases tokens with
      | nop => exact absurd htoken speaks
      | beginNode =>
          rw [root, htoken] at hroot
          obtain rfl := Except.ok.inj hroot
          rw [root, htoken']
          exact ⟨_, rfl, .here tail s s' _⟩
      | endNode => exact absurd hroot (by simp [root, htoken])
      | property => exact absurd hroot (by simp [root, htoken])
      | endTree => exact absurd hroot (by simp [root, htoken])

/-- Two places that differ in offsets only. -/
inductive Place.Alike : Place → Place → Prop
  | between : Alike .between .between
  | inside {start start' depth : Nat} : Alike (.inside start depth) (.inside start' depth)

variable {parent : Nat} {name : Bytes} {place place' : Place}

theorem findChild_nop (h : s.token = .nop) (stop : FormatError) (parent : Nat) (name : Bytes)
    (place : Place) (rest : List Step) :
    findChild stop parent name place (s :: rest) = findChild stop parent name place rest := by
  cases place with
  | between => rw [findChild, h]
  | inside start depth => simp only [findChild, h]

/-- A child is found where NOPs have moved it. -/
theorem findChild_alikeButNops (h : AlikeButNops steps steps') (hplace : place.Alike place')
    (hfound : findChild stop parent name place steps = .ok (some node)) (stop' : FormatError)
    (parent' : Nat) :
    ∃ node', findChild stop' parent' name place' steps' = .ok (some node') ∧
      Meet steps steps' node node' := by
  induction h generalizing place place' with
  | nil => cases place <;> exact absurd hfound (by simp [findChild])
  | @left s steps steps' nop tail ih =>
      rw [findChild_nop nop] at hfound
      obtain ⟨node', hfound', hmeet⟩ := ih hplace hfound
      exact ⟨node', hfound', hmeet.left s⟩
  | @right s' steps steps' nop tail ih =>
      obtain ⟨node', hfound', hmeet⟩ := ih hplace hfound
      rw [findChild_nop nop]
      exact ⟨node', hfound', hmeet.right s'⟩
  | @both s s' steps steps' speaks tokens tail ih =>
      -- most tokens only change the place of the search
      have hnext : ∀ {next next' : Place}, next.Alike next' →
          findChild stop parent name next steps = .ok (some node) →
          ∃ node', findChild stop' parent' name next' steps' = .ok (some node') ∧
            Meet (s :: steps) (s' :: steps') node node' := by
        intro next next' hnext hfound
        obtain ⟨node', hfound', hmeet⟩ := ih hnext hfound
        exact ⟨node', hfound', (hmeet.left s).right s'⟩
      generalize htoken : s.token = token at tokens
      generalize htoken' : s'.token = token' at tokens
      cases tokens with
      | nop => exact absurd htoken speaks
      | endTree => cases place <;> exact absurd hfound (by simp [findChild, htoken])
      | property =>
          cases hplace with
          | between =>
              rw [findChild, htoken] at hfound
              rw [findChild, htoken']
              exact hnext .between hfound
          | inside =>
              simp only [findChild, htoken] at hfound
              simp only [findChild, htoken']
              exact hnext .inside hfound
      | @beginNode child =>
          cases hplace with
          | between =>
              simp only [findChild, htoken] at hfound
              simp only [findChild, htoken']
              by_cases hname : child = name
              · rw [if_pos hname] at hfound ⊢
                obtain rfl := Option.some.inj (Except.ok.inj hfound)
                exact ⟨_, rfl, .here tail s s' child⟩
              · rw [if_neg hname] at hfound ⊢
                exact hnext .inside hfound
          | inside =>
              simp only [findChild, htoken] at hfound
              simp only [findChild, htoken']
              exact hnext .inside hfound
      | endNode =>
          cases hplace with
          | between => exact absurd hfound (by simp [findChild, htoken])
          | @inside start start' depth =>
              simp only [findChild, htoken] at hfound
              simp only [findChild, htoken']
              cases depth with
              | zero => exact hnext .between hfound
              | succ depth => exact hnext .inside hfound

end Walk

theorem SameContent.findChild (h : SameContent t t' node node') {name : Bytes} {child : Node}
    (hchild : t.findChild node name = .ok (some child)) :
    ∃ child', t'.findChild node' name = .ok (some child') ∧ SameContent t t' child child' := by
  obtain ⟨child', hchild', hmeet⟩ := Walk.findChild_alikeButNops h.runs .between hchild
    (t'.runAt node'.body).failure node'.start
  exact ⟨child', hchild', hmeet.sameContent⟩

/-! ## Partitions -/

namespace PartitionsNode

variable {strings : StringsBlock} {names : Names} {start : Nat} {node node' : PartitionsNode}
  {child? : Option Child}

theorem readTokens_nop (h : s.token = .nop) (stop : FormatError) (start : Nat)
    (strings : StringsBlock) (names : Names) (node : PartitionsNode) (child : Option Child)
    (rest : List Step) :
    readTokens stop start strings names node child (s :: rest) =
      readTokens stop start strings names node child rest := by
  cases child with
  | none => rw [readTokens, h]
  | some child => rw [readTokens, h]

/-- The child with its content at another offset. -/
def Child.moveTo (start : Nat) (c : Child) : Child :=
  { c with start }

/-- Neither the offset of the child nor that of its property matters. -/
theorem readChild_moveTo (child : Child) (start offset offset' : Nat) (nameOffset : UInt32)
    (value : Bytes) :
    readChild strings names (child.moveTo start) ⟨offset', nameOffset, value⟩ =
      (readChild strings names child ⟨offset, nameOffset, value⟩).map (Child.moveTo start) := by
  have hpname : checkPname (child.moveTo start) ⟨offset', nameOffset, value⟩ =
      checkPname child ⟨offset, nameOffset, value⟩ := rfl
  have hword : wordValue strings ⟨offset', nameOffset, value⟩ =
      wordValue strings ⟨offset, nameOffset, value⟩ := rfl
  have hlongWord : longWordValue strings ⟨offset', nameOffset, value⟩ =
      longWordValue strings ⟨offset, nameOffset, value⟩ := rfl
  simp only [readChild, hpname, hword, hlongWord]
  split_ifs
  · cases checkPname child ⟨offset, nameOffset, value⟩ <;> rfl
  · cases longWordValue strings ⟨offset, nameOffset, value⟩ <;> rfl
  · cases wordValue strings ⟨offset, nameOffset, value⟩ <;> rfl
  · cases wordValue strings ⟨offset, nameOffset, value⟩ <;> rfl
  · cases wordValue strings ⟨offset, nameOffset, value⟩ <;> rfl
  · rfl

/-- What is read does not change when NOPs come in between, as long as reading succeeds.  A child
that is being read starts elsewhere then. -/
theorem readTokens_alikeButNops (h : AlikeButNops steps steps')
    (hread : readTokens stop start strings names node child? steps = .ok node')
    (stop' : FormatError) (start' body : Nat) :
    readTokens stop' start' strings names node (child?.map (Child.moveTo body)) steps' =
      .ok node' := by
  induction h generalizing node child? body with
  | nil => cases child? <;> exact absurd hread (by simp [readTokens])
  | left nop tail ih =>
      rw [readTokens_nop nop] at hread
      exact ih hread body
  | right nop tail ih =>
      rw [readTokens_nop nop]
      exact ih hread body
  | @both s s' steps steps' speaks tokens tail ih =>
      generalize htoken : s.token = token at tokens
      generalize htoken' : s'.token = token' at tokens
      cases tokens with
      | nop => exact absurd htoken speaks
      | property =>
          cases child? with
          | none =>
              obtain ⟨node₁, hown, hread⟩ := (readTokens_property_own htoken).mp hread
              exact (readTokens_property_own htoken').mpr ⟨node₁, hown, ih hread body⟩
          | some child =>
              obtain ⟨child₁, hchild, hread⟩ := (readTokens_property_inside htoken).mp hread
              refine (readTokens_property_inside htoken').mpr
                ⟨child₁.moveTo body, ?_, ih hread body⟩
              rw [readChild_moveTo, hchild, Outcome.map_ok]
      | beginNode =>
          cases child? with
          | none =>
              obtain ⟨hroom, child, hopen, hread⟩ := (readTokens_beginNode_own htoken).mp hread
              obtain ⟨hlen, rfl⟩ := openChild_eq_ok_iff.mp hopen
              exact (readTokens_beginNode_own htoken').mpr
                ⟨hroom, _, openChild_eq_ok_iff.mpr ⟨hlen, rfl⟩, ih hread s'.stop⟩
          | some child => exact absurd hread (by simp [readTokens, htoken])
      | endNode =>
          cases child? with
          | none =>
              rw [readTokens, htoken] at hread
              rw [Option.map_none, readTokens, htoken']
              exact hread
          | some child =>
              obtain ⟨r, hclose, hread⟩ := (readTokens_endNode_inside htoken).mp hread
              exact (readTokens_endNode_inside htoken').mpr ⟨r, hclose, ih hread body⟩
      | endTree => cases child? <;> exact absurd hread (by simp [readTokens, htoken])

end PartitionsNode

/-! ## Phandles -/

namespace PhandleCensus

variable {names : Names} {c counted : PhandleCensus} {opened opened' : List Nat}

theorem sweep_nop (h : s.token = .nop) (stop : FormatError) (names : Names) (c : PhandleCensus)
    (opened : List Nat) (rest : List Step) :
    sweep stop names c opened (s :: rest) = sweep stop names c opened rest := by
  cases opened with
  | nil => rw [sweep, sweep]
  | cons start outer => rw [sweep, h]

/-- What is counted does not change when NOPs come in between, as long as counting succeeds. -/
theorem sweep_alikeButNops (h : AlikeButNops steps steps')
    (hsweep : sweep stop names c opened steps = .ok counted)
    (hopened : opened'.length = opened.length) (stop' : FormatError) :
    sweep stop' names c opened' steps' = .ok counted := by
  induction h generalizing c opened opened' with
  | nil =>
      cases opened with
      | nil =>
          obtain rfl := List.length_eq_zero_iff.mp hopened
          rwa [sweep] at hsweep ⊢
      | cons start outer => exact absurd hsweep (by simp [sweep])
  | left nop tail ih =>
      rw [sweep_nop nop] at hsweep
      exact ih hsweep hopened
  | right nop tail ih =>
      rw [sweep_nop nop]
      exact ih hsweep hopened
  | @both s s' steps steps' speaks tokens tail ih =>
      cases opened with
      | nil =>
          obtain rfl := List.length_eq_zero_iff.mp hopened
          rwa [sweep] at hsweep ⊢
      | cons start outer =>
          obtain ⟨start', outer', rfl⟩ := List.exists_cons_of_length_eq_add_one hopened
          have houter : outer'.length = outer.length := Nat.succ.inj hopened
          generalize htoken : s.token = token at tokens
          generalize htoken' : s'.token = token' at tokens
          cases tokens with
          | nop => exact absurd htoken speaks
          | property =>
              simp only [sweep, htoken] at hsweep
              simp only [sweep, htoken']
              split_ifs at hsweep ⊢ with hdeclares hlen
              · exact ih hsweep hopened
              · exact ih hsweep hopened
          | beginNode =>
              rw [sweep, htoken] at hsweep
              rw [sweep, htoken']
              exact ih hsweep (congrArg Nat.succ hopened)
          | endNode =>
              rw [sweep, htoken] at hsweep
              rw [sweep, htoken']
              exact ih hsweep houter
          | endTree => exact absurd hsweep (by simp [sweep, htoken])

end PhandleCensus

/-! ## Trees -/

/-- Two trees that say the same once the NOPs are left out. -/
structure SameButNops (t t' : DeviceTree) : Prop where
  strings_eq : t'.stringsBlock = t.stringsBlock
  runs : AlikeButNops (t.runAt 0).steps (t'.runAt 0).steps

namespace SameButNops

theorem of_withNops (htokens : WithNops t.structBlock t'.structBlock)
    (hstrings : t'.stringsBlock = t.stringsBlock) : SameButNops t t' :=
  ⟨hstrings, run_withNops htokens rfl rfl⟩

theorem symm (h : SameButNops t t') : SameButNops t' t :=
  ⟨h.strings_eq.symm, h.runs.symm⟩

theorem root (h : SameButNops t t') (hroot : t.root = .ok node) :
    ∃ node', t'.root = .ok node' ∧ SameContent t t' node node' := by
  obtain ⟨node', hroot', hmeet⟩ := Walk.root_alikeButNops h.runs hroot (t'.runAt 0).failure
  exact ⟨node', hroot', hmeet.sameContent⟩

theorem locate (h : SameButNops t t') (hplace : PartitionsNode.locate t = .ok node) :
    ∃ node', PartitionsNode.locate t' = .ok node' ∧ SameContent t t' node node' := by
  obtain ⟨root, hroot, hchild⟩ := PartitionsNode.locate_eq_ok_iff.mp hplace
  obtain ⟨root', hroot', hsame⟩ := h.root hroot
  obtain ⟨node', hchild', hnode⟩ := hsame.findChild hchild
  exact ⟨node', PartitionsNode.locate_eq_ok_iff.mpr ⟨root', hroot', hchild'⟩, hnode⟩

theorem partitions (h : SameButNops t t') {read : PartitionsNode}
    (hread : (PartitionsNode.ofTree t).result = .ok read) :
    (PartitionsNode.ofTree t').result = .ok read := by
  obtain ⟨place, found, hplace, hfound, rfl⟩ := PartitionsNode.ofTree_eq_ok_iff.mp hread
  obtain ⟨place', hplace', hsame⟩ := h.locate hplace
  refine PartitionsNode.ofTree_eq_ok_iff.mpr ⟨place', found, hplace', ?_, rfl⟩
  obtain ⟨hname, names, hnames, htokens, hcount⟩ := PartitionsNode.read_eq_ok_iff.mp hfound
  rw [← h.strings_eq] at hnames htokens
  exact PartitionsNode.read_eq_ok_iff.mpr ⟨hsame.name_eq.trans hname, names, hnames,
    PartitionsNode.readTokens_alikeButNops hsame.runs htokens _ _ 0, hcount⟩

theorem phandles (h : SameButNops t t') {census : PhandleCensus}
    (hcensus : (PhandleCensus.ofTree t).result = .ok census) :
    (PhandleCensus.ofTree t').result = .ok census := by
  obtain ⟨names, root, counted, hnames, hroot, hsweep, hsettle⟩ :=
    PhandleCensus.ofTree_eq_ok_iff.mp hcensus
  obtain ⟨root', hroot', hsame⟩ := h.root hroot
  rw [← h.strings_eq] at hnames
  refine PhandleCensus.ofTree_eq_ok_iff.mpr ⟨names, root', counted, hnames, hroot', ?_, hsettle⟩
  have hopened : [root'.start].length = [root.start].length := rfl
  exact PhandleCensus.sweep_alikeButNops hsame.runs hsweep hopened _

end SameButNops

/-- **NOPs are invisible.**  Where they are inserted between the tokens of a tree, the partitions
that are read stay the same, and so do the phandles. -/
theorem nops_invisible (htokens : WithNops t.structBlock t'.structBlock)
    (hstrings : t'.stringsBlock = t.stringsBlock) :
    (∀ read, (PartitionsNode.ofTree t).result = .ok read ↔
      (PartitionsNode.ofTree t').result = .ok read) ∧
    (∀ census, (PhandleCensus.ofTree t).result = .ok census ↔
      (PhandleCensus.ofTree t').result = .ok census) :=
  have h := SameButNops.of_withNops htokens hstrings
  ⟨fun _ => ⟨h.partitions, h.symm.partitions⟩, fun _ => ⟨h.phandles, h.symm.phandles⟩⟩

/-- A tree up to the name of its only partition. -/
def bootFront : Bytes × StringsBlock :=
  emitAll ⟨[]⟩ [.beginNode [], .beginNode PartitionsNode.nodeName,
    .word PropertyName.parts.bytes 1, .beginNode (Utf8.encode "boot"),
    .text PropertyName.pname.bytes (Utf8.encode "boot")]

/-- The rest of that tree. -/
def bootBack : Bytes × StringsBlock :=
  emitAll bootFront.2 [.property PropertyName.size.bytes (Bytes.be64 0x1000),
    .word PropertyName.mask.bytes 1, .word PropertyName.phandle.bytes 7, .endNode, .endNode,
    .endNode, .endTree]

/-- The same tokens, with NOPs in front of the root and among the properties of the partition. -/
def spacedBlock : Bytes :=
  let nop := Bytes.be32 Tag.nop.word
  nop ++ (bootFront.1 ++ (nop ++ (nop ++ bootBack.1)))

/-- The tree that has these tokens. -/
def bootTree (tokens : Bytes) : DeviceTree where
  bytes := assemble {} emptyReservations tokens bootBack.2.bytes
  header := assembledHeader {} emptyReservations tokens bootBack.2.bytes
  structBlock := tokens
  stringsBlock := bootBack.2

theorem withNops_spacedBlock :
    WithNops (bootTree (bootFront.1 ++ bootBack.1)).structBlock
      (bootTree spacedBlock).structBlock := by
  have hlegal : ∀ e ∈ ([.beginNode [], .beginNode PartitionsNode.nodeName,
      .word PropertyName.parts.bytes 1, .beginNode (Utf8.encode "boot"),
      .text PropertyName.pname.bytes (Utf8.encode "boot")] : List Emission), e.Legal := by
    decide +kernel
  have hlen : bootFront.2.bytes.length < UInt32.size := by decide +kernel
  obtain ⟨steps, hfront, -⟩ := spelling_emitAll hlegal (Nat.zero_mod 4) hlen (.refl bootFront.2)
  exact .nop (hfront.withNops rfl (.nop (.nop (.rest bootBack.1))))

theorem nops_invisible_of_spacedBlock :
    ∃ t t' read census,
      DeviceTree.ofBytes (bootTree (bootFront.1 ++ bootBack.1)).bytes = .ok t ∧
      DeviceTree.ofBytes (bootTree spacedBlock).bytes = .ok t' ∧
      (PartitionsNode.ofTree t).result = .ok read ∧
      (PartitionsNode.ofTree t').result = .ok read ∧
      (PhandleCensus.ofTree t).result = .ok census ∧
      (PhandleCensus.ofTree t').result = .ok census := by
  have hopen : ∀ tokens, (bootTree tokens).bytes.length < UInt32.size →
      DeviceTree.ofBytes (bootTree tokens).bytes = .ok (bootTree tokens) := by
    intro tokens hlen
    have hassembled := ofBytes_assemble hlen []
    rwa [List.append_nil] at hassembled
  obtain ⟨hpartitions, hphandles⟩ := nops_invisible withNops_spacedBlock rfl
  obtain ⟨read, hread⟩ := Outcome.exists_ok_of_isOk
    (x := (PartitionsNode.ofTree (bootTree (bootFront.1 ++ bootBack.1))).result)
    (by decide +kernel)
  obtain ⟨census, hcensus⟩ := Outcome.exists_ok_of_isOk
    (x := (PhandleCensus.ofTree (bootTree (bootFront.1 ++ bootBack.1))).result)
    (by decide +kernel)
  exact ⟨_, _, read, census, hopen _ (by decide +kernel), hopen _ (by decide +kernel), hread,
    (hpartitions read).mp hread, hcensus, (hphandles census).mp hcensus⟩

end EmmcLayout.DeviceTree
