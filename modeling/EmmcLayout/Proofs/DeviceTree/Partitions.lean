import EmmcLayout.DeviceTree.Replacement
import EmmcLayout.Proofs.DeviceTree.Walk
import EmmcLayout.Proofs.DeviceTree.Writer
import EmmcLayout.Proofs.Number.Literal
import EmmcLayout.Proofs.Text.Utf8

/-!
# Reading a partitions node that was written

The reader of a partitions node takes its tokens one by one.  `Takes s names es a b` says that the
tokens of the emissions `es` bring it from the state `a` to the state `b`; the emissions of a
composed node are put together from a few of these, and `readTokens_content` says what is read
from the whole.  A node whose references are the handles of its records is in order already
(`arrange_of_prefix`).
-/

namespace EmmcLayout.DeviceTree

/-! ## Names of properties -/

theorem PropertyName.zero_notMem (n : PropertyName) : 0 ∉ n.bytes := by
  cases n <;> decide

namespace PartitionsNode

variable {s : StringsBlock} {names : Names} {es es' : List Emission}

theorem isDigit_of_mem_toString {i : Nat} {c : Char} (h : c ∈ (toString i).toList) :
    c.isDigit := by
  rw [Literal.toList_toString] at h
  exact Nat.isDigit_of_mem_toDigits (by decide) (by decide) h

theorem zero_notMem_referenceName (i : Nat) : 0 ∉ referenceName i := by
  refine Utf8.zero_notMem_encode ?_
  rw [String.toList_append, List.mem_append]
  rintro (h | h)
  · exact absurd h (by decide)
  · exact absurd (isDigit_of_mem_toString h) (by decide)

theorem referenceName_ne (i : Nat) (n : PropertyName) : referenceName i ≠ n.bytes := by
  intro h
  have htext := congrArg Utf8.decodeLossy h
  rw [PropertyName.bytes, referenceName, Utf8.decodeLossy_encode, Utf8.decodeLossy_encode] at htext
  have hhead : ("part-" ++ toString i).toList[4]? = some '-' := by
    rw [String.toList_append]
    rfl
  rw [htext] at hhead
  cases n <;> exact absurd hhead (by decide)

/-- The number of a reference reads back. -/
theorem referenceIndex?_toString (i : Fin maxPartitions) :
    referenceIndex? (toString i.val).toList = some i := by
  have hplus : (toString i.val).toList.head? ≠ some '+' := by
    intro h
    exact absurd (isDigit_of_mem_toString (List.mem_of_mem_head? h)) (by decide)
  have hdigits : (toString i.val).toList ≠ [] ∧ (toString i.val).toList.all Char.isDigit := by
    refine ⟨?_, List.all_eq_true.mpr fun c hc => isDigit_of_mem_toString hc⟩
    rw [Literal.toList_toString]
    exact Nat.toDigits_ne_nil
  have hvalue : Nat.ofDigitChars 10 (toString i.val).toList 0 = i.val := by
    rw [Literal.toList_toString, Nat.ofDigitChars_ten_toDigits]
  simp only [referenceIndex?, if_neg hplus, if_pos hdigits, hvalue, i.isLt, dite_true]

theorem essential_eq_ok_iff {n : PropertyName} {offset : UInt32} :
    essential s n = .ok offset ↔ s.find? n.bytes = some offset := by
  unfold essential
  cases s.find? n.bytes with
  | none => simp
  | some found => simp

/-- The names of a strings block are the offsets at which they are found. -/
structure Names.Of (s : StringsBlock) (names : Names) : Prop where
  parts : s.find? PropertyName.parts.bytes = some names.parts
  pname : s.find? PropertyName.pname.bytes = some names.pname
  size : s.find? PropertyName.size.bytes = some names.size
  mask : s.find? PropertyName.mask.bytes = some names.mask
  phandle : s.find? PropertyName.phandle.bytes = some names.phandle
  linuxPhandle : s.find? PropertyName.linuxPhandle.bytes = names.linuxPhandle

theorem Names.ofStrings_eq_ok_iff : Names.ofStrings s = .ok names ↔ Names.Of s names := by
  unfold Names.ofStrings
  simp only [Outcome.bind_eq_ok_iff, essential_eq_ok_iff]
  constructor
  · rintro ⟨parts, hparts, pname, hpname, size, hsize, mask, hmask, phandle, hphandle, h⟩
    obtain rfl := Except.ok.inj h
    exact ⟨hparts, hpname, hsize, hmask, hphandle, rfl⟩
  · rintro ⟨hparts, hpname, hsize, hmask, hphandle, hlinux⟩
    refine ⟨_, hparts, _, hpname, _, hsize, _, hmask, _, hphandle, ?_⟩
    rw [hlinux]
    rfl

/-- A block that goes on from one with all names has them too. -/
theorem Names.Of.extends {s' : StringsBlock} (h : Names.Of s names) (hs : s.Extends s') :
    ∃ names', Names.Of s' names' :=
  have hfind : ∀ (n : PropertyName) (offset : UInt32), s.find? n.bytes = some offset →
      s'.find? n.bytes = some offset :=
    fun n _ hn => StringsBlock.find?_of_extends hs n.zero_notMem hn
  ⟨⟨names.parts, names.pname, names.size, names.mask, names.phandle,
      s'.find? PropertyName.linuxPhandle.bytes⟩,
    hfind _ _ h.parts, hfind _ _ h.pname, hfind _ _ h.size, hfind _ _ h.mask,
    hfind _ _ h.phandle, rfl⟩

/-- Names that differ have offsets that differ. -/
theorem ne_of_find? {name : Bytes} {n : PropertyName} {offset offset' : UInt32}
    (hname : 0 ∉ name) (hne : name ≠ n.bytes) (h : s.find? name = some offset)
    (h' : s.find? n.bytes = some offset') : offset ≠ offset' := by
  rintro rfl
  exact hne (StringsBlock.eq_of_find? hname n.zero_notMem h h')

theorem wordValue_be32 (s : StringsBlock) (offset : Nat) (nameOffset value : UInt32) :
    wordValue s ⟨offset, nameOffset, Bytes.be32 value⟩ = .ok value := by
  rw [wordValue, fixedValue, if_pos (Bytes.length_be32 value), Outcome.map_ok,
    Bytes.ofNat_ofBE_be32]

theorem longWordValue_be64 (s : StringsBlock) (offset : Nat) (nameOffset : UInt32)
    (value : UInt64) : longWordValue s ⟨offset, nameOffset, Bytes.be64 value⟩ = .ok value := by
  rw [longWordValue, fixedValue, if_pos (Bytes.length_be64 value), Outcome.map_ok,
    Bytes.ofNat_ofBE_be64]

/-! ## Steps of the reader -/

section Step

variable {stop : FormatError} {start : Nat} {node node' : PartitionsNode} {child : Child}
  {name : Bytes} {step : Step} {rest : List Step} {p : Property}

/-- Two phandles that one node may have. -/
def Agree (phandle linuxPhandle : UInt32) : Prop :=
  phandle = 0 ∨ linuxPhandle = 0 ∨ phandle = linuxPhandle

instance (phandle linuxPhandle : UInt32) : Decidable (Agree phandle linuxPhandle) :=
  inferInstanceAs (Decidable (phandle = 0 ∨ linuxPhandle = 0 ∨ phandle = linuxPhandle))

theorem openChild_eq_ok_iff :
    openChild name start = .ok child ↔
      name.length < nameFieldLength ∧
        child = ⟨name, start, { name := Utf8.decodeLossy name, size := 0, mask := 0 }⟩ := by
  rw [openChild]
  split
  · rename_i hlong
    exact ⟨fun h => absurd h (by simp), fun h => absurd h.1 (Nat.not_lt_of_le hlong)⟩
  · rename_i hshort
    exact ⟨fun h => ⟨Nat.lt_of_not_le hshort, (Except.ok.inj h).symm⟩, fun h => by rw [h.2]⟩

theorem closeChild_eq_ok_iff {r : Record} :
    closeChild child = .ok r ↔
      Agree child.record.phandle child.record.linuxPhandle ∧ r = child.record := by
  rw [closeChild, Agree]
  split
  · rename_i hconflict
    exact ⟨fun h => absurd h (by simp), fun h => absurd h.1 (by tauto)⟩
  · rename_i hagree
    exact ⟨fun h => ⟨by tauto, (Except.ok.inj h).symm⟩, fun h => by rw [h.2]⟩

/-- The reader at a token of the node itself. -/
theorem readTokens_cons_none :
    readTokens stop start s names node none (step :: rest) =
      match step.token with
      | .property p =>
        readOwn s names node p >>= fun node => readTokens stop start s names node none rest
      | .beginNode name =>
        if maxPartitions ≤ node.records.length then .error .tooManyPartitions
        else
          openChild name step.stop >>= fun child =>
            readTokens stop start s names node (some child) rest
      | .endNode => .ok node
      | .endTree => .error (.unterminatedNode start)
      | .nop => readTokens stop start s names node none rest := by
  rw [readTokens]
  cases step.token with
  | property p =>
      dsimp only
      cases readOwn s names node p <;> rfl
  | beginNode name =>
      dsimp only
      cases openChild name step.stop <;> rfl
  | endNode => rfl
  | endTree => rfl
  | nop => rfl

/-- The reader at a token of a child. -/
theorem readTokens_cons_some :
    readTokens stop start s names node (some child) (step :: rest) =
      match step.token with
      | .property p =>
        readChild s names child p >>= fun child =>
          readTokens stop start s names node (some child) rest
      | .beginNode _ => .error (.nestedNode child.record.name)
      | .endNode =>
        closeChild child >>= fun r =>
          readTokens stop start s names { node with records := node.records ++ [r] } none rest
      | .endTree => .error (.unterminatedNode child.start)
      | .nop => readTokens stop start s names node (some child) rest := by
  rw [readTokens]
  cases step.token with
  | property p =>
      dsimp only
      cases readChild s names child p <;> rfl
  | beginNode name => rfl
  | endNode =>
      dsimp only
      cases closeChild child <;> rfl
  | endTree => rfl
  | nop => rfl

theorem readTokens_property_own (h : step.token = .property p) :
    readTokens stop start s names node none (step :: rest) = .ok node' ↔
      ∃ node₁, readOwn s names node p = .ok node₁ ∧
        readTokens stop start s names node₁ none rest = .ok node' := by
  rw [readTokens_cons_none, h]
  exact Outcome.bind_eq_ok_iff

theorem readTokens_beginNode_own (h : step.token = .beginNode name) :
    readTokens stop start s names node none (step :: rest) = .ok node' ↔
      node.records.length < maxPartitions ∧ ∃ child, openChild name step.stop = .ok child ∧
        readTokens stop start s names node (some child) rest = .ok node' := by
  rw [readTokens_cons_none, h]
  dsimp only
  split
  · rename_i hfull
    simp [Nat.not_lt_of_le hfull]
  · rename_i hroom
    rw [Outcome.bind_eq_ok_iff, and_iff_right (Nat.lt_of_not_le hroom)]

theorem readTokens_property_inside (h : step.token = .property p) :
    readTokens stop start s names node (some child) (step :: rest) = .ok node' ↔
      ∃ child', readChild s names child p = .ok child' ∧
        readTokens stop start s names node (some child') rest = .ok node' := by
  rw [readTokens_cons_some, h]
  exact Outcome.bind_eq_ok_iff

theorem readTokens_endNode_inside (h : step.token = .endNode) :
    readTokens stop start s names node (some child) (step :: rest) = .ok node' ↔
      ∃ r, closeChild child = .ok r ∧
        readTokens stop start s names { node with records := node.records ++ [r] } none rest =
          .ok node' := by
  rw [readTokens_cons_some, h]
  exact Outcome.bind_eq_ok_iff

end Step

/-! ## Runs of the reader -/

/-- The tokens of these emissions bring the reader from one state to another. -/
def Takes (s : StringsBlock) (names : Names) (es : List Emission)
    (a b : PartitionsNode × Option Child) : Prop :=
  ∀ (stop : FormatError) (start : Nat) (steps rest : List Step),
    List.Forall₂ (fun e step => e.ReadsAs s step.token) es steps →
    readTokens stop start s names a.1 a.2 (steps ++ rest) =
      readTokens stop start s names b.1 b.2 rest

theorem forall₂_split {α β : Type} {R : α → β → Prop} {as bs : List α} {cs : List β}
    (h : List.Forall₂ R (as ++ bs) cs) :
    ∃ cs₁ cs₂, cs = cs₁ ++ cs₂ ∧ List.Forall₂ R as cs₁ ∧ List.Forall₂ R bs cs₂ := by
  induction as generalizing cs with
  | nil => exact ⟨[], cs, rfl, .nil, h⟩
  | cons a as ih =>
      rw [List.cons_append] at h
      cases h with
      | cons hac h =>
          obtain ⟨cs₁, cs₂, rfl, h₁, h₂⟩ := ih h
          exact ⟨_ :: cs₁, cs₂, rfl, .cons hac h₁, h₂⟩

theorem Takes.nil (a : PartitionsNode × Option Child) : Takes s names [] a a := by
  intro stop start steps rest h
  cases h
  rfl

theorem Takes.append {a b c : PartitionsNode × Option Child} (h : Takes s names es a b)
    (h' : Takes s names es' b c) : Takes s names (es ++ es') a c := by
  intro stop start steps rest hreads
  obtain ⟨steps₁, steps₂, rfl, h₁, h₂⟩ := forall₂_split hreads
  rw [List.append_assoc, h stop start steps₁ _ h₁, h' stop start steps₂ _ h₂]

/-- One emission is one token. -/
theorem takes_singleton {e : Emission} {a b : PartitionsNode × Option Child}
    (h : ∀ (stop : FormatError) (start : Nat) (step : Step) (rest : List Step),
      e.ReadsAs s step.token →
        readTokens stop start s names a.1 a.2 (step :: rest) =
          readTokens stop start s names b.1 b.2 rest) : Takes s names [e] a b := by
  intro stop start steps rest hreads
  cases hreads with
  | cons hstep hnil =>
      cases hnil
      exact h stop start _ rest hstep

theorem takes_own {name value : Bytes} {node node' : PartitionsNode}
    (h : ∀ offset nameOffset, s.find? name = some nameOffset →
      readOwn s names node ⟨offset, nameOffset, value⟩ = .ok node') :
    Takes s names [.property name value] (node, none) (node', none) := by
  refine takes_singleton ?_
  intro stop start step rest hreads
  generalize htoken : step.token = t at hreads
  cases hreads with
  | property hname => simp only [readTokens_cons_none, htoken, h _ _ hname, Outcome.ok_bind]

theorem takes_inside {name value : Bytes} {node : PartitionsNode} {child child' : Child}
    (h : ∀ offset nameOffset, s.find? name = some nameOffset →
      readChild s names child ⟨offset, nameOffset, value⟩ = .ok child') :
    Takes s names [.property name value] (node, some child) (node, some child') := by
  refine takes_singleton ?_
  intro stop start step rest hreads
  generalize htoken : step.token = t at hreads
  cases hreads with
  | property hname => simp only [readTokens_cons_some, htoken, h _ _ hname, Outcome.ok_bind]

theorem takes_endNode {node : PartitionsNode} {child : Child} {r : Record}
    (h : closeChild child = .ok r) :
    Takes s names [.endNode] (node, some child) ({ node with records := node.records ++ [r] }, none)
    := by
  refine takes_singleton ?_
  intro stop start step rest hreads
  generalize htoken : step.token = t at hreads
  cases hreads with
  | endNode => simp only [readTokens_cons_some, htoken, h, Outcome.ok_bind]

/-! ## Properties of the node -/

theorem takes_parts (hnames : Names.Of s names) (node : PartitionsNode) (value : UInt32) :
    Takes s names [.word PropertyName.parts.bytes value] (node, none)
      ({ node with declared := value }, none) := by
  refine takes_own ?_
  intro offset nameOffset hfind
  obtain rfl := Option.some.inj (hfind.symm.trans hnames.parts)
  rw [readOwn, wordValue_be32, Outcome.ok_bind, if_pos rfl]
  rfl

theorem takes_phandle (hnames : Names.Of s names) (node : PartitionsNode) (value : UInt32) :
    Takes s names [.word PropertyName.phandle.bytes value] (node, none)
      ({ node with phandle := value }, none) := by
  refine takes_own ?_
  intro offset nameOffset hfind
  have hparts := ne_of_find? (PropertyName.zero_notMem _) (by decide) hfind hnames.parts
  obtain rfl := Option.some.inj (hfind.symm.trans hnames.phandle)
  rw [readOwn, wordValue_be32, Outcome.ok_bind, if_neg hparts, if_pos rfl]
  rfl

theorem takes_linuxPhandle (hnames : Names.Of s names) (node : PartitionsNode)
    (value : UInt32) :
    Takes s names [.word PropertyName.linuxPhandle.bytes value] (node, none)
      ({ node with linuxPhandle := value }, none) := by
  refine takes_own ?_
  intro offset nameOffset hfind
  have hparts := ne_of_find? (PropertyName.zero_notMem _) (by decide) hfind hnames.parts
  have hphandle := ne_of_find? (PropertyName.zero_notMem _) (by decide) hfind hnames.phandle
  have hlinux : some nameOffset = names.linuxPhandle := hfind.symm.trans hnames.linuxPhandle
  rw [readOwn, wordValue_be32, Outcome.ok_bind, if_neg hparts, if_neg hphandle, if_pos hlinux]
  rfl

theorem nameText_referenceName {i : Fin maxPartitions} {nameOffset : UInt32}
    (h : s.find? (referenceName i) = some nameOffset) :
    (s.nameText nameOffset).toList =
      'p' :: 'a' :: 'r' :: 't' :: '-' :: (toString i.val).toList := by
  rw [StringsBlock.nameText_of_find? (zero_notMem_referenceName i) h, referenceName,
    Utf8.decodeLossy_encode, String.toList_append]
  rfl

theorem takes_reference (hnames : Names.Of s names) (node : PartitionsNode)
    (i : Fin maxPartitions) (value : UInt32) :
    Takes s names [.word (referenceName i) value] (node, none)
      ({ node with references := node.references.set i value i.isLt }, none) := by
  refine takes_own ?_
  intro offset nameOffset hfind
  have hzero := zero_notMem_referenceName i
  have hparts := ne_of_find? hzero (referenceName_ne i _) hfind hnames.parts
  have hphandle := ne_of_find? hzero (referenceName_ne i _) hfind hnames.phandle
  -- the block need not have this name at all
  have hlinux : some nameOffset ≠ names.linuxPhandle := by
    intro hsame
    rw [← hnames.linuxPhandle] at hsame
    exact ne_of_find? hzero (referenceName_ne i _) hfind hsame.symm rfl
  rw [readOwn, wordValue_be32, Outcome.ok_bind, if_neg hparts, if_neg hphandle, if_neg hlinux]
  simp only [nameText_referenceName hfind, referenceIndex?_toString]
  rfl

/-- The references of a list of records fill the places from the first one on. -/
theorem takes_references (hnames : Names.Of s names) (node : PartitionsNode) (rs : List Record)
    {k : Nat} (hlen : k + rs.length ≤ maxPartitions) :
    ∃ references, Takes s names
        ((rs.zipIdx k).map fun (r, i) => .word (referenceName i) r.phandle) (node, none)
        ({ node with references := references }, none) ∧
      references.toList =
        node.references.toList.take k ++ rs.map Record.phandle ++
          node.references.toList.drop (k + rs.length) := by
  induction rs generalizing node k with
  | nil =>
      refine ⟨node.references, .nil _, ?_⟩
      simp
  | cons r rs ih =>
      rw [List.length_cons] at hlen
      have hk : k < maxPartitions := by omega
      have hfirst := takes_reference hnames node ⟨k, hk⟩ r.phandle
      obtain ⟨references, htakes, hlist⟩ :=
        @ih { node with references := node.references.set k r.phandle } (k + 1) (by omega)
      refine ⟨references, ?_, ?_⟩
      · rw [List.zipIdx_cons, List.map_cons]
        exact hfirst.append htakes
      · have hlength : node.references.toList.length = maxPartitions :=
          node.references.length_toList
        rw [hlist, Vector.toList_set, List.take_add_one, List.take_set_of_le (Nat.le_refl k),
          List.getElem?_set_self (by omega), List.drop_set_of_lt (by omega), List.map_cons,
          List.length_cons, Nat.add_right_comm k 1, Nat.add_assoc]
        simp

/-! ## Children -/

/-- What a child has to be so that it is written and read back: its name fits, and it declares its
handle the way the tree does. -/
structure Writable (paired : Bool) (r : Record) : Prop where
  zero_notMem : 0 ∉ Utf8.encode r.name
  length_lt : (Utf8.encode r.name).length < nameFieldLength
  phandle_ne : r.phandle ≠ 0
  linuxPhandle_eq : r.linuxPhandle = if paired then r.phandle else 0

variable {paired : Bool} {r : Record} {rs : List Record}

theorem takes_pname (hnames : Names.Of s names) (node : PartitionsNode) {child : Child}
    (hzero : 0 ∉ child.name) (hlen : child.name.length < nameFieldLength) :
    Takes s names [.text PropertyName.pname.bytes child.name] (node, some child)
      (node, some child) := by
  refine takes_inside ?_
  intro offset nameOffset hfind
  obtain rfl := Option.some.inj (hfind.symm.trans hnames.pname)
  have hsame : Bytes.untilNul (child.name ++ [0]) = child.name :=
    Bytes.untilNul_append_zero hzero []
  have hshort : ¬ nameFieldLength < (child.name ++ [0]).length := by
    rw [List.length_append, List.length_singleton]
    omega
  have hcheck : checkPname child ⟨offset, names.pname, child.name ++ [0]⟩ = .ok () := by
    simp only [checkPname, hsame, hshort, if_false, ne_eq, not_true_eq_false]
  rw [readChild, if_pos rfl, hcheck]
  rfl

theorem takes_size (hnames : Names.Of s names) (node : PartitionsNode) (child : Child)
    (value : UInt64) :
    Takes s names [.longWord PropertyName.size.bytes value] (node, some child)
      (node, some { child with record := { child.record with size := value } }) := by
  refine takes_inside ?_
  intro offset nameOffset hfind
  have hpname := ne_of_find? (PropertyName.zero_notMem _) (by decide) hfind hnames.pname
  obtain rfl := Option.some.inj (hfind.symm.trans hnames.size)
  rw [readChild, if_neg hpname, if_pos rfl, longWordValue_be64]
  rfl

theorem takes_mask (hnames : Names.Of s names) (node : PartitionsNode) (child : Child)
    (value : UInt32) :
    Takes s names [.word PropertyName.mask.bytes value] (node, some child)
      (node, some { child with record := { child.record with mask := value } }) := by
  refine takes_inside ?_
  intro offset nameOffset hfind
  have hpname := ne_of_find? (PropertyName.zero_notMem _) (by decide) hfind hnames.pname
  have hsize := ne_of_find? (PropertyName.zero_notMem _) (by decide) hfind hnames.size
  obtain rfl := Option.some.inj (hfind.symm.trans hnames.mask)
  rw [readChild, if_neg hpname, if_neg hsize, if_pos rfl, wordValue_be32]
  rfl

theorem takes_childPhandle (hnames : Names.Of s names) (node : PartitionsNode) (child : Child)
    (value : UInt32) :
    Takes s names [.word PropertyName.phandle.bytes value] (node, some child)
      (node, some { child with record := { child.record with phandle := value } }) := by
  refine takes_inside ?_
  intro offset nameOffset hfind
  have hpname := ne_of_find? (PropertyName.zero_notMem _) (by decide) hfind hnames.pname
  have hsize := ne_of_find? (PropertyName.zero_notMem _) (by decide) hfind hnames.size
  have hmask := ne_of_find? (PropertyName.zero_notMem _) (by decide) hfind hnames.mask
  obtain rfl := Option.some.inj (hfind.symm.trans hnames.phandle)
  rw [readChild, if_neg hpname, if_neg hsize, if_neg hmask, if_pos rfl, wordValue_be32]
  rfl

theorem takes_childLinuxPhandle (hnames : Names.Of s names) (node : PartitionsNode)
    (child : Child) (value : UInt32) :
    Takes s names [.word PropertyName.linuxPhandle.bytes value] (node, some child)
      (node, some { child with record := { child.record with linuxPhandle := value } }) := by
  refine takes_inside ?_
  intro offset nameOffset hfind
  have hpname := ne_of_find? (PropertyName.zero_notMem _) (by decide) hfind hnames.pname
  have hsize := ne_of_find? (PropertyName.zero_notMem _) (by decide) hfind hnames.size
  have hmask := ne_of_find? (PropertyName.zero_notMem _) (by decide) hfind hnames.mask
  have hphandle := ne_of_find? (PropertyName.zero_notMem _) (by decide) hfind hnames.phandle
  have hlinux : some nameOffset = names.linuxPhandle := hfind.symm.trans hnames.linuxPhandle
  rw [readChild, if_neg hpname, if_neg hsize, if_neg hmask, if_neg hphandle, if_pos hlinux,
    wordValue_be32]
  rfl

theorem closeChild_of_writable {child : Child} (hr : Writable paired r) (h : child.record = r) :
    closeChild child = .ok r := by
  have hsame : ¬ (r.phandle ≠ 0 ∧ r.linuxPhandle ≠ 0 ∧ r.phandle ≠ r.linuxPhandle) := by
    rintro ⟨-, hlinux, hne⟩
    rw [hr.linuxPhandle_eq] at hlinux hne
    cases paired with
    | true => exact hne rfl
    | false => exact hlinux rfl
  rw [closeChild, h]
  exact if_neg hsame

/-- The tokens inside a child bring a child that has only its name to the record. -/
theorem takes_childContent (hnames : Names.Of s names) (node : PartitionsNode)
    (hr : Writable paired r) (start : Nat) :
    Takes s names
      ([Emission.text PropertyName.pname.bytes (Utf8.encode r.name),
        Emission.longWord PropertyName.size.bytes r.size,
        Emission.word PropertyName.mask.bytes r.mask,
        Emission.word PropertyName.phandle.bytes r.phandle] ++
        (if paired then [Emission.word PropertyName.linuxPhandle.bytes r.linuxPhandle] else []) ++
        [Emission.endNode])
      (node, some ⟨Utf8.encode r.name, start, { name := r.name, size := 0, mask := 0 }⟩)
      ({ node with records := node.records ++ [r] }, none) := by
  let opened : Child := ⟨Utf8.encode r.name, start, { name := r.name, size := 0, mask := 0 }⟩
  have hpname : Takes s names [.text PropertyName.pname.bytes opened.name] (node, some opened)
      (node, some opened) := takes_pname hnames node hr.zero_notMem hr.length_lt
  have hsize := hpname.append (takes_size hnames node _ r.size)
  have hmask := hsize.append (takes_mask hnames node _ r.mask)
  have hphandle := hmask.append (takes_childPhandle hnames node _ r.phandle)
  have hlinux := hr.linuxPhandle_eq
  cases paired with
  | true =>
      have hall := hphandle.append (takes_childLinuxPhandle hnames node _ r.linuxPhandle)
      exact hall.append (takes_endNode (closeChild_of_writable hr rfl))
  | false =>
      refine hphandle.append (takes_endNode (closeChild_of_writable hr ?_))
      cases r
      simp only [Bool.false_eq_true, if_false] at hlinux
      subst hlinux
      rfl

theorem takes_child (hnames : Names.Of s names) (node : PartitionsNode)
    (hr : Writable paired r) (hroom : node.records.length < maxPartitions) :
    Takes s names (childEmissions paired r) (node, none)
      ({ node with records := node.records ++ [r] }, none) := by
  intro stop start steps rest hreads
  cases hreads with
  | @cons _ step _ steps hfirst hinside =>
      generalize htoken : step.token = t at hfirst
      cases hfirst with
      | beginNode =>
          have hshort : ¬ nameFieldLength ≤ (Utf8.encode r.name).length :=
            Nat.not_le.mpr hr.length_lt
          have hopen : openChild (Utf8.encode r.name) step.stop =
              .ok ⟨Utf8.encode r.name, step.stop, { name := r.name, size := 0, mask := 0 }⟩ := by
            simp only [openChild, hshort, if_false, Utf8.decodeLossy_encode]
          have hcontent := takes_childContent hnames node hr step.stop stop start steps rest hinside
          simp only [List.cons_append, readTokens, htoken, Nat.not_le.mpr hroom, if_false, hopen]
          exact hcontent

theorem takes_children (hnames : Names.Of s names) (node : PartitionsNode)
    (hrs : ∀ r ∈ rs, Writable paired r) (hroom : node.records.length + rs.length ≤ maxPartitions) :
    Takes s names (rs.flatMap (childEmissions paired)) (node, none)
      ({ node with records := node.records ++ rs }, none) := by
  induction rs generalizing node with
  | nil =>
      rw [List.append_nil]
      exact .nil _
  | cons r rs ih =>
      obtain ⟨hr, hrs⟩ := List.forall_mem_cons.mp hrs
      rw [List.length_cons] at hroom
      have hchild := takes_child hnames node hr (by omega)
      have hothers := ih { node with records := node.records ++ [r] } hrs (by
        rw [List.length_append, List.length_singleton]
        omega)
      rw [List.append_assoc] at hothers
      exact hchild.append hothers

/-! ## The whole node -/

/-- The emissions of a node between its name and its end. -/
def content (previous : PartitionsNode) (paired : Bool) (rs : List Record) : List Emission :=
  [Emission.word PropertyName.parts.bytes (UInt32.ofNat rs.length)] ++
    rs.zipIdx.map (fun (r, i) => Emission.word (referenceName i) r.phandle) ++
    (if previous.phandle = 0 then []
      else [Emission.word PropertyName.phandle.bytes previous.phandle]) ++
    (if previous.linuxPhandle = 0 then []
      else [Emission.word PropertyName.linuxPhandle.bytes previous.linuxPhandle]) ++
    rs.flatMap (childEmissions paired)

theorem emissions_eq (previous : PartitionsNode) (paired : Bool) (rs : List Record) :
    emissions previous paired rs =
      .beginNode nodeName :: (content previous paired rs ++ [.endNode]) := rfl

theorem takes_content (hnames : Names.Of s names) (previous : PartitionsNode)
    (hrs : ∀ r ∈ rs, Writable paired r) (hlen : rs.length ≤ maxPartitions) :
    ∃ references : Vector UInt32 maxPartitions, rs.map Record.phandle <+: references.toList ∧
      Takes s names (content previous paired rs) (empty, none)
        (⟨rs, references, previous.phandle, previous.linuxPhandle, UInt32.ofNat rs.length⟩,
          none) := by
  have hparts := takes_parts hnames empty (UInt32.ofNat rs.length)
  obtain ⟨references, hreferences, hlist⟩ := takes_references hnames
    { empty with declared := UInt32.ofNat rs.length } rs (k := 0) (by omega)
  refine ⟨references, ?_, ?_⟩
  · rw [hlist, List.take_zero, List.nil_append]
    exact List.prefix_append _ _
  · have hphandle : Takes s names
        (if previous.phandle = 0 then []
          else [Emission.word PropertyName.phandle.bytes previous.phandle])
        (⟨[], references, 0, 0, UInt32.ofNat rs.length⟩, none)
        (⟨[], references, previous.phandle, 0, UInt32.ofNat rs.length⟩, none) := by
      by_cases hzero : previous.phandle = 0
      · rw [if_pos hzero, hzero]
        exact .nil _
      · rw [if_neg hzero]
        exact takes_phandle hnames _ _
    have hlinux : Takes s names
        (if previous.linuxPhandle = 0 then []
          else [Emission.word PropertyName.linuxPhandle.bytes previous.linuxPhandle])
        (⟨[], references, previous.phandle, 0, UInt32.ofNat rs.length⟩, none)
        (⟨[], references, previous.phandle, previous.linuxPhandle, UInt32.ofNat rs.length⟩,
          none) := by
      by_cases hzero : previous.linuxPhandle = 0
      · rw [if_pos hzero, hzero]
        exact .nil _
      · rw [if_neg hzero]
        exact takes_linuxPhandle hnames _ _
    have hchildren := takes_children hnames
      ⟨[], references, previous.phandle, previous.linuxPhandle, UInt32.ofNat rs.length⟩ hrs
      (by simpa using hlen)
    exact (((hparts.append hreferences).append hphandle).append hlinux).append hchildren

/-- **What is read from a node that was written**, whatever stands behind it. -/
theorem readTokens_content (hnames : Names.Of s names) (previous : PartitionsNode)
    (hrs : ∀ r ∈ rs, Writable paired r) (hlen : rs.length ≤ maxPartitions) :
    ∃ references : Vector UInt32 maxPartitions, rs.map Record.phandle <+: references.toList ∧
      ∀ (stop : FormatError) (start : Nat) (steps rest : List Step),
        List.Forall₂ (fun e step => e.ReadsAs s step.token)
          (content previous paired rs ++ [.endNode]) steps →
        readTokens stop start s names empty none (steps ++ rest) =
          .ok ⟨rs, references, previous.phandle, previous.linuxPhandle,
            UInt32.ofNat rs.length⟩ := by
  obtain ⟨references, hprefix, htakes⟩ := takes_content hnames previous hrs hlen
  refine ⟨references, hprefix, ?_⟩
  intro stop start steps rest hreads
  obtain ⟨steps₁, steps₂, rfl, hcontent, hend⟩ := forall₂_split hreads
  rw [List.append_assoc, htakes stop start steps₁ _ hcontent]
  cases hend with
  | @cons _ step _ _ hstep hnil =>
      cases hnil
      generalize htoken : step.token = t at hstep
      cases hstep with
      | endNode => simp only [List.cons_append, readTokens, htoken]

theorem legal_word {name : Bytes} (hname : 0 ∉ name) (value : UInt32) :
    (Emission.word name value).Legal := by
  refine ⟨hname, ?_⟩
  rw [Bytes.length_be32]
  decide

theorem legal_childEmissions (hr : Writable paired r) :
    ∀ e ∈ childEmissions paired r, e.Legal := by
  have hlt : nameFieldLength = 16 := rfl
  have hlen := hr.length_lt
  have hlinux : ∀ e ∈ (if paired then
      [Emission.word PropertyName.linuxPhandle.bytes r.linuxPhandle] else []), e.Legal := by
    intro e he
    cases paired with
    | true =>
        rw [if_pos rfl, List.mem_singleton] at he
        subst he
        exact legal_word (PropertyName.zero_notMem _) _
    | false => exact absurd he (by simp)
  intro e he
  simp only [childEmissions, List.mem_append, List.mem_cons, List.not_mem_nil, or_false] at he
  rcases he with ((rfl | rfl | rfl | rfl | rfl) | he) | rfl
  · refine ⟨hr.zero_notMem, ?_⟩
    have hmax : maxNodeName = 256 := rfl
    omega
  · refine ⟨PropertyName.zero_notMem _, ?_⟩
    have hsize : UInt32.size = 4294967296 := rfl
    rw [List.length_append, List.length_singleton]
    omega
  · refine ⟨PropertyName.zero_notMem _, ?_⟩
    rw [Bytes.length_be64]
    decide
  · exact legal_word (PropertyName.zero_notMem _) _
  · exact legal_word (PropertyName.zero_notMem _) _
  · exact hlinux e he
  · trivial

theorem legal_emissions (previous : PartitionsNode) (hrs : ∀ r ∈ rs, Writable paired r) :
    ∀ e ∈ emissions previous paired rs, e.Legal := by
  intro e he
  simp only [emissions_eq, content, List.mem_cons, List.mem_append, List.not_mem_nil,
    or_false] at he
  rcases he with rfl | ((((rfl | he) | he) | he) | he) | rfl
  · exact ⟨by decide, by decide⟩
  · exact legal_word (PropertyName.zero_notMem _) _
  · obtain ⟨⟨r, i⟩, -, rfl⟩ := List.mem_map.mp he
    exact legal_word (zero_notMem_referenceName i) _
  · split at he
    · exact absurd he (by simp)
    · rw [List.mem_singleton] at he
      subst he
      exact legal_word (PropertyName.zero_notMem _) _
  · split at he
    · exact absurd he (by simp)
    · rw [List.mem_singleton] at he
      subst he
      exact legal_word (PropertyName.zero_notMem _) _
  · obtain ⟨r, hr, he⟩ := List.mem_flatMap.mp he
    exact legal_childEmissions (hrs r hr) e he
  · trivial

/-! ## Sorting -/

/-- Records that have the handles wanted in their places stay. -/
theorem arrange_of_prefix {wanted : List UInt32} (h : rs.map Record.handle <+: wanted) :
    arrange wanted rs = (rs, 0) := by
  induction rs generalizing wanted with
  | nil =>
      cases wanted with
      | nil => rfl
      | cons w more => rfl
  | cons r rs ih =>
      obtain ⟨rest, rfl⟩ := h
      rw [List.map_cons, List.cons_append, arrange, if_pos rfl, ih (List.prefix_append _ rest)]

theorem map_handle_of_writable (hrs : ∀ r ∈ rs, Writable paired r) :
    rs.map Record.handle = rs.map Record.phandle :=
  List.map_congr_left fun r hr => if_neg (hrs r hr).phandle_ne

theorem sortedRecords_of_prefix {node : PartitionsNode}
    (hlen : node.records.length ≤ maxPartitions)
    (h : node.records.map Record.handle <+: node.references.toList) :
    node.sortedRecords = (node.records, 0) := by
  rw [sortedRecords, List.take_of_length_le hlen, arrange_of_prefix h,
    List.drop_eq_nil_of_le hlen]
  simp only [List.append_nil]

/-! ## Reading from a tree -/

theorem pathNames_partitions : pathNames "/partitions" = [nodeName] := by
  decide +kernel

/-- The node is the first child of the root that has its name. -/
theorem locate_eq_ok_iff {t : DeviceTree} {place : Node} :
    locate t = .ok place ↔
      ∃ root, t.root = .ok root ∧ t.findChild root nodeName = .ok (some place) := by
  have hroot : ("/partitions" : String).toList.head? = some '/' := by decide
  rw [locate, findNode, if_pos hroot, pathNames_partitions]
  cases t.root with
  | error e => simp
  | ok root =>
      cases hchild : t.findChild root nodeName with
      | error e => simp [descend, hchild]
      | ok found =>
          cases found with
          | none => simp [descend, hchild, throw, throwThe, MonadExceptOf.throw]
          | some child => simp [descend, hchild, pure, Except.pure]

theorem read_eq_ok_iff {t : DeviceTree} {place : Node} {node : PartitionsNode} :
    (read t place).result = .ok node ↔
      place.name = nodeName ∧ ∃ names, Names.Of t.stringsBlock names ∧
        readTokens (t.runAt place.body).failure place.start t.stringsBlock names empty none
          (t.runAt place.body).steps = .ok node ∧
        UInt32.ofNat node.records.length = node.declared := by
  unfold read
  simp only [Outcome.throw_bind, Outcome.result_throw_guard_eq_ok_iff,
    Outcome.result_bind_eq_ok_iff, Outcome.result_lift, Names.ofStrings_eq_ok_iff,
    Decidable.not_not]
  constructor
  · rintro ⟨hname, names, hnames, found, hread, hcount, -, -, h⟩
    obtain rfl := Except.ok.inj h
    exact ⟨hname, names, hnames, hread, hcount⟩
  · rintro ⟨hname, names, hnames, hread, hcount⟩
    exact ⟨hname, names, hnames, node, hread, hcount, (), rfl, rfl⟩

theorem ofTree_eq_ok_iff {t : DeviceTree} {node : PartitionsNode} :
    (ofTree t).result = .ok node ↔
      ∃ place found, locate t = .ok place ∧ (read t place).result = .ok found ∧
        node = { found with records := found.sortedRecords.1 } := by
  unfold ofTree sort
  simp only [Outcome.result_bind_eq_ok_iff, Outcome.result_lift]
  constructor
  · rintro ⟨place, hplace, found, hfound, -, -, h⟩
    exact ⟨place, found, hplace, hfound, (Except.ok.inj h).symm⟩
  · rintro ⟨place, found, hplace, hfound, rfl⟩
    exact ⟨place, hplace, found, hfound, (), rfl, rfl⟩

end PartitionsNode

end EmmcLayout.DeviceTree
