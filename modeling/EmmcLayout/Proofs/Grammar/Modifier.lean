import EmmcLayout.Grammar.Modifier
import EmmcLayout.Proofs.Grammar.Rules
import EmmcLayout.Proofs.Number.Grammar

/-!
# Modifiers read back

A modifier as a text has a selector, an operator and an operand.  The reader ends the selector at
the first operator (`parseModifier_of_split`, `split_of_parseModifier`) and reads what stands on
either side of it on its own: the selector is a position when it starts like one and a name
otherwise, and each operation has an operand that reads back (`parseOperation_operand`).

`parseModifier_round_trip` is the main statement: what was read is read again from its text, and so
is every modifier that a caller can put together.  A sign means four things here, and nothing at
all in front of a position, so the extremes of the words are where this could break.
-/

namespace EmmcLayout

/-! ## Signed numbers -/

namespace Literal

/-- A number as it is printed is a decimal literal of itself. -/
theorem numeral_toString (n : Nat) : Numeral 10 (toString n).toList n := by
  rw [toList_toString]
  refine .decimal ?_ ?_
  · rw [spells_iff (by decide)]
    exact ⟨Nat.toDigits_ne_nil, fun c hc => isDigitOf_of_mem_toDigits (by decide) (by decide) hc,
      digitsValue_toDigits (by decide) (by decide) n⟩
  · rintro c rest hdigits
    have hzero : n = 0 := by
      by_contra hn
      have hhead : (Nat.toDigits 10 n).head? ≠ some '0' := head?_toDigits (by decide) hn
      exact hhead (by rw [hdigits]; rfl)
    rw [hzero] at hdigits
    exact absurd hdigits (by simp)

theorem toList_toString_int (z : Int) :
    (toString z).toList = if z < 0 then '-' :: (toString z.natAbs).toList
      else (toString z.natAbs).toList := by
  cases z with
  | ofNat n => rfl
  | negSucc n =>
    rw [if_pos (Int.negSucc_lt_zero n)]
    show ("-" ++ toString (n + 1)).toList = _
    rw [String.toList_append]
    rfl

/-- The first character of a number that is not negative is a digit. -/
theorem exists_toString_eq_cons (n : Nat) :
    ∃ c cs, (toString n).toList = c :: cs ∧ c.isDigit = true := by
  have hnumeral := numeral_toString n
  cases hdigits : (toString n).toList with
  | nil => exact absurd hdigits (by simp)
  | cons c cs =>
    rw [hdigits] at hnumeral
    exact ⟨c, cs, rfl, hnumeral.isDigit_head⟩

theorem signedText_toString (z : Int) : SignedText (toString z).toList z := by
  rw [toList_toString_int]
  split_ifs with hz
  · have hminus := SignedText.minus (numeral_toString z.natAbs)
    rwa [Int.ofNat_natAbs_of_nonpos (Int.le_of_lt hz), Int.neg_neg] at hminus
  · have hbare := SignedText.bare (numeral_toString z.natAbs)
    rwa [Int.natAbs_of_nonneg (Int.not_lt.mp hz)] at hbare

theorem signedText_plus_toString {z : Int} (hz : ¬ z < 0) :
    SignedText ('+' :: (toString z).toList) z := by
  have hplus := SignedText.plus (numeral_toString z.natAbs)
  rw [toList_toString_int, if_neg hz]
  rwa [Int.natAbs_of_nonneg (Int.not_lt.mp hz)] at hplus

end Literal

theorem parseI64_toString (z : Int64) : parseI64 (toString z.toInt) = .ok z :=
  parseI64_eq_ok_iff.mpr (Literal.signedText_toString z.toInt)

/-! ## Modifiers as arguments -/

/-- A change as a field of an argument. -/
def Change.text : Change → String
  | .keep => ""
  | .set value => Snapshot.decimalLiteral value
  | .add value => "+" ++ Snapshot.decimalLiteral value
  | .subtract value => "-" ++ Snapshot.decimalLiteral value

/-- The fields of an adjustment as an argument; what stays is empty. -/
def Adjustment.text (a : Adjustment) : String :=
  a.name.getD "" ++ ":" ++ a.offset.text ++ ":" ++ a.size.text ++ ":" ++ maskFieldText a.mask

/-- A placement as an argument. -/
def Placement.text : Placement → String
  | .stay => "+0"
  | .absolute place => "=" ++ toString place.toInt
  | .relative delta =>
    if delta.toInt < 0 then toString delta.toInt else "+" ++ toString delta.toInt

/-- The operator of an operation. -/
def Operation.operator : Operation → Char
  | .adjust _ => ':'
  | .delete => '?'
  | .clone _ => '%'
  | .place _ => '@'

/-- What stands behind the operator. -/
def Operation.operand : Operation → String
  | .adjust a => a.text
  | .delete => ""
  | .clone name => name
  | .place placement => placement.text

/-- A modifier as an argument. -/
def Modifier.text (m : Modifier) : String :=
  "^" ++ m.selector.text ++ m.operation.operator.toString ++ m.operation.operand

/-! ## What can be said -/

/-- Whether the text starts with a digit or a minus sign, as positions do. -/
def startsLikePosition (text : String) : Bool :=
  text.toList.head?.any fun c => c = '-' || c.isDigit

/-- The selector is a position, or a legal name that cannot be taken for one. -/
def Selector.Plain : Selector → Prop
  | .byName name => Name.check name = .ok () ∧ startsLikePosition name = false
  | .byIndex _ => True

/-- The operation is one that an argument can ask for. -/
def Operation.Legal (allowOffset : Bool) : Operation → Prop
  | .adjust a => (∀ name, a.name = some name → Name.check name = .ok ()) ∧
      (allowOffset = true ∨ a.offset = .keep) ∧ ∀ mask, a.mask = some mask → Grammar.IsMask mask
  | .delete => True
  | .clone name => Name.check name = .ok ()
  | .place placement => placement ≠ .relative 0

/-- A position, or a name in which no operator stands, that cannot be taken for a position and is
not too long.  Such a name may be illegal. -/
def Selector.Readable : Selector → Prop
  | .byName name => name ≠ "" ∧ startsLikePosition name = false ∧
      (∀ c ∈ name.toList, Grammar.isOperator c = false) ∧
        ∀ length, Name.check name ≠ .error (.tooLong length)
  | .byIndex _ => True

namespace Grammar

variable {allowOffset : Bool} {arg text : String} {m : Modifier} {operation : Operation}
  {selector : Selector} {operator : Char} {front behind : List Char}

/-! ## Where a modifier is cut -/

theorem parseModifier_of_split (harg : arg.toList = '^' :: (front ++ operator :: behind))
    (hne : front ≠ []) (hfront : ∀ c ∈ front, isOperator c = false)
    (hoperator : isOperator operator = true) :
    parseModifier allowOffset arg = (do
      let selector ← parseSelector (String.ofList front) arg
      let operation ← parseOperation allowOffset operator (String.ofList behind) arg
      return ⟨selector, operation⟩) := by
  obtain ⟨first, rest, rfl⟩ := List.exists_cons_of_ne_nil hne
  obtain ⟨hfirst, hrest⟩ := List.forall_mem_cons.mp hfront
  have hpass : ∀ c ∈ rest, (!isOperator c) = true := fun c hc => by rw [hrest c hc]; rfl
  have hstop : (!isOperator operator) = false := by rw [hoperator]; rfl
  unfold parseModifier
  rw [harg, List.cons_append]
  simp only [hfirst, Bool.false_eq_true, if_false, List.dropWhile_append_of_pos hpass,
    List.takeWhile_append_of_pos hpass, List.dropWhile_cons, List.takeWhile_cons, hstop,
    List.append_nil]

theorem split_of_parseModifier (h : (parseModifier allowOffset arg).result = .ok m) :
    ∃ front operator behind, arg.toList = '^' :: (front ++ operator :: behind) ∧ front ≠ [] ∧
      (∀ c ∈ front, isOperator c = false) ∧ isOperator operator = true ∧
        (parseSelector (String.ofList front) arg).result = .ok m.selector ∧
          parseOperation allowOffset operator (String.ofList behind) arg = .ok m.operation := by
  unfold parseModifier at h
  split at h
  · rename_i first rest harg
    rw [Outcome.result_throw_guard_eq_ok_iff] at h
    obtain ⟨hfirst, h⟩ := h
    split at h
    · simp at h
    · rename_i operator behind hrest
      simp only [Outcome.result_bind_eq_ok_iff, Outcome.result_lift] at h
      obtain ⟨selector, hselector, operation, hoperation, hm⟩ := h
      obtain rfl := Except.ok.inj hm
      refine ⟨first :: rest.takeWhile (!isOperator ·), operator, behind, ?_, by simp, ?_, ?_,
        hselector, hoperation⟩
      · rw [harg, List.cons_append, ← hrest, List.takeWhile_append_dropWhile]
      · refine List.forall_mem_cons.mpr ⟨by simpa using hfirst, fun c hc => ?_⟩
        simpa using List.mem_takeWhile_imp hc
      · have hhead := List.head?_dropWhile_not (!isOperator ·) rest
        rw [hrest] at hhead
        simpa using hhead
  · simp at h

/-! ## Selectors -/

theorem isOperator_iff {c : Char} :
    isOperator c = true ↔ c = ':' ∨ c = '?' ∨ c = '%' ∨ c = '@' := by
  simp [isOperator, or_assoc]

/-- No operator stands in a number. -/
theorem isOperator_of_mem_toString {z : Int} {c : Char} (hc : c ∈ (toString z).toList) :
    isOperator c = false := by
  have hsigned : c = '-' ∨ c ∈ (toString z.natAbs).toList := by
    rw [Literal.toList_toString_int] at hc
    split_ifs at hc
    · exact List.mem_cons.mp hc
    · exact .inr hc
  by_contra hoperator
  rw [Bool.not_eq_false, isOperator_iff] at hoperator
  rcases hsigned with rfl | hdigit
  · exact absurd hoperator (by decide)
  · rcases hoperator with rfl | rfl | rfl | rfl
    all_goals exact Literal.notMem_toString (by decide) _ hdigit

/-- No operator stands in a legal name. -/
theorem isOperator_of_mem_name {name : String} (hname : Name.check name = .ok ()) {c : Char}
    (hc : c ∈ name.toList) : isOperator c = false := by
  by_contra hoperator
  rw [Bool.not_eq_false, isOperator_iff] at hoperator
  rcases hoperator with rfl | rfl | rfl | rfl
  all_goals exact Name.notMem_of_check hname (by decide) hc

theorem startsLikePosition_toString (z : Int) : startsLikePosition (toString z) = true := by
  obtain ⟨c, cs, hdigits, hc⟩ := Literal.exists_toString_eq_cons z.natAbs
  rw [startsLikePosition, Literal.toList_toString_int]
  split_ifs
  · rfl
  · rw [hdigits]
    simp [hc]

theorem ne_empty_of_position (h : startsLikePosition text = true) : text ≠ "" := by
  rintro rfl
  exact absurd h (by decide)

/-- The first character decides between position and name. -/
theorem exists_head (hne : text ≠ "") : ∃ c cs, text.toList = c :: cs ∧
    (startsLikePosition text = true ↔ c = '-' ∨ c.isDigit = true) := by
  cases htext : text.toList with
  | nil => exact absurd (by simpa using htext) hne
  | cons c cs => exact ⟨c, cs, rfl, by simp [startsLikePosition, htext]⟩

theorem parseSelector_of_position (h : startsLikePosition text = true) :
    parseSelector text arg = (do
      let index ← parseI64 text
      return .byIndex index) := by
  obtain ⟨c, cs, htext, hstarts⟩ := exists_head (ne_empty_of_position h)
  unfold parseSelector
  simp only [htext, hstarts.mp h, if_true]

/-- A text that does not start like a position is a name, unless it is too long for one. -/
theorem parseSelector_of_name (hne : text ≠ "") (h : startsLikePosition text = false) :
    (parseSelector text arg).result = .ok selector ↔
      (∀ length, Name.check text ≠ .error (.tooLong length)) ∧ selector = .byName text := by
  obtain ⟨c, cs, htext, hstarts⟩ := exists_head hne
  have hc : ¬ (c = '-' ∨ c.isDigit = true) := hstarts.not.mp (by simp [h])
  unfold parseSelector
  simp only [htext, hc, if_false]
  split
  · rename_i hname
    simp [hname, eq_comm]
  · rename_i length hname
    simp [hname]
  · rename_i reason hlong hname
    have hshort : ∀ length, reason ≠ .tooLong length := hlong
    simp [hname, hshort, eq_comm]

/-- A legal name leaves no warning. -/
theorem parseSelector_of_check (hname : Name.check text = .ok ())
    (h : startsLikePosition text = false) : parseSelector text arg = pure (.byName text) := by
  obtain ⟨c, cs, htext, hstarts⟩ := exists_head (Name.ne_empty_of_check hname)
  have hc : ¬ (c = '-' ∨ c.isDigit = true) := hstarts.not.mp (by simp [h])
  unfold parseSelector
  simp only [htext, hc, if_false, hname]

theorem parseSelector_of_index (index : Int64) :
    parseSelector (toString index.toInt) arg = pure (.byIndex index) := by
  rw [parseSelector_of_position (startsLikePosition_toString _), parseI64_toString]
  rfl

theorem readable_of_plain (h : selector.Plain) : selector.Readable := by
  cases selector with
  | byIndex index => trivial
  | byName name =>
    obtain ⟨hname, hposition⟩ := h
    refine ⟨Name.ne_empty_of_check hname, hposition, fun c => isOperator_of_mem_name hname, ?_⟩
    rw [hname]
    simp

theorem readable_of_parseSelector (hne : text ≠ "")
    (htext : ∀ c ∈ text.toList, isOperator c = false)
    (h : (parseSelector text arg).result = .ok selector) : selector.Readable := by
  cases hposition : startsLikePosition text with
  | true =>
    rw [parseSelector_of_position hposition, Outcome.result_bind_eq_ok_iff] at h
    obtain ⟨index, -, h⟩ := h
    obtain rfl := Except.ok.inj h
    trivial
  | false =>
    obtain ⟨hlong, rfl⟩ := (parseSelector_of_name hne hposition).mp h
    exact ⟨hne, hposition, htext, hlong⟩

/-- A selector that can be read is read from its text. -/
theorem parseSelector_text (h : selector.Readable) :
    (parseSelector selector.text arg).result = .ok selector := by
  cases selector with
  | byIndex index =>
    rw [Selector.text, parseSelector_of_index]
    rfl
  | byName name =>
    obtain ⟨hne, hposition, -, hlong⟩ := h
    exact (parseSelector_of_name hne hposition).mpr ⟨hlong, rfl⟩

theorem parseSelector_of_plain (h : selector.Plain) :
    parseSelector selector.text arg = pure selector := by
  cases selector with
  | byIndex index => exact parseSelector_of_index index
  | byName name => exact parseSelector_of_check h.1 h.2

/-- The text of a selector is not empty, and nothing in it ends the selector. -/
theorem text_of_readable (h : selector.Readable) :
    selector.text ≠ "" ∧ ∀ c ∈ selector.text.toList, isOperator c = false := by
  cases selector with
  | byIndex index =>
    exact ⟨ne_empty_of_position (startsLikePosition_toString _),
      fun c => isOperator_of_mem_toString⟩
  | byName name => exact ⟨h.1, h.2.2.1⟩

/-! ## Operations -/

/-- Reads the name of an adjustment, which may be left out. -/
def readName (text : String) : Except GrammarError (Option String) :=
  if text = "" then pure none else do
    checkName text
    return some text

theorem colon_notMem_change (change : Change) : ':' ∉ change.text.toList := by
  have hdigits : ∀ value, ':' ∉ (Snapshot.decimalLiteral value).toList := fun value =>
    style_decimalLiteral.notMem (by decide) value
  cases change <;> simp [Change.text, hdigits]

theorem parseChange_text (field : Field) (change : Change) :
    parseChange field change.text = .ok change := by
  have hread := style_decimalLiteral.parseSize_eq
  have hdigits : ∀ value, (Snapshot.decimalLiteral value).toList ≠ [] := fun value => by
    simpa using style_decimalLiteral.ne_empty value
  cases change with
  | keep => rfl
  | set value =>
    have hsigns : ∀ c, c.isAlphanum = false → ∀ cs,
        (Change.set value).text.toList ≠ c :: cs := by
      intro c hc cs htext
      refine style_decimalLiteral.notMem hc value ?_
      show c ∈ (Change.set value).text.toList
      rw [htext]
      exact List.mem_cons_self
    unfold parseChange
    split
    · rename_i hempty
      exact absurd hempty (hdigits value)
    · rename_i hplus
      exact absurd hplus (hsigns '+' (by decide) _)
    · rename_i hminus
      exact absurd hminus (hsigns '-' (by decide) _)
    · rw [Change.text, hread]
      rfl
  | add value =>
    have htext : (Change.add value).text.toList =
        '+' :: (Snapshot.decimalLiteral value).toList := by
      simp [Change.text]
    unfold parseChange
    rw [htext]
    simp only [hdigits, if_false, String.ofList_toList, hread]
    rfl
  | subtract value =>
    have htext : (Change.subtract value).text.toList =
        '-' :: (Snapshot.decimalLiteral value).toList := by
      simp [Change.text]
    unfold parseChange
    rw [htext]
    simp only [hdigits, if_false, String.ofList_toList, hread]
    rfl

theorem parsePlacement_text {placement : Placement} (h : placement ≠ .relative 0) :
    parsePlacement placement.text = .ok placement := by
  cases placement with
  | stay => decide +kernel
  | absolute place =>
    have htext : (Placement.absolute place).text.toList = '=' :: (toString place.toInt).toList := by
      simp [Placement.text]
    unfold parsePlacement
    rw [htext]
    simp only [String.ofList_toList, parseI64_toString]
    rfl
  | relative delta =>
    have hdelta : delta ≠ 0 := fun hzero => h (hzero ▸ rfl)
    have hread : parseI64 (Placement.relative delta).text = .ok delta := by
      rw [parseI64_eq_ok_iff, Placement.text]
      split_ifs with hsign
      · exact Literal.signedText_toString _
      · rw [String.toList_append]
        exact Literal.signedText_plus_toString hsign
    have hsigned : ∃ cs, (Placement.relative delta).text.toList = '-' :: cs ∨
        (Placement.relative delta).text.toList = '+' :: cs := by
      rw [Placement.text]
      split_ifs with hsign
      · rw [Literal.toList_toString_int, if_pos hsign]
        exact ⟨_, .inl rfl⟩
      · rw [String.toList_append]
        exact ⟨_, .inr rfl⟩
    obtain ⟨cs, htext | htext⟩ := hsigned
    all_goals
      unfold parsePlacement
      rw [htext]
      simp only [hread, Outcome.ok_bind, hdelta, if_false]
      rfl

theorem ne_relative_zero_of_parsePlacement {placement : Placement}
    (h : parsePlacement text = .ok placement) : placement ≠ .relative 0 := by
  have hrelative : ∀ {placement}, (do
      let delta ← parseI64 text
      return if delta = 0 then .stay else .relative delta : Except GrammarError Placement) =
        .ok placement → placement ≠ .relative 0 := by
    intro placement h
    obtain ⟨delta, -, hdelta⟩ := Outcome.bind_eq_ok_iff.mp h
    obtain rfl := Except.ok.inj hdelta
    split_ifs with hzero
    · simp
    · simpa using hzero
  have habsolute : ∀ {literal : String} {placement},
      Placement.absolute <$> parseI64 literal = .ok placement → placement ≠ .relative 0 := by
    intro literal placement h
    obtain ⟨place, -, rfl⟩ := Outcome.map_eq_ok_iff.mp h
    simp
  unfold parsePlacement at h
  split at h
  · exact habsolute h
  · exact hrelative h
  · exact hrelative h
  · exact habsolute h

theorem parseAdjustment_eq_ok_iff {a : Adjustment} :
    parseAdjustment allowOffset text arg = .ok a ↔
      ∃ f, fields text = .ok f ∧ (f.offset ≠ "" → allowOffset = true) ∧
        readName f.name = .ok a.name ∧ readMask none true f.mask arg = .ok a.mask ∧
          parseChange .offset f.offset = .ok a.offset ∧
            parseChange .size f.size = .ok a.size := by
  have hread : parseAdjustment allowOffset text arg = (do
      let f ← fields text
      (if f.offset ≠ "" ∧ !allowOffset then .error (.disallowed .offset arg) else pure ())
      let name ← readName f.name
      let mask ← readMask none true f.mask arg
      let offset ← parseChange .offset f.offset
      let size ← parseChange .size f.size
      return ⟨name, offset, size, mask⟩) := by
    unfold parseAdjustment readName readMask
    refine bind_congr fun f => ?_
    split_ifs <;> first | rfl | (cases checkName f.name <;> rfl)
  simp only [hread, Outcome.bind_eq_ok_iff]
  constructor
  · rintro ⟨f, hf, ⟨⟩, hoffset, name, hname, mask, hmask, offset, ho, size, hs, h⟩
    obtain rfl := Except.ok.inj h
    refine ⟨f, hf, fun hne => ?_, hname, hmask, ho, hs⟩
    by_contra hforbidden
    rw [if_pos ⟨hne, by simpa using hforbidden⟩] at hoffset
    exact absurd hoffset (by simp)
  · rintro ⟨f, hf, hoffset, hname, hmask, ho, hs⟩
    refine ⟨f, hf, (), if_neg ?_, a.name, hname, a.mask, hmask, a.offset, ho, a.size, hs, rfl⟩
    rintro ⟨hne, hforbidden⟩
    simp [hoffset hne] at hforbidden

theorem check_of_readName {name : String} (h : readName text = .ok (some name)) :
    Name.check name = .ok () := by
  unfold readName at h
  split_ifs at h
  · exact absurd (Except.ok.inj h) (by simp)
  · obtain ⟨⟨⟩, hchecked, h⟩ := Outcome.bind_eq_ok_iff.mp h
    obtain rfl := Option.some.inj (Except.ok.inj h)
    exact Outcome.mapError_eq_ok_iff.mp hchecked

theorem legal_of_parseAdjustment {a : Adjustment}
    (h : parseAdjustment allowOffset text arg = .ok a) :
    (Operation.adjust a).Legal allowOffset := by
  obtain ⟨f, -, hallowed, hname, hmask, ho, -⟩ := parseAdjustment_eq_ok_iff.mp h
  refine ⟨fun name heq => check_of_readName (heq ▸ hname), ?_, fun mask heq => ?_⟩
  · by_cases hoffset : f.offset = ""
    · rw [hoffset] at ho
      exact .inr (Except.ok.inj ho).symm
    · exact .inl (hallowed hoffset)
  · rcases mask_of_readMask hmask with ⟨-, hnone⟩ | ⟨m, hsome, hknown⟩
    · exact absurd (heq.symm.trans hnone) (by simp)
    · obtain rfl := Option.some.inj (heq.symm.trans hsome)
      exact isMask_iff.mpr hknown

/-- What is read as an operation is one that an argument can ask for. -/
theorem legal_of_parseOperation (h : parseOperation allowOffset operator text arg = .ok operation) :
    operation.Legal allowOffset := by
  unfold parseOperation at h
  split_ifs at h with hdelete hempty hempty hclone hplace
  · obtain rfl := Except.ok.inj h
    trivial
  · obtain ⟨⟨⟩, hname, h⟩ := Outcome.bind_eq_ok_iff.mp h
    obtain rfl := Except.ok.inj h
    rw [checkCloneName_eq] at hname
    exact Outcome.mapError_eq_ok_iff.mp hname
  · obtain ⟨placement, hplacement, rfl⟩ := Outcome.map_eq_ok_iff.mp h
    exact ne_relative_zero_of_parsePlacement hplacement
  · obtain ⟨a, ha, rfl⟩ := Outcome.map_eq_ok_iff.mp h
    exact legal_of_parseAdjustment ha

theorem parseAdjustment_text {a : Adjustment} (h : (Operation.adjust a).Legal allowOffset) :
    parseAdjustment allowOffset a.text arg = .ok a := by
  obtain ⟨hname, hoffset, hmask⟩ := h
  have hcolon : ':' ∉ (a.name.getD "").toList := by
    cases heq : a.name with
    | none => simp
    | some name => exact Name.notMem_of_check (hname name heq) (by decide)
  refine parseAdjustment_eq_ok_iff.mpr ⟨_, fields_of_parts hcolon (colon_notMem_change _)
    (colon_notMem_change _) _, fun hne => ?_, ?_, ?_, parseChange_text _ _, parseChange_text _ _⟩
  · refine hoffset.resolve_right fun hkeep => hne ?_
    rw [hkeep]
    rfl
  · unfold readName
    cases heq : a.name with
    | none => rfl
    | some name =>
      rw [Option.getD_some, if_neg (Name.ne_empty_of_check (hname name heq)),
        checkName_of_check (hname name heq)]
      rfl
  · cases heq : a.mask with
    | none => rfl
    | some mask => exact (readMask_maskFieldText none arg (isMask_iff.mp (hmask mask heq))).2

theorem placement_text_ne_empty (placement : Placement) : placement.text ≠ "" := by
  cases placement with
  | stay => decide
  | absolute place => simp [Placement.text]
  | relative delta =>
    rw [Placement.text]
    split_ifs with hsign
    · rw [ne_eq, ← String.toList_inj, Literal.toList_toString_int, if_pos hsign]
      simp
    · simp

/-- An operation is read from its operand behind its operator. -/
theorem parseOperation_operand (h : operation.Legal allowOffset) :
    parseOperation allowOffset operation.operator operation.operand arg = .ok operation := by
  cases operation with
  | delete => rfl
  | clone name =>
    have hne : name ≠ "" := Name.ne_empty_of_check h
    simp only [parseOperation, Operation.operator, Operation.operand, hne, if_false,
      checkCloneName_eq, checkName_of_check h]
    rfl
  | place placement =>
    simp only [parseOperation, Operation.operator, Operation.operand, placement_text_ne_empty,
      if_false, parsePlacement_text h]
    rfl
  | adjust a =>
    have hne : a.text ≠ "" := by
      simp [Adjustment.text]
    simp only [parseOperation, Operation.operator, Operation.operand, hne, if_false,
      parseAdjustment_text h]
    rfl

theorem isOperator_operator (operation : Operation) : isOperator operation.operator = true := by
  cases operation <;> rfl

/-! ## Modifiers -/

/-- The text of a modifier is cut into its selector and its operation. -/
theorem parseModifier_eq (hs : m.selector.Readable) (ho : m.operation.Legal allowOffset) :
    parseModifier allowOffset m.text = (do
      let selector ← parseSelector m.selector.text m.text
      return ⟨selector, m.operation⟩) := by
  obtain ⟨hne, htext⟩ := text_of_readable hs
  have hsplit : m.text.toList =
      '^' :: (m.selector.text.toList ++ m.operation.operator :: m.operation.operand.toList) := by
    simp [Modifier.text]
  rw [parseModifier_of_split hsplit (by simpa using hne) htext (isOperator_operator _),
    String.ofList_toList, String.ofList_toList, parseOperation_operand ho]
  rfl

theorem parseModifier_of_plain (hs : m.selector.Plain) (ho : m.operation.Legal allowOffset) :
    parseModifier allowOffset m.text = pure m := by
  rw [parseModifier_eq (readable_of_plain hs) ho, parseSelector_of_plain hs, pure_bind]

/-- **Modifiers read back.**  What was read is read again from its text, and so is every modifier
whose selector is a position or a legal name that does not start like one, and whose operation
obeys the rules; of those nothing is warned about. -/
theorem parseModifier_round_trip (allowOffset : Bool) :
    (∀ arg m, (parseModifier allowOffset arg).result = .ok m →
      (parseModifier allowOffset m.text).result = .ok m) ∧
    ∀ m : Modifier, m.selector.Plain → m.operation.Legal allowOffset →
      parseModifier allowOffset m.text = pure m := by
  constructor
  · intro arg m h
    obtain ⟨front, operator, behind, -, hne, hfront, -, hselector, hoperation⟩ :=
      split_of_parseModifier h
    have hs : m.selector.Readable :=
      readable_of_parseSelector (by simpa using hne) (by simpa using hfront) hselector
    rw [parseModifier_eq hs (legal_of_parseOperation hoperation), Logged.result_bind,
      parseSelector_text hs]
    rfl
  · intro m hs ho
    exact parseModifier_of_plain hs ho

/-- A position in octal, and a place as far from the end as there is. -/
def farPlacement : Modifier :=
  ⟨.byIndex 7, .place (.absolute Int64.minValue)⟩

/-- All that an adjustment can change, by the greatest amount. -/
def fullAdjustment : Modifier :=
  ⟨.byName "data", .adjust ⟨some "userdata", .add 0xFFFFFFFFFFFFFFFF, .subtract 0xFFFFFFFFFFFFFFFF,
    some 0⟩⟩

theorem parseModifier_round_trip_of_extremes :
    (parseModifier false "^007@=-0x8000000000000000").result = .ok farPlacement ∧
      farPlacement.text = "^7@=-9223372036854775808" ∧
      (parseModifier false farPlacement.text).result = .ok farPlacement ∧
      fullAdjustment.text =
        "^data:userdata:+18446744073709551615:-18446744073709551615:0" ∧
      parseModifier true fullAdjustment.text = pure fullAdjustment := by
  have hread : (parseModifier false "^007@=-0x8000000000000000").result = .ok farPlacement := by
    decide +kernel
  have hlegal : fullAdjustment.operation.Legal true := by
    refine ⟨?_, .inl rfl, ?_⟩
    · rintro name ⟨⟩
      decide
    · rintro mask ⟨⟩
      exact .inl rfl
  exact ⟨hread, by decide +kernel, (parseModifier_round_trip false).1 _ _ hread, by decide +kernel,
    (parseModifier_round_trip true).2 _ (by exact ⟨by decide, by decide⟩) hlegal⟩

end Grammar

end EmmcLayout
