import EmmcLayout.Grammar.Definer
import EmmcLayout.Journal
import EmmcLayout.Number.Word

/-!
# Modifiers

A modifier changes one partition of a list.  It starts with `^` and a selector, a name or a number,
and goes on with an operator:

- `^sel:name:offset:size:mask` adjusts fields; an empty field is kept, `+v` and `-v` add and
  subtract;
- `^sel?` deletes;
- `^sel%new` clones under a new name;
- `^sel@pos` moves, where `=N` and `N` count from the start (a negative `N` from the end) and `+N`
  and `-N` from where the partition is.
-/

namespace EmmcLayout

/-- Which partition a modifier is about. -/
inductive Selector
  | byName (name : String)
  /-- A position; a negative one counts from the end. -/
  | byIndex (index : Int64)
  deriving DecidableEq

/-- The selector as it is shown. -/
def Selector.text : Selector → String
  | .byName name => name
  | .byIndex index => toString index.toInt

/-- The position of the partition that the selector picks among these names. -/
def Selector.resolve (names : List String) (s : Selector) : Except GrammarError Nat :=
  let found : Option Nat :=
    match s with
    | .byName name => names.idxOf? name
    | .byIndex index =>
      let count : Int := names.length
      let position := if index.toInt < 0 then count + index.toInt else index.toInt
      if 0 ≤ position ∧ position < count then some position.toNat else none
  match found with
  | some position => .ok position
  | none => .error (.selectorNotFound s.text)

/-- How a number of a partition changes. -/
inductive Change
  | keep
  | set (value : UInt64)
  | add (value : UInt64)
  | subtract (value : UInt64)
  deriving DecidableEq

/-- The changed number, unless it leaves the word. -/
def Change.apply (target : UInt64) : Change → Option UInt64
  | keep => some target
  | set value => some value
  | add value => Word.add? target value
  | subtract value => Word.sub? target value

/-- How the fields of a partition change; without a name or a mask they stay. -/
structure Adjustment where
  name : Option String
  offset : Change
  size : Change
  mask : Option UInt32
  deriving DecidableEq

/-- Where a partition moves. -/
inductive Placement
  | stay
  /-- To a position; a negative one counts from the end. -/
  | absolute (place : Int64)
  | relative (delta : Int64)
  deriving DecidableEq

/-- A position as the signed word that a placement is added to. -/
def Placement.signed (position : Nat) : Int :=
  (Int64.ofNat position).toInt

/-- The nearest number in the signed 64-bit range. -/
def Placement.clamp (n : Int) : Int :=
  max Int64.minValue.toInt (min n Int64.maxValue.toInt)

/-- The position that the partition at `current` moves to, among `count`. -/
def Placement.target (current count : Nat) (p : Placement) : Except GrammarError Nat :=
  let target :=
    match p with
    | stay => signed current
    | absolute place => if place.toInt < 0 then signed count + place.toInt else place.toInt
    | relative delta => signed current + delta.toInt
  if 0 ≤ target ∧ target < signed count then .ok target.toNat
  else .error (.placeOutOfRange (clamp target) count)

/-- What a modifier does to the partition it selects. -/
inductive Operation
  | adjust (adjustment : Adjustment)
  | delete
  | clone (name : String)
  | place (placement : Placement)
  deriving DecidableEq

/-- A change to one partition. -/
structure Modifier where
  selector : Selector
  operation : Operation
  deriving DecidableEq

namespace Grammar

/-- Reads a change.  A sign needs a number behind it. -/
def parseChange (field : Field) (text : String) : Except GrammarError Change :=
  let signed (literal : List Char) (change : UInt64 → Change) : Except GrammarError Change :=
    if literal = [] then .error (.invalidNumber (field.word ++ " '" ++ text ++ "'"))
    else (parseSize (String.ofList literal)).map change
  match text.toList with
  | [] => .ok .keep
  | '+' :: literal => signed literal .add
  | '-' :: literal => signed literal .subtract
  | _ => (parseSize text).map .set

/-- Reads the fields of an adjustment, in the order name, mask, offset, size. -/
def parseAdjustment (allowOffset : Bool) (text arg : String) :
    Except GrammarError Adjustment := do
  let f ← fields text
  if f.offset ≠ "" ∧ !allowOffset then throw (.disallowed .offset arg)
  let name ←
    if f.name = "" then pure none
    else do
      checkName f.name
      pure (some f.name)
  let mask ← if f.mask = "" then pure none else some <$> parseMask f.mask true arg
  let offset ← parseChange .offset f.offset
  let size ← parseChange .size f.size
  return ⟨name, offset, size, mask⟩

/-- Reads a placement.  A relative placement by zero stays. -/
def parsePlacement (text : String) : Except GrammarError Placement := do
  let relative : Except GrammarError Placement := do
    let delta ← parseI64 text
    return if delta = 0 then .stay else .relative delta
  match text.toList with
  | '=' :: place => .absolute <$> parseI64 (String.ofList place)
  | '+' :: _ => relative
  | '-' :: _ => relative
  | _ => .absolute <$> parseI64 text

/-- Reads a selector.  One that starts like a number is a number.  Any other is a name; one that is
too long is refused, and one that no partition may have is kept with a warning, since a table that
was not checked may hold it. -/
def parseSelector (text arg : String) : Logged GrammarError Selector :=
  match text.toList with
  | [] => throw (.missingSelector arg)
  | c :: _ =>
    if c = '-' ∨ c.isDigit then do
      let index ← parseI64 text
      return .byIndex index
    else
      match Name.check text with
      | .ok () => return .byName text
      | .error (.tooLong length) => throw (.invalidName text (.tooLong length))
      | .error reason => do
        Logged.warn ("name selector '" ++ text ++ "' is not a legal partition name (" ++
          reason.message ++ "), using it anyway")
        return .byName text

/-- Whether the character ends a selector. -/
def isOperator (c : Char) : Bool :=
  c == ':' || c == '?' || c == '%' || c == '@'

/-- Checks the name of a clone: its length first, and then all of it, its length once more. -/
def checkCloneName (name : String) : Except GrammarError Unit :=
  let length := (Utf8.encode name).length
  if nameFieldLength ≤ length then .error (.invalidName name (.tooLong length)) else checkName name

/-- The first look at the length changes nothing, since every name is refused for its length in the
same way. -/
theorem checkCloneName_eq (name : String) : checkCloneName name = checkName name := by
  by_cases hlong : nameFieldLength ≤ (Utf8.encode name).length
  · have hne : Utf8.encode name ≠ [] := by
      intro hnil
      rw [hnil] at hlong
      exact absurd hlong (by decide)
    have hrefused : Name.check name = .error (.tooLong (Utf8.encode name).length) := by
      rw [Name.check, if_neg hne, if_pos hlong]
    rw [checkName, hrefused]
    exact if_pos hlong
  · exact if_neg hlong

/-- Reads what stands behind an operator. -/
def parseOperation (allowOffset : Bool) (operator : Char) (operand arg : String) :
    Except GrammarError Operation :=
  if operator = '?' then
    if operand = "" then .ok .delete else .error (.trailingInput arg)
  else if operand = "" then .error (.missingOperand operator arg)
  else if operator = '%' then do
    checkCloneName operand
    return .clone operand
  else if operator = '@' then .place <$> parsePlacement operand
  else .adjust <$> parseAdjustment allowOffset operand arg

/-- Reads a modifier.  The selector has at least one character, and ends at the first operator
behind that. -/
def parseModifier (allowOffset : Bool) (arg : String) : Logged GrammarError Modifier :=
  match arg.toList with
  | '^' :: first :: rest =>
    if isOperator first then throw (.missingSelector arg)
    else
      match rest.dropWhile (!isOperator ·) with
      | [] => throw (.missingOperator arg)
      | operator :: operand => do
        let selector ←
          parseSelector (String.ofList (first :: rest.takeWhile (!isOperator ·))) arg
        let operation ← parseOperation allowOffset operator (String.ofList operand) arg
        return ⟨selector, operation⟩
  | _ => throw (.missingSelector arg)

end Grammar

end EmmcLayout
