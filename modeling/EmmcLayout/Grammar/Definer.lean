import EmmcLayout.Grammar.Mode
import EmmcLayout.Name
import EmmcLayout.Number.Literal

/-!
# Definers

A definer describes a new partition as `name:offset:size:mask`.  An offset or a size that starts
with `+` counts from where the next partition would lie; an empty field is left to the layout.  The
rules of the mode say which fields may be empty and which forms they may take.
-/

namespace EmmcLayout

/-- A number of a definer. -/
inductive Amount
  | absolute (value : UInt64)
  /-- Counted from the end of the used space. -/
  | relative (value : UInt64)
  deriving DecidableEq

/-- The number itself, whichever way it is counted. -/
def Amount.value : Amount → UInt64
  | .absolute value => value
  | .relative value => value

/-- A new partition. -/
structure Definer where
  name : String
  offset : Option Amount
  /-- Without a size the partition takes all the space left. -/
  size : Option Amount
  mask : Option UInt32
  deriving DecidableEq

namespace Grammar

/-- What stands before and behind the first `separator`, if there is one. -/
def splitAtFirst? (separator : Char) (cs : List Char) : Option (List Char × List Char) :=
  match cs.dropWhile (· ≠ separator) with
  | [] => none
  | _ :: behind => some (cs.takeWhile (· ≠ separator), behind)

/-- The four fields of an argument, split at its first three colons. -/
structure Fields where
  name : String
  offset : String
  size : String
  mask : String

/-- The fields of an argument. -/
def fields (arg : String) : Except GrammarError Fields :=
  let split : Option Fields := do
    let (name, behind) ← splitAtFirst? ':' arg.toList
    let (offset, behind) ← splitAtFirst? ':' behind
    let (size, mask) ← splitAtFirst? ':' behind
    return ⟨String.ofList name, String.ofList offset, String.ofList size, String.ofList mask⟩
  match split with
  | some f => .ok f
  | none => .error (.tooFewSeparators arg)

/-- Refuses a field that is given but must not be, or must be given but is not. -/
def checkPresence (field : Field) (text : String) (allowance : Allowance) (arg : String) :
    Except GrammarError Unit :=
  if text ≠ "" ∧ allowance.disallowed then .error (.disallowed field arg)
  else if text = "" ∧ allowance.required then .error (.required field arg)
  else .ok ()

/-- Refuses a name that no partition may have. -/
def checkName (name : String) : Except GrammarError Unit :=
  (Name.check name).mapError (.invalidName name)

/-- Reads the number of an amount.  A lone `+` counts as zero unless the field is required. -/
def parseAmountValue (field : Field) (literal : String) (allowance : Allowance) (arg : String) :
    Except GrammarError UInt64 :=
  if literal = "" then if allowance.required then .error (.required field arg) else .ok 0
  else parseSize literal

/-- Reads an amount in one of the forms that the field allows. -/
def parseAmount (field : Field) (text : String) (allowance : Allowance) (arg : String) :
    Except GrammarError Amount :=
  match text.toList with
  | '+' :: literal =>
    if allowance.relative then
      (parseAmountValue field (String.ofList literal) allowance arg).map .relative
    else .error (.relativeNotAllowed field arg)
  | _ =>
    if allowance.absolute then (parseAmountValue field text allowance arg).map .absolute
    else .error (.absoluteNotAllowed field arg)

/-- Reads a mask: 1, 2 or 4, and 0 where it is allowed. -/
def parseMask (text : String) (allowZero : Bool) (arg : String) : Except GrammarError UInt32 := do
  let mask ← parseU32 text
  if mask = 1 ∨ mask = 2 ∨ mask = 4 ∨ (mask = 0 ∧ allowZero) then return mask
  else throw (.invalidMask mask arg)

/-- Reads a definer under the rules of a mode. -/
def parseDefiner (rules : DefinerRules) (arg : String) : Except GrammarError Definer := do
  let f ← fields arg
  checkPresence .name f.name rules.name arg
  checkPresence .offset f.offset rules.offset arg
  checkPresence .size f.size rules.size arg
  checkPresence .mask f.mask rules.mask arg
  if f.name ≠ "" then checkName f.name
  let offset ←
    if f.offset = "" then pure none
    else some <$> parseAmount .offset f.offset rules.offset arg
  let size ←
    if f.size = "" then pure none
    else some <$> parseAmount .size f.size rules.size arg
  let mask ←
    if f.mask = "" then pure rules.defaultMask
    else some <$> parseMask f.mask rules.allowZeroMask arg
  return ⟨f.name, offset, size, mask⟩

/-- Reads the arguments of a mode that takes definers only; there may be at most 32. -/
def parseDefiners (mode : Mode) (args : List String) : Except GrammarError (List Definer) :=
  if maxPartitions < args.length then .error (.tooManyPartitions args.length)
  else args.mapM (parseDefiner mode.rules)

end Grammar

end EmmcLayout
