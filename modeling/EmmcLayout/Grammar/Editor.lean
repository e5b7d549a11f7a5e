import EmmcLayout.Grammar.Modifier

/-!
# Editors

One step of an edit: a new partition, or a change to one that is there.
-/

namespace EmmcLayout

/-- One step of an edit. -/
inductive Editor
  | definer (definer : Definer)
  | modifier (modifier : Modifier)
  deriving DecidableEq

namespace Grammar

/-- Reads one argument of a mode: a modifier when it starts with `^`, a definer otherwise. -/
def parseEditor (mode : Mode) (arg : String) : Logged GrammarError Editor :=
  match arg.toList with
  | '^' :: _ =>
    if mode.allowsModifiers then do
      let modifier ← parseModifier mode.allowsOffsets arg
      return .modifier modifier
    else throw (.modifierNotAllowed arg)
  | _ => do
    let definer ← parseDefiner mode.rules arg
    return .definer definer

/-- Reads arguments one after the other, up to the first that is refused. -/
def parseEditors (mode : Mode) : List String → Logged GrammarError (List Editor)
  | [] => return []
  | arg :: args => do
    let first ← parseEditor mode arg
    let rest ← parseEditors mode args
    return first :: rest

end Grammar

end EmmcLayout
