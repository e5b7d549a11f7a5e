import EmmcLayout.DeviceTree.Token

/-!
# Walking nodes

The tokens of a node come in order: its name, its properties, its children, its end.  The walkers
here read a list of tokens that starts behind the name of a node, and fail with `stop`, the failure
that ended the list, when the list ends before they have found what they look for.
-/

namespace EmmcLayout.DeviceTree

/-- A node, by where it lies in the structure block. -/
structure Node where
  name : Bytes
  /-- The offset of the tag that opens it. -/
  start : Nat
  /-- The offset of the first token behind its name. -/
  body : Nat
  deriving DecidableEq

/-- How a walk failed, and the offset at which reading stopped. -/
structure Halt where
  failure : FormatError
  position : Nat
  deriving DecidableEq

namespace Walk

/-- Skips to the end of the node whose content starts at `start`, `depth` nodes further in.  Returns
the token that ends it. -/
def skip (halt : Halt) (start : Nat) : Nat → List Step → Except Halt Step
  | _, [] => .error halt
  | depth, s :: rest =>
    match s.token with
    | .beginNode _ => skip halt start (depth + 1) rest
    | .endNode =>
      match depth with
      | 0 => .ok s
      | depth + 1 => skip halt start depth rest
    | .endTree => .error ⟨.unterminatedNode start, s.stop⟩
    | .property _ | .nop => skip halt start depth rest

/-- Whether a search among the children of a node stands between two of them, or inside one that it
passes over. -/
inductive Place
  | between
  /-- Inside a child whose content starts at `start`, `depth` nodes further in. -/
  | inside (start depth : Nat)

/-- Looks for the first child called `name` of a node that starts at `parent`. -/
def findChild (stop : FormatError) (parent : Nat) (name : Bytes) :
    Place → List Step → Except FormatError (Option Node)
  | _, [] => .error stop
  | .between, s :: rest =>
    match s.token with
    | .beginNode child =>
      if child = name then .ok (some ⟨child, s.start, s.stop⟩)
      else findChild stop parent name (.inside s.stop 0) rest
    | .endNode => .ok none
    | .endTree => .error (.unterminatedNode parent)
    | .property _ | .nop => findChild stop parent name .between rest
  | .inside start depth, s :: rest =>
    match s.token with
    | .beginNode _ => findChild stop parent name (.inside start (depth + 1)) rest
    | .endNode =>
      match depth with
      | 0 => findChild stop parent name .between rest
      | depth + 1 => findChild stop parent name (.inside start depth) rest
    | .endTree => .error (.unterminatedNode start)
    | .property _ | .nop => findChild stop parent name (.inside start depth) rest

/-- The first node: only paddings may stand before it. -/
def root (stop : FormatError) : List Step → Except FormatError Node
  | [] => .error stop
  | s :: rest =>
    match s.token with
    | .nop => root stop rest
    | .beginNode name => .ok ⟨name, s.start, s.stop⟩
    | _ => .error .missingRoot

/-- The properties before the first token that is neither a property nor padding, and the failure
that came before such a token if one did. -/
def properties (stop : FormatError) : List Step → List Property × Option FormatError
  | [] => ([], some stop)
  | s :: rest =>
    match s.token with
    | .property p =>
      let (ps, failure) := properties stop rest
      (p :: ps, failure)
    | .nop => properties stop rest
    | _ => ([], none)

/-- The first property whose name has this offset. -/
def findProperty (stop : FormatError) (nameOffset : UInt32) :
    List Step → Except FormatError (Option Property)
  | [] => .error stop
  | s :: rest =>
    match s.token with
    | .property p =>
      if p.nameOffset = nameOffset then .ok (some p) else findProperty stop nameOffset rest
    | .nop => findProperty stop nameOffset rest
    | _ => .ok none

end Walk

/-- Skips from behind the name of a node to behind its end.  Returns the offset of the token that
ends it, and the cursor where reading stopped. -/
def Cursor.skipNode (c : Cursor) : Except FormatError Nat × Cursor :=
  let run := c.run
  match Walk.skip ⟨run.failure, run.position⟩ c.position 0 run.steps with
  | .ok s => (.ok s.start, c.skipBytes (s.stop - c.position))
  | .error halt => (.error halt.failure, c.skipBytes (halt.position - c.position))

end EmmcLayout.DeviceTree
