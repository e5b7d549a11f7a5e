import EmmcLayout.DeviceTree.Blob
import EmmcLayout.Journal

/-!
# Phandles

Nodes refer to each other by numbers called phandles.  A tree declares each of them once, as
`phandle`, or twice, as `linux,phandle` as well.  The census of a tree counts the declarations of
every value.  Once it is settled which of the two the tree does, new values are handed out: always
the least one from 1 on that is free, and never 0xFFFFFFFF.

The counts are kept in ascending order of their values.

The census walks through the nodes by calling itself, one call inside the other as the nodes are,
and nothing limits how deep they lie.  Its answer therefore hangs on the stack: `ofTreeWithin` is
the census on a stack of some size, and `ofTree` the one on a stack that is large enough for the
tree.
-/

namespace EmmcLayout.DeviceTree

/-- The declarations of phandles, by value. -/
structure PhandleCensus where
  /-- The declared values in ascending order, each with the number of its declarations. -/
  counts : List (UInt32 × Nat)
  /-- The smallest declared value when the census was settled or last changed. -/
  least : UInt32
  /-- The greatest declared value when the census was settled or last changed. -/
  greatest : UInt32
  /-- Whether every value is declared twice. -/
  paired : Bool
  deriving DecidableEq

namespace PhandleCensus

/-- The census before anything is counted. -/
def empty : PhandleCensus := ⟨[], 0, 0, false⟩

/-- Counts one more declaration of a value. -/
def increment (value : UInt32) : List (UInt32 × Nat) → List (UInt32 × Nat)
  | [] => [(value, 1)]
  | (v, n) :: rest =>
    if value < v then (value, 1) :: (v, n) :: rest
    else if value = v then (v, n + 1) :: rest
    else (v, n) :: increment value rest

/-- Counts one more declaration of a value. -/
def add (c : PhandleCensus) (value : UInt32) : PhandleCensus :=
  { c with counts := increment value c.counts }

/-- The number of declarations of a value. -/
def count (c : PhandleCensus) (value : UInt32) : Nat :=
  (c.counts.lookup value).getD 0

/-- The smallest and the greatest value, both 0 when there is none. -/
def bounds (counts : List (UInt32 × Nat)) : UInt32 × UInt32 :=
  ((counts.head?.map Prod.fst).getD 0, (counts.getLast?.map Prod.fst).getD 0)

/-- The same census with other counts, and the bounds that belong to them. -/
def withCounts (c : PhandleCensus) (counts : List (UInt32 × Nat)) : PhandleCensus :=
  let (least, greatest) := bounds counts
  { c with counts, least, greatest }

/-- Settles how the tree declares its phandles: all of them once, or all of them twice. -/
def settle (c : PhandleCensus) : Except FormatError PhandleCensus :=
  match c.counts.find? fun (_, n) => n ≠ 1 ∧ n ≠ 2 with
  | some (value, n) => .error (.phandleCount value n)
  | none =>
    let paired := c.counts.any fun (_, n) => n = 2
    if paired ∧ c.counts.any fun (_, n) => n = 1 then .error .mixedPhandleSchemes
    else if c.counts = [] then .error .noPhandles
    else .ok { c.withCounts c.counts with paired }

/-- Forgets every declaration of a value. -/
def release (c : PhandleCensus) (value : UInt32) : PhandleCensus :=
  if c.counts.any fun (v, _) => v = value then
    c.withCounts (c.counts.filter fun (v, _) => v ≠ value)
  else c

/-- The least number from `candidate` on that is not among the ascending values. -/
def leastFree (candidate : Nat) : List UInt32 → Nat
  | [] => candidate
  | v :: rest =>
    if candidate < v.toNat then candidate
    else if v.toNat = candidate then leastFree (candidate + 1) rest
    else leastFree candidate rest

/-- Puts a value with its number of declarations in its place. -/
def insert (value : UInt32) (n : Nat) : List (UInt32 × Nat) → List (UInt32 × Nat)
  | [] => [(value, n)]
  | (v, m) :: rest =>
    if value < v then (value, n) :: (v, m) :: rest
    else if value = v then (value, n) :: rest
    else (v, m) :: insert value n rest

/-- The number of declarations that every value of the tree has. -/
def multiplicity (c : PhandleCensus) : Nat :=
  if c.paired then 2 else 1

/-- Hands out the least free value, declared the way the others are. -/
def allocate (c : PhandleCensus) : Except FormatError (UInt32 × PhandleCensus) :=
  let free := leastFree 1 (c.counts.map Prod.fst)
  if UInt32.size - 1 ≤ free then .error .phandlesExhausted
  else
    let value := UInt32.ofNat free
    .ok (value, c.withCounts (insert value c.multiplicity c.counts))

/-- The offsets of the two names that declare phandles. -/
structure Names where
  phandle : UInt32
  linuxPhandle : Option UInt32

/-- Whether a property of this name declares a phandle. -/
def Names.declares (n : Names) (nameOffset : UInt32) : Bool :=
  nameOffset = n.phandle || n.linuxPhandle = some nameOffset

/-- Where the walk through a node has ended: the census by then, and the tokens behind the node,
which are at most `n`. -/
structure Visited (n : Nat) where
  census : PhandleCensus
  rest : List Step
  length_le : rest.length ≤ n

/-- Counts the declarations in the node whose content starts at `start`, and in the nodes below it.

The walk calls itself for each node below before it goes on, so that one call is open for each node
that it is inside of.  `room` says for how many more of them the stack has room.  There is no answer
when a node lies deeper than that: a stack that overflows ends the program. -/
def visit (stop : FormatError) (names : Names) (room start : Nat) (c : PhandleCensus) {n : Nat}
    (steps : List Step) (hlen : steps.length ≤ n) : Option (Except FormatError (Visited n)) :=
  match steps with
  | [] => some (.error stop)
  | s :: rest =>
    have hrest : rest.length ≤ n := Nat.le_of_succ_le hlen
    match s.token with
    | .property p =>
      if names.declares p.nameOffset then
        if p.value.length = 4 then
          visit stop names room start (c.add (UInt32.ofNat (Bytes.ofBE p.value))) rest hrest
        else some (.error (.propertyLength PropertyName.phandle.text 4 p.value.length))
      else visit stop names room start c rest hrest
    | .beginNode _ =>
      match room with
      | 0 => none
      | room + 1 =>
        match visit stop names room s.stop c rest (Nat.le_refl _) with
        | none => none
        | some (.error e) => some (.error e)
        | some (.ok below) =>
          visit stop names (room + 1) start below.census below.rest
            (Nat.le_trans below.length_le hrest)
    | .endNode => some (.ok ⟨c, rest, hrest⟩)
    | .endTree => some (.error (.unterminatedNode start))
    | .nop => visit stop names room start c rest hrest
termination_by steps.length
decreasing_by
  all_goals first
    | exact Nat.lt_succ_self _
    | exact Nat.lt_succ_of_le below.length_le

/-- There is always an answer when the stack has room for as many calls as there are tokens. -/
theorem isSome_visit {stop : FormatError} {names : Names} {room start : Nat} {c : PhandleCensus}
    {n : Nat} {steps : List Step} {hlen : steps.length ≤ n} (hroom : steps.length ≤ room) :
    (visit stop names room start c steps hlen).isSome := by
  fun_induction visit stop names room start c steps hlen with
  | case1 | case3 | case7 | case9 | case10 => rfl
  | case2 room start c n s rest _ _ p _ _ _ _ ih
  | case4 room start c n s rest _ _ p _ _ _ ih
  | case11 room start c n s rest _ _ _ _ ih => exact ih (Nat.le_of_succ_le hroom)
  | case5 => exact absurd hroom (Nat.not_succ_le_zero _)
  | case6 start c n s rest _ _ name _ room hbelow _ ih =>
      rw [hbelow] at ih
      exact ih (Nat.le_of_succ_le_succ hroom)
  | case8 start c n s rest _ _ name _ room below _ _ _ ih =>
      exact ih (Nat.le_trans below.length_le (Nat.le_of_succ_le hroom))

/-- The names that declare phandles in a tree, and its root. -/
def entry (t : DeviceTree) : Except FormatError (Names × Node) :=
  match t.stringsBlock.find? PropertyName.phandle.bytes with
  | none => .error (.missingPropertyName PropertyName.phandle.text)
  | some phandle => do
    let root ← t.root
    return (⟨phandle, t.stringsBlock.find? PropertyName.linuxPhandle.bytes⟩, root)

/-- The census of a tree, before it is settled, on a stack that has room for this many calls inside
the one for the root. -/
def tallyWithin (room : Nat) (t : DeviceTree) : Option (Except FormatError PhandleCensus) :=
  match entry t with
  | .error e => some (.error e)
  | .ok (names, root) =>
    let run := t.runAt root.body
    (visit run.failure names room root.start empty run.steps (Nat.le_refl _)).map
      (·.map Visited.census)

/-- No tree is nested deeper than its structure block is long. -/
theorem isSome_tallyWithin (t : DeviceTree) : (tallyWithin t.structBlock.length t).isSome := by
  unfold tallyWithin
  split
  · rfl
  · rename_i root _
    have htokens := Cursor.four_mul_length_le (Cursor.ofBlock t.structBlock root.body)
    have hdrop : (t.structBlock.drop root.body).length ≤ t.structBlock.length := by
      rw [List.length_drop]
      omega
    rw [Option.isSome_map]
    apply isSome_visit
    exact Nat.le_trans (Nat.le_mul_of_pos_left _ (by decide)) (Nat.le_trans htokens hdrop)

/-- The census of a tree, before it is settled, on a stack that has room for every node of it. -/
def tally (t : DeviceTree) : Except FormatError PhandleCensus :=
  (tallyWithin t.structBlock.length t).get (isSome_tallyWithin t)

/-- Settles what was counted. -/
def conclude (counting : Except FormatError PhandleCensus) : Logged FormatError PhandleCensus := do
  let counted ← counting
  let c ← counted.settle
  Logged.debug ("collected " ++ toString c.counts.length ++ " phandles in [" ++
    Text.hex c.least.toNat ++ ", " ++ Text.hex c.greatest.toNat ++ "], linux,phandle: " ++
    toString c.paired)
  return c

/-- The settled census of a tree, on a stack that has room for this many calls inside the one for
the root. -/
def ofTreeWithin (room : Nat) (t : DeviceTree) : Option (Logged FormatError PhandleCensus) :=
  (tallyWithin room t).map conclude

/-- The settled census of a tree, on a stack that has room for every node of it. -/
def ofTree (t : DeviceTree) : Logged FormatError PhandleCensus :=
  conclude (tally t)

end PhandleCensus

end EmmcLayout.DeviceTree
