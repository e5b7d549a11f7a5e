import EmmcLayout.Grammar.Definer
import EmmcLayout.Layout.Options
import EmmcLayout.Number.Align
import EmmcLayout.Outcome
import EmmcLayout.Table

/-!
# Placing partitions

New partitions are placed one after the other behind a cursor that starts at the end of the used
space.  One of them may leave out its size.  It then waits, and those placed after it are held back
behind it, until it is settled: it takes the space that is left, and they move behind it.

Every value that the placer computes without testing it is taken through `exactly`, whose failure
would say that the tests before it did not keep the value within the word.
-/

namespace EmmcLayout

/-- Where the next partition goes by default, and how much room there is behind that. -/
structure DiskCursor where
  nextFree : UInt64
  free : UInt64
  capacity : UInt64
  deriving DecidableEq

namespace DiskCursor

/-- The cursor behind the first `used` bytes of a device. -/
def behind (capacity used : UInt64) : DiskCursor :=
  ⟨used, Word.subSat capacity used, capacity⟩

/-- The cursor moved to an address. -/
def moveTo (c : DiskCursor) (stop : UInt64) : DiskCursor :=
  behind c.capacity stop

end DiskCursor

namespace Layout

/-- A value that is known to lie within the word. -/
def exactly (name : String) (value : Option UInt64) : Except LayoutError UInt64 :=
  match value with
  | some v => .ok v
  | none => .error (.outsideWord name)

/-- Rounds a field up to the alignment, with a warning when that changes it. -/
def alignField (name : String) (field : Field) (value alignment : UInt64) :
    Logged LayoutError UInt64 :=
  match alignUp value alignment with
  | none => throw (.arithmeticOverflow name)
  | some aligned => do
    if aligned ≠ value then
      Logged.warn (field.word ++ " of " ++ name ++ " rounded up from " ++ Text.hex value.toNat ++
        " to " ++ Text.hex aligned.toNat ++ " for " ++ Text.hex alignment.toNat ++ " alignment")
    return aligned

/-- Refuses one more entry in a list that is full. -/
def ensureRoom (count : Nat) : Except GrammarError Unit :=
  if maxPartitions ≤ count then .error (.tooManyPartitions (count + 1)) else .ok ()

/-- A partition that waits for its size, and those that are placed after it. -/
structure Waiting where
  partition : Partition
  behind : List Partition

/-- The state of a placement. -/
structure Placer where
  placed : List Partition
  waiting : Option Waiting
  cursor : DiskCursor

namespace Placer

/-- All partitions placed so far, in table order. -/
def partitions (p : Placer) : List Partition :=
  match p.waiting with
  | none => p.placed
  | some w => p.placed ++ w.partition :: w.behind

/-- A placement behind the partitions of a table. -/
def start {ε : Type} (partitions : List Partition) (capacity : UInt64) : Logged ε Placer := do
  let cursor := DiskCursor.behind capacity (Table.reach partitions)
  Logged.debug ("placing from " ++ Text.hex cursor.nextFree.toNat ++ ", " ++
    Text.hex cursor.free.toNat ++ " of " ++ Text.hex cursor.capacity.toNat ++ " bytes free")
  return ⟨partitions, none, cursor⟩

/-- Where a definer asks to be placed.  An absolute offset is only known to be free while no
partition waits for its size. -/
def wantedOffset (p : Placer) (d : Definer) : Except LayoutError UInt64 :=
  match d.offset with
  | none => .ok p.cursor.nextFree
  | some (.relative delta) =>
    match Word.add? p.cursor.nextFree delta with
    | some offset => .ok offset
    | none => .error (.arithmeticOverflow d.name)
  | some (.absolute offset) =>
    match p.waiting with
    | some w => .error (.absoluteAfterAutofill d.name w.partition.name)
    | none =>
      if offset < p.cursor.nextFree then
        .error (.offsetBelowCursor d.name offset p.cursor.nextFree)
      else .ok offset

/-- The size of a definer: rounded up when it is given, and zero for now when it is not. -/
def wantedSize (p : Placer) (alignment : UInt64) (d : Definer) : Logged LayoutError UInt64 :=
  match d.size with
  | some amount => alignField d.name .size amount.value alignment
  | none =>
    match p.waiting with
    | some w => throw (.multipleAutofill w.partition.name d.name)
    | none => return 0

/-- Puts a partition behind those placed so far; one without a size starts to wait. -/
def push (p : Placer) (sized : Bool) (partition : Partition) (stop : UInt64) : Placer :=
  let cursor := p.cursor.moveTo stop
  match p.waiting with
  | some w => { p with waiting := some { w with behind := w.behind ++ [partition] }, cursor }
  | none =>
    if sized then { p with placed := p.placed ++ [partition], cursor }
    else { p with waiting := some ⟨partition, []⟩, cursor }

/-- Places one definer.  While a partition waits, only its own settling can tell whether those
behind it fit. -/
def append (options : LayoutOptions) (p : Placer) (d : Definer) : Outcome Placer := do
  ensureRoom p.partitions.length
  if p.partitions.any (·.isNamed d.name) then Outcome.fail (GrammarError.nameTaken d.name)
  let wanted ← p.wantedOffset d
  let offset ← alignField d.name .offset wanted options.alignment
  let capacity := p.cursor.capacity
  if p.waiting.isNone ∧ capacity < offset then
    Outcome.fail (LayoutError.overflow d.name offset capacity)
  let size ← p.wantedSize options.alignment d
  let stop ←
    match Word.add? offset size with
    | some stop => pure stop
    | none => Outcome.fail (LayoutError.arithmeticOverflow d.name)
  if p.waiting.isNone ∧ d.size.isSome ∧ capacity < stop then
    let free ← exactly d.name (Word.sub? capacity offset)
    Outcome.fail (LayoutError.noSpace d.name size free)
  let partition ←
    (Partition.create d.name offset size (d.mask.getD 4)).mapError
      (GrammarError.invalidName d.name)
  Logged.debug ("placed " ++ d.name ++ " at " ++ Text.hex offset.toNat ++ ", " ++
    Text.hex size.toNat ++ " bytes")
  return p.push d.size.isSome partition stop

/-- Gives the waiting partition the space that is left, rounded down, and moves those behind it. -/
def settle (options : LayoutOptions) (p : Placer) : Logged LayoutError Placer :=
  match p.waiting with
  | none => return p
  | some w => do
    let name := w.partition.name
    let capacity := p.cursor.capacity
    if capacity < p.cursor.nextFree then
      let needed ← exactly name (Word.sub? p.cursor.nextFree w.partition.offset)
      throw (.noSpace name needed (Word.subSat capacity w.partition.offset))
    let room ← exactly name (Word.sub? capacity p.cursor.nextFree)
    let taken := alignDown room options.alignment
    let moved ← w.behind.mapM fun q => do
      let offset ← exactly q.name (Word.add? q.offset taken)
      return { q with offset }
    let nextFree ← exactly name (Word.add? p.cursor.nextFree taken)
    Logged.info (name ++ " takes the remaining " ++ Text.hex taken.toNat ++ " bytes")
    return {
      placed := p.placed ++ { w.partition with size := taken } :: moved
      waiting := none
      cursor := p.cursor.moveTo nextFree }

/-- The placement behind partitions that were changed by other means. -/
def resync (p : Placer) (partitions : List Partition) : Placer :=
  ⟨partitions, none, p.cursor.moveTo (Table.reach partitions)⟩

end Placer

end Layout

end EmmcLayout
