import EmmcLayout.Bytes.Checked

/-!
# Tokens of a structure block

A flattened device tree keeps its nodes in a structure block, a sequence of tokens aligned to four
bytes.  A token is a 32-bit big-endian tag; the opening of a node is followed by the node's name,
closed by a NUL, and a property by the length of its value, the offset of its name in the strings
block, and the value.

`Cursor.next` reads one token and says where the next one starts.  A read that fails also moves the
cursor: past the tag once the tag was read, and past the property header once that was read.
`Cursor.run` lists the tokens from a cursor on until the first failure; `length_next_lt` is why it
ends.
-/

namespace EmmcLayout.DeviceTree

/-- A property as it stands in the structure block. -/
structure Property where
  /-- The offset of its tag. -/
  offset : Nat
  /-- The offset of its name in the strings block. -/
  nameOffset : UInt32
  value : Bytes
  deriving DecidableEq

/-- A token of the structure block. -/
inductive Token
  | beginNode (name : Bytes)
  | endNode
  | property (property : Property)
  | nop
  | endTree
  deriving DecidableEq

/-- The tags of the tokens. -/
inductive Tag
  | beginNode
  | endNode
  | property
  | nop
  | endTree
  deriving DecidableEq

namespace Tag

/-- The word that stands for a tag. -/
def word : Tag → UInt32
  | beginNode => 1
  | endNode => 2
  | property => 3
  | nop => 4
  | endTree => 9

/-- The tag that a word stands for. -/
def ofWord? (w : UInt32) : Option Tag :=
  if w = 1 then some beginNode
  else if w = 2 then some endNode
  else if w = 3 then some property
  else if w = 4 then some nop
  else if w = 9 then some endTree
  else none

theorem ofWord?_word (t : Tag) : ofWord? t.word = some t := by
  cases t <;> rfl

end Tag

/-- The most bytes that a node's name may take, closing NUL included. -/
def maxNodeName : Nat := 256

/-- A position in the structure block: the bytes from there on. -/
structure Cursor where
  rest : Bytes
  position : Nat
  deriving DecidableEq

namespace Cursor

/-- The cursor at an offset of a block. -/
def ofBlock (block : Bytes) (position : Nat) : Cursor :=
  ⟨block.drop position, position⟩

/-- The cursor `n` bytes further on. -/
def skipBytes (c : Cursor) (n : Nat) : Cursor :=
  ⟨c.rest.drop n, c.position + n⟩

/-- The cursor behind `n` bytes and the padding that follows them. -/
def skipAligned (c : Cursor) (n : Nat) : Cursor :=
  c.skipBytes (Bytes.align4 (c.position + n) - c.position)

/-- Reads a big-endian word without moving. -/
def word (c : Cursor) : Except FormatError UInt32 :=
  match c.rest with
  | a :: b :: d :: e :: _ => .ok (UInt32.ofNat (Bytes.ofBE [a, b, d, e]))
  | _ => .error (.truncated c.position 4)

/-- Reads the name of a node whose tag was just read. -/
def nodeName (c : Cursor) : Except FormatError Token × Cursor :=
  match Bytes.terminated? (c.rest.take maxNodeName) with
  | some name => (.ok (.beginNode name), c.skipAligned (name.length + 1))
  | none => (.error .unterminatedText, c)

/-- Reads the rest of a property whose tag, at `offset`, was just read. -/
def propertyBody (offset : Nat) (c : Cursor) : Except FormatError Token × Cursor :=
  match c.word, (c.skipBytes 4).word with
  | .error e, _ => (.error e, c)
  | .ok _, .error e => (.error e, c)
  | .ok length, .ok nameOffset =>
    let c := c.skipBytes 8
    let value := c.rest.take length.toNat
    if value.length = length.toNat then
      (.ok (.property ⟨offset, nameOffset, value⟩), c.skipAligned length.toNat)
    else (.error (.truncated c.position length.toNat), c)

/-- Reads one token. -/
def next (c : Cursor) : Except FormatError Token × Cursor :=
  match c.word with
  | .error e => (.error e, c)
  | .ok w =>
    let behind := c.skipBytes 4
    match Tag.ofWord? w with
    | some .beginNode => behind.nodeName
    | some .property => behind.propertyBody c.position
    | some .endNode => (.ok .endNode, behind)
    | some .nop => (.ok .nop, behind)
    | some .endTree => (.ok .endTree, behind)
    | none => (.error (.invalidToken c.position w), behind)

theorem length_skipBytes_le (c : Cursor) (n : Nat) :
    (c.skipBytes n).rest.length ≤ c.rest.length := by
  simp [skipBytes]

theorem length_skipAligned_le (c : Cursor) (n : Nat) :
    (c.skipAligned n).rest.length ≤ c.rest.length :=
  length_skipBytes_le c _

theorem length_nodeName_le (c : Cursor) : c.nodeName.2.rest.length ≤ c.rest.length := by
  unfold nodeName
  split
  · exact length_skipAligned_le c _
  · exact Nat.le_refl _

theorem length_propertyBody_le (offset : Nat) (c : Cursor) :
    (c.propertyBody offset).2.rest.length ≤ c.rest.length := by
  unfold propertyBody
  split
  · exact Nat.le_refl _
  · exact Nat.le_refl _
  · simp only
    split
    · exact Nat.le_trans (length_skipAligned_le _ _) (length_skipBytes_le c 8)
    · exact length_skipBytes_le c 8

theorem four_le_length_of_word {c : Cursor} {w : UInt32} (h : c.word = .ok w) :
    4 ≤ c.rest.length := by
  unfold word at h
  split at h
  · rename_i heq
    simp [heq]
  · simp at h

/-- A token that was read is at least as long as its tag. -/
theorem length_next_add_four_le {c c' : Cursor} {t : Token} (h : c.next = (.ok t, c')) :
    c'.rest.length + 4 ≤ c.rest.length := by
  unfold next at h
  split at h
  · simp at h
  · rename_i w hw
    have h4 := four_le_length_of_word hw
    have hbehind : (c.skipBytes 4).rest.length + 4 = c.rest.length := by
      simp only [skipBytes, List.length_drop]
      omega
    have hc' : c'.rest.length ≤ (c.skipBytes 4).rest.length := by
      split at h
      · have := length_nodeName_le (c.skipBytes 4)
        rw [h] at this
        exact this
      · have := length_propertyBody_le c.position (c.skipBytes 4)
        rw [h] at this
        exact this
      all_goals
        simp only [Prod.mk.injEq] at h
        exact Nat.le_of_eq (congrArg (fun d => d.rest.length) h.2.symm)
    omega

theorem length_next_lt {c c' : Cursor} {t : Token} (h : c.next = (.ok t, c')) :
    c'.rest.length < c.rest.length := by
  have := length_next_add_four_le h
  omega

end Cursor

/-- A token with the offset of its tag and the offset behind it. -/
structure Step where
  start : Nat
  token : Token
  stop : Nat
  deriving DecidableEq

/-- The tokens from some offset on, and what ended them: the failure and the offset that it left the
cursor at. -/
structure TokenRun where
  steps : List Step
  failure : FormatError
  position : Nat
  deriving DecidableEq

/-- Reads tokens until the first failure, and puts them behind those in `done`, which are in reverse
order. -/
def Cursor.collect (done : List Step) (c : Cursor) : TokenRun :=
  match _h : c.next with
  | (.error e, c') => ⟨done.reverse, e, c'.position⟩
  | (.ok t, c') => collect (⟨c.position, t, c'.position⟩ :: done) c'
termination_by c.rest.length
decreasing_by exact Cursor.length_next_lt _h

/-- The tokens from a cursor on. -/
def Cursor.run (c : Cursor) : TokenRun :=
  c.collect []

theorem Cursor.four_mul_length_collect_le (done : List Step) (c : Cursor) :
    4 * (c.collect done).steps.length ≤ 4 * done.length + c.rest.length := by
  fun_induction collect done c with
  | case1 => simp
  | case2 done c t c' hnext ih =>
      have hfour := length_next_add_four_le hnext
      rw [List.length_cons] at ih
      omega

/-- **A run reads no more tokens than there are tags in the bytes that are left.** -/
theorem Cursor.four_mul_length_le (c : Cursor) : 4 * c.run.steps.length ≤ c.rest.length := by
  have h := four_mul_length_collect_le [] c
  rwa [List.length_nil, Nat.mul_zero, Nat.zero_add] at h

end EmmcLayout.DeviceTree
