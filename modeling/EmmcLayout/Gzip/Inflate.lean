import EmmcLayout.Gzip.Output
import EmmcLayout.Gzip.PrefixCode

/-!
# Compressed data

A compressed byte string is a sequence of blocks.  A block holds its bytes as they are, or it is a
sequence of elements, which are single bytes and copies of bytes that came before.  The elements are
written in two prefix codes, either fixed ones or ones that the block gives.

* `inflate` reads blocks up to the final one and says how that ended (`Ending`).  It stops also once
  more than `bound` bytes are handed on.
* The output is handed on whenever reading takes another piece of the input or finds none, and
  whenever the window is full and another byte is made.
* `bitsLeft_readElement` and `bitsLeft_readBlock` say that every part that is read takes bits, which
  is why reading ends.
-/

namespace EmmcLayout.Gzip

/-- How reading compressed data ended. -/
inductive Ending
  /-- The final block is read; these bytes follow it. -/
  | complete (rest : Bytes)
  | defect (why : Defect)
  /-- More bytes are handed on than are wanted. -/
  | full
  deriving DecidableEq

/-- The bytes that were made, and how that ended. -/
structure Inflated where
  output : Output
  ending : Ending

/-- The number of bytes that are handed on in the end.  What is left in the window is handed on only
behind the final block. -/
def Inflated.delivered (x : Inflated) : Nat :=
  match x.ending with
  | .complete _ => x.output.bytes.size
  | _ => x.output.handedOn

/-! ## Elements -/

/-- An element of a block. -/
inductive Element
  | literal (byte : UInt8)
  | copy (length distance : Nat)
  | endOfBlock
  deriving DecidableEq

/-- A range of numbers: the smallest of them, and how many bits say which one it is. -/
structure Range where
  base : Nat
  extraBits : Nat

/-- The lengths of copies, by symbol, from symbol 257 on. -/
def lengthRanges : Array Range := #[
  ⟨3, 0⟩, ⟨4, 0⟩, ⟨5, 0⟩, ⟨6, 0⟩, ⟨7, 0⟩, ⟨8, 0⟩, ⟨9, 0⟩, ⟨10, 0⟩,
  ⟨11, 1⟩, ⟨13, 1⟩, ⟨15, 1⟩, ⟨17, 1⟩, ⟨19, 2⟩, ⟨23, 2⟩, ⟨27, 2⟩, ⟨31, 2⟩,
  ⟨35, 3⟩, ⟨43, 3⟩, ⟨51, 3⟩, ⟨59, 3⟩, ⟨67, 4⟩, ⟨83, 4⟩, ⟨99, 4⟩, ⟨115, 4⟩,
  ⟨131, 5⟩, ⟨163, 5⟩, ⟨195, 5⟩, ⟨227, 5⟩, ⟨258, 0⟩]

/-- The distances of copies, by symbol. -/
def distanceRanges : Array Range := #[
  ⟨1, 0⟩, ⟨2, 0⟩, ⟨3, 0⟩, ⟨4, 0⟩, ⟨5, 1⟩, ⟨7, 1⟩, ⟨9, 2⟩, ⟨13, 2⟩, ⟨17, 3⟩, ⟨25, 3⟩,
  ⟨33, 4⟩, ⟨49, 4⟩, ⟨65, 5⟩, ⟨97, 5⟩, ⟨129, 6⟩, ⟨193, 6⟩, ⟨257, 7⟩, ⟨385, 7⟩,
  ⟨513, 8⟩, ⟨769, 8⟩, ⟨1025, 9⟩, ⟨1537, 9⟩, ⟨2049, 10⟩, ⟨3073, 10⟩, ⟨4097, 11⟩, ⟨6145, 11⟩,
  ⟨8193, 12⟩, ⟨12289, 12⟩, ⟨16385, 13⟩, ⟨24577, 13⟩]

/-- Reads which number of a range is meant; a symbol without a range is corrupt. -/
def readInRange (range : Option Range) (s : BitSource) : Except Defect (Nat × BitSource) :=
  match range with
  | none => .error (.corrupt s.untaken)
  | some range =>
    match s.take range.extraBits with
    | none => .error .truncated
    | some (extra, s) => .ok (range.base + extra, s)

/-- The two codes of a block. -/
structure BlockCodes where
  /-- The code of literals, lengths, and the end of the block. -/
  elements : PrefixCode
  distances : PrefixCode

/-- Reads the rest of a copy. -/
def readCopy (codes : BlockCodes) (symbol : Nat) (s : BitSource) :
    Except Defect (Element × BitSource) :=
  match readInRange lengthRanges[symbol - 257]? s with
  | .error e => .error e
  | .ok (length, s) =>
    match codes.distances.decode s with
    | .error e => .error e
    | .ok (symbol, s) =>
      match readInRange distanceRanges[symbol]? s with
      | .error e => .error e
      | .ok (distance, s) => .ok (.copy length distance, s)

/-- Reads an element. -/
def readElement (codes : BlockCodes) (s : BitSource) : Except Defect (Element × BitSource) :=
  match codes.elements.decode s with
  | .error e => .error e
  | .ok (symbol, s) =>
    if symbol < 256 then .ok (.literal (UInt8.ofNat symbol), s)
    else if symbol = 256 then .ok (.endOfBlock, s)
    else readCopy codes symbol s

theorem bitsLeft_readInRange {range : Option Range} {n : Nat} {s s' : BitSource}
    (h : readInRange range s = .ok (n, s')) : s'.bitsLeft ≤ s.bitsLeft := by
  unfold readInRange at h
  split at h
  · simp at h
  · split at h
    · simp at h
    · rename_i _ h1
      simp only [Except.ok.injEq, Prod.mk.injEq] at h
      exact h.2 ▸ BitSource.bitsLeft_take h1

theorem bitsLeft_readCopy {codes : BlockCodes} {symbol : Nat} {e : Element} {s s' : BitSource}
    (h : readCopy codes symbol s = .ok (e, s')) : s'.bitsLeft < s.bitsLeft := by
  unfold readCopy at h
  split at h
  · simp at h
  · rename_i _ _ h1
    split at h
    · simp at h
    · rename_i _ _ h2
      split at h
      · simp at h
      · rename_i _ _ h3
        have := bitsLeft_readInRange h1
        have := PrefixCode.bitsLeft_decode h2
        have := bitsLeft_readInRange h3
        simp only [Except.ok.injEq, Prod.mk.injEq] at h
        rw [← h.2]
        omega

theorem bitsLeft_readElement {codes : BlockCodes} {e : Element} {s s' : BitSource}
    (h : readElement codes s = .ok (e, s')) : s'.bitsLeft < s.bitsLeft := by
  unfold readElement at h
  split at h
  · simp at h
  · rename_i _ _ h1
    have hlt := PrefixCode.bitsLeft_decode h1
    split at h
    · simp only [Except.ok.injEq, Prod.mk.injEq] at h
      exact h.2 ▸ hlt
    · split at h
      · simp only [Except.ok.injEq, Prod.mk.injEq] at h
        exact h.2 ▸ hlt
      · exact Nat.lt_trans (bitsLeft_readCopy h) hlt

/-! ## Blocks -/

/-- Hands on what was made before reading came upon a defect: all of it where the data ended, and
otherwise what reading took another piece for. -/
def Defect.flush (why : Defect) (untaken : Nat) (o : Output) : Output :=
  match why with
  | .truncated => o.flush
  | .corrupt untakenAfter => o.flushOnRefill untaken untakenAfter

/-- What a block leaves: the output, and the bits behind the block or how reading ended in it. -/
structure BlockEnd where
  output : Output
  next : Except Ending BitSource

/-- Makes what an element stands for. -/
def Element.apply : Element → Output → Output
  | .literal byte, o => o.push byte
  | .copy length distance, o => o.copyBack distance length
  | .endOfBlock, o => o

/-- Reads elements up to the end of the block.  A piece that is used up when a full window is handed
on is replaced at once. -/
def readElements (bound : Nat) (codes : BlockCodes) (o : Output) (s : BitSource) : BlockEnd :=
  if bound < o.handedOn then ⟨o, .error .full⟩
  else
    match _h : readElement codes s with
    | .error why => ⟨why.flush s.untaken o, .error (.defect why)⟩
    | .ok (element, s') =>
      let o := o.flushOnRefill s.untaken s'.untaken
      if element = .endOfBlock then ⟨o, .ok s'⟩
      else
        let handedOn := o.handedOn
        let o := (element.apply o).flushWindows
        readElements bound codes o (s'.refill (handedOn < o.handedOn))
termination_by s.bitsLeft
decreasing_by
  rw [BitSource.bitsLeft_refill]
  exact bitsLeft_readElement _h

/-- Reads `length` bytes as they are, from the bytes `b` and the pieces behind them. -/
def readRaw : List Bytes → Nat → Output → Bytes → BlockEnd
  | later, length, o, b =>
    let content := b.take length
    let o := (o.append content).flushWindows
    if content.length = length then ⟨o, .ok ⟨0, 0, b.drop length, later⟩⟩
    else
      match later with
      | [] => ⟨o.flush, .error (.defect .truncated)⟩
      | piece :: later => readRaw later (length - content.length) o.flush piece

/-- Reads the bytes of a block that holds them as they are.  Their number is written twice, the
second time with every bit inverted. -/
def readStored (o : Output) (s : BitSource) : BlockEnd :=
  match s.align.take 32 with
  | none => ⟨o.flush, .error (.defect .truncated)⟩
  | some (sizes, s') =>
    let o := o.flushOnRefill s.untaken s'.untaken
    let length := sizes % UInt16.size
    if length + sizes / UInt16.size ≠ UInt16.size - 1 then
      ⟨o, .error (.defect (.corrupt s'.untaken))⟩
    else readRaw s'.later length o s'.rest

/-- The codes of a block that gives none. -/
def fixedCodes : BlockCodes where
  elements := .ofLengths (List.replicate 144 8 ++ List.replicate 112 9 ++ List.replicate 24 7 ++
    List.replicate 8 8)
  distances := .ofLengths (List.replicate 32 5)

/-! ## Codes that a block gives -/

/-- The order in which the lengths of the code of lengths are written. -/
def lengthOrder : List Nat :=
  [16, 17, 18, 0, 8, 7, 9, 6, 10, 5, 11, 4, 12, 3, 13, 2, 14, 1, 15]

/-- Reads `n` numbers of three bits. -/
def readTriples : Nat → BitSource → Except Defect (List Nat × BitSource)
  | 0, s => .ok ([], s)
  | n + 1, s =>
    match s.take 3 with
    | none => .error .truncated
    | some (first, s) =>
      match readTriples n s with
      | .error e => .error e
      | .ok (others, s) => .ok (first :: others, s)

/-- The code of lengths: the lengths that are not written are 0. -/
def lengthsCode (written : List Nat) : PrefixCode :=
  let given := lengthOrder.zip written
  .ofLengths ((List.range 19).map fun symbol => (given.lookup symbol).getD 0)

/-- How often a symbol of the code of lengths repeats a length. -/
def repeatRange : Nat → Range
  | 16 => ⟨3, 2⟩
  | 17 => ⟨3, 3⟩
  | 18 => ⟨11, 7⟩
  | _ => ⟨1, 0⟩

/-- The length that a symbol of the code of lengths stands for: itself, the one before, or 0. -/
def repeatedLength (previous : Option Nat) (symbol : Nat) : Option Nat :=
  if symbol < 16 then some symbol else if symbol = 16 then previous else some 0

/-- Reads lengths of code words until there are `total`. -/
def readLengths (code : PrefixCode) (total : Nat) (lengths : Array Nat) (s : BitSource) :
    Except Defect (List Nat × BitSource) :=
  if lengths.size = total then .ok (lengths.toList, s)
  else if total < lengths.size then .error (.corrupt s.untaken)
  else
    match _h : code.decode s with
    | .error e => .error e
    | .ok (symbol, s) =>
      match repeatedLength lengths.back? symbol with
      | none => .error (.corrupt s.untaken)
      | some length =>
        match _h' : readInRange (some (repeatRange symbol)) s with
        | .error e => .error e
        | .ok (times, s) => readLengths code total (lengths ++ Array.replicate times length) s
termination_by s.bitsLeft
decreasing_by
  have := PrefixCode.bitsLeft_decode _h
  have := bitsLeft_readInRange _h'
  omega

/-- Reads the codes of a block that gives them: how many lengths there are of each code, the code of
lengths, and the lengths. -/
def readCodes (s : BitSource) : Except Defect (BlockCodes × BitSource) :=
  match s.take 14 with
  | none => .error .truncated
  | some (sizes, s) =>
    let elements := 257 + sizes % 32
    let distances := 1 + sizes / 32 % 32
    if 286 < elements ∨ 30 < distances then .error (.corrupt s.untaken)
    else
      match readTriples (4 + sizes / 1024) s with
      | .error e => .error e
      | .ok (written, s) =>
        let code := lengthsCode written
        if !code.isUsable false then .error (.corrupt s.untaken)
        else
          match readLengths code (elements + distances) #[] s with
          | .error e => .error e
          | .ok (lengths, s) =>
            let codes : BlockCodes :=
              ⟨.ofLengths (lengths.take elements), .ofLengths (lengths.drop elements)⟩
            if codes.elements.isUsable true && codes.distances.isUsable true then .ok (codes, s)
            else .error (.corrupt s.untaken)

/-! ## The whole -/

/-- Reads a block of one of the four kinds. -/
def readBlock (bound kind : Nat) (o : Output) (s : BitSource) : BlockEnd :=
  match kind with
  | 0 => readStored o s
  | 1 => readElements bound fixedCodes o s
  | 2 =>
    match readCodes s with
    | .error why => ⟨why.flush s.untaken o, .error (.defect why)⟩
    | .ok (codes, s') => readElements bound codes (o.flushOnRefill s.untaken s'.untaken) s'
  | _ => ⟨o, .error (.defect (.corrupt s.untaken))⟩

theorem bitsLeft_readElements {bound : Nat} {codes : BlockCodes} {o : Output}
    {s s' : BitSource} (h : (readElements bound codes o s).next = .ok s') :
    s'.bitsLeft ≤ s.bitsLeft := by
  fun_induction readElements bound codes o s with
  | case1 => simp at h
  | case2 => simp at h
  | case3 _ _ _ _ _ h1 =>
    simp only [Except.ok.injEq] at h
    exact h ▸ Nat.le_of_lt (bitsLeft_readElement h1)
  | case4 _ _ _ _ _ h1 _ _ _ _ ih =>
    have hle := ih h
    rw [BitSource.bitsLeft_refill] at hle
    exact Nat.le_trans hle (Nat.le_of_lt (bitsLeft_readElement h1))

theorem bitsLeft_readRaw {later : List Bytes} {length : Nat} {o : Output} {b : Bytes}
    {s : BitSource} (h : (readRaw later length o b).next = .ok s) :
    s.bitsLeft ≤ 8 * (b.length + later.flatten.length) := by
  fun_induction readRaw later length o b with
  | case1 =>
    simp only [Except.ok.injEq] at h
    subst h
    simp only [BitSource.bitsLeft, List.length_drop]
    omega
  | case2 => simp at h
  | case3 _ _ _ _ _ _ _ _ ih =>
    have := ih h
    simp only [List.flatten_cons, List.length_append]
    omega

theorem bitsLeft_readStored {o : Output} {s s' : BitSource}
    (h : (readStored o s).next = .ok s') : s'.bitsLeft ≤ s.bitsLeft := by
  unfold readStored at h
  split at h
  · simp at h
  · rename_i s1 h1
    dsimp only at h
    split at h
    · simp at h
    · have := bitsLeft_readRaw h
      have := BitSource.bitsLeft_take h1
      have := BitSource.bitsLeft_align s
      simp only [BitSource.bitsLeft] at *
      omega

theorem bitsLeft_readTriples {n : Nat} {lengths : List Nat} {s s' : BitSource}
    (h : readTriples n s = .ok (lengths, s')) : s'.bitsLeft ≤ s.bitsLeft := by
  induction n generalizing lengths s s' with
  | zero =>
    simp only [readTriples, Except.ok.injEq, Prod.mk.injEq] at h
    exact h.2 ▸ Nat.le_refl _
  | succ n ih =>
    unfold readTriples at h
    split at h
    · simp at h
    · rename_i _ _ h1
      split at h
      · simp at h
      · rename_i _ _ h2
        simp only [Except.ok.injEq, Prod.mk.injEq] at h
        rw [← h.2]
        exact Nat.le_trans (ih h2) (BitSource.bitsLeft_take h1)

theorem bitsLeft_readLengths {code : PrefixCode} {total : Nat} {read : Array Nat}
    {lengths : List Nat} {s s' : BitSource}
    (h : readLengths code total read s = .ok (lengths, s')) : s'.bitsLeft ≤ s.bitsLeft := by
  fun_induction readLengths code total read s with
  | case1 =>
    simp only [Except.ok.injEq, Prod.mk.injEq] at h
    exact h.2 ▸ Nat.le_refl _
  | case2 => simp at h
  | case3 => simp at h
  | case4 => simp at h
  | case5 => simp at h
  | case6 _ _ _ _ _ _ h1 _ _ _ _ h2 ih =>
    have := PrefixCode.bitsLeft_decode h1
    have := bitsLeft_readInRange h2
    have := ih h
    omega

theorem bitsLeft_readCodes {codes : BlockCodes} {s s' : BitSource}
    (h : readCodes s = .ok (codes, s')) : s'.bitsLeft ≤ s.bitsLeft := by
  unfold readCodes at h
  dsimp only at h
  split at h
  · simp at h
  · rename_i _ _ h1
    split at h
    · simp at h
    · split at h
      · simp at h
      · rename_i _ _ h2
        split at h
        · simp at h
        · split at h
          · simp at h
          · rename_i _ _ h3
            split at h
            · simp only [Except.ok.injEq, Prod.mk.injEq] at h
              exact h.2 ▸ Nat.le_trans (bitsLeft_readLengths h3)
                (Nat.le_trans (bitsLeft_readTriples h2) (BitSource.bitsLeft_take h1))
            · simp at h

theorem bitsLeft_readBlock {bound kind : Nat} {o : Output} {s s' : BitSource}
    (h : (readBlock bound kind o s).next = .ok s') : s'.bitsLeft ≤ s.bitsLeft := by
  unfold readBlock at h
  split at h
  · exact bitsLeft_readStored h
  · exact bitsLeft_readElements h
  · split at h
    · simp at h
    · rename_i _ _ h1
      exact Nat.le_trans (bitsLeft_readElements h) (bitsLeft_readCodes h1)
  · simp at h

/-- Reads blocks up to the final one.  A block starts with a bit that marks the final one, and with
two bits for its kind. -/
def readBlocks (bound : Nat) (o : Output) (s : BitSource) : Inflated :=
  if bound < o.handedOn then ⟨o, .full⟩
  else
    match _h : s.take 3 with
    | none => ⟨o.flush, .defect .truncated⟩
    | some (start, s') =>
      let block := readBlock bound (start / 2) (o.flushOnRefill s.untaken s'.untaken) s'
      match _h' : block.next with
      | .error ending => ⟨block.output, ending⟩
      | .ok s =>
        if start % 2 = 1 then ⟨block.output, .complete s.alignedBytes⟩
        else readBlocks bound block.output s
termination_by s.bitsLeft
decreasing_by
  have := BitSource.bitsLeft_take_succ _h
  have := bitsLeft_readBlock _h'
  omega

/-- Reads compressed data, and stops once more than `bound` bytes are handed on. -/
def inflate (bound : Nat) (s : BitSource) : Inflated :=
  readBlocks bound .empty s

end EmmcLayout.Gzip
