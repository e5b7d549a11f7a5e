import EmmcLayout.Gzip.BitSource

/-!
# Prefix codes

The symbols of compressed data are written in a canonical prefix code, which is given by the lengths
of its code words: words of one length are consecutive numbers in the order of their symbols, and
shorter words come before longer ones.  A code word is read from its highest bit on.
-/

namespace EmmcLayout.Gzip

/-- Why compressed data could not be read on. -/
inductive Defect
  /-- The data ended. -/
  | truncated
  /-- The data is not what any compressor writes.  That was noticed when nothing was taken yet of so
  many pieces. -/
  | corrupt (untaken : Nat)
  deriving DecidableEq

/-- A canonical prefix code. -/
structure PrefixCode where
  /-- The number of code words of each length, from one bit on. -/
  counts : List Nat
  /-- The symbols in the order of their code words. -/
  symbols : Array Nat

namespace PrefixCode

/-- The greatest length of a code word. -/
def maxLength : Nat := 15

/-- The code whose symbols have these lengths; a length of 0 means that the symbol is not used. -/
def ofLengths (lengths : List Nat) : PrefixCode :=
  let used := lengths.zipIdx
  let wordsOf (length : Nat) : List Nat :=
    (used.filter fun (l, _) => l = length).map Prod.snd
  let byLength := (List.range maxLength).map fun i => wordsOf (i + 1)
  ⟨byLength.map List.length, byLength.flatten.toArray⟩

/-- How many code words of the greatest length are left when those counted are taken; `none` when
there are too many of them. -/
def slack? (free : Nat) : List Nat → Option Nat
  | [] => some free
  | count :: rest => if 2 * free < count then none else slack? (2 * free - count) rest

/-- Whether the code words use up all bit strings, or, where a code may be `sparse`, none of them is
longer than one bit. -/
def isUsable (sparse : Bool) (c : PrefixCode) : Bool :=
  match slack? 1 c.counts with
  | none => false
  | some free => free == 0 || (sparse && c.counts.headD 0 == c.symbols.size)

/-- Reads the rest of a code word.  `word` is what was read of it so far; the words of the length
that was reached start at `first`, and their symbols at `index`.  Where no longer word is left, what
was read is corrupt. -/
def decodeFrom (symbols : Array Nat) (word first index : Nat) :
    List Nat → BitSource → Except Defect (Nat × BitSource)
  | [], s => .error (.corrupt s.untaken)
  | count :: longer, s =>
    match s.next with
    | none => .error .truncated
    | some (bit, s) =>
      let word := 2 * word + bit.toNat
      let first := 2 * first
      if word < first + count then
        match symbols[index + (word - first)]? with
        | some symbol => .ok (symbol, s)
        | none => .error (.corrupt s.untaken)
      else if symbols.size ≤ index + count then .error (.corrupt s.untaken)
      else decodeFrom symbols word (first + count) (index + count) longer s

/-- Reads a symbol. -/
def decode (c : PrefixCode) (s : BitSource) : Except Defect (Nat × BitSource) :=
  decodeFrom c.symbols 0 0 0 c.counts s

theorem bitsLeft_decodeFrom {symbols : Array Nat} {counts : List Nat}
    {word first index symbol : Nat} {s s' : BitSource}
    (h : decodeFrom symbols word first index counts s = .ok (symbol, s')) :
    s'.bitsLeft < s.bitsLeft := by
  induction counts generalizing word first index s with
  | nil => simp [decodeFrom] at h
  | cons count longer ih =>
    unfold decodeFrom at h
    split at h
    · simp at h
    · rename_i bit s1 h1
      have hlt := BitSource.bitsLeft_next h1
      simp only at h
      split at h
      · split at h
        · simp only [Except.ok.injEq, Prod.mk.injEq] at h
          rw [← h.2]
          exact hlt
        · simp at h
      · split at h
        · simp at h
        · exact Nat.lt_trans (ih h) hlt

theorem bitsLeft_decode {c : PrefixCode} {symbol : Nat} {s s' : BitSource}
    (h : c.decode s = .ok (symbol, s')) : s'.bitsLeft < s.bitsLeft :=
  bitsLeft_decodeFrom h

end PrefixCode

end EmmcLayout.Gzip
