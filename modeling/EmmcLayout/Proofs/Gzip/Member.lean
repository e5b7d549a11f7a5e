import EmmcLayout.Container.Codec
import EmmcLayout.Proofs.Bytes
import Mathlib.Tactic

/-!
# A member that was written reads back

`decompress_compress` says that a compressed byte string decompresses to itself, whatever follows
it.  The blocks of such a member hold their bytes as they are, so nothing of the codes of the format
is needed for it: only that bits are read from whole bytes (`take_bytes`), and that the bytes of a
block are found across the pieces that the input comes in (`readRaw_of_flatten`).

A source stands in front of bytes (`Faces`) when no bit of an earlier byte is left.
-/

namespace EmmcLayout

namespace Bytes

theorem ofLE_append (a b : Bytes) : ofLE (a ++ b) = ofLE a + 256 ^ a.length * ofLE b := by
  induction a with
  | nil => simp [ofLE]
  | cons x a ih =>
      rw [List.cons_append, ofLE, ofLE, ih, List.length_cons, Nat.pow_succ]
      ring

end Bytes

namespace Gzip

namespace BitSource

variable {s : BitSource} {x : UInt8} {bs : Bytes} {later : List Bytes}

/-- The source stands in front of these bytes. -/
def Faces (s : BitSource) (b : Bytes) : Prop :=
  s.held = 0 ∧ s.alignedBytes = b

/-! ## Bits -/

theorem toNat_lowBit (y : UInt8) : (decide (y &&& 1 = 1)).toNat = y.toNat % 2 := by
  have hand : (y &&& 1 = 1) ↔ y.toNat % 2 = 1 := by
    rw [← UInt8.toNat_inj, UInt8.toNat_and]
    show y.toNat &&& 1 = 1 ↔ _
    rw [Nat.and_one_is_mod]
  rcases Nat.mod_two_eq_zero_or_one y.toNat with h | h
  · simp [hand, h]
  · simp [hand, h]

theorem toNat_shiftRight_one (y : UInt8) : (y >>> 1).toNat = y.toNat / 2 := by
  rw [UInt8.toNat_shiftRight]
  show y.toNat >>> 1 = _
  rw [Nat.shiftRight_eq_div_pow, Nat.pow_one]

/-- The first bit of a byte, wherever in the pieces the byte is. -/
theorem nextOf_of_flatten {b : Bytes} (h : b ++ later.flatten = x :: bs) :
    ∃ rest later', nextOf later b = some (decide (x &&& 1 = 1), ⟨x >>> 1, 7, rest, later'⟩) ∧
      rest ++ later'.flatten = bs := by
  induction later generalizing b with
  | nil =>
      rw [List.flatten_nil, List.append_nil] at h
      rw [h]
      exact ⟨bs, [], rfl, List.append_nil bs⟩
  | cons piece later ih =>
      cases b with
      | nil => exact ih h
      | cons y b =>
          obtain ⟨rfl, rfl⟩ := List.cons.inj h
          exact ⟨b, piece :: later, rfl, rfl⟩

/-- Bits that are held are the lowest ones of their byte. -/
theorem take_held (n k : Nat) (y : UInt8) (rest : Bytes) (later : List Bytes) :
    ∃ y', take n ⟨y, n + k, rest, later⟩ = some (y.toNat % 2 ^ n, ⟨y', k, rest, later⟩) := by
  induction n generalizing y with
  | zero =>
      refine ⟨y, ?_⟩
      rw [Nat.zero_add, Nat.pow_zero, Nat.mod_one]
      rfl
  | succ n ih =>
      obtain ⟨y', htake⟩ := ih (y >>> 1)
      refine ⟨y', ?_⟩
      rw [Nat.succ_add]
      simp only [take, next, htake, toNat_lowBit, toNat_shiftRight_one]
      rw [Nat.pow_succ', Nat.mod_mul]

theorem take_of_faces (hs : s.Faces (x :: bs)) {n : Nat} (hn : n ≤ 7) :
    ∃ y rest later, take (n + 1) s = some (x.toNat % 2 ^ (n + 1), ⟨y, 7 - n, rest, later⟩) ∧
      rest ++ later.flatten = bs := by
  obtain ⟨byte, held, b, pieces⟩ := s
  obtain ⟨rfl, hbytes⟩ := hs
  obtain ⟨rest, later, hnext, hrest⟩ := nextOf_of_flatten hbytes
  obtain ⟨y, htake⟩ := take_held n (7 - n) (x >>> 1) rest later
  rw [Nat.add_sub_cancel' hn] at htake
  refine ⟨y, rest, later, ?_, hrest⟩
  simp only [take, next, hnext, htake, toNat_lowBit, toNat_shiftRight_one]
  rw [Nat.pow_succ', Nat.mod_mul]

theorem take_add {m n v w : Nat} {s s' s'' : BitSource} (hm : take m s = some (v, s'))
    (hn : take n s' = some (w, s'')) : take (m + n) s = some (v + 2 ^ m * w, s'') := by
  induction m generalizing s v with
  | zero =>
      obtain ⟨rfl, rfl⟩ := Prod.mk.inj (Option.some.inj hm)
      rw [Nat.zero_add, Nat.pow_zero, Nat.one_mul, Nat.zero_add]
      exact hn
  | succ m ih =>
      rw [take] at hm
      cases hnext : s.next with
      | none => simp [hnext] at hm
      | some first =>
          obtain ⟨bit, s1⟩ := first
          cases htake : take m s1 with
          | none => simp [hnext, htake] at hm
          | some others =>
              obtain ⟨v1, s2⟩ := others
              simp only [hnext, htake] at hm
              obtain ⟨rfl, rfl⟩ := Prod.mk.inj (Option.some.inj hm)
              have hvalue : bit.toNat + 2 * (v1 + 2 ^ m * w) =
                  bit.toNat + 2 * v1 + 2 ^ (m + 1) * w := by
                ring
              rw [Nat.succ_add]
              simp only [take, hnext, ih htake, hvalue]

/-- Whole bytes are read as the number that they say. -/
theorem take_bytes {w : Bytes} (hs : s.Faces (w ++ bs)) :
    ∃ s', take (8 * w.length) s = some (Bytes.ofLE w, s') ∧ s'.Faces bs := by
  induction w generalizing s with
  | nil => exact ⟨s, rfl, hs⟩
  | cons x w ih =>
      obtain ⟨y, rest, later, htake, hrest⟩ := take_of_faces hs (Nat.le_refl 7)
      obtain ⟨s', htakes, hs'⟩ := ih (s := ⟨y, 0, rest, later⟩) ⟨rfl, hrest⟩
      refine ⟨s', ?_, hs'⟩
      have hlt : x.toNat < 2 ^ 8 := x.toNat_lt
      have hall := take_add htake htakes
      rw [Nat.mod_eq_of_lt hlt] at hall
      rw [List.length_cons, Nat.mul_succ, Nat.add_comm, Bytes.ofLE]
      exact hall

end BitSource

open BitSource

variable {o : Output} {s : BitSource} {bs content : Bytes} {later : List Bytes} {bound : Nat}

/-! ## Blocks -/

/-- What the output of a block says: the bytes before it and those of the block, of which no more
are handed on than there are. -/
def Appends (o : Output) (content : Bytes) (o' : Output) : Prop :=
  o'.bytes.toList = o.bytes.toList ++ content ∧
    (o.handedOn ≤ o.bytes.size → o'.handedOn ≤ o'.bytes.size)

theorem Appends.trans {o' o'' : Output} {content' : Bytes} (h : Appends o content o')
    (h' : Appends o' content' o'') : Appends o (content ++ content') o'' := by
  refine ⟨?_, fun hle => h'.2 (h.2 hle)⟩
  rw [h'.1, h.1, List.append_assoc]

theorem appends_flush (o : Output) : Appends o [] o.flush :=
  ⟨(List.append_nil _).symm, fun _ => Nat.le_refl _⟩

theorem appends_flushOnRefill (before after : Nat) (o : Output) :
    Appends o [] (o.flushOnRefill before after) := by
  unfold Output.flushOnRefill
  split
  · exact appends_flush o
  · exact ⟨(List.append_nil _).symm, id⟩

theorem appends_append (o : Output) (content : Bytes) :
    Appends o content (o.append content).flushWindows := by
  have hbytes : (o.append content).flushWindows.bytes.toList = o.bytes.toList ++ content := by
    simp [Output.append, Output.flushWindows]
  refine ⟨hbytes, fun hle => ?_⟩
  have hsize : o.handedOn ≤ (o.append content).bytes.size := by
    have hlength := congrArg List.length hbytes
    rw [Array.length_toList, List.length_append, Array.length_toList] at hlength
    exact Nat.le_trans (Nat.le_trans hle (Nat.le_add_right _ _)) (Nat.le_of_eq hlength.symm)
  exact Output.handedOn_flushWindows_le hsize

/-- The bytes of a block are found across pieces. -/
theorem readRaw_of_flatten {b : Bytes} (h : b ++ later.flatten = content ++ bs) :
    ∃ o' s, readRaw later content.length o b = ⟨o', .ok s⟩ ∧ s.Faces bs ∧ Appends o content o' := by
  induction later generalizing b o content with
  | nil =>
      rw [List.flatten_nil, List.append_nil] at h
      refine ⟨(o.append content).flushWindows, ⟨0, 0, bs, []⟩, ?_, ⟨rfl, List.append_nil bs⟩,
        appends_append o content⟩
      rw [readRaw, h, List.take_left, List.drop_left, if_pos rfl]
  | cons piece later ih =>
      by_cases hle : content.length ≤ b.length
      · -- the block ends within the piece at hand
        have htake : b.take content.length = content := by
          have htake := congrArg (List.take content.length) h
          rwa [List.take_append_of_le_length hle, List.take_left] at htake
        have hdrop : b.drop content.length ++ (piece :: later).flatten = bs := by
          have hdrop := congrArg (List.drop content.length) h
          rwa [List.drop_append_of_le_length hle, List.drop_left] at hdrop
        refine ⟨(o.append content).flushWindows, ⟨0, 0, b.drop content.length, piece :: later⟩, ?_,
          ⟨rfl, hdrop⟩, appends_append o content⟩
        rw [readRaw, htake, if_pos rfl]
      · -- it goes on in the next one
        have hlt : b.length < content.length := Nat.lt_of_not_le hle
        obtain ⟨front, others, rfl, hfront⟩ := Bytes.exists_split (Nat.le_of_lt hlt)
        rw [List.append_assoc] at h
        obtain ⟨rfl, hrest⟩ := List.append_inj h hfront.symm
        rw [List.length_append] at hlt
        obtain ⟨o', s, hread, hs, ho⟩ := ih (o := (o.append b).flushWindows.flush) hrest
        have happends := ((appends_append o b).trans (appends_flush _)).trans ho
        rw [List.append_nil] at happends
        refine ⟨o', s, ?_, hs, happends⟩
        rw [readRaw, List.take_of_length_le (by rw [List.length_append]; omega),
          if_neg (by rw [List.length_append]; omega), List.length_append, Nat.add_sub_cancel_left]
        exact hread

theorem ofLE_toLE_two {n : Nat} (h : n < 65536) : Bytes.ofLE (Bytes.toLE 2 n) = n := by
  rw [Bytes.ofLE_toLE]
  exact Nat.mod_eq_of_lt h

/-- A stored block reads as what it holds. -/
theorem readStored_of_faces (hlen : content.length ≤ maxStoredLength)
    (hs : s.align.Faces (Bytes.toLE 2 content.length ++
      Bytes.toLE 2 (maxStoredLength - content.length) ++ content ++ bs)) :
    ∃ o' s', readStored o s = ⟨o', .ok s'⟩ ∧ s'.Faces bs ∧ Appends o content o' := by
  have hmax : maxStoredLength = 65535 := rfl
  have hsize : UInt16.size = 65536 := rfl
  have hpow : 256 ^ 2 = UInt16.size := rfl
  rw [List.append_assoc] at hs
  obtain ⟨s', htake, hs'⟩ := take_bytes hs
  rw [List.length_append, Bytes.length_toLE, Bytes.length_toLE, Bytes.ofLE_append,
    ofLE_toLE_two (by omega), ofLE_toLE_two (by omega), Bytes.length_toLE, hpow] at htake
  obtain ⟨o', s'', hread, hs'', ho⟩ :=
    readRaw_of_flatten (o := o.flushOnRefill s.untaken s'.untaken) hs'.2
  have happends := (appends_flushOnRefill s.untaken s'.untaken o).trans ho
  rw [List.nil_append] at happends
  refine ⟨o', s'', ?_, hs'', happends⟩
  have hlt : content.length < UInt16.size := by omega
  have hmod : (content.length + UInt16.size * (maxStoredLength - content.length)) % UInt16.size =
      content.length := by
    rw [Nat.add_mul_mod_self_left, Nat.mod_eq_of_lt hlt]
  have hdiv : (content.length + UInt16.size * (maxStoredLength - content.length)) / UInt16.size =
      maxStoredLength - content.length := by
    rw [Nat.add_mul_div_left _ _ (by decide), Nat.div_eq_of_lt hlt, Nat.zero_add]
  simp only [readStored, htake, hmod, hdiv]
  rw [if_neg (by omega)]
  exact hread

/-- What reading blocks does with one that reads well. -/
theorem readBlocks_of_ok {start : Nat} {s' s'' : BitSource} {o' : Output}
    (hbound : o.handedOn ≤ bound) (htake : s.take 3 = some (start, s'))
    (hblock : readBlock bound (start / 2) (o.flushOnRefill s.untaken s'.untaken) s' =
      ⟨o', .ok s''⟩) :
    readBlocks bound o s =
      if start % 2 = 1 then ⟨o', .complete s''.alignedBytes⟩ else readBlocks bound o' s'' := by
  rw [readBlocks, if_neg (Nat.not_lt.mpr hbound)]
  split
  · rename_i hnone
    rw [hnone] at htake
    simp at htake
  · rename_i first next hfirst
    obtain ⟨rfl, rfl⟩ := Prod.mk.inj (Option.some.inj (hfirst.symm.trans htake))
    dsimp only
    split
    · rename_i ending hending
      rw [hblock] at hending
      simp at hending
    · rename_i source hsource
      rw [hblock] at hsource ⊢
      obtain rfl := Except.ok.inj hsource
      rfl

/-- Reading takes one stored block, and stops behind the final one. -/
theorem readBlocks_storedBlock {final : Bool} (hlen : content.length ≤ maxStoredLength)
    (hbound : o.handedOn ≤ bound) (hs : s.Faces (storedBlock final content ++ bs)) :
    ∃ o' s', s'.Faces bs ∧ Appends o content o' ∧
      readBlocks bound o s = if final then ⟨o', .complete bs⟩ else readBlocks bound o' s' := by
  rw [storedBlock, List.cons_append, List.cons_append, List.cons_append] at hs
  obtain ⟨y, rest, later, htake, hrest⟩ := take_of_faces hs (n := 2) (by decide)
  have hkind : (UInt8.ofNat final.toNat).toNat % 2 ^ (2 + 1) = final.toNat := by
    cases final <;> rfl
  rw [hkind] at htake
  obtain ⟨o', s', hread, hs', ho⟩ := readStored_of_faces
    (o := o.flushOnRefill s.untaken (BitSource.mk y 5 rest later).untaken)
    (s := ⟨y, 5, rest, later⟩) hlen ⟨rfl, hrest⟩
  have happends := (appends_flushOnRefill _ _ o).trans ho
  rw [List.nil_append] at happends
  refine ⟨o', s', hs', happends, ?_⟩
  have hstored : final.toNat / 2 = 0 := by cases final <;> rfl
  rw [readBlocks_of_ok hbound htake (by rw [hstored]; exact hread), hs'.2]
  cases final <;> rfl

/-- All blocks of a byte string read as that byte string. -/
theorem readBlocks_storedBlocks (b : Bytes) (hle : o.handedOn ≤ o.bytes.size)
    (hbound : o.bytes.size + b.length ≤ bound) (hs : s.Faces (storedBlocks b ++ bs)) :
    ∃ o', readBlocks bound o s = ⟨o', .complete bs⟩ ∧ Appends o b o' := by
  have hhanded : o.handedOn ≤ bound := by omega
  induction b using storedBlocks.induct generalizing o s with
  | case1 b hshort =>
      rw [storedBlocks, if_pos hshort] at hs
      obtain ⟨o', s', -, ho, hread⟩ := readBlocks_storedBlock hshort hhanded hs
      exact ⟨o', hread, ho⟩
  | case2 b hlong ih =>
      rw [storedBlocks, if_neg hlong, List.append_assoc] at hs
      have hfirst : (b.take maxStoredLength).length ≤ maxStoredLength := List.length_take_le _ _
      obtain ⟨o', s', hs', ho, hread⟩ := readBlocks_storedBlock hfirst hhanded hs
      have hsize : o'.bytes.size = o.bytes.size + (b.take maxStoredLength).length := by
        have hlength := congrArg List.length ho.1
        rwa [Array.length_toList, List.length_append, Array.length_toList] at hlength
      have hsplit : b.take maxStoredLength ++ b.drop maxStoredLength = b :=
        List.take_append_drop _ _
      have hleft : o'.bytes.size + (b.drop maxStoredLength).length ≤ bound := by
        rw [hsize, Nat.add_assoc, ← List.length_append, hsplit]
        exact hbound
      have hle' := ho.2 hle
      obtain ⟨o'', hread', ho'⟩ := ih hle' hleft hs' (by omega)
      have happends := ho.trans ho'
      rw [hsplit] at happends
      rw [if_neg Bool.false_ne_true] at hread
      exact ⟨o'', hread.trans hread', happends⟩

/-! ## Members -/

/-- The header that is written: no flag is set, so the data begins behind its ten bytes. -/
def writtenHeader : Bytes :=
  magic ++ [8, 0, 0, 0, 0, 0, 0, 0xFF]

theorem skipHeader_written (rest : Bytes) :
    skipHeader (writtenHeader ++ rest) = some (.ofBytes 10 rest) := by
  have hfixed : Bytes.slice? (writtenHeader ++ rest) 0 10 = some writtenHeader := by
    rw [Bytes.slice?, if_pos (by simp [writtenHeader, magic])]
    rfl
  have hstart : writtenHeader.take 3 = magic ++ [8] := rfl
  have hflags : writtenHeader.getD 3 0 = 0 := rfl
  have hunset : ∀ flag : Flag, flag.isSet 0 = false := by
    intro flag
    cases flag <;> rfl
  have hdrop : (writtenHeader ++ rest).drop 10 = rest := rfl
  have hlength : (writtenHeader ++ rest).length - rest.length = 10 := by
    rw [List.length_append, Nat.add_sub_cancel]
    rfl
  have horigin : (10 - pieceOrigin 10) % pieceLength = 10 := rfl
  simp only [skipHeader, hfixed, hdrop, Option.bind_eq_bind, Option.bind_some]
  simp only [hstart, hflags, hunset, Bool.not_false, guard, and_self, if_true, Bool.false_eq_true,
    if_false, Option.pure_def, Option.bind_some, hlength, horigin]

theorem isTrailerOf_written (b junk : Bytes) :
    isTrailerOf b (Bytes.le32 (crc32 b) ++ (Bytes.toLE 4 b.length ++ junk)) = true := by
  have hchecksum := Bytes.slice?_middle [] (Bytes.le32 (crc32 b)) (Bytes.toLE 4 b.length ++ junk)
  have hlength := Bytes.slice?_middle (Bytes.le32 (crc32 b)) (Bytes.toLE 4 b.length) junk
  rw [List.nil_append, List.length_nil, Bytes.length_le32] at hchecksum
  rw [Bytes.length_le32, Bytes.length_toLE] at hlength
  have hword : Bytes.ofLE (Bytes.le32 (crc32 b)) = (crc32 b).toNat := by
    rw [Bytes.le32, Bytes.ofLE_toLE]
    exact Nat.mod_eq_of_lt (crc32 b).toNat_lt
  have hsize : Bytes.ofLE (Bytes.toLE 4 b.length) = b.length % UInt32.size := Bytes.ofLE_toLE 4 _
  simp only [isTrailerOf, hchecksum, hlength, hword, hsize, beq_self_eq_true, Bool.and_self]

/-- **A member that was written reads back**, whatever follows it. -/
theorem decompress_compress {b : Bytes} {limit : Nat} (h : b.length ≤ limit) (junk : Bytes) :
    decompress (compress b ++ junk) limit = .ok b := by
  have hsplit : compress b ++ junk = writtenHeader ++
      (storedBlocks b ++ (Bytes.le32 (crc32 b) ++ (Bytes.toLE 4 b.length ++ junk))) := by
    simp only [compress, writtenHeader, List.append_assoc]
  have hroom : Output.empty.bytes.size + b.length ≤ limit := by simpa [Output.empty] using h
  obtain ⟨o, hread, hbytes, -⟩ := readBlocks_storedBlocks b (Nat.le_refl _) hroom
    ⟨rfl, alignedBytes_ofBytes 10 (storedBlocks b ++ (Bytes.le32 (crc32 b) ++
      (Bytes.toLE 4 b.length ++ junk)))⟩
  have hcontent : o.bytes.toList = b := by simpa [Output.empty] using hbytes
  have hsize : o.bytes.size = b.length := by rw [← Array.length_toList, hcontent]
  have htrailer := isTrailerOf_written b junk
  rw [decompress, hsplit, skipHeader_written]
  simp only [inflate, hread, Inflated.delivered, hsize, hcontent, htrailer,
    if_neg (Nat.not_lt.mpr h), if_true]

end Gzip

end EmmcLayout
