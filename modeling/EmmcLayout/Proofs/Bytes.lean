import EmmcLayout.Bytes.Checked
import Mathlib.Data.List.Infix
import Mathlib.Tactic.Common

/-!
# Laws of byte strings

What is written reads back: numbers of either byte order (`ofBE_toBE_of_lt`, `ofLE_toLE_of_lt`),
texts closed by a NUL (`terminated?_eq_some_iff`), parts of a longer string (`fetch_middle`,
`cut_middle`).  `findFrom_eq_some_iff` says which of several places a search finds,
`foldl_wordAt` that a sum of words is taken place by place, `toNat_wordSum` what it is as a number,
and `eq_of_wordSum_eq` that it notices when one word was changed.
-/

namespace EmmcLayout.Bytes

/-! ## Numbers of a width -/

variable {width n : Nat} {b : Bytes}

/-- A number that fits is read back. -/
theorem ofLE_toLE_of_lt (h : n < 1 <<< (8 * width)) : ofLE (toLE width n) = n := by
  rw [ofLE_toLE, Nat.mod_eq_of_lt h]

theorem ofBE_toBE_of_lt (h : n < 1 <<< (8 * width)) : ofBE (toBE width n) = n := by
  rw [ofBE_toBE, Nat.mod_eq_of_lt h]

/-- Bytes are written by the number that they read as, which fits their width. -/
theorem toLE_mod_ofLE (h : b.length = width) : toLE width (ofLE b % 1 <<< (8 * width)) = b := by
  subst h
  rw [Nat.mod_eq_of_lt (ofLE_lt b), toLE_ofLE]

theorem toBE_mod_ofBE (h : b.length = width) : toBE width (ofBE b % 1 <<< (8 * width)) = b := by
  subst h
  rw [← ofBE_toBE, toBE_ofBE, toBE_ofBE]

/-! ## Big-endian words -/

@[simp]
theorem length_be32 (w : UInt32) : (be32 w).length = 4 := length_toBE 4 w.toNat

@[simp]
theorem length_be64 (w : UInt64) : (be64 w).length = 8 := length_toBE 8 w.toNat

theorem ofNat_ofBE_be32 (w : UInt32) : UInt32.ofNat (ofBE (be32 w)) = w := by
  rw [be32, ofBE_toBE_of_lt w.toNat_lt, UInt32.ofNat_toNat]

theorem ofNat_ofBE_be64 (w : UInt64) : UInt64.ofNat (ofBE (be64 w)) = w := by
  rw [be64, ofBE_toBE_of_lt w.toNat_lt, UInt64.ofNat_toNat]

/-- Four bytes are the word that they read as. -/
theorem be32_ofNat_ofBE (h : b.length = 4) : be32 (UInt32.ofNat (ofBE b)) = b :=
  toBE_mod_ofBE h

/-! ## Little-endian words -/

@[simp]
theorem length_le32 (w : UInt32) : (le32 w).length = 4 := length_toLE 4 w.toNat

@[simp]
theorem length_le64 (w : UInt64) : (le64 w).length = 8 := length_toLE 8 w.toNat

theorem ofNat_ofLE_le32 (w : UInt32) : UInt32.ofNat (ofLE (le32 w)) = w := by
  rw [le32, ofLE_toLE_of_lt w.toNat_lt, UInt32.ofNat_toNat]

theorem ofNat_ofLE_le64 (w : UInt64) : UInt64.ofNat (ofLE (le64 w)) = w := by
  rw [le64, ofLE_toLE_of_lt w.toNat_lt, UInt64.ofNat_toNat]

/-- Four bytes are written by the word that they read as. -/
theorem le32_ofNat_ofLE (h : b.length = 4) : le32 (UInt32.ofNat (ofLE b)) = b :=
  toLE_mod_ofLE h

/-- Eight bytes are written by the word that they read as. -/
theorem le64_ofNat_ofLE (h : b.length = 8) : le64 (UInt64.ofNat (ofLE b)) = b :=
  toLE_mod_ofLE h

/-! ## Texts closed by a NUL -/

theorem untilNul_append_zero {b : Bytes} (h : 0 ∉ b) (rest : Bytes) :
    untilNul (b ++ 0 :: rest) = b := by
  have hall : ∀ x ∈ b, decide (x ≠ 0) = true := by
    intro x hx
    exact decide_eq_true fun hzero => h (hzero ▸ hx)
  rw [untilNul, List.takeWhile_append_of_pos hall]
  simp

/-- A text is read exactly where it stands in front of its NUL. -/
theorem terminated?_eq_some_iff {b text : Bytes} :
    terminated? b = some text ↔ 0 ∉ text ∧ text ++ [0] <+: b := by
  unfold terminated?
  constructor
  · intro h
    split at h
    · rename_i hmem
      obtain ⟨front, back, rfl, hzero⟩ := List.eq_append_cons_of_mem hmem
      rw [untilNul_append_zero hzero, Option.some.injEq] at h
      subst h
      exact ⟨hzero, back, by simp⟩
    · exact absurd h (by simp)
  · rintro ⟨hzero, rest, rfl⟩
    rw [List.append_assoc, List.singleton_append, untilNul_append_zero hzero, if_pos (by simp)]

theorem terminated?_of_prefix {b b' text : Bytes} (hb : b <+: b')
    (h : terminated? b = some text) : terminated? b' = some text := by
  obtain ⟨hzero, hstands⟩ := terminated?_eq_some_iff.mp h
  exact terminated?_eq_some_iff.mpr ⟨hzero, hstands.trans hb⟩

/-! ## Searching -/

/-- A search finds the first place at which the needle stands. -/
theorem findFrom_eq_some_iff {needle : Bytes} (hne : needle ≠ []) {b : Bytes} {pos k : Nat} :
    findFrom needle pos b = some k ↔
      ∃ i, k = pos + i ∧ needle <+: b.drop i ∧ ∀ j < i, ¬ needle <+: b.drop j := by
  induction b generalizing pos with
  | nil =>
      simp [findFrom, hne]
  | cons x b ih =>
      rw [findFrom]
      by_cases hhere : needle <+: x :: b
      · rw [if_pos (List.isPrefixOf_iff_prefix.mpr hhere)]
        constructor
        · intro h
          refine ⟨0, (Option.some.inj h).symm, hhere, ?_⟩
          intro j hj
          exact absurd hj (Nat.not_lt_zero j)
        · rintro ⟨i, rfl, -, hleast⟩
          cases i with
          | zero => rfl
          | succ i => exact absurd hhere (hleast 0 (Nat.succ_pos i))
      · rw [if_neg (fun h => hhere (List.isPrefixOf_iff_prefix.mp h)), ih]
        constructor
        · rintro ⟨i, rfl, hstands, hleast⟩
          refine ⟨i + 1, by omega, hstands, ?_⟩
          intro j hj
          cases j with
          | zero => exact hhere
          | succ j => exact hleast j (Nat.lt_of_succ_lt_succ hj)
        · rintro ⟨i, rfl, hstands, hleast⟩
          cases i with
          | zero => exact absurd hstands hhere
          | succ i =>
              refine ⟨i, by omega, hstands, ?_⟩
              intro j hj
              exact hleast (j + 1) (Nat.succ_lt_succ hj)

/-- A search fails only where the needle stands nowhere. -/
theorem findFrom_isSome {needle : Bytes} (hne : needle ≠ []) {b : Bytes} {i : Nat}
    (h : needle <+: b.drop i) : ∃ k ≤ i, findFrom needle 0 b = some k := by
  induction i using Nat.strong_induction_on with
  | _ i ih =>
      by_cases hbelow : ∃ j < i, needle <+: b.drop j
      · obtain ⟨j, hj, hstands⟩ := hbelow
        obtain ⟨k, hk, hfind⟩ := ih j hj hstands
        exact ⟨k, Nat.le_trans hk (Nat.le_of_lt hj), hfind⟩
      · refine ⟨i, Nat.le_refl i, (findFrom_eq_some_iff hne).mpr ⟨i, (Nat.zero_add i).symm, h, ?_⟩⟩
        intro j hj hstands
        exact hbelow ⟨j, hj, hstands⟩

/-! ## Parts -/

/-- A byte string is cut where it is long enough. -/
theorem exists_split {n : Nat} {b : Bytes} (h : n ≤ b.length) :
    ∃ front back, b = front ++ back ∧ front.length = n :=
  ⟨b.take n, b.drop n, (List.take_append_drop n b).symm, List.length_take_of_le h⟩

/-- What is filled up is as long as it should be, unless it was too long before. -/
theorem length_padTo {n : Nat} {b : Bytes} (h : b.length ≤ n) : (padTo n b).length = n := by
  rw [padTo, List.length_append, zeros, List.length_replicate]
  omega

theorem slice?_middle (front part back : Bytes) :
    slice? (front ++ (part ++ back)) front.length part.length = some part := by
  have hle : front.length + part.length ≤ (front ++ (part ++ back)).length := by
    simp only [List.length_append]
    omega
  rw [slice?, if_pos hle, List.drop_left, List.take_left]

theorem fetch_middle (front part back : Bytes) :
    fetch (front ++ (part ++ back)) front.length part.length = .ok part := by
  rw [fetch, slice?_middle]

/-- A part that was read is the middle of the string. -/
theorem fetch_eq_ok_iff {b part : Bytes} {pos len : Nat} :
    fetch b pos len = .ok part ↔
      ∃ front back, b = front ++ (part ++ back) ∧ front.length = pos ∧ part.length = len := by
  constructor
  · intro h
    by_cases hle : pos + len ≤ b.length
    · rw [fetch, slice?, if_pos hle] at h
      obtain rfl := Except.ok.inj h
      refine ⟨b.take pos, (b.drop pos).drop len, ?_, ?_, ?_⟩
      · rw [List.take_append_drop, List.take_append_drop]
      · rw [List.length_take]
        omega
      · rw [List.length_take, List.length_drop]
        omega
    · rw [fetch, slice?, if_neg hle] at h
      exact absurd h (by simp)
  · rintro ⟨front, back, rfl, rfl, rfl⟩
    exact fetch_middle front part back

/-- What lies behind a string does not change what is read within it. -/
theorem fetch_append {b part : Bytes} {pos len : Nat} (h : fetch b pos len = .ok part)
    (junk : Bytes) : fetch (b ++ junk) pos len = .ok part := by
  obtain ⟨front, back, rfl, hpos, hlen⟩ := fetch_eq_ok_iff.mp h
  exact fetch_eq_ok_iff.mpr ⟨front, back ++ junk, by simp only [List.append_assoc], hpos, hlen⟩

/-- A word is read exactly where its bytes stand. -/
theorem fetchBE32_eq_ok_iff {b : Bytes} {pos : Nat} {w : UInt32} :
    fetchBE32 b pos = .ok w ↔ fetch b pos 4 = .ok (be32 w) := by
  unfold fetchBE32
  constructor
  · intro h
    cases hfetch : fetch b pos 4 with
    | error e =>
        rw [hfetch] at h
        exact absurd h (by simp [Except.map])
    | ok part =>
        obtain ⟨-, -, -, -, hlen⟩ := fetch_eq_ok_iff.mp hfetch
        rw [hfetch] at h
        rw [← Except.ok.inj h, be32_ofNat_ofBE hlen]
  · intro h
    rw [h, Except.map, ofNat_ofBE_be32]

theorem fetchBE32_middle (front : Bytes) (w : UInt32) (back : Bytes) :
    fetchBE32 (front ++ (be32 w ++ back)) front.length = .ok w := by
  have hfetch := fetch_middle front (be32 w) back
  rw [length_be32] at hfetch
  rw [fetchBE32, hfetch, Except.map, ofNat_ofBE_be32]

theorem fetchLE32_middle (front : Bytes) (w : UInt32) (back : Bytes) :
    fetchLE32 (front ++ (le32 w ++ back)) front.length = .ok w := by
  have hfetch := fetch_middle front (le32 w) back
  rw [length_le32] at hfetch
  rw [fetchLE32, hfetch, Except.map, ofNat_ofLE_le32]

theorem fetchLE64_middle (front : Bytes) (w : UInt64) (back : Bytes) :
    fetchLE64 (front ++ (le64 w ++ back)) front.length = .ok w := by
  have hfetch := fetch_middle front (le64 w) back
  rw [length_le64] at hfetch
  rw [fetchLE64, hfetch, Except.map, ofNat_ofLE_le64]

theorem cut_middle (front part back : Bytes) :
    cut (front ++ (part ++ back)) front.length (front.length + part.length) = .ok part := by
  have hle : front.length + part.length ≤ (front ++ (part ++ back)).length := by
    simp only [List.length_append]
    omega
  rw [cut, if_pos ⟨Nat.le_add_right _ _, hle⟩, List.drop_left, Nat.add_sub_cancel_left,
    List.take_left]

/-- A part that was cut out is the middle of the string. -/
theorem cut_eq_ok_iff {b part : Bytes} {start stop : Nat} :
    cut b start stop = .ok part ↔
      start ≤ stop ∧ stop ≤ b.length ∧ part = (b.drop start).take (stop - start) := by
  unfold cut
  by_cases h : start ≤ stop ∧ stop ≤ b.length
  · rw [if_pos h, Except.ok.injEq, eq_comm]
    exact ⟨fun heq => ⟨h.1, h.2, heq⟩, fun heq => heq.2.2⟩
  · rw [if_neg h]
    refine ⟨fun heq => absurd heq (by simp), ?_⟩
    rintro ⟨hle, hlen, -⟩
    exact absurd ⟨hle, hlen⟩ h

theorem cut_zero_eq_ok_iff {b part : Bytes} {stop : Nat} :
    cut b 0 stop = .ok part ↔ part.length = stop ∧ part <+: b := by
  rw [cut_eq_ok_iff, List.drop_zero, Nat.sub_zero]
  constructor
  · rintro ⟨-, hle, rfl⟩
    exact ⟨List.length_take_of_le hle, List.take_prefix _ _⟩
  · rintro ⟨rfl, hprefix⟩
    exact ⟨Nat.zero_le _, hprefix.length_le, List.prefix_iff_eq_take.mp hprefix⟩

/-! ## Rounding to four -/

theorem le_align4 (n : Nat) : n ≤ align4 n := by
  unfold align4
  omega

theorem align4_mod (n : Nat) : align4 n % 4 = 0 := by
  unfold align4
  omega

/-- What is filled up to a multiple of four ends there. -/
theorem length_fill_align4 (b : Bytes) :
    (b ++ zeros (align4 b.length - b.length)).length = align4 b.length := by
  have hle := le_align4 b.length
  simp only [zeros, List.length_append, List.length_replicate]
  omega

theorem align4_add {m : Nat} (hm : m % 4 = 0) (n : Nat) : align4 (m + n) = m + align4 n := by
  unfold align4
  omega

/-! ## Sums of words -/

theorem addWords_add (sum more : UInt32) (b : Bytes) :
    addWords (sum + more) b = sum + addWords more b := by
  fun_induction addWords more b with
  | case1 more w x y z rest ih => rw [addWords, UInt32.add_assoc, ih]
  | case2 more b hshort => rw [addWords.eq_2 _ _ hshort]

/-- Whole words in front are summed on their own. -/
theorem addWords_append {front : Bytes} (h : front.length % 4 = 0) (sum : UInt32) (back : Bytes) :
    addWords sum (front ++ back) = addWords (addWords sum front) back := by
  fun_induction addWords sum front with
  | case1 sum w x y z rest ih =>
      have hrest : rest.length % 4 = 0 := by
        simp only [List.length_cons] at h
        omega
      exact ih hrest
  | case2 front sum hshort =>
      have hnil : front = [] := by
        match front, hshort with
        | [], _ => rfl
        | [_], _ => simp at h
        | [_, _], _ => simp at h
        | [_, _, _], _ => simp at h
        | w :: x :: y :: z :: rest, hshort => exact absurd rfl (hshort w x y z rest)
      rw [hnil, List.nil_append]

theorem addWords_word {word : Bytes} (h : word.length = 4) (sum : UInt32) (back : Bytes) :
    addWords sum (word ++ back) = addWords (sum + UInt32.ofNat (ofLE word)) back := by
  match word, h with
  | [w, x, y, z], _ => rfl

/-- The little-endian 32-bit word at a place of a byte string. -/
def wordAt (b : Bytes) (pos : Nat) : UInt32 :=
  UInt32.ofNat (ofLE ((b.drop pos).take 4))

/-- Words that fill a string are summed at their places. -/
theorem foldl_wordAt {n : Nat} {b : Bytes} (h : b.length = 4 * n) (sum : UInt32) :
    (List.range n).foldl (fun sum i => sum + wordAt b (4 * i)) sum = addWords sum b := by
  induction n generalizing b sum with
  | zero =>
      obtain rfl := List.eq_nil_of_length_eq_zero h
      rfl
  | succ n ih =>
      match b, h with
      | w :: x :: y :: z :: rest, h =>
          have hrest : rest.length = 4 * n := by
            simp only [List.length_cons] at h
            omega
          -- behind the first word, every place is four less
          rw [List.range_succ_eq_map, List.foldl_cons, List.foldl_map, addWords, ← ih hrest]
          rfl

/-- The sum of the little-endian 32-bit words of a byte string as a number.  Up to three bytes left
over at the end do not count. -/
def wordTotal : Bytes → Nat
  | a :: b :: c :: d :: rest => ofLE [a, b, c, d] + wordTotal rest
  | _ => 0

theorem addWords_eq (sum : UInt32) (b : Bytes) :
    addWords sum b = sum + UInt32.ofNat (wordTotal b) := by
  fun_induction addWords sum b with
  | case1 sum w x y z rest ih => rw [ih, wordTotal, UInt32.ofNat_add, UInt32.add_assoc]
  | case2 b sum hshort =>
      rw [wordTotal.eq_2 _ hshort]
      exact (UInt32.add_zero sum).symm

/-- Summed in words, it is the same as far as a word goes. -/
theorem toNat_wordSum (b : Bytes) : (wordSum b).toNat = wordTotal b % UInt32.size := by
  rw [wordSum, addWords_eq, UInt32.zero_add, UInt32.toNat_ofNat']

/-- A sum tells two strings apart that differ in one of its words only. -/
theorem eq_of_wordSum_eq {front word word' back : Bytes} (hfront : front.length % 4 = 0)
    (hword : word.length = 4) (hword' : word'.length = 4)
    (h : wordSum (front ++ (word ++ back)) = wordSum (front ++ (word' ++ back))) :
    word = word' := by
  simp only [wordSum, addWords_append hfront, addWords_word hword, addWords_word hword'] at h
  have hsum : ∀ n, addWords (addWords 0 front + n) back = n + addWords (addWords 0 front) back := by
    intro n
    rw [UInt32.add_comm, addWords_add]
  rw [hsum, hsum, UInt32.add_left_inj] at h
  rw [← le32_ofNat_ofLE hword, ← le32_ofNat_ofLE hword', h]

/-! ## Damage -/

/-- The two strings differ at most from `start` up to `stop`. -/
structure AgreeOutside (start stop : Nat) (a b : Bytes) : Prop where
  length_eq : a.length = b.length
  take_eq : a.take start = b.take start
  drop_eq : a.drop stop = b.drop stop

theorem AgreeOutside.exists_split {start stop : Nat} {a b : Bytes} (h : AgreeOutside start stop a b)
    (hle : start ≤ stop) (hstop : stop ≤ a.length) :
    ∃ front part part' back, a = front ++ (part ++ back) ∧ b = front ++ (part' ++ back) ∧
      front.length = start ∧ part.length = stop - start ∧ part'.length = stop - start := by
  have hparts : ∀ s : Bytes,
      s = s.take start ++ ((s.drop start).take (stop - start) ++ s.drop stop) := by
    intro s
    have hdrop : s.drop stop = (s.drop start).drop (stop - start) := by
      rw [List.drop_drop, Nat.add_sub_cancel' hle]
    rw [hdrop, List.take_append_drop, List.take_append_drop]
  have hlen := h.length_eq
  refine ⟨a.take start, (a.drop start).take (stop - start), (b.drop start).take (stop - start),
    a.drop stop, hparts a, ?_, ?_, ?_, ?_⟩
  · rw [h.take_eq, h.drop_eq]
    exact hparts b
  · rw [List.length_take]
    omega
  · rw [List.length_take, List.length_drop]
    omega
  · rw [List.length_take, List.length_drop]
    omega

end EmmcLayout.Bytes
