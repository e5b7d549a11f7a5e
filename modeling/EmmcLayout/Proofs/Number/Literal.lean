import EmmcLayout.Snapshot
import Mathlib.Tactic

/-!
# Numbers read back

A size is written in one of three styles: in decimal, in hexadecimal behind `0x`, or exactly in the
largest unit that divides it.  `Style` says what the grammar asks of a style, and each of the three
keeps it for every 64-bit word (`style_decimalLiteral`, `style_hexLiteral`, `style_sizeLiteral`).

A literal that starts with a zero would be read as octal, so it matters that no number but zero is
written with one in front (`head?_toDigits`).
-/

namespace EmmcLayout

namespace Literal

variable {radix n d power : Nat} {c : Char} {cs digits rest : List Char} {lettered : Bool}

/-! ## Digits -/

theorem digitValue?_digitChar (h : d < 16) : digitValue? d.digitChar = some d :=
  (by decide : ∀ d < 16, digitValue? d.digitChar = some d) d h

theorem digitsValue_append_digit (ds : List Char) (h : d < 16) :
    digitsValue radix (ds ++ [d.digitChar]) = digitsValue radix ds * radix + d := by
  rw [digitsValue, List.foldl_append, List.foldl_cons, List.foldl_nil, digitValue?_digitChar h,
    Option.getD_some, digitsValue]

/-- The digits of a number say that number. -/
theorem digitsValue_toDigits (hradix : 1 < radix) (hle : radix ≤ 16) (n : Nat) :
    digitsValue radix (Nat.toDigits radix n) = n := by
  induction n using Nat.base_induction radix hradix with
  | single m hm =>
      have hdigit : digitsValue radix ([] ++ [m.digitChar]) = 0 * radix + m :=
        digitsValue_append_digit [] (Nat.lt_of_lt_of_le hm hle)
      rw [Nat.toDigits_of_lt_base hm]
      simpa using hdigit
  | digit m k hk hm ih =>
      rw [← Nat.toDigits_append_toDigits hradix hm hk, Nat.toDigits_of_lt_base hk,
        digitsValue_append_digit _ (Nat.lt_of_lt_of_le hk hle), ih, Nat.mul_comm]

theorem exists_of_mem_toDigits (hradix : 1 < radix) (h : c ∈ Nat.toDigits radix n) :
    ∃ d < radix, c = d.digitChar := by
  induction n using Nat.base_induction radix hradix with
  | single m hm =>
      rw [Nat.toDigits_of_lt_base hm, List.mem_singleton] at h
      exact ⟨m, hm, h⟩
  | digit m k hk hm ih =>
      rw [← Nat.toDigits_append_toDigits hradix hm hk, Nat.toDigits_of_lt_base hk, List.mem_append,
        List.mem_singleton] at h
      rcases h with h | h
      · exact ih h
      · exact ⟨k, hk, h⟩

theorem isDigitOf_of_mem_toDigits (hradix : 1 < radix) (hle : radix ≤ 16)
    (h : c ∈ Nat.toDigits radix n) : isDigitOf radix c = true := by
  obtain ⟨d, hd, rfl⟩ := exists_of_mem_toDigits hradix h
  rw [isDigitOf, digitValue?_digitChar (Nat.lt_of_lt_of_le hd hle)]
  exact decide_eq_true hd

theorem isAlphanum_of_mem_toDigits (hradix : 1 < radix) (hle : radix ≤ 16)
    (h : c ∈ Nat.toDigits radix n) : c.isAlphanum = true := by
  obtain ⟨d, hd, rfl⟩ := exists_of_mem_toDigits hradix h
  exact (by decide : ∀ d < 16, d.digitChar.isAlphanum = true) d (Nat.lt_of_lt_of_le hd hle)

/-- No number but zero starts with a zero. -/
theorem head?_toDigits (hradix : 1 < radix) (hn : n ≠ 0) :
    (Nat.toDigits radix n).head? ≠ some '0' := by
  induction n using Nat.base_induction radix hradix with
  | single m hm =>
      rw [Nat.toDigits_of_lt_base hm, List.head?_cons, ne_eq, Option.some_inj,
        Nat.digitChar_eq_zero]
      exact hn
  | digit m k hk hm ih =>
      rw [← Nat.toDigits_append_toDigits hradix hm hk,
        List.head?_append_of_ne_nil _ Nat.toDigits_ne_nil]
      exact ih (Nat.ne_of_gt hm)

/-! ## Reading -/

theorem splitRadix_of_head? (h : cs.head? ≠ some '0') : splitRadix cs = (10, cs) := by
  unfold splitRadix
  split <;> simp_all

/-- A run of digits in front of something that is no digit. -/
theorem takeWhile_digits (hdigits : ∀ c ∈ digits, isDigitOf radix c = true)
    (hrest : ∀ c ∈ rest.head?, isDigitOf radix c = false) :
    (digits ++ rest).takeWhile (isDigitOf radix) = digits := by
  rw [List.takeWhile_append_of_pos hdigits]
  cases rest with
  | nil => simp
  | cons c rest => simp [hrest c rfl]

theorem dropWhile_digits (hdigits : ∀ c ∈ digits, isDigitOf radix c = true)
    (hrest : ∀ c ∈ rest.head?, isDigitOf radix c = false) :
    (digits ++ rest).dropWhile (isDigitOf radix) = rest := by
  rw [List.dropWhile_append_of_pos hdigits]
  cases rest with
  | nil => simp
  | cons c rest => simp [hrest c rfl]

/-- Digits and nothing else. -/
theorem read_digits (hne : digits ≠ []) (hdigits : ∀ c ∈ digits, isDigitOf radix c = true)
    (hsplit : splitRadix cs = (radix, digits)) :
    read lettered cs = if UInt64.size ≤ digitsValue radix digits then .error .overflow
      else .ok (digitsValue radix digits) := by
  have hnone : ∀ c ∈ ([] : List Char).head?, isDigitOf radix c = false := by simp
  have htake := takeWhile_digits hdigits hnone
  have hdrop := dropWhile_digits hdigits hnone
  rw [List.append_nil] at htake hdrop
  simp only [read, hsplit, htake, hdrop, List.isEmpty_iff, hne, if_false]

/-- Digits with the letter of a unit behind them. -/
theorem read_letter (hne : digits ≠ []) (hdigits : ∀ c ∈ digits, isDigitOf radix c = true)
    (hc : isDigitOf radix c = false) (hpower : letterPower? c = some power)
    (hsplit : splitRadix cs = (radix, digits ++ [c])) :
    read true cs = if digitsValue radix digits <<< (10 * power) < UInt64.size then
      .ok (digitsValue radix digits <<< (10 * power)) else .error .overflow := by
  have hone : ∀ c' ∈ [c].head?, isDigitOf radix c' = false := by simpa using hc
  have hle : digitsValue radix digits ≤ digitsValue radix digits <<< (10 * power) := by
    rw [Nat.shiftLeft_eq]
    exact Nat.le_mul_of_pos_right _ (Nat.two_pow_pos _)
  simp only [read, hsplit, takeWhile_digits hdigits hone, dropWhile_digits hdigits hone,
    List.isEmpty_iff, hne, if_false, if_true, hpower]
  by_cases hfits : digitsValue radix digits <<< (10 * power) < UInt64.size
  · rw [if_neg (Nat.not_le.mpr (Nat.lt_of_le_of_lt hle hfits))]
  · rw [if_neg hfits, ite_self]

/-- The digits of a number are read as that number. -/
theorem read_toDigits (hradix : 1 < radix) (hle : radix ≤ 16) (hn : n < UInt64.size)
    (hsplit : splitRadix cs = (radix, Nat.toDigits radix n)) : read lettered cs = .ok n := by
  rw [read_digits Nat.toDigits_ne_nil (fun c hc => isDigitOf_of_mem_toDigits hradix hle hc) hsplit,
    digitsValue_toDigits hradix hle, if_neg (Nat.not_le.mpr hn)]

theorem toList_toString (n : Nat) : (toString n).toList = Nat.toDigits 10 n := by
  rw [Nat.toString_eq_repr, Nat.toList_repr]

theorem toString_ne_empty (n : Nat) : toString n ≠ "" := by
  rw [ne_eq, ← String.toList_inj, toList_toString]
  exact Nat.toDigits_ne_nil

theorem notMem_toString (hc : c.isAlphanum = false) (n : Nat) : c ∉ (toString n).toList := by
  intro hmem
  rw [toList_toString] at hmem
  rw [isAlphanum_of_mem_toDigits (by decide) (by decide) hmem] at hc
  exact Bool.noConfusion hc

theorem splitRadix_toDigits (hrest : n = 0 → rest = []) :
    splitRadix (Nat.toDigits 10 n ++ rest) = (10, Nat.toDigits 10 n ++ rest) := by
  by_cases hn : n = 0
  · rw [hn, hrest hn]
    rfl
  · apply splitRadix_of_head?
    rw [List.head?_append_of_ne_nil _ Nat.toDigits_ne_nil]
    exact head?_toDigits (by decide) hn

theorem read_toString (lettered : Bool) (hn : n < UInt64.size) :
    read lettered (toString n).toList = .ok n := by
  have hsplit : splitRadix (Nat.toDigits 10 n ++ []) = (10, Nat.toDigits 10 n ++ []) :=
    splitRadix_toDigits fun _ => rfl
  rw [List.append_nil] at hsplit
  rw [toList_toString]
  exact read_toDigits (by decide) (by decide) hn hsplit

theorem toList_hex (n : Nat) : (Text.hex n).toList = '0' :: 'x' :: Nat.toDigits 16 n := by
  rw [Text.hex, Text.hexDigits, String.toList_append, String.toList_ofList, String.toList_ofList]
  rfl

theorem read_hex (lettered : Bool) (hn : n < UInt64.size) :
    read lettered (Text.hex n).toList = .ok n := by
  have hsplit : splitRadix ('0' :: 'x' :: Nat.toDigits 16 n) = (16, Nat.toDigits 16 n) := by
    cases hdigits : Nat.toDigits 16 n with
    | nil => exact absurd hdigits Nat.toDigits_ne_nil
    | cons c cs => rfl
  rw [toList_hex]
  exact read_toDigits (by decide) (by decide) hn hsplit

/-! ## Units -/

/-- Taking out factors of 1024 stops at the first letter, or at a letter that stands for as many of
them as were taken out.  Where it stops before the last letter, 1024 divides no more. -/
theorem reduce_cases (letters : List Char) (value : Nat) (unit : Option Char) :
    SizeLiteral.reduce value unit letters = (value, unit) ∧ (letters ≠ [] → ¬ 1024 ∣ value) ∨
      ∃ i, ∃ h : i < letters.length, ∃ reduced,
        SizeLiteral.reduce value unit letters = (reduced, some letters[i]) ∧
          value = reduced <<< (10 * (i + 1)) ∧ (i + 1 < letters.length → ¬ 1024 ∣ reduced) := by
  induction letters generalizing value unit with
  | nil => exact .inl ⟨rfl, fun hne => absurd rfl hne⟩
  | cons letter letters ih =>
      rw [SizeLiteral.reduce]
      split
      · rename_i hdivides
        have hvalue : value = value / 1024 * 1024 :=
          (Nat.div_mul_cancel (Nat.dvd_of_mod_eq_zero hdivides)).symm
        right
        rcases ih (value / 1024) (some letter) with
          ⟨hstop, hmost⟩ | ⟨i, hi, reduced, hreduced, hshift, hmost⟩
        · refine ⟨0, Nat.zero_lt_succ _, value / 1024, hstop, ?_, fun hleft => hmost ?_⟩
          · rw [Nat.shiftLeft_eq]
            exact hvalue
          · exact List.ne_nil_of_length_pos (Nat.lt_of_succ_lt_succ hleft)
        · refine ⟨i + 1, Nat.succ_lt_succ hi, reduced, hreduced, ?_,
            fun hleft => hmost (Nat.lt_of_succ_lt_succ hleft)⟩
          have hpower : 2 ^ (10 * (i + 1 + 1)) = 2 ^ (10 * (i + 1)) * 1024 := by
            rw [Nat.mul_add, Nat.pow_add]
          rw [hvalue, hshift, Nat.shiftLeft_eq, Nat.shiftLeft_eq, hpower, Nat.mul_assoc]
      · rename_i hdivides
        exact .inl ⟨rfl, fun _ hdvd => hdivides (Nat.mod_eq_zero_of_dvd hdvd)⟩

theorem letterPower?_sizeLetters {i : Nat} (h : i < sizeLetters.length) :
    letterPower? sizeLetters[i] = some (i + 1) ∧ isDigitOf 10 sizeLetters[i] = false ∧
      sizeLetters[i].isAlphanum = true :=
  (by decide : ∀ i, ∀ h : i < sizeLetters.length, letterPower? sizeLetters[i] = some (i + 1) ∧
    isDigitOf 10 sizeLetters[i] = false ∧ sizeLetters[i].isAlphanum = true) i h

/-- A size is written as its digits, or as those of a smaller number and the letter of its unit.  No
greater unit divides it. -/
theorem toList_sizeLiteral (size : UInt64) :
    (sizeLiteral size).toList = Nat.toDigits 10 size.toNat ∧
        (size.toNat ≠ 0 → ¬ 1024 ∣ size.toNat) ∨
      ∃ n i, ∃ h : i < sizeLetters.length,
        (sizeLiteral size).toList = Nat.toDigits 10 n ++ [sizeLetters[i]] ∧ n ≠ 0 ∧
          n <<< (10 * (i + 1)) = size.toNat ∧ (i + 1 < sizeLetters.length → ¬ 1024 ∣ n) := by
  unfold sizeLiteral
  by_cases hzero : size = 0
  · left
    rw [if_pos hzero, hzero]
    exact ⟨rfl, fun hne => absurd rfl hne⟩
  · rw [if_neg hzero]
    rcases reduce_cases sizeLetters size.toNat none with
      ⟨h, hmost⟩ | ⟨i, hi, n, h, hshift, hmost⟩
    · left
      rw [h]
      exact ⟨toList_toString _, fun _ => hmost (by decide)⟩
    · right
      refine ⟨n, i, hi, ?_, ?_, hshift.symm, hmost⟩
      · rw [h]
        simp
      · rintro rfl
        rw [Nat.zero_shiftLeft] at hshift
        exact hzero (UInt64.toNat_inj.mp hshift)

theorem read_sizeLiteral (size : UInt64) :
    read true (sizeLiteral size).toList = .ok size.toNat := by
  rcases toList_sizeLiteral size with ⟨h, -⟩ | ⟨n, i, hi, h, hn, hshift, -⟩
  · rw [h, ← toList_toString]
    exact read_toString true size.toNat_lt
  · obtain ⟨hpower, hdigit, -⟩ := letterPower?_sizeLetters hi
    have hread := read_letter Nat.toDigits_ne_nil
      (fun c hc => isDigitOf_of_mem_toDigits (by decide) (by decide) hc) hdigit hpower
      (splitRadix_toDigits fun hzero => absurd hzero hn)
    rw [digitsValue_toDigits (by decide) (by decide), hshift, if_pos size.toNat_lt] at hread
    rw [h, hread]

end Literal

/-! ## Styles -/

/-- A way to write sizes that the grammar reads back, wherever they stand in an argument. -/
structure Style (literal : UInt64 → String) : Prop where
  read_eq : ∀ size, Literal.read true (literal size).toList = .ok size.toNat
  isAlphanum : ∀ size, ∀ c ∈ (literal size).toList, c.isAlphanum = true

namespace Style

variable {literal : UInt64 → String}

theorem parseSize_eq (hs : Style literal) (size : UInt64) :
    parseSize (literal size) = .ok size := by
  rw [parseSize, hs.read_eq]
  show Except.ok (UInt64.ofNat size.toNat) = .ok size
  rw [UInt64.ofNat_toNat]

theorem ne_empty (hs : Style literal) (size : UInt64) : literal size ≠ "" := by
  intro h
  have hread := hs.read_eq size
  rw [h] at hread
  exact absurd hread (by simp [Literal.read, Literal.splitRadix])

theorem notMem (hs : Style literal) {c : Char} (hc : c.isAlphanum = false) (size : UInt64) :
    c ∉ (literal size).toList := by
  intro hmem
  rw [hs.isAlphanum size c hmem] at hc
  exact Bool.noConfusion hc

end Style

theorem style_decimalLiteral : Style Snapshot.decimalLiteral where
  read_eq size := Literal.read_toString true size.toNat_lt
  isAlphanum size c hc := by
    rw [Snapshot.decimalLiteral, Literal.toList_toString] at hc
    exact Literal.isAlphanum_of_mem_toDigits (by decide) (by decide) hc

theorem style_hexLiteral : Style hexLiteral where
  read_eq size := Literal.read_hex true size.toNat_lt
  isAlphanum size c hc := by
    rw [hexLiteral, Literal.toList_hex, List.mem_cons, List.mem_cons] at hc
    rcases hc with rfl | rfl | hc
    · decide
    · decide
    · exact Literal.isAlphanum_of_mem_toDigits (by decide) (by decide) hc

theorem style_sizeLiteral : Style sizeLiteral where
  read_eq := Literal.read_sizeLiteral
  isAlphanum size c hc := by
    rcases Literal.toList_sizeLiteral size with ⟨h, -⟩ | ⟨n, i, hi, h, -⟩
    · rw [h] at hc
      exact Literal.isAlphanum_of_mem_toDigits (by decide) (by decide) hc
    · rw [h, List.mem_append, List.mem_singleton] at hc
      rcases hc with hc | rfl
      · exact Literal.isAlphanum_of_mem_toDigits (by decide) (by decide) hc
      · exact (Literal.letterPower?_sizeLetters hi).2.2

/-- A mask reads back from its decimal digits. -/
theorem parseU32_toString (mask : UInt32) : parseU32 (toString mask.toNat) = .ok mask := by
  have hlt : mask.toNat < UInt32.size := mask.toNat_lt
  have hsize : UInt32.size < UInt64.size := by decide
  rw [parseU32, Literal.read_toString false (by omega)]
  show (if mask.toNat < UInt32.size then Except.ok (UInt32.ofNat mask.toNat) else _) = _
  rw [if_pos hlt, UInt32.ofNat_toNat]

end EmmcLayout
