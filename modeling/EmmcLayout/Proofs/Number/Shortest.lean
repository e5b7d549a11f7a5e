import EmmcLayout.Proofs.Number.Grammar

/-!
# The shortest literal of a size

A size can be written in decimal in as many ways as there are powers of 1024 that divide it.  The
literal takes the greatest one that has a letter, and `sizeLiteral_shortest` says that no other way
takes fewer characters: not the same number under a smaller letter, and not the plain digits, which
save the letter but spell a number more than ten times as great.

Two facts carry it.  A text of decimal digits is read as the number it spells, scaled by its letter
(`DecimalText.exists_spells`), and where no greater power of 1024 divides, the number in front of the
letter is the least one (`le_of_mul_pow_eq`).  What remains is to count digits.
-/

namespace EmmcLayout.Literal

variable {radix n m k : Nat} {c : Char} {text digits : List Char}

/-! ## Decimal texts -/

/-- The text is written in decimal: digits that do not start with a zero and another digit, and at
most one letter of a unit behind them. -/
inductive DecimalText : List Char → Prop
  | bare {digits : List Char} (decimal : ∀ d ∈ digits, d.isDigit = true)
      (unmarked : ∀ d rest, digits ≠ '0' :: d :: rest) : DecimalText digits
  | scaled {digits : List Char} {c : Char} {k : Nat} (decimal : ∀ d ∈ digits, d.isDigit = true)
      (unmarked : ∀ d rest, digits ≠ '0' :: d :: rest) (unit : IsUnit c k) :
      DecimalText (digits ++ [c])

/-- The letter of a unit is no decimal digit. -/
theorem IsUnit.isDigit_eq_false (h : IsUnit c k) : c.isDigit = false := by
  obtain ⟨i, hi, -⟩ := h
  rw [← Bool.not_eq_true]
  intro hdigit
  -- a digit has no other case
  have hupper : c.toUpper = c := by
    have hhigh : c.toNat ≤ 57 := (Char.isDigit_iff_toNat.mp hdigit).2
    unfold Char.toUpper
    split
    · rename_i hlower
      have hlow : 97 ≤ c.toNat := UInt32.le_iff_toNat_le.mp hlower.1
      omega
    · rfl
  rw [hupper] at hi
  change sizeLetters[i]? = some c at hi
  obtain ⟨hlt, rfl⟩ := List.getElem?_eq_some_iff.mp hi
  obtain ⟨-, hletter, -⟩ := letterPower?_sizeLetters hlt
  rw [isDigitOf_ten, hdigit] at hletter
  exact Bool.noConfusion hletter

theorem Numeral.exists_head (h : Numeral radix text n) :
    ∃ c cs, text = c :: cs ∧ c.isDigit = true := by
  cases text with
  | nil =>
      cases h with
      | decimal hspelled => exact absurd rfl hspelled.1
  | cons c cs => exact ⟨c, cs, rfl, h.isDigit_head⟩

/-- A byte size starts with a digit. -/
theorem SizeText.exists_head (h : SizeText text n) :
    ∃ c cs, text = c :: cs ∧ c.isDigit = true := by
  cases h with
  | bare hnumeral => exact hnumeral.exists_head
  | scaled hnumeral =>
      obtain ⟨c, cs, rfl, hc⟩ := hnumeral.exists_head
      exact ⟨c, cs ++ _, rfl, hc⟩

/-- A byte size that is read stands for no other number. -/
theorem SizeText.eq_of_read (h : SizeText text m) (hread : read true text = .ok n) : n = m := by
  rw [h.read_eq] at hread
  split at hread
  · exact (Except.ok.inj hread).symm
  · exact absurd hread (by simp)

theorem exists_numeral_of_decimal (hne : digits ≠ []) (hdecimal : ∀ d ∈ digits, d.isDigit = true)
    (hunmarked : ∀ d rest, digits ≠ '0' :: d :: rest) :
    ∃ m, Spells 10 digits m ∧ Numeral 10 digits m := by
  have hspelled : Spells 10 digits (digitsValue 10 digits) := by
    rw [spells_iff (by decide)]
    refine ⟨hne, fun d hd => ?_, rfl⟩
    rw [isDigitOf_ten]
    exact hdecimal d hd
  exact ⟨_, hspelled, .decimal hspelled hunmarked⟩

/-- A decimal text is read as the number that its digits spell, scaled by its letter. -/
theorem DecimalText.exists_spells (h : DecimalText text) (hread : read true text = .ok n) :
    ∃ digits m, Spells 10 digits m ∧
      (text = digits ∧ n = m ∨ ∃ c k, text = digits ++ [c] ∧ IsUnit c k ∧ n = m * 1024 ^ k) := by
  obtain ⟨first, cs, hhead, hfirst⟩ := (read_true_eq_ok_iff.mp hread).1.exists_head
  cases h with
  | bare hdecimal hunmarked =>
      have hne : text ≠ [] := by
        rw [hhead]
        exact List.cons_ne_nil first cs
      obtain ⟨m, hspelled, hnumeral⟩ := exists_numeral_of_decimal hne hdecimal hunmarked
      exact ⟨text, m, hspelled, .inl ⟨rfl, (SizeText.bare hnumeral).eq_of_read hread⟩⟩
  | @scaled digits c k hdecimal hunmarked hunit =>
      have hne : digits ≠ [] := by
        rintro rfl
        obtain ⟨rfl, -⟩ := List.cons.inj hhead
        rw [hunit.isDigit_eq_false] at hfirst
        exact Bool.noConfusion hfirst
      obtain ⟨m, hspelled, hnumeral⟩ := exists_numeral_of_decimal hne hdecimal hunmarked
      have hgreedy : ∀ d, ¬ IsDigit 10 c d := by
        rw [← isDigitOf_eq_false_iff (by decide), isDigitOf_ten]
        exact hunit.isDigit_eq_false
      exact ⟨digits, m, hspelled, .inr ⟨c, k, rfl, hunit,
        (SizeText.scaled hnumeral hunit hgreedy).eq_of_read hread⟩⟩

/-! ## Counting digits -/

theorem lt_of_forall₂ {ds : List Nat} (h : List.Forall₂ (IsDigit radix) digits ds) :
    ∀ d ∈ ds, d < radix := by
  induction h with
  | nil => simp
  | cons hc _ ih => exact List.forall_mem_cons.mpr ⟨hc.1, ih⟩

theorem Spells.lt (hradix : 1 < radix) (h : Spells radix digits m) :
    m < radix ^ digits.length := by
  obtain ⟨-, ds, hds, rfl⟩ := h
  have hlt : ∀ d ∈ ds.reverse, d < radix := by
    intro d hd
    exact lt_of_forall₂ hds d (List.mem_reverse.mp hd)
  have hbound := Nat.ofDigits_lt_base_pow_length hradix hlt
  rwa [List.length_reverse, ← hds.length_eq] at hbound

/-- A number takes no more digits than a greater one is written with. -/
theorem Spells.length_toDigits_le (h : Spells 10 digits m) (hle : n ≤ m) :
    (Nat.toDigits 10 n).length ≤ digits.length :=
  Nat.toDigits_length 10 n _ (List.length_pos_iff.mpr h.1)
    (Nat.lt_of_le_of_lt hle (h.lt (by decide)))

/-- A number takes fewer digits than ten times as much is written with. -/
theorem Spells.length_toDigits_lt (h : Spells 10 digits m) (hn : n ≠ 0) (hle : n * 10 ≤ m) :
    (Nat.toDigits 10 n).length < digits.length := by
  have hlt : n * 10 < 10 ^ digits.length := Nat.lt_of_le_of_lt hle (h.lt (by decide))
  obtain ⟨e, he⟩ := Nat.exists_eq_succ_of_ne_zero (List.length_pos_iff.mpr h.1).ne'
  rw [he, Nat.pow_succ] at hlt
  have hsmall : n < 10 ^ e := Nat.lt_of_mul_lt_mul_right hlt
  have hpos : 0 < e := by
    apply Nat.pos_of_ne_zero
    rintro rfl
    exact hn (Nat.lt_one_iff.mp hsmall)
  rw [he, Nat.lt_succ_iff]
  exact Nat.toDigits_length 10 n e hpos hsmall

/-- Of the factors in front of a power of 1024, the one that no greater power divides is least. -/
theorem le_of_mul_pow_eq {i j : Nat} (h : n * 1024 ^ i = m * 1024 ^ j)
    (hmost : n ≠ 0 → i < j → ¬ 1024 ∣ n) : n ≤ m := by
  have hpos : ∀ e, 0 < 1024 ^ e := fun e => Nat.pow_pos (by decide)
  rcases Nat.lt_or_ge i j with hlt | hge
  · obtain ⟨e, rfl⟩ := Nat.exists_eq_add_of_lt hlt
    have hn : n = m * 1024 ^ e * 1024 := by
      apply Nat.eq_of_mul_eq_mul_right (hpos i)
      rw [h]
      ring
    by_cases hzero : n = 0
    · rw [hzero]
      exact Nat.zero_le m
    · exact absurd (hn ▸ Nat.dvd_mul_left 1024 _) (hmost hzero hlt)
  · obtain ⟨e, rfl⟩ := Nat.exists_eq_add_of_le hge
    have hm : n * 1024 ^ e = m := by
      apply Nat.eq_of_mul_eq_mul_right (hpos j)
      rw [← h]
      ring
    rw [← hm]
    exact Nat.le_mul_of_pos_right n (hpos e)

/-! ## The literal -/

theorem decimal_toDigits (n : Nat) :
    (∀ d ∈ Nat.toDigits 10 n, d.isDigit = true) ∧
      ∀ d rest, Nat.toDigits 10 n ≠ '0' :: d :: rest := by
  constructor
  · intro d hd
    exact Nat.isDigit_of_mem_toDigits (by decide) (by decide) hd
  · intro d rest h
    have hn : n ≠ 0 := by
      rintro rfl
      exact absurd h (by simp)
    exact head?_toDigits (by decide : 1 < 10) hn (by rw [h]; rfl)

theorem decimalText_sizeLiteral (size : UInt64) : DecimalText (sizeLiteral size).toList := by
  rcases toList_sizeLiteral size with ⟨h, -⟩ | ⟨n, i, hi, h, -⟩
  · obtain ⟨hdecimal, hunmarked⟩ := decimal_toDigits size.toNat
    rw [h]
    exact .bare hdecimal hunmarked
  · obtain ⟨hdecimal, hunmarked⟩ := decimal_toDigits n
    rw [h]
    exact .scaled hdecimal hunmarked
      (letterPower?_eq_some_iff.mp (letterPower?_sizeLetters hi).1)

/-- The literal of a size takes no more characters than a decimal text that is read as the size. -/
theorem DecimalText.length_sizeLiteral_le {size : UInt64} (h : DecimalText text)
    (hread : read true text = .ok size.toNat) :
    (sizeLiteral size).toList.length ≤ text.length := by
  obtain ⟨digits, m, hspelled, htext⟩ := h.exists_spells hread
  rcases toList_sizeLiteral size with ⟨hliteral, hmost⟩ | ⟨n, i, hi, hliteral, hn, hshift, hmost⟩
  · rw [hliteral]
    rcases htext with ⟨rfl, hm⟩ | ⟨c, k, rfl, -, hm⟩
    · exact hspelled.length_toDigits_le hm.le
    · have hscaled : size.toNat * 1024 ^ 0 = m * 1024 ^ k := by
        rw [Nat.pow_zero, Nat.mul_one]
        exact hm
      have hle : size.toNat ≤ m := le_of_mul_pow_eq hscaled fun hne _ => hmost hne
      rw [List.length_append]
      exact Nat.le_add_right_of_le (hspelled.length_toDigits_le hle)
  · rw [hliteral, List.length_append, List.length_singleton]
    rw [shiftLeft_unit] at hshift
    rcases htext with ⟨rfl, hm⟩ | ⟨c, k, rfl, hunit, hm⟩
    · -- without the letter, there is at least one digit more
      have hten : 10 ≤ 1024 ^ (i + 1) :=
        Nat.le_trans (by decide) (Nat.le_self_pow (Nat.succ_ne_zero i) 1024)
      have hle : n * 10 ≤ m := by
        rw [← hm, ← hshift]
        exact Nat.mul_le_mul_left n hten
      exact hspelled.length_toDigits_lt hn hle
    · obtain ⟨j, hj, rfl⟩ := hunit
      have hj : j < sizeLetters.length := (List.getElem?_eq_some_iff.mp hj).1
      have hle : n ≤ m := le_of_mul_pow_eq (hshift.trans hm) fun _ hij => hmost (by omega)
      rw [List.length_append, List.length_singleton]
      exact Nat.succ_le_succ (hspelled.length_toDigits_le hle)

end EmmcLayout.Literal

namespace EmmcLayout

open Literal

/-- **The shortest literal.**  The literal of a size is a decimal text that is read back as the size,
and none that is read as the size is shorter. -/
theorem sizeLiteral_shortest (size : UInt64) :
    parseSize (sizeLiteral size) = .ok size ∧ DecimalText (sizeLiteral size).toList ∧
      ∀ s : String, DecimalText s.toList → parseSize s = .ok size →
        (sizeLiteral size).length ≤ s.length := by
  refine ⟨style_sizeLiteral.parseSize_eq size, decimalText_sizeLiteral size, ?_⟩
  intro s hs hparse
  have hread : read true s.toList = .ok size.toNat :=
    read_true_eq_ok_iff.mpr ⟨parseSize_eq_ok_iff.mp hparse, size.toNat_lt⟩
  rw [← String.length_toList, ← String.length_toList]
  exact hs.length_sizeLiteral_le hread

/-- Of a size just below 2^64 the literal is no longer than a text under a smaller letter. -/
theorem sizeLiteral_shortest_of_tebibytes :
    DecimalText "16515072t".toList ∧ parseSize "16515072t" = .ok 0xFC00000000000000 ∧
      sizeLiteral 0xFC00000000000000 = "16128P" ∧
      (sizeLiteral 0xFC00000000000000).length ≤ "16515072t".length := by
  have hdecimal : DecimalText ("16515072".toList ++ ['t']) := by
    refine .scaled (List.all_eq_true.mp (by decide)) ?_ ⟨3, by decide, rfl⟩
    rintro d rest ⟨⟩
  have hparse : parseSize "16515072t" = .ok 0xFC00000000000000 := by decide +kernel
  obtain ⟨-, -, hshortest⟩ := sizeLiteral_shortest 0xFC00000000000000
  exact ⟨hdecimal, hparse, by decide +kernel, hshortest _ hdecimal hparse⟩

end EmmcLayout
