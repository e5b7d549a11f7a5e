import EmmcLayout.Proofs.Number.Literal
import Mathlib.Data.List.TakeWhile
import Mathlib.Data.Nat.Digits.Defs
import Mathlib.Tactic

/-!
# The grammar of literals

Which texts are literals, and of which numbers.  `Numeral` gives the unsigned ones radix by radix,
`SizeText` lets one letter follow for a power of 1024, and `SignedText` lets a sign stand in front.
The grammar counts digits by their place (`Nat.ofDigits`) and knows nothing of how a literal is
read.

A letter is no digit of the radix in front of it, so the run of digits is always the longest one:
`0x1E` is thirty, and no exabyte.  Digits and letter together decide how a text is cut
(`Numeral.splitRadix_eq`, `numeral_of_splitRadix`), and the main statement `parse_iff_grammar` says
that the three readers accept exactly these texts, as the numbers that they stand for.
-/

namespace EmmcLayout.Literal

variable {radix n d k : Nat} {c : Char} {cs text digits rest : List Char} {lettered : Bool}

/-! ## The grammar -/

/-- The digits from zero to fifteen. -/
def lowerDigits : List Char :=
  ['0', '1', '2', '3', '4', '5', '6', '7', '8', '9', 'a', 'b', 'c', 'd', 'e', 'f']

/-- The same digits in upper case. -/
def upperDigits : List Char :=
  ['0', '1', '2', '3', '4', '5', '6', '7', '8', '9', 'A', 'B', 'C', 'D', 'E', 'F']

/-- The character is the digit of this value, in either case. -/
def IsDigit (radix : Nat) (c : Char) (d : Nat) : Prop :=
  d < radix ∧ (lowerDigits[d]? = some c ∨ upperDigits[d]? = some c)

instance : Decidable (IsDigit radix c d) :=
  inferInstanceAs (Decidable (_ ∧ _))

/-- The characters are one or more digits, the most significant first, of this number. -/
def Spells (radix : Nat) (digits : List Char) (n : Nat) : Prop :=
  digits ≠ [] ∧ ∃ ds, List.Forall₂ (IsDigit radix) digits ds ∧ n = Nat.ofDigits radix ds.reverse

/-- The text is an unsigned literal of this number, in this radix. -/
inductive Numeral : Nat → List Char → Nat → Prop
  | hexadecimal {x : Char} {digits : List Char} {n : Nat} (mark : x = 'x' ∨ x = 'X')
      (spelled : Spells 16 digits n) : Numeral 16 ('0' :: x :: digits) n
  | binary {b : Char} {digits : List Char} {n : Nat} (mark : b = 'b' ∨ b = 'B')
      (spelled : Spells 2 digits n) : Numeral 2 ('0' :: b :: digits) n
  | octal {digits : List Char} {n : Nat} (spelled : Spells 8 digits n) :
      Numeral 8 ('0' :: digits) n
  | decimal {digits : List Char} {n : Nat} (spelled : Spells 10 digits n)
      (unmarked : ∀ c rest, digits ≠ '0' :: c :: rest) : Numeral 10 digits n

/-- The character is the letter, in either case, of this power of 1024. -/
def IsUnit (c : Char) (k : Nat) : Prop :=
  ∃ i, ['K', 'M', 'G', 'T', 'P', 'E'][i]? = some c.toUpper ∧ k = i + 1

/-- The text is a byte size: an unsigned literal, and at most one letter behind its digits. -/
inductive SizeText : List Char → Nat → Prop
  | bare {radix n : Nat} {text : List Char} (numeral : Numeral radix text n) : SizeText text n
  | scaled {radix n k : Nat} {text : List Char} {c : Char} (numeral : Numeral radix text n)
      (unit : IsUnit c k) (greedy : ∀ d, ¬ IsDigit radix c d) :
      SizeText (text ++ [c]) (n * 1024 ^ k)

/-- The text is an unsigned literal with an optional sign. -/
inductive SignedText : List Char → Int → Prop
  | bare {radix n : Nat} {text : List Char} (numeral : Numeral radix text n) : SignedText text n
  | plus {radix n : Nat} {text : List Char} (numeral : Numeral radix text n) :
      SignedText ('+' :: text) n
  | minus {radix n : Nat} {text : List Char} (numeral : Numeral radix text n) :
      SignedText ('-' :: text) (-n)

/-! ## Digits -/

theorem toNat_lt_of_digitValue? (h : digitValue? c = some d) : c.toNat < 103 := by
  have hle : ∀ {a b : Char}, a ≤ b → a.toNat ≤ b.toNat := UInt32.le_iff_toNat_le.mp
  unfold digitValue? at h
  split at h
  · rename_i hrange
    exact Nat.lt_of_le_of_lt (hle hrange.2) (by decide)
  · split at h
    · rename_i hrange
      exact Nat.lt_of_le_of_lt (hle hrange.2) (by decide)
    · split at h
      · rename_i hrange
        exact Nat.lt_of_le_of_lt (hle hrange.2) (by decide)
      · exact absurd h (by simp)

theorem digitValue?_eq_some_iff : digitValue? c = some d ↔ IsDigit 16 c d := by
  constructor
  · intro h
    have hall : ∀ code < 103, ∀ v ∈ digitValue? (Char.ofNat code),
        IsDigit 16 (Char.ofNat code) v := by decide +kernel
    have hdigit := hall c.toNat (toNat_lt_of_digitValue? h) d
    rw [Char.ofNat_toNat] at hdigit
    exact hdigit h
  · rintro ⟨hd, hlower | hupper⟩
    · have hall : ∀ v < 16, lowerDigits[v]?.bind digitValue? = some v := by decide
      rw [← hall d hd, hlower, Option.bind_some]
    · have hall : ∀ v < 16, upperDigits[v]?.bind digitValue? = some v := by decide
      rw [← hall d hd, hupper, Option.bind_some]

theorem isDigit_iff (hle : radix ≤ 16) : IsDigit radix c d ↔ digitValue? c = some d ∧ d < radix := by
  rw [digitValue?_eq_some_iff]
  constructor
  · rintro ⟨hd, hchar⟩
    exact ⟨⟨Nat.lt_of_lt_of_le hd hle, hchar⟩, hd⟩
  · rintro ⟨⟨-, hchar⟩, hd⟩
    exact ⟨hd, hchar⟩

theorem isDigitOf_iff (hle : radix ≤ 16) :
    isDigitOf radix c = true ↔ IsDigit radix c ((digitValue? c).getD 0) := by
  rw [isDigit_iff hle, isDigitOf]
  cases digitValue? c with
  | none => simp
  | some v => simp

theorem isDigitOf_of_isDigit (hle : radix ≤ 16) (h : IsDigit radix c d) :
    isDigitOf radix c = true := by
  obtain ⟨hvalue, hd⟩ := (isDigit_iff hle).mp h
  rw [isDigitOf, hvalue]
  exact decide_eq_true hd

theorem isDigitOf_of_forall₂ (hle : radix ≤ 16) {ds : List Nat}
    (h : List.Forall₂ (IsDigit radix) digits ds) : ∀ c ∈ digits, isDigitOf radix c = true := by
  induction h with
  | nil => simp
  | cons hc _ ih => exact List.forall_mem_cons.mpr ⟨isDigitOf_of_isDigit hle hc, ih⟩

/-- Reading digits from the left gives each of them its place. -/
theorem foldl_digits (hle : radix ≤ 16) {ds : List Nat}
    (h : List.Forall₂ (IsDigit radix) digits ds) (n : Nat) :
    digits.foldl (fun n c => n * radix + (digitValue? c).getD 0) n =
      n * radix ^ ds.length + Nat.ofDigits radix ds.reverse := by
  induction h generalizing n with
  | nil => simp
  | @cons c d digits ds hc _ ih =>
      have hvalue := ((isDigit_iff hle).mp hc).1
      rw [List.foldl_cons, ih, hvalue, Option.getD_some, Nat.ofDigits_reverse_cons,
        List.length_cons]
      ring

theorem spells_iff (hle : radix ≤ 16) :
    Spells radix digits n ↔
      digits ≠ [] ∧ (∀ c ∈ digits, isDigitOf radix c = true) ∧ digitsValue radix digits = n := by
  constructor
  · rintro ⟨hne, ds, hds, rfl⟩
    refine ⟨hne, isDigitOf_of_forall₂ hle hds, ?_⟩
    rw [digitsValue, foldl_digits hle hds]
    simp
  · rintro ⟨hne, hall, rfl⟩
    have hds : List.Forall₂ (IsDigit radix) digits
        (digits.map fun c => (digitValue? c).getD 0) := by
      rw [List.forall₂_map_right_iff, List.forall₂_same]
      exact fun c hc => (isDigitOf_iff hle).mp (hall c hc)
    refine ⟨hne, _, hds, ?_⟩
    rw [digitsValue, foldl_digits hle hds]
    simp

/-- The decimal digits are those that are looked for behind a zero. -/
theorem isDigitOf_ten (c : Char) : isDigitOf 10 c = c.isDigit := by
  have hrange : c.isDigit = true ↔ '0' ≤ c ∧ c ≤ '9' := by
    rw [Char.isDigit, Bool.and_eq_true, decide_eq_true_iff, decide_eq_true_iff]
    rfl
  unfold isDigitOf digitValue?
  by_cases h : '0' ≤ c ∧ c ≤ '9'
  · have hhigh : c.toNat ≤ 57 := UInt32.le_iff_toNat_le.mp h.2
    have hlt : c.toNat - '0'.toNat < 10 := by
      change c.toNat - 48 < 10
      omega
    rw [if_pos h, hrange.mpr h]
    exact decide_eq_true hlt
  · have hno : c.isDigit = false := by
      rw [← Bool.not_eq_true, hrange]
      exact h
    rw [if_neg h, hno]
    split
    · rename_i v hv
      -- a letter stands for ten or more
      refine decide_eq_false ?_
      split at hv
      · obtain rfl := Option.some.inj hv
        omega
      · split at hv
        · obtain rfl := Option.some.inj hv
          omega
        · exact absurd hv (by simp)
    · rfl

theorem isDigitOf_mono {radix' : Nat} (hle : radix ≤ radix') (h : isDigitOf radix c = true) :
    isDigitOf radix' c = true := by
  unfold isDigitOf at h ⊢
  cases hvalue : digitValue? c with
  | none => simp [hvalue] at h
  | some v =>
      simp only [hvalue, decide_eq_true_eq] at h ⊢
      omega

/-! ## Marks -/

/-- What may stand behind digits: nothing, or one letter that is none of them. -/
def Ends (radix : Nat) (rest : List Char) : Prop :=
  rest = [] ∨ ∃ c, rest = [c] ∧ ∀ d, ¬ IsDigit radix c d

theorem splitRadix_of_isDigit (h : c.isDigit = true) (cs : List Char) :
    splitRadix ('0' :: c :: cs) = (8, c :: cs) := by
  unfold splitRadix
  split <;> simp_all

theorem splitRadix_of_letter (h : c.isDigit = false) :
    splitRadix ['0', c] = (10, ['0', c]) := by
  unfold splitRadix
  split <;> simp_all

/-- The mark of a literal is found, whatever ends it. -/
theorem Numeral.splitRadix_eq (h : Numeral radix text n) (hrest : Ends radix rest) :
    ∃ digits, splitRadix (text ++ rest) = (radix, digits ++ rest) ∧ Spells radix digits n := by
  cases h with
  | @hexadecimal x digits n hmark hspelled =>
      obtain ⟨c, cs, rfl⟩ := List.exists_cons_of_ne_nil hspelled.1
      refine ⟨c :: cs, ?_, hspelled⟩
      rcases hmark with rfl | rfl <;> rfl
  | @binary b digits n hmark hspelled =>
      obtain ⟨c, cs, rfl⟩ := List.exists_cons_of_ne_nil hspelled.1
      refine ⟨c :: cs, ?_, hspelled⟩
      rcases hmark with rfl | rfl <;> rfl
  | @octal digits n hspelled =>
      obtain ⟨-, hall, -⟩ := (spells_iff (by decide)).mp hspelled
      obtain ⟨c, cs, rfl⟩ := List.exists_cons_of_ne_nil hspelled.1
      refine ⟨c :: cs, ?_, hspelled⟩
      have hc : isDigitOf 10 c = true := isDigitOf_mono (by decide) (hall c List.mem_cons_self)
      rw [isDigitOf_ten] at hc
      exact splitRadix_of_isDigit hc (cs ++ rest)
  | decimal hspelled hunmarked =>
      refine ⟨text, ?_, hspelled⟩
      obtain ⟨c, cs, rfl⟩ := List.exists_cons_of_ne_nil hspelled.1
      by_cases hc : c = '0'
      · subst hc
        -- a zero stands alone, or with a letter behind it
        have hcs : cs = [] := by
          cases cs with
          | nil => rfl
          | cons c cs => exact absurd rfl (hunmarked c cs)
        subst hcs
        rcases hrest with rfl | ⟨c, rfl, hletter⟩
        · rfl
        · apply splitRadix_of_letter
          rw [← isDigitOf_ten, ← Bool.not_eq_true, isDigitOf_iff (by decide)]
          exact hletter _
      · exact splitRadix_of_head? (by simpa using hc)

/-- What is cut off behind a mark and digits leaves a literal. -/
theorem numeral_of_splitRadix (hsplit : splitRadix cs = (radix, digits ++ rest))
    (hspells : Spells radix digits n) : ∃ text, cs = text ++ rest ∧ Numeral radix text n := by
  unfold splitRadix at hsplit
  split at hsplit
  · obtain ⟨rfl, hbody⟩ := Prod.mk.inj hsplit
    exact ⟨'0' :: 'x' :: digits, by rw [hbody]; rfl, .hexadecimal (.inl rfl) hspells⟩
  · obtain ⟨rfl, hbody⟩ := Prod.mk.inj hsplit
    exact ⟨'0' :: 'X' :: digits, by rw [hbody]; rfl, .hexadecimal (.inr rfl) hspells⟩
  · obtain ⟨rfl, hbody⟩ := Prod.mk.inj hsplit
    exact ⟨'0' :: 'b' :: digits, by rw [hbody]; rfl, .binary (.inl rfl) hspells⟩
  · obtain ⟨rfl, hbody⟩ := Prod.mk.inj hsplit
    exact ⟨'0' :: 'B' :: digits, by rw [hbody]; rfl, .binary (.inr rfl) hspells⟩
  · split at hsplit
    · obtain ⟨rfl, hbody⟩ := Prod.mk.inj hsplit
      exact ⟨'0' :: digits, by rw [hbody]; rfl, .octal hspells⟩
    · rename_i c cs hx hX hb hB hc
      obtain ⟨rfl, hbody⟩ := Prod.mk.inj hsplit
      refine ⟨digits, hbody, .decimal hspells ?_⟩
      rintro c' rest' rfl
      obtain ⟨-, hall, -⟩ := (spells_iff (by decide)).mp hspells
      obtain ⟨rfl, -⟩ := List.cons.inj (List.cons.inj hbody).2
      exact hc (isDigitOf_ten c ▸ hall c (by simp))
  · rename_i hnone
    obtain ⟨rfl, hbody⟩ := Prod.mk.inj hsplit
    refine ⟨digits, hbody, .decimal hspells ?_⟩
    rintro c rest' rfl
    exact hnone c (rest' ++ rest) hbody

/-! ## Letters -/

theorem letterPower?_eq_some_iff : letterPower? c = some k ↔ IsUnit c k := by
  have hnodup : sizeLetters.Nodup := by decide
  rw [letterPower?, Option.map_eq_some_iff]
  constructor
  · rintro ⟨i, hi, rfl⟩
    rw [List.idxOf?_eq_some_iff] at hi
    obtain ⟨hlt, hc, -⟩ := hi
    refine ⟨i, ?_, rfl⟩
    show sizeLetters[i]? = some c.toUpper
    rw [List.getElem?_eq_getElem hlt, hc]
  · rintro ⟨i, hi, rfl⟩
    have hi : sizeLetters[i]? = some c.toUpper := hi
    obtain ⟨hlt, hc⟩ := List.getElem?_eq_some_iff.mp hi
    refine ⟨i, ?_, rfl⟩
    rw [List.idxOf?_eq_some_iff]
    refine ⟨hlt, hc, fun j hj heq => ?_⟩
    -- no letter stands for two powers
    have hij := (List.Nodup.getElem_inj_iff hnodup).mp (heq.trans hc.symm)
    omega

/-- A number scaled by a letter. -/
theorem shiftLeft_unit (n k : Nat) : n <<< (10 * k) = n * 1024 ^ k := by
  rw [Nat.shiftLeft_eq, Nat.pow_mul]

/-! ## Reading -/

theorem isDigitOf_eq_false_iff (hle : radix ≤ 16) :
    isDigitOf radix c = false ↔ ∀ d, ¬ IsDigit radix c d := by
  rw [← Bool.not_eq_true]
  constructor
  · intro h d hd
    exact h (isDigitOf_of_isDigit hle hd)
  · intro h hc
    exact h _ ((isDigitOf_iff hle).mp hc)

theorem Numeral.radix_le (h : Numeral radix text n) : radix ≤ 16 := by
  cases h <;> decide

/-- A literal is read as its number, if that fits. -/
theorem Numeral.read_eq (h : Numeral radix text n) :
    read lettered text = if UInt64.size ≤ n then .error .overflow else .ok n := by
  obtain ⟨digits, hsplit, hspells⟩ := h.splitRadix_eq (.inl rfl)
  obtain ⟨hne, hdigits, hvalue⟩ := (spells_iff h.radix_le).mp hspells
  rw [List.append_nil, List.append_nil] at hsplit
  rw [read_digits hne hdigits hsplit, hvalue]

/-- A literal with a letter is read as the number that both stand for, if that fits. -/
theorem SizeText.read_eq (h : SizeText text n) :
    read true text = if n < UInt64.size then .ok n else .error .overflow := by
  cases h with
  | bare hnumeral =>
      rw [hnumeral.read_eq]
      by_cases hn : n < UInt64.size
      · rw [if_neg (Nat.not_le.mpr hn), if_pos hn]
      · rw [if_pos (Nat.not_lt.mp hn), if_neg hn]
  | @scaled radix n k text c hnumeral hunit hgreedy =>
      obtain ⟨digits, hsplit, hspells⟩ := hnumeral.splitRadix_eq (.inr ⟨c, rfl, hgreedy⟩)
      obtain ⟨hne, hdigits, hvalue⟩ := (spells_iff hnumeral.radix_le).mp hspells
      have hc := (isDigitOf_eq_false_iff hnumeral.radix_le).mpr hgreedy
      rw [read_letter hne hdigits hc (letterPower?_eq_some_iff.mpr hunit) hsplit, hvalue,
        shiftLeft_unit]

theorem splitRadix_le (cs : List Char) : (splitRadix cs).1 ≤ 16 := by
  unfold splitRadix
  repeat' split
  all_goals simp

/-- What is read is a literal, or a literal and a letter that is none of its digits. -/
theorem read_eq_ok (h : read lettered cs = .ok n) :
    n < UInt64.size ∧
      ((∃ radix, Numeral radix cs n) ∨ lettered = true ∧ SizeText cs n) := by
  unfold read at h
  have hle := splitRadix_le cs
  obtain ⟨radix, body, hsplit⟩ : ∃ radix body, splitRadix cs = (radix, body) := ⟨_, _, rfl⟩
  rw [hsplit] at hle
  simp only [hsplit] at h
  split at h
  · exact absurd h (by simp)
  rename_i hne
  split at h
  · exact absurd h (by simp)
  rename_i hfits
  -- the text is its literal and what stands behind it
  have hspells : Spells radix (body.takeWhile (isDigitOf radix))
      (digitsValue radix (body.takeWhile (isDigitOf radix))) := by
    rw [spells_iff hle]
    refine ⟨by simpa using hne, fun c hc => ?_, rfl⟩
    exact List.mem_takeWhile_imp hc
  rw [← List.takeWhile_append_dropWhile (p := isDigitOf radix) (l := body)] at hsplit
  obtain ⟨text, rfl, hnumeral⟩ := numeral_of_splitRadix hsplit hspells
  split at h
  · rename_i hrest
    obtain rfl := Except.ok.inj h
    rw [hrest, List.append_nil]
    exact ⟨Nat.not_le.mp hfits, .inl ⟨radix, hnumeral⟩⟩
  · rename_i c hrest
    split at h
    · exact absurd h (by simp)
    rename_i power hpower
    split at h
    · rename_i hscaled
      obtain rfl := Except.ok.inj h
      refine ⟨hscaled, .inr ?_⟩
      cases lettered with
      | false => exact absurd hpower (by simp)
      | true =>
          have hc : isDigitOf radix c = false := by
            have := List.head?_dropWhile_not (isDigitOf radix) body
            rw [hrest] at this
            simpa using this
          rw [hrest, shiftLeft_unit]
          exact ⟨rfl, .scaled hnumeral (letterPower?_eq_some_iff.mp hpower)
            ((isDigitOf_eq_false_iff hle).mp hc)⟩
    · exact absurd h (by simp)
  · exact absurd h (by simp)

theorem read_false_eq_ok_iff :
    read false cs = .ok n ↔ (∃ radix, Numeral radix cs n) ∧ n < UInt64.size := by
  constructor
  · intro h
    obtain ⟨hfits, hnumeral | ⟨hlettered, -⟩⟩ := read_eq_ok h
    · exact ⟨hnumeral, hfits⟩
    · exact Bool.noConfusion hlettered
  · rintro ⟨⟨radix, hnumeral⟩, hfits⟩
    rw [hnumeral.read_eq, if_neg (Nat.not_le.mpr hfits)]

theorem read_true_eq_ok_iff : read true cs = .ok n ↔ SizeText cs n ∧ n < UInt64.size := by
  constructor
  · intro h
    obtain ⟨hfits, ⟨radix, hnumeral⟩ | ⟨-, hsize⟩⟩ := read_eq_ok h
    · exact ⟨.bare hnumeral, hfits⟩
    · exact ⟨hsize, hfits⟩
  · rintro ⟨hsize, hfits⟩
    rw [hsize.read_eq, if_pos hfits]

/-! ## Signs -/

/-- A literal starts with a digit, and with no sign. -/
theorem Numeral.isDigit_head (h : Numeral radix (c :: cs) n) : c.isDigit = true := by
  cases h with
  | hexadecimal => rfl
  | binary => rfl
  | octal => rfl
  | decimal hspelled =>
      obtain ⟨-, hall, -⟩ := (spells_iff (by decide)).mp hspelled
      rw [← isDigitOf_ten]
      exact hall c List.mem_cons_self

theorem signedText_minus_iff {z : Int} :
    SignedText ('-' :: cs) z ↔ ∃ n, (∃ radix, Numeral radix cs n) ∧ z = -n := by
  constructor
  · intro h
    cases h with
    | bare hnumeral => exact absurd hnumeral.isDigit_head (by decide)
    | minus hnumeral => exact ⟨_, ⟨_, hnumeral⟩, rfl⟩
  · rintro ⟨n, ⟨radix, hnumeral⟩, rfl⟩
    exact .minus hnumeral

theorem signedText_plus_iff {z : Int} :
    SignedText ('+' :: cs) z ↔ ∃ n, (∃ radix, Numeral radix cs n) ∧ z = n := by
  constructor
  · intro h
    cases h with
    | bare hnumeral => exact absurd hnumeral.isDigit_head (by decide)
    | plus hnumeral => exact ⟨_, ⟨_, hnumeral⟩, rfl⟩
  · rintro ⟨n, ⟨radix, hnumeral⟩, rfl⟩
    exact .plus hnumeral

theorem signedText_bare_iff {z : Int} (hminus : ∀ cs', cs ≠ '-' :: cs')
    (hplus : ∀ cs', cs ≠ '+' :: cs') :
    SignedText cs z ↔ ∃ n, (∃ radix, Numeral radix cs n) ∧ z = n := by
  constructor
  · intro h
    cases h with
    | bare hnumeral => exact ⟨_, ⟨_, hnumeral⟩, rfl⟩
    | plus => exact absurd rfl (hplus _)
    | minus => exact absurd rfl (hminus _)
  · rintro ⟨n, ⟨radix, hnumeral⟩, rfl⟩
    exact .bare hnumeral

end EmmcLayout.Literal

namespace EmmcLayout

open Literal

/-! ## The three readers -/

theorem parseSize_eq_ok_iff {s : String} {v : UInt64} :
    parseSize s = .ok v ↔ SizeText s.toList v.toNat := by
  have hlt : v.toNat < UInt64.size := v.toNat_lt
  have hread : Literal.read true s.toList = .ok v.toNat ↔ SizeText s.toList v.toNat := by
    rw [read_true_eq_ok_iff, and_iff_left hlt]
  rw [← hread]
  unfold parseSize
  cases hn : read true s.toList with
  | error fault => simp
  | ok n =>
      have hfits := (read_true_eq_ok_iff.mp hn).2
      simp only [Except.ok.injEq]
      rw [← UInt64.toNat_inj, UInt64.toNat_ofNat_of_lt' hfits]

theorem parseU32_eq_ok_iff {s : String} {v : UInt32} :
    parseU32 s = .ok v ↔ ∃ radix, Numeral radix s.toList v.toNat := by
  have hlt : v.toNat < UInt32.size := v.toNat_lt
  have hsize : UInt32.size < UInt64.size := by decide
  have hread : Literal.read false s.toList = .ok v.toNat ↔
      ∃ radix, Numeral radix s.toList v.toNat := by
    rw [read_false_eq_ok_iff, and_iff_left (Nat.lt_trans hlt hsize)]
  rw [← hread]
  unfold parseU32
  cases read false s.toList with
  | error fault => simp
  | ok n =>
      simp only [Except.ok.injEq]
      by_cases hfits : n < UInt32.size
      · rw [if_pos hfits, Except.ok.injEq, ← UInt32.toNat_inj, UInt32.toNat_ofNat_of_lt' hfits]
      · rw [if_neg hfits]
        refine iff_of_false (by simp) ?_
        rintro rfl
        exact hfits hlt

theorem toInt_eq_ofNat_iff {n : Nat} {v : Int64} :
    v.toInt = n ↔ n ≤ Int64.maxValue.toInt.natAbs ∧ Int64.ofNat n = v := by
  have hmax : Int64.maxValue.toInt.natAbs = 2 ^ 63 - 1 := by decide
  rw [hmax]
  constructor
  · intro h
    have hlt := v.toInt_lt
    have hn : n < 2 ^ 63 := by omega
    refine ⟨by omega, ?_⟩
    rw [← Int64.toInt_inj, Int64.toInt_ofNat_of_lt hn, h]
  · rintro ⟨hn, rfl⟩
    exact Int64.toInt_ofNat_of_lt (by omega)

theorem toInt_eq_neg_iff {n : Nat} {v : Int64} :
    v.toInt = -n ↔ n ≤ Int64.minValue.toInt.natAbs ∧ Int64.ofInt (-n) = v := by
  have hmin : Int64.minValue.toInt.natAbs = 2 ^ 63 := by decide
  rw [hmin]
  constructor
  · intro h
    have hle := v.le_toInt
    refine ⟨by omega, ?_⟩
    rw [← h, Int64.ofInt_toInt]
  · rintro ⟨hn, rfl⟩
    exact Int64.toInt_ofInt_of_le (by omega) (by omega)

theorem exists_numeral_iff {cs : List Char} {P : Nat → Prop}
    (hfits : ∀ n, P n → n < UInt64.size) :
    (∃ n, (∃ radix, Numeral radix cs n) ∧ P n) ↔ ∃ n, read false cs = .ok n ∧ P n := by
  apply exists_congr
  intro n
  rw [read_false_eq_ok_iff]
  constructor
  · rintro ⟨hnumeral, hn⟩
    exact ⟨⟨hnumeral, hfits n hn⟩, hn⟩
  · rintro ⟨⟨hnumeral, -⟩, hn⟩
    exact ⟨hnumeral, hn⟩

/-- Behind its sign, a signed literal is an unsigned one. -/
theorem parseI64_eq_ok_iff {s : String} {v : Int64} :
    parseI64 s = .ok v ↔ SignedText s.toList v.toInt := by
  have hsize : UInt64.size = 2 ^ 64 := rfl
  have hnonneg : ∀ n : Nat, v.toInt = n → n < UInt64.size := fun n hn => by
    have := v.toInt_lt
    omega
  have hneg : ∀ n : Nat, v.toInt = -n → n < UInt64.size := fun n hn => by
    have := v.le_toInt
    omega
  have hite : ∀ {p : Prop} [Decidable p] {w : Int64},
      (if p then .ok w else .error (.numberOverflow s)) = (.ok v : Except GrammarError Int64) ↔
        p ∧ w = v := by
    intro p _ w
    split <;> simp_all
  unfold parseI64
  generalize s.toList = cs
  split
  rename_i negative body hsign
  split at hsign
  · rename_i rest
    obtain ⟨rfl, rfl⟩ := Prod.mk.inj hsign
    rw [signedText_minus_iff, exists_numeral_iff hneg]
    cases Literal.read false rest with
    | error fault => simp
    | ok n => simp [hite, toInt_eq_neg_iff]
  · rename_i rest
    obtain ⟨rfl, rfl⟩ := Prod.mk.inj hsign
    rw [signedText_plus_iff, exists_numeral_iff hnonneg]
    cases Literal.read false rest with
    | error fault => simp
    | ok n => simp [hite, toInt_eq_ofNat_iff]
  · rename_i hminus hplus
    obtain ⟨rfl, rfl⟩ := Prod.mk.inj hsign
    rw [signedText_bare_iff hminus hplus, exists_numeral_iff hnonneg]
    cases Literal.read false cs with
    | error fault => simp
    | ok n => simp [hite, toInt_eq_ofNat_iff]

/-- The literals are those of the grammar, and each is read as the number that it stands for: a
byte size below 2^64, an unsigned number below 2^32 and a signed number of 64 bits.  A byte size
that does not fit is told apart from a text that is none. -/
theorem parse_iff_grammar (s : String) :
    (∀ v, parseSize s = .ok v ↔ SizeText s.toList v.toNat) ∧
    (∀ n, SizeText s.toList n → UInt64.size ≤ n → parseSize s = .error (.numberOverflow s)) ∧
    ((∀ n, ¬ SizeText s.toList n) →
      parseSize s = .error (.invalidNumber s) ∨ parseSize s = .error (.numberOverflow s)) ∧
    (∀ v, parseU32 s = .ok v ↔ ∃ radix, Numeral radix s.toList v.toNat) ∧
    (∀ v, parseI64 s = .ok v ↔ SignedText s.toList v.toInt) := by
  refine ⟨fun _ => parseSize_eq_ok_iff, ?_, ?_, fun _ => parseU32_eq_ok_iff,
    fun _ => parseI64_eq_ok_iff⟩
  · intro n hsize hn
    rw [parseSize, hsize.read_eq, if_neg (Nat.not_lt.mpr hn)]
    rfl
  · intro hnone
    unfold parseSize
    cases hread : Literal.read true s.toList with
    | ok n => exact absurd (read_true_eq_ok_iff.mp hread).1 (hnone n)
    | error fault =>
        cases fault with
        | invalid => exact .inl rfl
        | overflow => exact .inr rfl

/-- An `E` is a digit behind `0x`, and exabytes behind a decimal. -/
example : parseSize "0x1E" = .ok 30 ∧ parseSize "1E" = .ok (2 ^ 60) := by decide +kernel

end EmmcLayout
