import EmmcLayout.Text.Utf8
import Mathlib.Tactic

/-!
# Texts survive their encoding

Decoding is total and replaces what it cannot read.  The main statement, `decodeLossy_encode`, says
that nothing of a text is ever replaced: the bytes of a text decode to that text.  It rests on
`characters_utf8EncodeChar`, which reads one character back in front of any further bytes; the
ranges of its second byte are where surrogates and overlong forms would be.  The other way, only
the bytes of a text of plain characters decode to it (`encode_of_decodeLossy`).
-/

namespace EmmcLayout.Utf8

theorem toNat_ofNat_of_lt {n : Nat} (h : n < 256) : (UInt8.ofNat n).toNat = n := by
  rw [UInt8.toNat_ofNat', Nat.mod_eq_of_lt h]

theorem ofNat_ne_zero {n : Nat} (hpos : 0 < n) (hlt : n < 256) : UInt8.ofNat n ≠ 0 := by
  intro h
  have htoNat := congrArg UInt8.toNat h
  rw [toNat_ofNat_of_lt hlt] at htoNat
  exact absurd htoNat (Nat.ne_of_gt hpos)

theorem payload?_continuation {n : Nat} (h : n < 64) :
    payload? (UInt8.ofNat (n + 0x80)) = some n := by
  have hn : (UInt8.ofNat (n + 0x80)).toNat = n + 0x80 := toNat_ofNat_of_lt (by omega)
  have hrange : (0x80 : UInt8) ≤ UInt8.ofNat (n + 0x80) ∧ UInt8.ofNat (n + 0x80) ≤ 0xBF := by
    rw [UInt8.le_iff_toNat_le, UInt8.le_iff_toNat_le, hn]
    exact ⟨Nat.le_add_left _ _, by change n + 0x80 ≤ 0xBF; omega⟩
  rw [payload?, if_pos hrange, hn, Nat.add_sub_cancel]

/-- A continuation byte adds its six bits. -/
theorem finish_continuation (value used needed v : Nat) (rest : Bytes) :
    finish value used (needed + 1) (UInt8.ofNat (v % 0x40 + 0x80) :: rest) =
      finish (value * 64 + v % 64) (used + 1) needed rest := by
  rw [finish, payload?_continuation (Nat.mod_lt v (by decide))]

theorem character_oneByte {v : Nat} (h : v ≤ 0x7F) (rest : Bytes) :
    character (UInt8.ofNat v) rest = (Char.ofNat v, 0) := by
  have hv : (UInt8.ofNat v).toNat = v := toNat_ofNat_of_lt (by omega)
  have hlt : UInt8.ofNat v < 0x80 := by
    rw [UInt8.lt_iff_toNat_lt, hv]
    exact Nat.lt_succ_of_le h
  rw [character, if_pos hlt, hv]

theorem character_twoBytes {v : Nat} (hlow : 0x80 ≤ v) (hhigh : v ≤ 0x7FF) (rest : Bytes) :
    character (UInt8.ofNat (v / 64 % 0x20 + 0xC0)) (UInt8.ofNat (v % 0x40 + 0x80) :: rest) =
      (Char.ofNat v, 1) := by
  have hlead : (UInt8.ofNat (v / 64 % 0x20 + 0xC0)).toNat = v / 64 + 0xC0 := by
    rw [toNat_ofNat_of_lt (by omega)]
    omega
  generalize UInt8.ofNat (v / 64 % 0x20 + 0xC0) = lead at hlead
  have hfirst : ¬ lead < 0x80 := by
    rw [UInt8.lt_iff_toNat_lt, hlead]
    show ¬ v / 64 + 0xC0 < 0x80
    omega
  have hsecond : (0xC2 : UInt8) ≤ lead ∧ lead ≤ 0xDF := by
    rw [UInt8.le_iff_toNat_le, UInt8.le_iff_toNat_le, hlead]
    show 0xC2 ≤ v / 64 + 0xC0 ∧ v / 64 + 0xC0 ≤ 0xDF
    omega
  rw [character, if_neg hfirst, if_pos hsecond, finish_continuation, finish, hlead]
  congr 2
  omega

/-- A leading byte of three or four bytes, in front of a second byte in its range, hands its bits on
to the continuation bytes. -/
theorem character_of_secondRange {lead second : UInt8} (hlow : 0xE0 ≤ lead.toNat)
    (hhigh : lead.toNat ≤ 0xF4) (rest : Bytes)
    (hrange : (secondRange lead).1 ≤ second ∧ second ≤ (secondRange lead).2) :
    character lead (second :: rest) =
      if lead < 0xF0 then finish (lead.toNat - 0xE0) 0 2 (second :: rest)
      else finish (lead.toNat - 0xF0) 0 3 (second :: rest) := by
  have hone : ¬ lead < 0x80 := by
    rw [UInt8.lt_iff_toNat_lt]
    show ¬ lead.toNat < 0x80
    omega
  have htwo : ¬ ((0xC2 : UInt8) ≤ lead ∧ lead ≤ 0xDF) := by
    rw [UInt8.le_iff_toNat_le, UInt8.le_iff_toNat_le]
    show ¬ (0xC2 ≤ lead.toNat ∧ lead.toNat ≤ 0xDF)
    omega
  have hmore : (0xE0 : UInt8) ≤ lead ∧ lead ≤ 0xF4 := by
    rw [UInt8.le_iff_toNat_le, UInt8.le_iff_toNat_le]
    exact ⟨hlow, hhigh⟩
  by_cases hthree : lead < 0xF0
  · simp only [character, if_neg hone, if_neg htwo, if_pos hmore, if_pos hthree, if_pos hrange]
  · simp only [character, if_neg hone, if_neg htwo, if_pos hmore, if_neg hthree, if_pos hrange]

/-- The second byte of a character of three bytes is in the range that the first one leaves. -/
theorem secondRange_threeBytes {v : Nat} (hlow : 0x800 ≤ v) (hhigh : v ≤ 0xFFFF)
    (hvalid : v < 0xD800 ∨ 0xDFFF < v) {lead second : UInt8} (hlead : lead.toNat = v / 4096 + 0xE0)
    (hsecond : second.toNat = v / 64 % 64 + 0x80) :
    (secondRange lead).1 ≤ second ∧ second ≤ (secondRange lead).2 := by
  simp only [secondRange, ← UInt8.toNat_inj, hlead]
  rw [UInt8.le_iff_toNat_le, UInt8.le_iff_toNat_le, hsecond]
  split
  · rename_i h
    replace h : v / 4096 + 0xE0 = 0xE0 := h
    show 0xA0 ≤ v / 64 % 64 + 0x80 ∧ v / 64 % 64 + 0x80 ≤ 0xBF
    omega
  · split
    · rename_i h
      replace h : v / 4096 + 0xE0 = 0xED := h
      show 0x80 ≤ v / 64 % 64 + 0x80 ∧ v / 64 % 64 + 0x80 ≤ 0x9F
      omega
    · rw [if_neg, if_neg]
      · show 0x80 ≤ v / 64 % 64 + 0x80 ∧ v / 64 % 64 + 0x80 ≤ 0xBF
        omega
      · show ¬ v / 4096 + 0xE0 = 0xF4
        omega
      · show ¬ v / 4096 + 0xE0 = 0xF0
        omega

theorem character_threeBytes {v : Nat} (hlow : 0x800 ≤ v) (hhigh : v ≤ 0xFFFF)
    (hvalid : v < 0xD800 ∨ 0xDFFF < v) (rest : Bytes) :
    character (UInt8.ofNat (v / 4096 % 0x10 + 0xE0))
        (UInt8.ofNat (v / 64 % 0x40 + 0x80) :: UInt8.ofNat (v % 0x40 + 0x80) :: rest) =
      (Char.ofNat v, 2) := by
  have hlead : (UInt8.ofNat (v / 4096 % 0x10 + 0xE0)).toNat = v / 4096 + 0xE0 := by
    rw [toNat_ofNat_of_lt (by omega)]
    omega
  have hsecond : (UInt8.ofNat (v / 64 % 0x40 + 0x80)).toNat = v / 64 % 64 + 0x80 :=
    toNat_ofNat_of_lt (by omega)
  have hrange := secondRange_threeBytes hlow hhigh hvalid hlead hsecond
  generalize UInt8.ofNat (v / 4096 % 0x10 + 0xE0) = lead at hlead hrange
  have hthree : lead < 0xF0 := by
    rw [UInt8.lt_iff_toNat_lt, hlead]
    show v / 4096 + 0xE0 < 0xF0
    omega
  rw [character_of_secondRange (by omega) (by omega) _ hrange, if_pos hthree]
  rw [finish_continuation, finish_continuation, finish, hlead]
  congr 2
  omega

/-- The second byte of a character of four bytes is in the range that the first one leaves. -/
theorem secondRange_fourBytes {v : Nat} (hlow : 0x10000 ≤ v) (hhigh : v < 0x110000)
    {lead second : UInt8} (hlead : lead.toNat = v / 262144 + 0xF0)
    (hsecond : second.toNat = v / 4096 % 64 + 0x80) :
    (secondRange lead).1 ≤ second ∧ second ≤ (secondRange lead).2 := by
  simp only [secondRange, ← UInt8.toNat_inj, hlead]
  rw [UInt8.le_iff_toNat_le, UInt8.le_iff_toNat_le, hsecond, if_neg, if_neg]
  · split
    · rename_i h
      replace h : v / 262144 + 0xF0 = 0xF0 := h
      show 0x90 ≤ v / 4096 % 64 + 0x80 ∧ v / 4096 % 64 + 0x80 ≤ 0xBF
      omega
    · split
      · rename_i h
        replace h : v / 262144 + 0xF0 = 0xF4 := h
        show 0x80 ≤ v / 4096 % 64 + 0x80 ∧ v / 4096 % 64 + 0x80 ≤ 0x8F
        omega
      · show 0x80 ≤ v / 4096 % 64 + 0x80 ∧ v / 4096 % 64 + 0x80 ≤ 0xBF
        omega
  · show ¬ v / 262144 + 0xF0 = 0xED
    omega
  · show ¬ v / 262144 + 0xF0 = 0xE0
    omega

theorem character_fourBytes {v : Nat} (hlow : 0x10000 ≤ v) (hhigh : v < 0x110000) (rest : Bytes) :
    character (UInt8.ofNat (v / 262144 % 0x08 + 0xF0))
        (UInt8.ofNat (v / 4096 % 0x40 + 0x80) :: UInt8.ofNat (v / 64 % 0x40 + 0x80) ::
          UInt8.ofNat (v % 0x40 + 0x80) :: rest) =
      (Char.ofNat v, 3) := by
  have hlead : (UInt8.ofNat (v / 262144 % 0x08 + 0xF0)).toNat = v / 262144 + 0xF0 := by
    rw [toNat_ofNat_of_lt (by omega)]
    omega
  have hsecond : (UInt8.ofNat (v / 4096 % 0x40 + 0x80)).toNat = v / 4096 % 64 + 0x80 :=
    toNat_ofNat_of_lt (by omega)
  have hrange := secondRange_fourBytes hlow hhigh hlead hsecond
  generalize UInt8.ofNat (v / 262144 % 0x08 + 0xF0) = lead at hlead hrange
  have hfour : ¬ lead < 0xF0 := by
    rw [UInt8.lt_iff_toNat_lt, hlead]
    show ¬ v / 262144 + 0xF0 < 0xF0
    omega
  rw [character_of_secondRange (by omega) (by omega) _ hrange, if_neg hfour]
  rw [finish_continuation, finish_continuation, finish_continuation, finish, hlead]
  congr 2
  omega

/-- The bytes of a character, in front of any others, are read back as that character. -/
theorem characters_utf8EncodeChar (c : Char) (rest : Bytes) :
    characters (String.utf8EncodeChar c ++ rest) = c :: characters rest := by
  have hc : Char.ofNat c.val.toNat = c := Char.ofNat_toNat c
  have hvalid : c.val.toNat < 0xD800 ∨ 0xDFFF < c.val.toNat ∧ c.val.toNat < 0x110000 := c.valid
  unfold String.utf8EncodeChar
  simp only
  split
  · rename_i h
    rw [List.singleton_append, characters, character_oneByte h, hc]
    rfl
  · split
    · rename_i h₁ h₂
      rw [List.cons_append, List.singleton_append, characters,
        character_twoBytes (Nat.lt_of_not_le h₁) h₂, hc]
      rfl
    · split
      · rename_i h₁ h₂ h₃
        rw [List.cons_append, List.cons_append, List.singleton_append, characters,
          character_threeBytes (Nat.lt_of_not_le h₂) h₃ (hvalid.imp_right And.left), hc]
        rfl
      · rename_i h₁ h₂ h₃
        have hhigh : c.val.toNat < 0x110000 := by omega
        rw [List.cons_append, List.cons_append, List.cons_append, List.singleton_append,
          characters, character_fourBytes (Nat.lt_of_not_le h₃) hhigh, hc]
        rfl

theorem characters_flatMap (cs : List Char) :
    characters (cs.flatMap String.utf8EncodeChar) = cs := by
  induction cs with
  | nil => rw [List.flatMap_nil, characters]
  | cons c cs ih => rw [List.flatMap_cons, characters_utf8EncodeChar, ih]

/-- A text is what its bytes decode to. -/
theorem decodeLossy_encode (s : String) : decodeLossy (encode s) = s := by
  rw [decodeLossy, encode, characters_flatMap, String.ofList_toList]

theorem utf8EncodeChar_ofNat {n : Nat} (h : n < 0x80) :
    String.utf8EncodeChar (Char.ofNat n) = [UInt8.ofNat n] := by
  have hvalid : n.isValidChar := Or.inl (by omega)
  have hval : (Char.ofNat n).val.toNat = n := by
    rw [Char.ofNat, dif_pos hvalid]
    rfl
  simp only [String.utf8EncodeChar, hval]
  rw [if_pos (by omega)]

/-- Bytes below 0x80 are the bytes of the text that they decode to. -/
theorem encode_decodeLossy {b : Bytes} (h : ∀ x ∈ b, x < 0x80) : encode (decodeLossy b) = b := by
  rw [encode, decodeLossy, String.toList_ofList]
  induction b with
  | nil => rw [characters, List.flatMap_nil]
  | cons x b ih =>
      obtain ⟨hx, hb⟩ := List.forall_mem_cons.mp h
      have hlt : x.toNat < 0x80 := UInt8.lt_iff_toNat_lt.mp hx
      have hone : character x b = (Char.ofNat x.toNat, 0) := by rw [character, if_pos hx]
      rw [characters, hone]
      show String.utf8EncodeChar (Char.ofNat x.toNat) ++
        (characters b).flatMap String.utf8EncodeChar = x :: b
      rw [ih hb, utf8EncodeChar_ofNat hlt, UInt8.ofNat_toNat]
      rfl

/-- Only the character NUL has a byte NUL. -/
theorem eq_zero_of_mem_utf8EncodeChar {c : Char} (h : 0 ∈ String.utf8EncodeChar c) :
    c = '\x00' := by
  have hcontinuation : ∀ v : Nat, (0 : UInt8) ≠ UInt8.ofNat (v % 0x40 + 0x80) :=
    fun v => (ofNat_ne_zero (by omega) (by omega)).symm
  unfold String.utf8EncodeChar at h
  simp only at h
  split at h
  · by_contra hne
    have hpos : 0 < c.val.toNat := by
      refine Nat.pos_of_ne_zero fun hzero => hne ?_
      exact Char.toNat_inj.mp hzero
    exact ofNat_ne_zero hpos (by omega) (List.mem_singleton.mp h).symm
  · split at h
    · simp only [List.mem_cons, List.not_mem_nil, or_false, hcontinuation] at h
      exact absurd h (ofNat_ne_zero (by omega) (by omega)).symm
    · split at h
      · simp only [List.mem_cons, List.not_mem_nil, or_false, hcontinuation] at h
        exact absurd h (ofNat_ne_zero (by omega) (by omega)).symm
      · simp only [List.mem_cons, List.not_mem_nil, or_false, hcontinuation] at h
        exact absurd h (ofNat_ne_zero (by omega) (by omega)).symm

/-- The bytes of a text have a NUL only where the text has one. -/
theorem zero_notMem_encode {s : String} (h : '\x00' ∉ s.toList) : 0 ∉ encode s := by
  intro hmem
  obtain ⟨c, hc, hzero⟩ := List.mem_flatMap.mp hmem
  rw [eq_zero_of_mem_utf8EncodeChar hzero] at hc
  exact h hc

/-! ## The way back -/

/-- A character that one byte other than NUL stands for. -/
def Plain (c : Char) : Prop := 0 < c.toNat ∧ c.toNat < 0x80

instance : DecidablePred Plain := fun c =>
  inferInstanceAs (Decidable (0 < c.toNat ∧ c.toNat < 0x80))

theorem not_plain_replacement : ¬ Plain replacement := by decide

/-- A number past those of plain characters does not become one, whether or not it is the number of
a character. -/
theorem not_plain_ofNat {n : Nat} (h : 0x80 ≤ n) : ¬ Plain (Char.ofNat n) := by
  intro hplain
  by_cases hvalid : n.isValidChar
  · rw [Char.ofNat, dif_pos hvalid] at hplain
    have hlt : n < 0x80 := hplain.2
    omega
  · rw [Char.ofNat, dif_neg hvalid] at hplain
    exact absurd hplain.1 (Nat.lt_irrefl 0)

theorem not_plain_finish {value needed : Nat} (h : 0x80 ≤ value * 64 ^ needed) (used : Nat)
    (rest : Bytes) : ¬ Plain (finish value used needed rest).1 := by
  induction needed generalizing value used rest with
  | zero =>
      rw [Nat.pow_zero, Nat.mul_one] at h
      rw [finish]
      exact not_plain_ofNat h
  | succ needed ih =>
      cases rest with
      | nil =>
          rw [finish]
          exact not_plain_replacement
      | cons b rest =>
          rw [finish]
          cases payload? b with
          | none => exact not_plain_replacement
          | some bits =>
              refine ih (Nat.le_trans h ?_) _ _
              rw [Nat.pow_succ', ← Nat.mul_assoc]
              exact Nat.mul_le_mul_right _ (Nat.le_add_right _ _)

/-- The second byte is a continuation byte, and has bits of its own where the leading byte has none.
-/
theorem second_of_secondRange {lead second : UInt8}
    (hrange : (secondRange lead).1 ≤ second ∧ second ≤ (secondRange lead).2) :
    0x80 ≤ second.toNat ∧ second.toNat ≤ 0xBF ∧
      (lead.toNat = 0xE0 ∨ lead.toNat = 0xF0 → 0x82 ≤ second.toNat) := by
  rw [UInt8.le_iff_toNat_le, UInt8.le_iff_toNat_le] at hrange
  simp only [secondRange, ← UInt8.toNat_inj] at hrange
  split at hrange
  · have hlow : 0xA0 ≤ second.toNat ∧ second.toNat ≤ 0xBF := hrange
    omega
  · rename_i hE0
    replace hE0 : lead.toNat ≠ 0xE0 := hE0
    split at hrange
    · rename_i hED
      replace hED : lead.toNat = 0xED := hED
      have hlow : 0x80 ≤ second.toNat ∧ second.toNat ≤ 0x9F := hrange
      omega
    · split at hrange
      · have hlow : 0x90 ≤ second.toNat ∧ second.toNat ≤ 0xBF := hrange
        omega
      · rename_i hF0
        replace hF0 : lead.toNat ≠ 0xF0 := hF0
        split at hrange
        · have hlow : 0x80 ≤ second.toNat ∧ second.toNat ≤ 0x8F := hrange
          omega
        · have hlow : 0x80 ≤ second.toNat ∧ second.toNat ≤ 0xBF := hrange
          omega

theorem not_plain_of_secondRange {lead second : UInt8} (hlow : 0xE0 ≤ lead.toNat)
    (hhigh : lead.toNat ≤ 0xF4) (rest : Bytes)
    (hrange : (secondRange lead).1 ≤ second ∧ second ≤ (secondRange lead).2) :
    ¬ Plain (character lead (second :: rest)).1 := by
  obtain ⟨hleast, hmost, hbits⟩ := second_of_secondRange hrange
  have hpayload : payload? second = some (second.toNat - 0x80) := by
    rw [payload?, if_pos]
    rw [UInt8.le_iff_toNat_le, UInt8.le_iff_toNat_le]
    exact ⟨hleast, hmost⟩
  rw [character_of_secondRange hlow hhigh rest hrange]
  split
  · rw [finish, hpayload]
    exact not_plain_finish (by omega) _ _
  · rename_i hlead
    have hfour : 0xF0 ≤ lead.toNat := Nat.le_of_not_lt fun h => hlead (UInt8.lt_iff_toNat_lt.mpr h)
    rw [finish, hpayload]
    exact not_plain_finish (by omega) _ _

theorem not_plain_character {lead : UInt8} (h : ¬ lead < 0x80) (rest : Bytes) :
    ¬ Plain (character lead rest).1 := by
  by_cases htwo : 0xC2 ≤ lead ∧ lead ≤ 0xDF
  · have hlow : 0xC2 ≤ lead.toNat := UInt8.le_iff_toNat_le.mp htwo.1
    rw [character, if_neg h, if_pos htwo]
    exact not_plain_finish (by omega) _ _
  · by_cases hmore : 0xE0 ≤ lead ∧ lead ≤ 0xF4
    · cases rest with
      | nil =>
          rw [character, if_neg h, if_neg htwo, if_pos hmore]
          exact not_plain_replacement
      | cons second rest =>
          by_cases hrange : (secondRange lead).1 ≤ second ∧ second ≤ (secondRange lead).2
          · exact not_plain_of_secondRange (UInt8.le_iff_toNat_le.mp hmore.1)
              (UInt8.le_iff_toNat_le.mp hmore.2) rest hrange
          · simp only [character, if_neg h, if_neg htwo, if_pos hmore, if_neg hrange]
            exact not_plain_replacement
    · rw [character, if_neg h, if_neg htwo, if_neg hmore]
      exact not_plain_replacement

theorem lt_of_plain {b : Bytes} (h : ∀ c ∈ characters b, Plain c) : ∀ x ∈ b, x < 0x80 := by
  induction b with
  | nil => exact List.forall_mem_nil _
  | cons x b ih =>
      have hx : x < 0x80 := by
        by_contra hx
        refine not_plain_character hx b (h _ ?_)
        rw [characters]
        exact List.mem_cons_self
      rw [characters, character, if_pos hx] at h
      exact List.forall_mem_cons.mpr ⟨hx, ih (List.forall_mem_cons.mp h).2⟩

/-- Bytes that decode to plain characters are the bytes of these. -/
theorem encode_of_decodeLossy {b : Bytes} {s : String} (h : decodeLossy b = s)
    (hplain : ∀ c ∈ s.toList, Plain c) : b = encode s := by
  rw [← h, decodeLossy, String.toList_ofList] at hplain
  rw [← h, encode_decodeLossy (lt_of_plain hplain)]

end EmmcLayout.Utf8
