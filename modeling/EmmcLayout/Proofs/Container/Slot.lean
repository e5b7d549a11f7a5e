import EmmcLayout.Container.Slot
import EmmcLayout.Proofs.Bytes
import EmmcLayout.Proofs.Ranges

/-!
# Slots survive damage to one copy

A copy is a payload and a trailer (`readCopy_eq`), and it is right when its last word is the sum of
the words in front of it (`isValid_copyOf_iff`).  `writeCopy_eq` says what is written, twice over.
`write_readable` says when that is, and that it can be read; `write_survives_damage` says what is
read from it later: the first copy whatever became of the second one, and the second copy when a
word of the first payload was changed.

The length of a copy need not be a multiple of four.  Then its sum leaves out up to three bytes in
front of the checksum, but those belong to the trailer: the last word that starts within the payload
is summed in full.
-/

namespace EmmcLayout

namespace SlotTrailer

variable {t : SlotTrailer}

/-- The trailer in front of its checksum. -/
def label (t : SlotTrailer) : Bytes :=
  Bytes.le32 t.magic ++ Bytes.le32 t.version ++ Bytes.le32 t.timestamp

theorem toBytes_eq (t : SlotTrailer) : t.toBytes = t.label ++ Bytes.le32 t.checksum := rfl

@[simp]
theorem length_label (t : SlotTrailer) : t.label.length = 12 := by
  simp [label]

@[simp]
theorem length_toBytes (t : SlotTrailer) : t.toBytes.length = length := by
  simp [toBytes_eq, length]

/-- A trailer reads back. -/
theorem ofBytes_toBytes (t : SlotTrailer) : ofBytes t.toBytes = .ok t := by
  have hmagic : Bytes.fetchLE32 t.toBytes 0 = .ok t.magic := by
    have h := Bytes.fetchLE32_middle [] t.magic
      (Bytes.le32 t.version ++ (Bytes.le32 t.timestamp ++ Bytes.le32 t.checksum))
    simpa [toBytes] using h
  have hversion : Bytes.fetchLE32 t.toBytes 4 = .ok t.version := by
    have h := Bytes.fetchLE32_middle (Bytes.le32 t.magic) t.version
      (Bytes.le32 t.timestamp ++ Bytes.le32 t.checksum)
    simpa [toBytes] using h
  have htimestamp : Bytes.fetchLE32 t.toBytes 8 = .ok t.timestamp := by
    have h := Bytes.fetchLE32_middle (Bytes.le32 t.magic ++ Bytes.le32 t.version) t.timestamp
      (Bytes.le32 t.checksum)
    simpa [toBytes] using h
  have hchecksum : Bytes.fetchLE32 t.toBytes 12 = .ok t.checksum := by
    have h := Bytes.fetchLE32_middle
      (Bytes.le32 t.magic ++ Bytes.le32 t.version ++ Bytes.le32 t.timestamp) t.checksum []
    simpa [toBytes] using h
  simp only [ofBytes, hmagic, hversion, htimestamp, hchecksum, Outcome.ok_bind]
  rfl

/-- Every byte string as long as a trailer is one. -/
theorem exists_toBytes_eq {b : Bytes} (h : b.length = length) :
    ∃ t : SlotTrailer, t.toBytes = b := by
  rw [length] at h
  obtain ⟨magic, rest, rfl, hmagic⟩ := Bytes.exists_split (n := 4) (b := b) (by omega)
  rw [List.length_append, hmagic] at h
  obtain ⟨version, rest, rfl, hversion⟩ := Bytes.exists_split (n := 4) (b := rest) (by omega)
  rw [List.length_append, hversion] at h
  obtain ⟨timestamp, checksum, rfl, htimestamp⟩ :=
    Bytes.exists_split (n := 4) (b := rest) (by omega)
  rw [List.length_append, htimestamp] at h
  refine ⟨⟨UInt32.ofNat (Bytes.ofLE magic), UInt32.ofNat (Bytes.ofLE version),
    UInt32.ofNat (Bytes.ofLE timestamp), UInt32.ofNat (Bytes.ofLE checksum)⟩, ?_⟩
  simp only [toBytes, Bytes.le32_ofNat_ofLE hmagic, Bytes.le32_ofNat_ofLE hversion,
    Bytes.le32_ofNat_ofLE htimestamp, Bytes.le32_ofNat_ofLE (show checksum.length = 4 by omega),
    List.append_assoc]

/-- The trailer of a payload that is written. -/
def sealing (template : SlotTrailer) (timestamp : UInt32) (payload : Bytes) : SlotTrailer :=
  let unsigned : SlotTrailer := ⟨template.magic, template.version, timestamp, 0⟩
  { unsigned with checksum := Bytes.wordSum (payload ++ unsigned.label) }

end SlotTrailer

namespace Slot

open Bytes (AgreeOutside)

variable {layout : SlotLayout} {payload first second : Bytes} {t u : SlotTrailer}

/-! ## Reading -/

/-- The checksum of a copy leaves out its last word. -/
theorem checksum_append (covered : Bytes) (w : UInt32) :
    checksum (covered ++ Bytes.le32 w) = Bytes.wordSum covered := by
  have hlen : (covered ++ Bytes.le32 w).length - 4 = covered.length := by simp
  rw [checksum, hlen, List.take_left]

/-- What is read where a payload stands in front of a trailer. -/
def copyOf (index : Nat) (payload : Bytes) (t : SlotTrailer) : SlotCopy :=
  ⟨index, payload, t, t.checksum == Bytes.wordSum (payload ++ t.label)⟩

theorem readCopy_eq {index : Nat} {front : Bytes} (hfront : front.length = index * layout.copySize)
    (hpayload : payload.length + SlotTrailer.length = layout.copySize) (t : SlotTrailer)
    (back : Bytes) :
    (readCopy (front ++ (payload ++ t.toBytes ++ back)) layout index).result =
      .ok (copyOf index payload t) := by
  have hlen : (payload ++ t.toBytes).length = layout.copySize := by
    rw [List.length_append, t.length_toBytes, hpayload]
  have hfetch := Bytes.fetch_middle front (payload ++ t.toBytes) back
  rw [hfront, hlen] at hfetch
  have hpayloadLength : layout.copySize - SlotTrailer.length = payload.length := by omega
  have hchecksum : checksum (payload ++ t.toBytes) = Bytes.wordSum (payload ++ t.label) := by
    rw [t.toBytes_eq, ← List.append_assoc, checksum_append]
  simp only [readCopy, Logged.result_bind, Outcome.result_lift, hfetch, Outcome.ok_bind,
    hpayloadLength, List.drop_left, List.take_left, t.ofBytes_toBytes, hchecksum,
    Logged.result_debug, Logged.result_pure]
  rfl

/-- An area holds two copies; the first one is used unless only the second one is right. -/
theorem select_eq (hfirst : first.length + SlotTrailer.length = layout.copySize)
    (hsecond : second.length + SlotTrailer.length = layout.copySize) (t u : SlotTrailer) :
    (select (first ++ t.toBytes ++ (second ++ u.toBytes)) layout).result =
      .ok (if ¬ (copyOf 0 first t).isValid ∧ (copyOf 1 second u).isValid then copyOf 1 second u
        else copyOf 0 first t) := by
  have hfront₀ : ([] : Bytes).length = 0 * layout.copySize := by simp
  have hfront₁ : (first ++ t.toBytes).length = 1 * layout.copySize := by simp [hfirst]
  have hread₀ := readCopy_eq hfront₀ hfirst t (second ++ u.toBytes)
  have hread₁ := readCopy_eq hfront₁ hsecond u []
  rw [List.nil_append] at hread₀
  rw [List.append_nil] at hread₁
  have hroom : ¬ layout.copySize < SlotTrailer.length := by omega
  simp only [select, hroom, if_false, Logged.result_bind, hread₀, hread₁, Outcome.ok_bind]
  cases (copyOf 0 first t).isValid <;> cases (copyOf 1 second u).isValid <;> simp

/-- Every byte string as long as a copy is one. -/
theorem exists_copy {b : Bytes} (hroom : SlotTrailer.length ≤ layout.copySize)
    (hb : b.length = layout.copySize) :
    ∃ (payload : Bytes) (t : SlotTrailer), b = payload ++ t.toBytes ∧
      payload.length + SlotTrailer.length = layout.copySize := by
  obtain ⟨payload, rest, rfl, hpayload⟩ :=
    Bytes.exists_split (n := layout.copySize - SlotTrailer.length) (b := b) (by omega)
  rw [List.length_append] at hb
  obtain ⟨t, rfl⟩ := SlotTrailer.exists_toBytes_eq (b := rest) (by omega)
  exact ⟨payload, t, rfl, by omega⟩

/-- A copy is right when its last word is the sum of the words in front of it. -/
theorem isValid_copyOf_iff {index : Nat} {covered : Bytes} {w : UInt32}
    (h : payload ++ t.toBytes = covered ++ Bytes.le32 w) :
    (copyOf index payload t).isValid = true ↔ w = Bytes.wordSum covered := by
  rw [t.toBytes_eq, ← List.append_assoc] at h
  obtain ⟨rfl, hword⟩ := List.append_inj' h (by simp)
  have hw : t.checksum = w := by
    rw [← Bytes.ofNat_ofLE_le32 t.checksum, hword, Bytes.ofNat_ofLE_le32]
  rw [copyOf, beq_iff_eq, hw]

theorem select_of_first_valid (hfirst : first.length + SlotTrailer.length = layout.copySize)
    (hvalid : (copyOf 0 first t).isValid = true) {other : Bytes}
    (hother : other.length = layout.copySize) :
    (select (first ++ t.toBytes ++ other) layout).result = .ok (copyOf 0 first t) := by
  obtain ⟨second, u, rfl, hsecond⟩ := exists_copy (by omega) hother
  rw [select_eq hfirst hsecond, if_neg (by simp [hvalid])]

theorem select_of_first_invalid {covered : Bytes} {w : UInt32}
    (hroom : SlotTrailer.length ≤ layout.copySize)
    (hlen : (covered ++ Bytes.le32 w).length = layout.copySize)
    (hinvalid : w ≠ Bytes.wordSum covered)
    (hsecond : second.length + SlotTrailer.length = layout.copySize)
    (hvalid : (copyOf 1 second u).isValid = true) :
    (select (covered ++ Bytes.le32 w ++ (second ++ u.toBytes)) layout).result =
      .ok (copyOf 1 second u) := by
  obtain ⟨first, t, hcopy, hfirst⟩ := exists_copy hroom hlen
  have hfalse : ¬ (copyOf 0 first t).isValid = true :=
    fun h => hinvalid ((isValid_copyOf_iff hcopy.symm).mp h)
  rw [hcopy, select_eq hfirst hsecond, if_pos ⟨hfalse, hvalid⟩]

/-! ## Writing -/

theorem isValid_sealing (index : Nat) (template : SlotTrailer) (timestamp : UInt32)
    (payload : Bytes) :
    (copyOf index payload (SlotTrailer.sealing template timestamp payload)).isValid = true :=
  beq_self_eq_true _

/-- A copy that is written holds the payload, filled up, and the trailer that seals it. -/
theorem writeCopy_eq {limit : Nat} (hlimit : limit + SlotTrailer.length = layout.copySize)
    (hfits : payload.length ≤ limit) (template : SlotTrailer) (timestamp : UInt32) :
    writeCopy payload template timestamp layout =
      .ok (Bytes.padTo limit payload ++
        (SlotTrailer.sealing template timestamp (Bytes.padTo limit payload)).toBytes) := by
  have hlen := Bytes.length_padTo hfits
  have hsub : layout.copySize - SlotTrailer.length = limit := by omega
  have hcontent : Bytes.padTo layout.copySize payload =
      Bytes.padTo limit payload ++ Bytes.zeros SlotTrailer.length := by
    rw [Bytes.padTo, Bytes.padTo, List.append_assoc, Bytes.zeros, Bytes.zeros, Bytes.zeros,
      List.replicate_append_replicate]
    congr 2
    omega
  have hwrite : ∀ (tail : Bytes) (t : SlotTrailer), tail.length = SlotTrailer.length →
      Bytes.overwriteTail (Bytes.padTo limit payload ++ tail) limit t.toBytes =
        .ok (Bytes.padTo limit payload ++ t.toBytes) := by
    intro tail t htail
    rw [Bytes.overwriteTail, List.length_append, hlen, htail, t.length_toBytes, if_pos rfl,
      List.take_left' hlen]
  have hchecksum : checksum (Bytes.padTo limit payload ++
      (⟨template.magic, template.version, timestamp, 0⟩ : SlotTrailer).toBytes) =
      (SlotTrailer.sealing template timestamp (Bytes.padTo limit payload)).checksum := by
    rw [SlotTrailer.toBytes_eq, ← List.append_assoc, checksum_append]
    rfl
  -- the trailer is put in twice, the second time with its checksum
  simp only [writeCopy, hsub, Nat.not_lt.mpr hfits, if_false, hcontent]
  rw [hwrite (Bytes.zeros SlotTrailer.length) _ List.length_replicate, Outcome.ok_bind,
    hwrite _ _ (SlotTrailer.length_toBytes _), hchecksum]
  rfl

/-! ## What is written can be read -/

/-- Both copies that are written are right, so the first one is used. -/
theorem exists_select_of_fits (hroom : SlotTrailer.length ≤ layout.copySize)
    (hfits : payload.length ≤ layout.copySize - SlotTrailer.length) (template : SlotTrailer)
    (timestamp : UInt32) :
    ∃ area copy, write payload template timestamp layout = .ok area ∧
      (select area layout).result = .ok copy ∧ copy.isValid = true := by
  have hlimit := Nat.sub_add_cancel hroom
  have hcopy := writeCopy_eq hlimit hfits template timestamp
  have hlen := Bytes.length_padTo hfits
  generalize Bytes.padTo (layout.copySize - SlotTrailer.length) payload = content at hcopy hlen
  rw [← hlen] at hlimit
  have hvalid := isValid_sealing 0 template timestamp content
  generalize SlotTrailer.sealing template timestamp content = trailer at hcopy hvalid
  have hsecond : (content ++ trailer.toBytes).length = layout.copySize := by
    rw [List.length_append, trailer.length_toBytes, hlimit]
  refine ⟨content ++ trailer.toBytes ++ (content ++ trailer.toBytes), copyOf 0 content trailer, ?_,
    select_of_first_valid hlimit hvalid hsecond, hvalid⟩
  rw [write, hcopy]
  rfl

theorem write_of_too_large (h : layout.copySize - SlotTrailer.length < payload.length)
    (template : SlotTrailer) (timestamp : UInt32) :
    write payload template timestamp layout =
      .error (.payloadTooLarge payload.length (layout.copySize - SlotTrailer.length)) := by
  rw [write, writeCopy]
  simp only [h, if_true]
  rfl

/-- A copy without room for a trailer passes the check of an empty payload. -/
theorem write_nil_of_small (h : layout.copySize < SlotTrailer.length) (template : SlotTrailer)
    (timestamp : UInt32) :
    write [] template timestamp layout = .error (.outOfRange 0 16 layout.copySize) := by
  have hlimit : layout.copySize - SlotTrailer.length = 0 := Nat.sub_eq_zero_of_le h.le
  have hcontent : (Bytes.padTo layout.copySize []).length = layout.copySize :=
    Bytes.length_padTo (Nat.zero_le _)
  have hpast : ¬ 0 + SlotTrailer.length = layout.copySize := by omega
  simp only [write, writeCopy, hlimit, List.length_nil, lt_irrefl, if_false, Bytes.overwriteTail,
    SlotTrailer.length_toBytes, hcontent, if_neg hpast]
  rfl

/-- **What is written can be read.**  Writing succeeds if and only if a copy has room for its
trailer and for the payload, and what it writes is read back as a valid copy.  It fails by a range
that does not hold only for an empty payload in copies that are smaller than a trailer. -/
theorem write_readable (payload : Bytes) (template : SlotTrailer) (timestamp : UInt32)
    (layout : SlotLayout) :
    ((∃ area, write payload template timestamp layout = .ok area) ↔
        16 ≤ layout.copySize ∧ payload.length ≤ layout.copySize - 16) ∧
      (Guarded (write payload template timestamp layout) ↔ 16 ≤ layout.copySize ∨ payload ≠ []) ∧
      ∀ area, write payload template timestamp layout = .ok area →
        ∃ copy, (select area layout).result = .ok copy ∧ copy.isValid = true := by
  by_cases hfits : payload.length ≤ layout.copySize - SlotTrailer.length
  · by_cases hroom : SlotTrailer.length ≤ layout.copySize
    · obtain ⟨area, copy, hwrite, hselect, hvalid⟩ :=
        exists_select_of_fits hroom hfits template timestamp
      rw [hwrite]
      refine ⟨iff_of_true ⟨area, rfl⟩ ⟨hroom, hfits⟩,
        iff_of_true (Guarded.ok area) (.inl hroom), ?_⟩
      rintro _ ⟨⟩
      exact ⟨copy, hselect, hvalid⟩
    · have hsmall := Nat.lt_of_not_le hroom
      obtain rfl : payload = [] := List.eq_nil_of_length_eq_zero (by omega)
      rw [write_nil_of_small hsmall]
      refine ⟨iff_of_false (by simp) fun h => hroom h.1, iff_of_false ?_ ?_, nofun⟩
      · exact fun h => Guarded.error_iff.mp h
      · exact fun h => h.elim hroom (· rfl)
  · have hlarge := Nat.lt_of_not_le hfits
    rw [write_of_too_large hlarge]
    refine ⟨iff_of_false (by simp) fun h => hfits h.2, iff_of_true ?_ (.inr ?_), nofun⟩
    · exact Guarded.error_iff.mpr trivial
    · exact List.ne_nil_of_length_pos (Nat.zero_lt_of_lt hlarge)

/-- A copy of eight bytes has no room for a trailer, but none is refused. -/
theorem write_past_small_copy : ¬ Guarded (write [] ⟨0x5F4C4D41, 1, 0, 0⟩ 42 ⟨8⟩) :=
  fun h => h (.outOfRange 0 16 8) (by decide)

/-- A copy with room for its trailer and nothing else. -/
theorem write_readable_of_bareTrailer :
    ∃ area copy, write [] ⟨0x5F4C4D41, 1, 0, 0⟩ 42 ⟨16⟩ = .ok area ∧
      Guarded (write [] ⟨0x5F4C4D41, 1, 0, 0⟩ 42 ⟨16⟩) ∧ (select area ⟨16⟩).result = .ok copy ∧
      copy.isValid = true := by
  obtain ⟨hok, hguarded, hread⟩ := write_readable [] ⟨0x5F4C4D41, 1, 0, 0⟩ 42 ⟨16⟩
  obtain ⟨area, harea⟩ := hok.mpr ⟨by decide, by decide⟩
  obtain ⟨copy, hcopy, hvalid⟩ := hread area harea
  exact ⟨area, copy, harea, hguarded.mpr (.inl (by decide)), hcopy, hvalid⟩

/-! ## Damage -/

/-- A copy in which one word was changed is not right any more. -/
theorem wordSum_ne_of_damage {pos : Nat} {covered damaged rest : Bytes} (hpos : pos % 4 = 0)
    (hinside : pos + 4 ≤ covered.length)
    (h : AgreeOutside pos (pos + 4) (covered ++ rest) damaged)
    (hne : damaged ≠ covered ++ rest) :
    ∃ changed : Bytes, damaged = changed ++ rest ∧ changed.length = covered.length ∧
      Bytes.wordSum changed ≠ Bytes.wordSum covered := by
  obtain ⟨front, word, word', back, harea, rfl, hfront, hword, hword'⟩ :=
    h.exists_split (Nat.le_add_right _ _) (by rw [List.length_append]; omega)
  rw [Nat.add_sub_cancel_left] at hword hword'
  obtain ⟨behind, rfl⟩ : ∃ behind, covered = front ++ (word ++ behind) := by
    have hprefix : front ++ word <+: covered := by
      refine List.prefix_of_prefix_length_le ⟨back, ?_⟩ (List.prefix_append covered rest) ?_
      · rw [harea, List.append_assoc]
      · rw [List.length_append]
        omega
    obtain ⟨behind, hbehind⟩ := hprefix
    exact ⟨behind, by rw [← hbehind, List.append_assoc]⟩
  have hback : back = behind ++ rest := by
    simpa only [List.append_assoc, List.append_cancel_left_eq, eq_comm] using harea
  refine ⟨front ++ (word' ++ behind), ?_, ?_, ?_⟩
  · simp only [hback, List.append_assoc]
  · simp only [List.length_append, hword, hword']
  · intro hsum
    have hsame := Bytes.eq_of_wordSum_eq (by rw [hfront, hpos]) hword' hword hsum
    exact hne (by rw [harea, hsame])

/-- Nothing that becomes of the second copy matters while the first one is right. -/
theorem select_of_second_damaged (hfirst : first.length + SlotTrailer.length = layout.copySize)
    (hvalid : (copyOf 0 first t).isValid = true) {other damaged : Bytes}
    (hother : other.length = layout.copySize)
    (h : AgreeOutside layout.copySize layout.areaSize (first ++ t.toBytes ++ other) damaged) :
    (select damaged layout).result = .ok (copyOf 0 first t) := by
  have hcopy : (first ++ t.toBytes).length = layout.copySize := by
    rw [List.length_append, t.length_toBytes, hfirst]
  obtain ⟨rest, rfl⟩ : first ++ t.toBytes <+: damaged := by
    refine ⟨damaged.drop layout.copySize, ?_⟩
    have htake := h.take_eq
    rw [List.take_left' hcopy] at htake
    rw [htake, List.take_append_drop]
  have hrest := h.length_eq
  rw [List.length_append, @List.length_append _ _ rest, Nat.add_left_cancel_iff, hother] at hrest
  exact select_of_first_valid hfirst hvalid hrest.symm

/-- A word that was changed in the first of two equal copies makes the second one be used. -/
theorem select_of_first_damaged (hlen : payload.length + SlotTrailer.length = layout.copySize)
    (hvalid : (copyOf 1 payload t).isValid = true) {damaged : Bytes} {pos : Nat}
    (hpos : pos % 4 = 0) (hinside : pos < payload.length)
    (h : AgreeOutside pos (pos + 4) (payload ++ t.toBytes ++ (payload ++ t.toBytes)) damaged)
    (hne : damaged ≠ payload ++ t.toBytes ++ (payload ++ t.toBytes)) :
    (select damaged layout).result = .ok (copyOf 1 payload t) := by
  have harea : payload ++ t.toBytes ++ (payload ++ t.toBytes) =
      payload ++ t.label ++ (Bytes.le32 t.checksum ++ (payload ++ t.toBytes)) := by
    simp only [t.toBytes_eq, List.append_assoc]
  have hcovered : (payload ++ t.label).length + 4 = layout.copySize := by
    rw [List.length_append, t.length_label, Nat.add_assoc]
    exact hlen
  have hwithin : pos + 4 ≤ (payload ++ t.label).length := by
    rw [List.length_append, t.length_label]
    omega
  rw [harea] at h hne
  obtain ⟨changed, rfl, hchanged, hsum⟩ := wordSum_ne_of_damage hpos hwithin h hne
  have hsplit : payload ++ t.toBytes = payload ++ t.label ++ Bytes.le32 t.checksum := by
    rw [t.toBytes_eq, List.append_assoc]
  rw [← (isValid_copyOf_iff hsplit).mp hvalid] at hsum
  rw [← List.append_assoc]
  refine select_of_first_invalid (by omega) ?_ hsum.symm hlen hvalid
  rw [List.length_append, Bytes.length_le32, hchanged, hcovered]

/-- **Slots survive damage to one copy.**  What is written reads back from the first copy, however
the second one was damaged; and when one word of the first payload was changed, from the second one.
-/
theorem write_survives_damage (hroom : 16 ≤ layout.copySize)
    (hfits : payload.length ≤ layout.copySize - 16) (template : SlotTrailer) (timestamp : UInt32) :
    ∃ area copy, write payload template timestamp layout = .ok area ∧
      area.length = layout.areaSize ∧
      (select area layout).result = .ok copy ∧
      copy.index = 0 ∧ copy.isValid = true ∧
      copy.payload = Bytes.padTo (layout.copySize - 16) payload ∧
      copy.trailer.magic = template.magic ∧ copy.trailer.version = template.version ∧
      copy.trailer.timestamp = timestamp ∧
      (∀ damaged, AgreeOutside layout.copySize layout.areaSize area damaged →
        (select damaged layout).result = .ok copy) ∧
      ∀ damaged pos, pos % 4 = 0 → pos < layout.copySize - 16 →
        AgreeOutside pos (pos + 4) area damaged → damaged ≠ area →
        (select damaged layout).result = .ok { copy with index := 1 } := by
  obtain ⟨limit, hlimit⟩ : ∃ limit, limit + SlotTrailer.length = layout.copySize :=
    ⟨layout.copySize - 16, Nat.sub_add_cancel hroom⟩
  have hsub : layout.copySize - 16 = limit := by
    rw [← hlimit, SlotTrailer.length, Nat.add_sub_cancel]
  rw [hsub] at hfits ⊢
  have hwrite := writeCopy_eq hlimit hfits template timestamp
  have hcontent := Bytes.length_padTo hfits
  generalize hpadded : Bytes.padTo limit payload = content at hwrite hcontent ⊢
  have hvalid : ∀ index, _ := fun index => isValid_sealing index template timestamp content
  have hseal : SlotTrailer.sealing template timestamp content =
      ⟨template.magic, template.version, timestamp, _⟩ := rfl
  generalize SlotTrailer.sealing template timestamp content = trailer at hwrite hvalid hseal
  have hlen : content.length + SlotTrailer.length = layout.copySize := by rw [hcontent, hlimit]
  have hcopy : (content ++ trailer.toBytes).length = layout.copySize := by
    rw [List.length_append, trailer.length_toBytes, hlen]
  refine ⟨content ++ trailer.toBytes ++ (content ++ trailer.toBytes), copyOf 0 content trailer,
    ?_, ?_, select_of_first_valid hlen (hvalid 0) hcopy, rfl, hvalid 0, rfl, ?_, ?_, ?_, ?_, ?_⟩
  · rw [write, hwrite]
    rfl
  · rw [List.length_append, hcopy, SlotLayout.areaSize, Nat.two_mul]
  · rw [copyOf, hseal]
  · rw [copyOf, hseal]
  · rw [copyOf, hseal]
  · intro damaged h
    exact select_of_second_damaged hlen (hvalid 0) hcopy h
  · intro damaged pos hpos hinside h hne
    exact select_of_first_damaged hlen (hvalid 1) hpos (by rw [hcontent]; exact hinside) h hne

/-- A copy of 30 bytes; the last word that starts in its payload reaches two bytes into the trailer.
-/
def shortCopy : Bytes :=
  [0x64, 0x74, 0x62] ++ Bytes.zeros 11 ++
    (SlotTrailer.sealing ⟨0x5F4C4D41, 1, 0, 0⟩ 42 ([0x64, 0x74, 0x62] ++ Bytes.zeros 11)).toBytes

theorem write_survives_damage_of_shortCopy :
    16 ≤ 30 ∧ [0x64, 0x74, 0x62].length ≤ 30 - 16 ∧
      write [0x64, 0x74, 0x62] ⟨0x5F4C4D41, 1, 0, 0⟩ 42 ⟨30⟩ = .ok (shortCopy ++ shortCopy) ∧
      ∃ copy, (select (shortCopy ++ shortCopy) ⟨30⟩).result = .ok copy ∧
        copy.payload = [0x64, 0x74, 0x62] ++ Bytes.zeros 11 ∧ copy.trailer.timestamp = 42 ∧
        (select (shortCopy ++ Bytes.zeros 30) ⟨30⟩).result = .ok copy ∧
        (select (shortCopy.set 15 0xFF ++ shortCopy) ⟨30⟩).result =
          .ok { copy with index := 1 } := by
  obtain ⟨area, copy, hwrite, -, hselect, -, -, hpayload, -, -, htimestamp, hsecond, hfirst⟩ :=
    @write_survives_damage ⟨30⟩ [0x64, 0x74, 0x62] (by decide) (by decide) ⟨0x5F4C4D41, 1, 0, 0⟩ 42
  have harea : write [0x64, 0x74, 0x62] ⟨0x5F4C4D41, 1, 0, 0⟩ 42 ⟨30⟩ =
      .ok (shortCopy ++ shortCopy) := by decide
  obtain rfl := Except.ok.inj (harea.symm.trans hwrite)
  exact ⟨by decide, by decide, harea, copy, hselect, hpayload, htimestamp,
    hsecond _ ⟨by decide, by decide, by decide⟩,
    hfirst _ 12 (by decide) (by decide) ⟨by decide, by decide, by decide⟩ (by decide)⟩

end Slot

end EmmcLayout
