import EmmcLayout.Proofs.Partition
import EmmcLayout.Proofs.Table.Format
import EmmcLayout.Table.Validate

/-!
# Which tables are valid

`Admissible` says what a valid table asks of its partitions: legal names, no two of them alike, and
at most 32.  Under the header that belongs to them nothing else is asked
(`validate_ofPartitions_iff`), so what keeps partitions admissible keeps a table valid.

Names are compared as the bytes in front of their NUL.  What stands behind it does not matter, and
neither do offsets, sizes and masks: `Admissible.of_rawNames`.
-/

namespace EmmcLayout

namespace Partition

variable {p : Partition}

/-- The name is closed by a NUL and holds name bytes only. -/
def WellNamed (p : Partition) : Prop :=
  Name.checkField p.rawName.bytes = .ok ()

theorem WellNamed.isNameByte (hp : p.WellNamed) : ∀ b ∈ p.nameBytes, Name.isNameByte b = true :=
  ((Name.checkField_eq_ok_iff p.rawName).mp hp).2

/-- A legal name is the text that it is shown as. -/
theorem WellNamed.encode_name (hp : p.WellNamed) : Utf8.encode p.name = p.nameBytes :=
  Utf8.encode_decodeLossy fun b hb => Name.lt_of_isNameByte (hp.isNameByte b hb)

/-- A legal name is given by its text. -/
theorem WellNamed.isNamed_iff {name : String} (hp : p.WellNamed) :
    p.isNamed name = true ↔ p.name = name := by
  refine ⟨fun h => name_of_nameBytes (Partition.isNamed_iff.mp h), ?_⟩
  rintro rfl
  exact Partition.isNamed_iff.mpr hp.encode_name.symm

/-- A name field that a checked name was written to. -/
theorem wellNamed_of_rawName {name : String} (hname : Name.check name = .ok ())
    (hraw : p.rawName = ByteField.ofBytes nameFieldLength (Utf8.encode name)) : p.WellNamed := by
  obtain ⟨-, hlen, hbytes⟩ := Name.check_eq_ok_iff.mp hname
  have huntil := ByteField.untilNul_ofBytes (Name.zero_notMem_of_check hname) hlen
  rw [WellNamed, hraw, Name.checkField_eq_ok_iff, huntil]
  refine ⟨?_, hbytes⟩
  -- a field without a NUL would be its own text, and that one is too short
  by_contra hzero
  have hall : Bytes.untilNul (ByteField.ofBytes nameFieldLength (Utf8.encode name)).bytes =
      (ByteField.ofBytes nameFieldLength (Utf8.encode name)).bytes := by
    have hne : ∀ b ∈ (ByteField.ofBytes nameFieldLength (Utf8.encode name)).bytes,
        decide (b ≠ 0) = true := by
      intro b hb
      exact decide_eq_true fun hb' => hzero (hb' ▸ hb)
    rw [Bytes.untilNul, ← List.append_nil (ByteField.bytes _), List.takeWhile_append_of_pos hne]
    rfl
  rw [huntil] at hall
  rw [hall, ByteField.length_eq] at hlen
  exact Nat.lt_irrefl _ hlen

theorem wellNamed_of_rename {name : String} {p q : Partition} (h : rename name p = .ok q) :
    q.WellNamed := by
  obtain ⟨hname, rfl⟩ := rename_eq_ok_iff.mp h
  exact wellNamed_of_rawName hname rfl

theorem wellNamed_of_create {name : String} {offset size : UInt64} {mask : UInt32}
    (h : create name offset size mask = .ok p) : p.WellNamed :=
  wellNamed_of_rename h

end Partition

namespace Table

variable {p q : Partition} {ps qs : List Partition} {t : Table}

/-- The partitions make a valid table. -/
structure Admissible (ps : List Partition) : Prop where
  wellNamed : ∀ p ∈ ps, p.WellNamed
  distinct : (ps.map Partition.nameBytes).Nodup
  length_le : ps.length ≤ maxPartitions

/-! ## What keeps partitions admissible -/

/-- Distinct keys stay so when an entry is exchanged for one of its key, or of a new one. -/
theorem nodup_map_set {α β : Type} {key : α → β} {xs : List α} {index : Nat} {old new : α}
    (hxs : (xs.map key).Nodup) (hold : xs[index]? = some old)
    (hnew : key new = key old ∨ key new ∉ xs.map key) : ((xs.set index new).map key).Nodup := by
  rw [List.map_set]
  rcases hnew with hsame | hnew
  · obtain ⟨hlt, rfl⟩ := List.getElem?_eq_some_iff.mp hold
    have hself : (xs.map key).set index (key xs[index]) = xs.map key := by
      rw [← List.map_set, List.set_getElem_self]
    rwa [hsame, hself]
  · exact hxs.set hnew

theorem Admissible.nil : Admissible [] :=
  ⟨by simp, by simp, Nat.zero_le _⟩

/-- Only the names matter. -/
theorem Admissible.of_rawNames (h : Admissible ps)
    (hraw : qs.map Partition.rawName = ps.map Partition.rawName) : Admissible qs := by
  refine ⟨?_, ?_, ?_⟩
  · intro q hq
    have hmem : q.rawName ∈ ps.map Partition.rawName := hraw ▸ List.mem_map_of_mem hq
    obtain ⟨p, hp, hpq⟩ := List.mem_map.mp hmem
    rw [Partition.WellNamed, ← hpq]
    exact h.wellNamed p hp
  · rw [Partition.map_nameBytes_of_rawNames hraw]
    exact h.distinct
  · have hlen := congrArg List.length hraw
    rw [List.length_map, List.length_map] at hlen
    rw [hlen]
    exact h.length_le

theorem Admissible.sublist (h : Admissible ps) (hqs : qs.Sublist ps) : Admissible qs :=
  ⟨fun q hq => h.wellNamed q (hqs.subset hq), h.distinct.sublist (hqs.map _),
    Nat.le_trans hqs.length_le h.length_le⟩

theorem Admissible.perm (h : Admissible ps) (hqs : qs.Perm ps) : Admissible qs :=
  ⟨fun q hq => h.wellNamed q (hqs.subset hq), ((hqs.map _).nodup_iff).mpr h.distinct,
    hqs.length_eq ▸ h.length_le⟩

/-- There is room for one more partition under a new legal name. -/
theorem Admissible.append (h : Admissible ps) (hroom : ps.length < maxPartitions)
    (hp : p.WellNamed) (hnew : p.nameBytes ∉ ps.map Partition.nameBytes) :
    Admissible (ps ++ [p]) := by
  refine ⟨?_, ?_, ?_⟩
  · intro q hq
    rcases List.mem_append.mp hq with hq | hq
    · exact h.wellNamed q hq
    · rw [List.mem_singleton.mp hq]
      exact hp
  · rw [List.map_append, List.map_singleton, List.nodup_append]
    refine ⟨h.distinct, List.nodup_singleton _, ?_⟩
    intro a ha b hb
    rw [List.mem_singleton.mp hb]
    rintro rfl
    exact hnew ha
  · rw [List.length_append, List.length_singleton]
    exact hroom

/-- A partition may be replaced by one of its name, or by one with a new legal name. -/
theorem Admissible.set (h : Admissible ps) {index : Nat} {old : Partition}
    (hold : ps[index]? = some old) (hp : p.WellNamed)
    (hname : p.nameBytes = old.nameBytes ∨ p.nameBytes ∉ ps.map Partition.nameBytes) :
    Admissible (ps.set index p) := by
  refine ⟨?_, ?_, ?_⟩
  · intro q hq
    rcases List.mem_or_eq_of_mem_set hq with hq | rfl
    · exact h.wellNamed q hq
    · exact hp
  · exact nodup_map_set h.distinct hold hname
  · rw [List.length_set]
    exact h.length_le

/-! ## Validity -/

theorem validateNames_eq_ok_iff {index : Nat} {seen : List Bytes} :
    validateNames index seen ps = .ok () ↔
      (∀ p ∈ ps, p.WellNamed) ∧ (ps.map Partition.nameBytes).Nodup ∧
        ∀ p ∈ ps, p.nameBytes ∉ seen := by
  induction ps generalizing index seen with
  | nil => simp [validateNames]
  | cons p ps ih =>
      rw [validateNames, List.forall_mem_cons, List.forall_mem_cons, List.map_cons,
        List.nodup_cons]
      split
      · rename_i reason hreason
        have hnot : ¬ p.WellNamed := by
          rw [Partition.WellNamed, hreason]
          simp
        simp [hnot]
      · rename_i hok
        have hnamed : p.WellNamed := hok
        split
        · rename_i hseen
          simp [hseen]
        · rename_i hseen
          rw [ih]
          -- those behind differ from it, which is what they have not seen
          have hbehind : (∀ q ∈ ps, q.nameBytes ∉ p.nameBytes :: seen) ↔
              p.nameBytes ∉ ps.map Partition.nameBytes ∧ ∀ q ∈ ps, q.nameBytes ∉ seen := by
            simp only [List.mem_cons, not_or, List.mem_map, not_exists, not_and]
            exact forall₂_and
          rw [hbehind]
          tauto

/-- A header counts as many partitions as a table holds, and more. -/
theorem toInt_count {n : Nat} (h : n ≤ maxPartitions) : (UInt32.ofNat n).toInt32.toInt = n :=
  (by decide : ∀ n ≤ maxPartitions, (UInt32.ofNat n).toInt32.toInt = n) n h

theorem counted_ofPartitions (h : ps.length ≤ maxPartitions) : (ofPartitions ps).Counted :=
  ⟨toInt_count h, h⟩

/-- What a header is checked for.  The checksum of a full table is not looked at. -/
theorem validateHeader_eq_ok_iff :
    t.validateHeader = .ok () ↔
      (0 ≤ t.header.count.toInt ∧ t.header.count.toInt ≤ maxPartitions) ∧
        t.header.magic = magic ∧ t.header.version = version ∧
        (t.header.count.toInt < maxPartitions →
          checksum t.partitions t.header.count.toUInt32 = t.header.checksum) := by
  unfold validateHeader
  dsimp only
  split_ifs with hrange hmagic hversion hchecksum
  · simp only [false_iff]
    omega
  · simp [hmagic]
  · simp [hversion]
  · simp [hchecksum]
  · simp only [true_iff]
    exact ⟨by omega, not_not.mp hmagic, not_not.mp hversion,
      fun hlt => not_not.mp fun hne => hchecksum ⟨hlt, hne⟩⟩

/-- A header that was written for its partitions passes as long as it can count them. -/
theorem validateHeader_ofPartitions (h : ps.length ≤ maxPartitions) :
    (ofPartitions ps).validateHeader = .ok () := by
  refine validateHeader_eq_ok_iff.mpr ⟨?_, rfl, rfl, fun _ => rfl⟩
  rw [(counted_ofPartitions h).count_eq]
  show (0 : Int) ≤ ps.length ∧ (ps.length : Int) ≤ maxPartitions
  omega

/-- **What validity asks.**  A table under the header of its partitions is valid exactly when they
have legal and distinct names, and are no more than a table holds. -/
theorem validate_ofPartitions_iff (h : ps.length ≤ maxPartitions) :
    (ofPartitions ps).validate = .ok () ↔ Admissible ps := by
  rw [validate, validateHeader_ofPartitions h, Outcome.ok_bind]
  show validateNames 0 [] ps = .ok () ↔ _
  rw [validateNames_eq_ok_iff]
  constructor
  · rintro ⟨hnamed, hdistinct, -⟩
    exact ⟨hnamed, hdistinct, h⟩
  · rintro ⟨hnamed, hdistinct, -⟩
    exact ⟨hnamed, hdistinct, by simp⟩

theorem count_of_validate (h : t.validate = .ok ()) :
    0 ≤ t.header.count.toInt ∧ t.header.count.toInt ≤ maxPartitions := by
  rw [validate] at h
  obtain ⟨⟨⟩, hheader, -⟩ := Outcome.bind_eq_ok_iff.mp h
  exact (validateHeader_eq_ok_iff.mp hheader).1

/-- A valid table that counts its partitions has admissible ones. -/
theorem admissible_of_validate (h : t.validate = .ok ())
    (hcount : t.header.count.toInt = t.partitions.length) : Admissible t.partitions := by
  have hrange := (count_of_validate h).2
  rw [validate] at h
  obtain ⟨⟨⟩, -, hnames⟩ := Outcome.bind_eq_ok_iff.mp h
  obtain ⟨hnamed, hdistinct, -⟩ := validateNames_eq_ok_iff.mp hnames
  refine ⟨hnamed, hdistinct, ?_⟩
  rw [hcount] at hrange
  omega

/-- A header that was written for its partitions counts them, unless they are so many that the count
wraps around. -/
theorem counted_of_validate (hfits : ps.length < UInt32.size)
    (h : (ofPartitions ps).validate = .ok ()) : (ofPartitions ps).Counted := by
  have hrange := count_of_validate h
  have hcount : (ofPartitions ps).header.count.toInt = (ps.length : Int).bmod (2 ^ 32) :=
    Int32.toInt_ofNat'
  have hsize : UInt32.size = 4294967296 := rfl
  have hmax : maxPartitions = 32 := rfl
  rw [Int.bmod] at hcount
  apply counted_ofPartitions
  omega

end Table

end EmmcLayout
