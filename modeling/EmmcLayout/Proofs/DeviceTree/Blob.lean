import EmmcLayout.DeviceTree.Writer
import EmmcLayout.Proofs.Bytes
import EmmcLayout.Proofs.Outcome

/-!
# Opened trees

A tree is opened exactly where its bytes stand first and its header describes them:
`ofBytes_eq_ok_iff`.  So whatever follows a tree does not matter, and a tree that was opened opens
again from its own bytes.

The header that `assemble` writes (`assembledHeader`) describes where the blocks lie, so an
assembled tree opens to the blocks that it was put together from: `ofBytes_assemble`.
-/

namespace EmmcLayout.DeviceTree

variable {base : HeaderBase} {reservations tokens strings : Bytes}

/-! ## Headers -/

theorem length_flatMap_be32 (ws : List UInt32) :
    (ws.flatMap Bytes.be32).length = 4 * ws.length := by
  induction ws with
  | nil => rfl
  | cons w ws ih =>
      rw [List.flatMap_cons, List.length_append, Bytes.length_be32, ih, List.length_cons]
      omega

/-- A row of words is read at four times its index. -/
theorem fetchBE32_flatMap {ws : List UInt32} {i : Nat} {w : UInt32} (hw : ws[i]? = some w)
    (rest : Bytes) : Bytes.fetchBE32 (ws.flatMap Bytes.be32 ++ rest) (4 * i) = .ok w := by
  obtain ⟨hlt, rfl⟩ := List.getElem?_eq_some_iff.mp hw
  have hsplit : ws.flatMap Bytes.be32 ++ rest =
      (ws.take i).flatMap Bytes.be32 ++
        (Bytes.be32 ws[i] ++ ((ws.drop (i + 1)).flatMap Bytes.be32 ++ rest)) := by
    rw [← List.append_assoc (Bytes.be32 _), ← List.flatMap_cons, ← List.drop_eq_getElem_cons hlt,
      ← List.append_assoc, ← List.flatMap_append, List.take_append_drop]
  have hpos : 4 * i = ((ws.take i).flatMap Bytes.be32).length := by
    rw [length_flatMap_be32, List.length_take_of_le (Nat.le_of_lt hlt)]
  rw [hsplit, hpos]
  exact Bytes.fetchBE32_middle _ _ _

theorem Header.length_toBytes (h : Header) : h.toBytes.length = headerLength :=
  length_flatMap_be32 h.words

theorem Header.ofBytes_toBytes (h : Header) (rest : Bytes) :
    Header.ofBytes (h.toBytes ++ rest) = .ok h := by
  have hfetch : ∀ i w, h.words[i]? = some w →
      Bytes.fetchBE32 (h.toBytes ++ rest) (4 * i) = .ok w :=
    fun i w hw => fetchBE32_flatMap hw rest
  rw [Header.ofBytes, hfetch 0 _ rfl, hfetch 1 _ rfl, hfetch 2 _ rfl, hfetch 3 _ rfl,
    hfetch 4 _ rfl, hfetch 5 _ rfl, hfetch 6 _ rfl, hfetch 7 _ rfl, hfetch 8 _ rfl,
    hfetch 9 _ rfl]
  rfl

theorem Header.fetch_of_ofBytes {b : Bytes} {h : Header} (hread : Header.ofBytes b = .ok h) :
    Bytes.fetch b 0 4 = .ok (Bytes.be32 h.magic) ∧
      Bytes.fetch b 4 4 = .ok (Bytes.be32 h.totalSize) := by
  unfold Header.ofBytes at hread
  simp only [Outcome.bind_eq_ok_iff, Bytes.fetchBE32_eq_ok_iff] at hread
  obtain ⟨magic, hmagic, totalSize, htotal, structOffset, -, stringsOffset, -, reservationOffset, -,
    version, -, lastCompatibleVersion, -, bootCpu, -, stringsSize, -, structSize, -, hread⟩ := hread
  obtain rfl := Except.ok.inj hread
  exact ⟨hmagic, htotal⟩

/-- The size that a tree says it has is read from its header, whatever follows it. -/
theorem recordedSize_eq_ok_iff {b : Bytes} {h : Header} {size : Nat}
    (hread : Header.ofBytes b = .ok h) (rest : Bytes) :
    recordedSize (b ++ rest) = .ok size ↔ h.magic = magic ∧ h.totalSize.toNat = size := by
  obtain ⟨hmagic, htotal⟩ := Header.fetch_of_ofBytes hread
  have hmagic' := Bytes.fetchBE32_eq_ok_iff.mpr (Bytes.fetch_append hmagic rest)
  have htotal' := Bytes.fetchBE32_eq_ok_iff.mpr (Bytes.fetch_append htotal rest)
  rw [recordedSize, checkMagic, hmagic', htotal', Outcome.ok_bind]
  by_cases hmagical : h.magic = magic
  · rw [if_pos hmagical]
    exact ⟨fun h => ⟨hmagical, Except.ok.inj h⟩, fun h => congrArg Except.ok h.2⟩
  · rw [if_neg hmagical]
    exact ⟨nofun, fun h => absurd h.1 hmagical⟩

/-! ## Opening -/

/-- What is checked of a tree when it is opened: its header describes it. -/
structure Whole (t : DeviceTree) : Prop where
  header_eq : Header.ofBytes t.bytes = .ok t.header
  magic_eq : t.header.magic = magic
  size_eq : t.header.totalSize.toNat = t.bytes.length
  checked : checkHeader t.bytes.length t.header = .ok ()
  struct_eq : block t.bytes t.header.structOffset t.header.structSize = .ok t.structBlock
  strings_eq :
    block t.bytes t.header.stringsOffset t.header.stringsSize = .ok t.stringsBlock.bytes

/-- A tree is opened exactly where its bytes stand first. -/
theorem ofBytes_eq_ok_iff {b : Bytes} {t : DeviceTree} :
    DeviceTree.ofBytes b = .ok t ↔ t.Whole ∧ t.bytes <+: b := by
  unfold DeviceTree.ofBytes
  simp only [Outcome.bind_eq_ok_iff, Outcome.throw_guard_eq_ok_iff, Bytes.cut_zero_eq_ok_iff]
  constructor
  · rintro ⟨size, hsize, -, bytes, ⟨rfl, rest, rfl⟩, header, hheader, ⟨⟩, hcheck, structBlock,
      hstruct, strings, hstrings, h⟩
    obtain rfl := Except.ok.inj h
    obtain ⟨hmagic, htotal⟩ := (recordedSize_eq_ok_iff hheader rest).mp hsize
    exact ⟨⟨hheader, hmagic, htotal, hcheck, hstruct, hstrings⟩, rest, rfl⟩
  · rintro ⟨ht, rest, rfl⟩
    have hsize := (recordedSize_eq_ok_iff ht.header_eq rest).mpr ⟨ht.magic_eq, ht.size_eq⟩
    exact ⟨_, hsize, by simp, _, ⟨rfl, rest, rfl⟩, _, ht.header_eq, (), ht.checked, _,
      ht.struct_eq, _, ht.strings_eq, rfl⟩

/-! ## Assembled trees -/

theorem length_padded (b : Bytes) : (padded b).length = Bytes.align4 b.length :=
  Bytes.length_fill_align4 b

/-- The header of an assembled tree. -/
def assembledHeader (base : HeaderBase) (reservations tokens strings : Bytes) : Header where
  magic := magic
  totalSize := UInt32.ofNat
    (headerLength + (padded reservations).length + tokens.length + strings.length)
  structOffset := UInt32.ofNat (headerLength + (padded reservations).length)
  stringsOffset := UInt32.ofNat (headerLength + (padded reservations).length + tokens.length)
  reservationOffset := UInt32.ofNat headerLength
  version := if base.version = 0 then defaultVersion else base.version
  lastCompatibleVersion :=
    if base.lastCompatibleVersion = 0 then defaultCompatibleVersion
    else base.lastCompatibleVersion
  bootCpu := base.bootCpu
  stringsSize := UInt32.ofNat strings.length
  structSize := UInt32.ofNat tokens.length

theorem assemble_eq (base : HeaderBase) (reservations tokens strings : Bytes) :
    assemble base reservations tokens strings =
      (assembledHeader base reservations tokens strings).toBytes ++
        (padded reservations ++ (tokens ++ strings)) := by
  rw [← List.append_assoc, ← List.append_assoc]
  rfl

theorem length_assemble (base : HeaderBase) (reservations tokens strings : Bytes) :
    (assemble base reservations tokens strings).length =
      headerLength + (padded reservations).length + tokens.length + strings.length := by
  rw [assemble_eq, List.length_append, Header.length_toBytes, List.length_append,
    List.length_append]
  omega

theorem checkHeader_assembled
    (hlen : (assemble base reservations tokens strings).length < UInt32.size) :
    checkHeader (assemble base reservations tokens strings).length
      (assembledHeader base reservations tokens strings) = .ok () := by
  rw [length_assemble] at hlen ⊢
  have hmod : (padded reservations).length % 4 = 0 := by
    rw [length_padded]
    exact Bytes.align4_mod _
  have hword : ∀ n, n < UInt32.size → (UInt32.ofNat n).toNat = n :=
    fun n hn => UInt32.toNat_ofNat_of_lt' hn
  have hforty : headerLength = 40 := rfl
  have hstruct := hword (headerLength + (padded reservations).length) (by omega)
  have hstrings := hword (headerLength + (padded reservations).length + tokens.length) (by omega)
  have htokensSize := hword tokens.length (by omega)
  have hstringsSize := hword strings.length (by omega)
  have hreserved : (UInt32.ofNat headerLength).toNat = 40 := rfl
  have hnone : (0 : UInt32).toNat = 0 := rfl
  simp only [checkHeader, assembledHeader, blockFits, hstruct, hstrings, htokensSize,
    hstringsSize, hreserved, hnone, Bool.not_eq_true', Bool.and_eq_false_iff,
    decide_eq_false_iff_not]
  rw [if_neg (by omega), if_neg (by omega), if_neg (by omega)]

theorem block_middle {front part back : Bytes}
    (hlen : (front ++ (part ++ back)).length < UInt32.size) :
    block (front ++ (part ++ back)) (UInt32.ofNat front.length) (UInt32.ofNat part.length) =
      .ok part := by
  simp only [List.length_append] at hlen
  have hfront : (UInt32.ofNat front.length).toNat = front.length :=
    UInt32.toNat_ofNat_of_lt' (show front.length < UInt32.size by omega)
  have hpart : (UInt32.ofNat part.length).toNat = part.length :=
    UInt32.toNat_ofNat_of_lt' (show part.length < UInt32.size by omega)
  rw [block, hfront, hpart]
  exact Bytes.cut_middle front part back

theorem structBlock_assemble
    (hlen : (assemble base reservations tokens strings).length < UInt32.size) :
    block (assemble base reservations tokens strings)
      (assembledHeader base reservations tokens strings).structOffset
      (assembledHeader base reservations tokens strings).structSize = .ok tokens := by
  have hsplit : assemble base reservations tokens strings =
      ((assembledHeader base reservations tokens strings).toBytes ++ padded reservations) ++
        (tokens ++ strings) := by
    rw [assemble_eq, List.append_assoc]
  rw [hsplit] at hlen ⊢
  have hblock := block_middle hlen
  rw [List.length_append, Header.length_toBytes] at hblock
  exact hblock

theorem stringsBlock_assemble
    (hlen : (assemble base reservations tokens strings).length < UInt32.size) :
    block (assemble base reservations tokens strings)
      (assembledHeader base reservations tokens strings).stringsOffset
      (assembledHeader base reservations tokens strings).stringsSize = .ok strings := by
  have hsplit : assemble base reservations tokens strings =
      ((assembledHeader base reservations tokens strings).toBytes ++ padded reservations ++
        tokens) ++ (strings ++ []) := by
    rw [assemble_eq, List.append_nil, List.append_assoc, List.append_assoc]
  rw [hsplit] at hlen ⊢
  have hblock := block_middle hlen
  rw [List.length_append, List.length_append, Header.length_toBytes] at hblock
  exact hblock

/-- **An assembled tree opens to its blocks**, whatever follows it. -/
theorem ofBytes_assemble
    (hlen : (assemble base reservations tokens strings).length < UInt32.size) (trailing : Bytes) :
    DeviceTree.ofBytes (assemble base reservations tokens strings ++ trailing) =
      .ok ⟨assemble base reservations tokens strings,
        assembledHeader base reservations tokens strings, tokens, ⟨strings⟩⟩ := by
  have hheader : Header.ofBytes (assemble base reservations tokens strings) =
      .ok (assembledHeader base reservations tokens strings) := by
    rw [assemble_eq]
    exact Header.ofBytes_toBytes _ _
  have hsize : (assembledHeader base reservations tokens strings).totalSize.toNat =
      (assemble base reservations tokens strings).length := by
    rw [length_assemble] at hlen ⊢
    exact UInt32.toNat_ofNat_of_lt' hlen
  exact ofBytes_eq_ok_iff.mpr ⟨⟨hheader, rfl, hsize, checkHeader_assembled hlen,
    structBlock_assemble hlen, stringsBlock_assemble hlen⟩, List.prefix_append _ _⟩

end EmmcLayout.DeviceTree
