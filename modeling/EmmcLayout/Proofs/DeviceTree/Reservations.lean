import EmmcLayout.Proofs.DeviceTree.Blob

/-!
# Reservations

A reservation block has no length of its own: it is read up to the first empty entry.  So what is
read is always a list of `Reservations`, and such a list is read as it stands, whatever follows it:
`reservationBlock_eq_ok_iff`.

Its entries take sixteen bytes each, so `assemble` puts it between the header and the tokens without
padding, and `assemble_opens` says that an assembled tree opens to all that it was put together
from.
-/

namespace EmmcLayout.DeviceTree

variable {base : HeaderBase} {reservations tokens strings : Bytes}

/-- Entries of sixteen bytes, of which the last one, and no other, is empty. -/
inductive Reservations : Bytes → Prop
  | last : Reservations emptyReservations
  | entry {first rest : Bytes} (length_eq : first.length = 16)
      (nonempty : first ≠ emptyReservations) (tail : Reservations rest) :
      Reservations (first ++ rest)

theorem length_emptyReservations : emptyReservations.length = 16 := rfl

theorem Reservations.length_mod (h : Reservations reservations) : reservations.length % 16 = 0 := by
  induction h with
  | last => rfl
  | entry length_eq nonempty tail ih =>
      rw [List.length_append, length_eq]
      omega

theorem Reservations.length_pos (h : Reservations reservations) : 0 < reservations.length := by
  cases h with
  | last => exact Nat.succ_pos 15
  | entry length_eq nonempty tail =>
      rw [List.length_append, length_eq]
      omega

/-- Reservations need no padding. -/
theorem Reservations.padded_eq (h : Reservations reservations) :
    padded reservations = reservations := by
  have hmod := h.length_mod
  have hnone : Bytes.align4 reservations.length - reservations.length = 0 := by
    unfold Bytes.align4
    omega
  rw [padded, Bytes.padTo, hnone]
  exact List.append_nil reservations

/-! ## Reading -/

theorem all_zero_iff {entry : Bytes} (hlen : entry.length = 16) :
    entry.all (· = 0) = true ↔ entry = emptyReservations := by
  rw [List.all_eq_true, emptyReservations, Bytes.zeros, List.eq_replicate_iff]
  simp [hlen]

theorem reservationStop_of_last (position : Nat) (rest : Bytes) :
    reservationStop position (emptyReservations ++ rest) = .ok (position + 16) := by
  have hlen := length_emptyReservations
  rw [reservationStop, if_neg (by rw [List.length_append]; omega),
    dif_neg (by rw [List.length_append]; omega), List.take_left' hlen,
    if_pos ((all_zero_iff hlen).mpr rfl)]

theorem reservationStop_of_entry {first : Bytes} (position : Nat) (rest : Bytes)
    (hlen : first.length = 16) (hnonempty : first ≠ emptyReservations) :
    reservationStop position (first ++ rest) = reservationStop (position + 16) rest := by
  rw [reservationStop, if_neg (by rw [List.length_append]; omega),
    dif_neg (by rw [List.length_append]; omega), List.take_left' hlen,
    if_neg (fun hzero => hnonempty ((all_zero_iff hlen).mp hzero)), List.drop_left' hlen]

/-- What ends too early is no list of reservations. -/
theorem reservationStop_of_short {position stop : Nat} {b : Bytes} (h : b.length < 16) :
    reservationStop position b ≠ .ok stop := by
  rw [reservationStop, dif_pos h]
  split
  · exact nofun
  · exact nofun

theorem Reservations.stop (h : Reservations reservations) (position : Nat) (rest : Bytes) :
    reservationStop position (reservations ++ rest) = .ok (position + reservations.length) := by
  induction h generalizing position with
  | last => exact reservationStop_of_last position rest
  | entry length_eq nonempty tail ih =>
      rw [List.append_assoc, reservationStop_of_entry position _ length_eq nonempty, ih,
        List.length_append, length_eq, Nat.add_assoc]

/-- Reading stops behind the reservations that the bytes start with. -/
theorem reservationStop_eq_ok_iff {position stop : Nat} {b : Bytes} :
    reservationStop position b = .ok stop ↔
      ∃ entries, Reservations entries ∧ entries <+: b ∧ stop = position + entries.length := by
  constructor
  · intro h
    -- on the bytes that are left, since every entry takes sixteen
    induction hn : b.length using Nat.strong_induction_on generalizing position b with
    | _ n ih =>
        subst hn
        have hlong : 16 ≤ b.length := by
          by_contra hshort
          exact reservationStop_of_short (Nat.lt_of_not_le hshort) h
        obtain ⟨first, rest, rfl, hlen⟩ := Bytes.exists_split hlong
        by_cases hempty : first = emptyReservations
        · subst hempty
          rw [reservationStop_of_last] at h
          exact ⟨_, .last, List.prefix_append _ _, (Except.ok.inj h).symm⟩
        · rw [reservationStop_of_entry position _ hlen hempty] at h
          obtain ⟨entries, hentries, hprefix, rfl⟩ :=
            ih _ (by rw [List.length_append]; omega) h rfl
          refine ⟨first ++ entries, .entry hlen hempty hentries,
            (List.prefix_append_right_inj first).mpr hprefix, ?_⟩
          rw [List.length_append, hlen, Nat.add_assoc]
  · rintro ⟨entries, hentries, ⟨rest, rfl⟩, rfl⟩
    exact hentries.stop position rest

/-- The reservation block of a tree is the list of reservations that stands at its offset. -/
theorem reservationBlock_eq_ok_iff {t : DeviceTree} :
    t.reservationBlock = .ok reservations ↔
      Reservations reservations ∧
        reservations <+: t.bytes.drop t.header.reservationOffset.toNat := by
  simp only [reservationBlock, Outcome.bind_eq_ok_iff, reservationStop_eq_ok_iff,
    Bytes.cut_eq_ok_iff]
  constructor
  · rintro ⟨stop, ⟨entries, hentries, hprefix, rfl⟩, -, -, rfl⟩
    rw [Nat.add_sub_cancel_left, ← List.prefix_iff_eq_take.mp hprefix]
    exact ⟨hentries, hprefix⟩
  · rintro ⟨hreservations, hprefix⟩
    have hpos := hreservations.length_pos
    have hlen := hprefix.length_le
    rw [List.length_drop] at hlen
    refine ⟨_, ⟨reservations, hreservations, hprefix, rfl⟩, Nat.le_add_right _ _, by omega, ?_⟩
    rw [Nat.add_sub_cancel_left]
    exact List.prefix_iff_eq_take.mp hprefix

/-! ## Assembled trees -/

/-- The reservations stand right behind the header. -/
theorem reservations_prefix_assemble (h : Reservations reservations) (base : HeaderBase)
    (tokens strings : Bytes) :
    reservations <+: (assemble base reservations tokens strings).drop headerLength := by
  rw [assemble_eq, h.padded_eq, List.drop_left' (Header.length_toBytes _)]
  exact List.prefix_append _ _

/-- **An assembled tree opens to all that it was put together from**, whatever follows it. -/
theorem assemble_opens (hreservations : Reservations reservations)
    (hlen : (assemble base reservations tokens strings).length < UInt32.size)
    (trailing : Bytes) :
    ∃ t, DeviceTree.ofBytes (assemble base reservations tokens strings ++ trailing) = .ok t ∧
      t.bytes = assemble base reservations tokens strings ∧
      t.header.totalSize.toNat = (assemble base reservations tokens strings).length ∧
      t.structBlock = tokens ∧ t.stringsBlock.bytes = strings ∧
      t.reservationBlock = .ok reservations ∧
      t.header.bootCpu = base.bootCpu ∧
      t.header.version = (if base.version = 0 then defaultVersion else base.version) ∧
      t.header.lastCompatibleVersion =
        (if base.lastCompatibleVersion = 0 then defaultCompatibleVersion
          else base.lastCompatibleVersion) := by
  have hopen := ofBytes_assemble hlen trailing
  have hwhole := (ofBytes_eq_ok_iff.mp hopen).1
  exact ⟨_, hopen, rfl, hwhole.size_eq, rfl, rfl,
    reservationBlock_eq_ok_iff.mpr
      ⟨hreservations, reservations_prefix_assemble hreservations base tokens strings⟩,
    rfl, rfl, rfl⟩

/-- One page that is kept back. -/
def reservedPage : Bytes :=
  (Bytes.be64 0x40000000 ++ Bytes.be64 0x1000) ++ emptyReservations

theorem reservations_reservedPage : Reservations reservedPage :=
  .entry rfl (by decide) .last

/-- The blocks need not end at words, and the tree does not end at a word either. -/
theorem assemble_opens_of_reservedPage :
    ∃ t, DeviceTree.ofBytes
        (assemble { lastCompatibleVersion := 2, bootCpu := 1 } reservedPage [0, 0, 0, 9, 7] [114, 0]
          ++ [255]) = .ok t ∧
      t.header.totalSize = 79 ∧ t.structBlock = [0, 0, 0, 9, 7] ∧
      t.stringsBlock.bytes = [114, 0] ∧ t.reservationBlock = .ok reservedPage ∧
      t.header.bootCpu = 1 ∧ t.header.version = 17 ∧ t.header.lastCompatibleVersion = 2 := by
  have hlen : (assemble { lastCompatibleVersion := 2, bootCpu := 1 } reservedPage
      [0, 0, 0, 9, 7] [114, 0]).length < UInt32.size := by decide
  obtain ⟨t, hopen, -, hsize, htokens, hstrings, hreserved, hcpu, hversion, hcompatible⟩ :=
    assemble_opens reservations_reservedPage hlen [255]
  exact ⟨t, hopen, UInt32.toNat_inj.mp hsize, htokens, hstrings, hreserved, hcpu, hversion,
    hcompatible⟩

end EmmcLayout.DeviceTree
