import EmmcLayout.Layout.Span
import EmmcLayout.Proofs.Layout.Migration
import EmmcLayout.Proofs.Layout.Run

/-!
# What the spans of a table say

The spans are computed in one sweep over the partitions in the order of their offsets, which keeps
nothing but the furthest end so far.  `spans_truthful` says that this is enough, for any table:

* every slot is listed once, under its own index, name, offset and size (`Listing`);
* the gaps are apart from each other, and are exactly the addresses in front of the end of the table
  that no partition covers (`exists_free_iff`);
* partitions that are not empty and stay within the word overlap exactly where the sweep says so
  (`overlaps_eq_nil_iff`).

Neither of the last two needs a partition to end before the next one starts.  One that lies within
another one leaves the furthest end as it is, and an empty one moves it at most to its own offset.
Ends that leave the word are cut at the greatest one, and so is the end of the table; in front of it
nothing depends on that (`Partition.covers_iff_of_lt_stopSat`).
-/

namespace EmmcLayout

namespace Partition

variable {p q a b : Partition} {address : Nat}

theorem offset_le_stopSat (p : Partition) : p.offset.toNat ≤ p.stopSat.toNat := by
  have hword : p.offset.toNat < UInt64.size := p.offset.toNat_lt
  rw [toNat_stopSat, stop]
  omega

/-- In front of an end that is a word it does not matter that ends are cut at the greatest word. -/
theorem covers_iff_of_lt_stopSat (h : address < q.stopSat.toNat) :
    p.Covers address ↔ p.offset.toNat ≤ address ∧ address < p.stopSat.toNat := by
  rw [toNat_stopSat] at h
  rw [Covers, toNat_stopSat]
  omega

/-- Of two partitions that are not empty, the first one ends before the second one starts exactly if
they share no address. -/
theorem stopSat_le_iff_sharesNoByte (hle : a.offset ≤ b.offset) (hb : b.size ≠ 0)
    (hstop : a.stop < UInt64.size) :
    a.stopSat.toNat ≤ b.offset.toNat ↔ a.SharesNoByte b := by
  rw [toNat_stopSat_of_lt hstop]
  constructor
  · exact Before.sharesNoByte
  · intro h
    have hpos : 0 < b.size.toNat :=
      Nat.pos_of_ne_zero fun hzero => hb (UInt64.toNat_inj.mp hzero)
    -- the first address of the later one
    have hfirst : b.Covers b.offset.toNat := covers_offset_add hpos
    by_contra hlt
    exact h b.offset.toNat ⟨UInt64.le_iff_toNat_le.mp hle, Nat.lt_of_not_le hlt⟩ hfirst

end Partition

namespace Span

variable {furthest offset : UInt64} {index : Nat} {name : String} {size : UInt64} {rest : List Span}
  {ps : List (Partition × Nat)} {address : Nat}

/-- The address lies in this span, and the span is a gap. -/
def Free (address : Nat) : Span → Prop
  | .gap offset size => offset.toNat ≤ address ∧ address < offset.toNat + size.toNat
  | _ => False

/-- The index and the offset of the partition that the span lists. -/
def slot? : Span → Option (Nat × UInt64)
  | .partition index _ offset _ => some (index, offset)
  | _ => none

/-! ## One partition -/

theorem filterMap_slot?_between : (between furthest offset).filterMap slot? = [] := by
  unfold between
  split_ifs <;> rfl

theorem partition_notMem_between {start : UInt64} :
    .partition index name offset size ∉ between furthest start := by
  unfold between
  split_ifs <;> simp

/-- What lies between the furthest end and the next offset is free. -/
theorem exists_free_between_iff :
    (∃ s ∈ between furthest offset, s.Free address) ↔
      furthest.toNat ≤ address ∧ address < offset.toNat := by
  unfold between
  split_ifs with hgap hoverlap
  · have hle : furthest.toNat ≤ offset.toNat := Nat.le_of_lt (UInt64.lt_iff_toNat_lt.mp hgap)
    simp only [List.mem_singleton, exists_eq_left, Free,
      UInt64.toNat_sub_of_le _ _ (UInt64.le_iff_toNat_le.mpr hle)]
    omega
  · rw [UInt64.lt_iff_toNat_lt] at hgap
    simp only [List.mem_singleton, exists_eq_left, Free, false_iff]
    omega
  · rw [UInt64.lt_iff_toNat_lt] at hgap
    simp only [List.not_mem_nil, false_and, exists_false, false_iff]
    omega

theorem overlaps_between_eq_nil_iff :
    overlaps (between furthest offset ++ .partition index name offset size :: rest) = [] ↔
      furthest ≤ offset ∧ overlaps rest = [] := by
  unfold between
  split_ifs with hgap hoverlap
  · simp [overlaps, UInt64.le_of_lt hgap]
  · simp [overlaps, UInt64.not_le.mpr hoverlap]
  · simp [overlaps, UInt64.not_lt.mp hoverlap]

/-! ## The sweep -/

/-- The partitions come in the order of their offsets. -/
def Ordered (ps : List (Partition × Nat)) : Prop :=
  ps.Pairwise fun a b => a.1.offset ≤ b.1.offset

/-- One step of the sweep, with the furthest end as a number. -/
theorem exists_ofOrdered_cons (furthest : UInt64) (x : Partition × Nat)
    (ps : List (Partition × Nat)) :
    ∃ next : UInt64, next.toNat = max furthest.toNat x.1.stopSat.toNat ∧
      ofOrdered furthest (x :: ps) =
        between furthest x.1.offset ++
          .partition x.2 x.1.name x.1.offset x.1.size :: ofOrdered next ps := by
  exact ⟨_, UInt64.toNat_max _ _, rfl⟩

theorem filterMap_slot?_ofOrdered :
    (ofOrdered furthest ps).filterMap slot? = ps.map fun x => (x.2, x.1.offset) := by
  induction ps generalizing furthest with
  | nil => rfl
  | cons x ps ih =>
      obtain ⟨next, -, hstep⟩ := exists_ofOrdered_cons furthest x ps
      rw [hstep, List.filterMap_append, filterMap_slot?_between, List.nil_append,
        List.filterMap_cons, ih]
      rfl

theorem exists_of_partition_mem
    (h : .partition index name offset size ∈ ofOrdered furthest ps) :
    ∃ p, (p, index) ∈ ps ∧ name = p.name ∧ offset = p.offset ∧ size = p.size := by
  induction ps generalizing furthest with
  | nil => exact absurd h List.not_mem_nil
  | cons x ps ih =>
      obtain ⟨next, -, hstep⟩ := exists_ofOrdered_cons furthest x ps
      rw [hstep, List.mem_append, List.mem_cons] at h
      rcases h with h | h | h
      · exact absurd h partition_notMem_between
      · injection h with hindex hname hoffset hsize
        exact ⟨x.1, hindex ▸ List.mem_cons_self, hname, hoffset, hsize⟩
      · obtain ⟨p, hp, hrow⟩ := ih h
        exact ⟨p, List.mem_cons_of_mem _ hp, hrow⟩

/-- From the furthest end on, an address is free exactly if no partition covers it and one ends
behind it. -/
theorem exists_free_ofOrdered_iff (hps : Ordered ps) :
    (∃ s ∈ ofOrdered furthest ps, s.Free address) ↔
      furthest.toNat ≤ address ∧ (∃ x ∈ ps, address < x.1.stopSat.toNat) ∧
        ∀ x ∈ ps, ¬ x.1.Covers address := by
  induction ps generalizing furthest with
  | nil => simp [ofOrdered]
  | cons x ps ih =>
      obtain ⟨hfirst, hps⟩ := List.pairwise_cons.mp hps
      obtain ⟨next, hnext, hstep⟩ := exists_ofOrdered_cons furthest x ps
      have hsplit : (∃ s ∈ ofOrdered furthest (x :: ps), s.Free address) ↔
          (furthest.toNat ≤ address ∧ address < x.1.offset.toNat) ∨
            ∃ s ∈ ofOrdered next ps, s.Free address := by
        rw [hstep, ← exists_free_between_iff]
        simp only [List.mem_append, List.mem_cons, or_and_right, exists_or, exists_eq_left, Free,
          false_or]
      rw [hsplit, ih hps, hnext, List.forall_mem_cons]
      simp only [List.mem_cons, exists_eq_or_imp, max_le_iff]
      constructor
      · rintro (⟨hfrom, hto⟩ | ⟨⟨hfrom, hstop⟩, ⟨y, hy, hbefore⟩, hrest⟩)
        · have hoffset := x.1.offset_le_stopSat
          have hx : ¬ x.1.Covers address := fun hcovers => Nat.not_le_of_lt hto hcovers.1
          refine ⟨hfrom, .inl (Nat.lt_of_lt_of_le hto hoffset), hx, fun y hy hcovers => ?_⟩
          have hle := UInt64.le_iff_toNat_le.mp (hfirst y hy)
          exact Nat.not_le_of_lt hto (Nat.le_trans hle hcovers.1)
        · refine ⟨hfrom, .inr ⟨y, hy, hbefore⟩, ?_, hrest⟩
          rw [Partition.covers_iff_of_lt_stopSat hbefore]
          exact fun hx => Nat.not_le_of_lt hx.2 hstop
      · rintro ⟨hfrom, hbefore, hx, hrest⟩
        rcases Nat.lt_or_ge address x.1.offset.toNat with hto | hto
        · exact .inl ⟨hfrom, hto⟩
        · -- behind the start of a partition that does not cover it, it lies behind its end
          rcases hbefore with hbefore | ⟨y, hy, hbefore⟩
          · exact absurd ((Partition.covers_iff_of_lt_stopSat hbefore).mpr ⟨hto, hbefore⟩) hx
          · rw [Partition.covers_iff_of_lt_stopSat hbefore] at hx
            have hstop : x.1.stopSat.toNat ≤ address := Nat.le_of_not_lt fun h => hx ⟨hto, h⟩
            exact .inr ⟨⟨hfrom, hstop⟩, ⟨y, hy, hbefore⟩, hrest⟩

theorem pairwise_free_ofOrdered (hps : Ordered ps) :
    (ofOrdered furthest ps).Pairwise fun s s' => ∀ address, s.Free address → ¬ s'.Free address := by
  induction ps generalizing furthest with
  | nil => exact List.Pairwise.nil
  | cons x ps ih =>
      obtain ⟨-, hrest⟩ := List.pairwise_cons.mp hps
      obtain ⟨next, hnext, hstep⟩ := exists_ofOrdered_cons furthest x ps
      have hoffset := x.1.offset_le_stopSat
      rw [hstep, List.pairwise_append, List.pairwise_cons]
      refine ⟨?_, ⟨fun s _ address h => h.elim, ih hrest⟩, ?_⟩
      · unfold between
        split_ifs <;> simp
      · -- what is free behind the partition lies at or behind the furthest end then
        intro s hs s' hs' address hfree hfree'
        obtain ⟨-, hto⟩ := exists_free_between_iff.mp ⟨s, hs, hfree⟩
        rcases List.mem_cons.mp hs' with rfl | hs'
        · exact hfree'
        · obtain ⟨hfrom, -⟩ := (exists_free_ofOrdered_iff hrest).mp ⟨s', hs', hfree'⟩
          omega

/-- The sweep reports no overlap exactly if each partition starts at or behind the furthest end and
the ends of all partitions before it. -/
theorem overlaps_ofOrdered_eq_nil_iff :
    overlaps (ofOrdered furthest ps) = [] ↔
      (∀ x ∈ ps, furthest.toNat ≤ x.1.offset.toNat) ∧
        ps.Pairwise fun a b => a.1.stopSat.toNat ≤ b.1.offset.toNat := by
  induction ps generalizing furthest with
  | nil => simp [ofOrdered, overlaps]
  | cons x ps ih =>
      obtain ⟨next, hnext, hstep⟩ := exists_ofOrdered_cons furthest x ps
      rw [hstep, overlaps_between_eq_nil_iff, ih, hnext, UInt64.le_iff_toNat_le,
        List.forall_mem_cons, List.pairwise_cons]
      simp only [max_le_iff, forall_and]
      tauto

end Span

namespace Table

variable {t : Table}

theorem ordered_byOffset (t : Table) : Span.Ordered t.byOffset := by
  have htrans : ∀ a b c : Partition × Nat, decide (a.1.offset ≤ b.1.offset) = true →
      decide (b.1.offset ≤ c.1.offset) = true → decide (a.1.offset ≤ c.1.offset) = true := by
    intro a b c hab hbc
    exact decide_eq_true (UInt64.le_trans (of_decide_eq_true hab) (of_decide_eq_true hbc))
  have htotal : ∀ a b : Partition × Nat,
      (decide (a.1.offset ≤ b.1.offset) || decide (b.1.offset ≤ a.1.offset)) = true := by
    intro a b
    simpa using UInt64.le_total a.1.offset b.1.offset
  exact (List.pairwise_mergeSort htrans htotal t.partitions.zipIdx).imp of_decide_eq_true

theorem byOffset_perm (t : Table) : t.byOffset.Perm t.partitions.zipIdx :=
  List.mergeSort_perm _ _

theorem map_fst_byOffset_perm (t : Table) : (t.byOffset.map Prod.fst).Perm t.partitions := by
  have h := (byOffset_perm t).map Prod.fst
  rwa [List.zipIdx_map_fst] at h

theorem map_snd_byOffset_perm (t : Table) :
    (t.byOffset.map Prod.snd).Perm (List.range t.partitions.length) := by
  have h := (byOffset_perm t).map Prod.snd
  rwa [List.zipIdx_map_snd, ← List.range_eq_range'] at h

/-- What holds of all partitions in the order of their offsets holds of all partitions. -/
theorem forall_mem_byOffset_iff {q : Partition → Prop} :
    (∀ x ∈ t.byOffset, q x.1) ↔ ∀ p ∈ t.partitions, q p := by
  rw [← List.forall_mem_map]
  exact ⟨fun h p hp => h p ((map_fst_byOffset_perm t).mem_iff.mpr hp),
    fun h p hp => h p ((map_fst_byOffset_perm t).mem_iff.mp hp)⟩

/-! ## The spans of a table -/

/-- The free addresses are those in front of the end of the table that no partition covers. -/
theorem exists_free_iff {address : Nat} :
    (∃ s ∈ t.spans, s.Free address) ↔
      address < t.capacity.toNat ∧ ∀ p ∈ t.partitions, ¬ p.Covers address := by
  have hreach : (∃ x ∈ t.byOffset, address < x.1.stopSat.toNat) ↔ address < t.capacity.toNat := by
    rw [← not_iff_not, Nat.not_lt, capacity, reach_le_iff, ← forall_mem_byOffset_iff]
    simp only [not_exists, not_and, Nat.not_lt]
  have hzero : (0 : UInt64).toNat ≤ address := Nat.zero_le _
  rw [spans, Span.exists_free_ofOrdered_iff (ordered_byOffset t), and_iff_right hzero, hreach,
    forall_mem_byOffset_iff (q := fun p => ¬ p.Covers address)]

/-- Where no partition is empty or leaves the word, overlaps are reported unless no two partitions
share an address. -/
theorem overlaps_eq_nil_iff (h : ∀ p ∈ t.partitions, p.size ≠ 0 ∧ p.stop < UInt64.size) :
    Span.overlaps t.spans = [] ↔ t.partitions.Pairwise Partition.SharesNoByte := by
  have hzero : ∀ x ∈ t.byOffset, (0 : UInt64).toNat ≤ x.1.offset.toNat :=
    fun _ _ => Nat.zero_le _
  have hboth := forall_mem_byOffset_iff.mpr h
  rw [spans, Span.overlaps_ofOrdered_eq_nil_iff, and_iff_right hzero,
    ← (map_fst_byOffset_perm t).pairwise_iff (fun h => symm h), List.pairwise_map]
  have hsame : ∀ {a b : Partition × Nat}, a ∈ t.byOffset → b ∈ t.byOffset →
      a.1.offset ≤ b.1.offset →
        (a.1.stopSat.toNat ≤ b.1.offset.toNat ↔ a.1.SharesNoByte b.1) := fun ha hb hle =>
    Partition.stopSat_le_iff_sharesNoByte hle (hboth _ hb).1 (hboth _ ha).2
  constructor
  · intro hends
    exact ((ordered_byOffset t).and hends).imp_of_mem fun ha hb h => (hsame ha hb h.1).mp h.2
  · intro hapart
    exact ((ordered_byOffset t).and hapart).imp_of_mem fun ha hb h => (hsame ha hb h.1).mpr h.2

/-- The spans list every partition of the table once and as it is, in the order of the offsets. -/
structure Listing (t : Table) (spans : List Span) : Prop where
  each_once : ((spans.filterMap Span.slot?).map Prod.fst).Perm (List.range t.partitions.length)
  in_order : ((spans.filterMap Span.slot?).map Prod.snd).Pairwise (· ≤ ·)
  as_it_is : ∀ index name offset size, .partition index name offset size ∈ spans →
    ∃ p, t.partitions[index]? = some p ∧ name = p.name ∧ offset = p.offset ∧ size = p.size

theorem listing_spans (t : Table) : Listing t t.spans where
  each_once := by
    rw [spans, Span.filterMap_slot?_ofOrdered, List.map_map]
    exact map_snd_byOffset_perm t
  in_order := by
    rw [spans, Span.filterMap_slot?_ofOrdered, List.map_map, List.pairwise_map]
    exact ordered_byOffset t
  as_it_is := by
    intro index name offset size h
    obtain ⟨p, hp, hrow⟩ := Span.exists_of_partition_mem h
    exact ⟨p, List.mem_zipIdx_iff_getElem?.mp ((byOffset_perm t).mem_iff.mp hp), hrow⟩

/-- **The spans tell the truth about every address.**  Whatever the offsets and sizes of a table
are, its spans list each partition once and in the order of the offsets; no address lies in two gaps,
and it lies in one exactly if it is in front of the end of the table and no partition covers it.
Where no partition is empty or leaves the word, no overlap is counted exactly if no two partitions
share an address. -/
theorem spans_truthful (ε : Type) (t : Table) :
    Listing t t.spans ∧
      t.spans.Pairwise (fun s s' => ∀ address, s.Free address → ¬ s'.Free address) ∧
      (∀ address, (∃ s ∈ t.spans, s.Free address) ↔
        address < t.capacity.toNat ∧ ∀ p ∈ t.partitions, ¬ p.Covers address) ∧
      ((∀ p ∈ t.partitions, p.size ≠ 0 ∧ p.stop < UInt64.size) →
        ((t.warnOverlaps : Logged ε Nat).result = .ok 0 ↔
          t.partitions.Pairwise Partition.SharesNoByte)) := by
  refine ⟨listing_spans t, Span.pairwise_free_ofOrdered (ordered_byOffset t),
    fun address => exists_free_iff, fun h => ?_⟩
  rw [Layout.result_warnOverlaps_eq, ← overlaps_eq_nil_iff h, ← List.length_eq_zero_iff]
  exact ⟨Except.ok.inj, congrArg _⟩

/-- A table out of order, with a partition inside another one, and one that ends with the word. -/
def nestedTable : Table :=
  Table.ofPartitions [{ namedSlot "data" 0x4000 with offset := 0x2000 },
    { namedSlot "misc" 0x1000 with offset := 0x3000 },
    { namedSlot "boot" 0x1000 with offset := 0x1000 },
    { namedSlot "tail" 0x1FFF with offset := 0xFFFFFFFFFFFFE000 }]

theorem spans_truthful_of_nestedTable :
    (∀ p ∈ nestedTable.partitions, p.size ≠ 0 ∧ p.stop < UInt64.size) ∧
      (∃ s ∈ nestedTable.spans, s.Free 0x7000) ∧ (¬ ∃ s ∈ nestedTable.spans, s.Free 0x4800) ∧
      (nestedTable.warnOverlaps : Logged Empty Nat).result ≠ .ok 0 := by
  have hfit : ∀ p ∈ nestedTable.partitions, p.size ≠ 0 ∧ p.stop < UInt64.size := by decide
  obtain ⟨-, -, hfree, hcount⟩ := spans_truthful Empty nestedTable
  have hopen : ∀ p ∈ nestedTable.partitions, ¬ p.Covers 0x7000 := by
    unfold Partition.Covers
    decide
  have hdata : ∀ address : Nat, 0x2000 ≤ address → address < 0x6000 →
      ({ namedSlot "data" 0x4000 with offset := 0x2000 } : Partition).Covers address :=
    fun _ hfrom hto => ⟨hfrom, hto⟩
  refine ⟨hfit, (hfree 0x7000).mpr ⟨by decide, hopen⟩, fun h => ?_, fun h => ?_⟩
  · exact ((hfree 0x4800).mp h).2 _ List.mem_cons_self (hdata 0x4800 (by decide) (by decide))
  · obtain ⟨hfirst, -⟩ := List.pairwise_cons.mp ((hcount hfit).mp h)
    exact hfirst _ List.mem_cons_self 0x3000 (hdata 0x3000 (by decide) (by decide))
      ⟨by decide, by decide⟩

end Table

end EmmcLayout
