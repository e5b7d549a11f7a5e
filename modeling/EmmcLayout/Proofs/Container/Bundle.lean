import EmmcLayout.Container.Image
import EmmcLayout.Proofs.Bytes
import EmmcLayout.Proofs.Outcome
import Mathlib.Data.List.Forall2

/-!
# A rebuilt bundle reads back

`ofBytes_eq_ok_iff` says when a bundle is read: its header gives a version and a count, and every
entry reads at its own place in the table.  Writing a bundle anew moves the trees, so `place` says
where each entry points then.  The entries stand in the table in order (`readEntry_table`), and each
of them points at its own tree (`holds_place`).

The main statement is `ofBytes_rebuilt`: what was rebuilt is read as the same boards in the same
order with the trees that it was given, whatever follows it.
-/

namespace EmmcLayout

namespace BundleEntry

/-- The names of an entry are those that its identifiers spell. -/
structure Named (width : Nat) (e : BundleEntry) : Prop where
  length_eq : e.rawId.length = 3 * width
  soc_eq : e.soc = identifierText (e.rawId.take width)
  platform_eq : e.platform = identifierText ((e.rawId.drop width).take width)
  variant_eq : e.variant = identifierText (e.rawId.drop (2 * width))

/-- The second entry is for the same board as the first one, wherever their trees are. -/
structure SameBoard (a b : BundleEntry) : Prop where
  rawId_eq : b.rawId = a.rawId
  soc_eq : b.soc = a.soc
  platform_eq : b.platform = a.platform
  variant_eq : b.variant = a.variant

/-- An entry as it stands in the table. -/
def toBytes (e : BundleEntry) : Bytes :=
  e.rawId ++ (Bytes.le32 e.offset ++ Bytes.le32 e.size)

/-- The bytes of a tree stand where its entry says. -/
def Holds (b : Bytes) (e : BundleEntry) (tree : Bytes) : Prop :=
  Bytes.fetch b e.offset.toNat e.size.toNat = .ok tree

theorem Holds.le {b tree : Bytes} {e : BundleEntry} (h : Holds b e tree) :
    e.offset.toNat + e.size.toNat ≤ b.length := by
  obtain ⟨front, back, rfl, hoffset, hsize⟩ := Bytes.fetch_eq_ok_iff.mp h
  rw [← hoffset, ← hsize, List.length_append, List.length_append]
  omega

end BundleEntry

namespace Bundle

open BundleEntry

variable {b : Bytes} {width index count : Nat} {e : BundleEntry} {entries : List BundleEntry}
  {bundle : Bundle} {trees : List Bytes}

/-! ## Reading -/

theorem readEntry_eq_ok_iff :
    readEntry b width index = .ok e ↔
      e.Named width ∧
        Bytes.fetch b (headerLength + index * entryLength width) (3 * width) = .ok e.rawId ∧
        Bytes.fetchLE32 b (headerLength + index * entryLength width + 3 * width) = .ok e.offset ∧
        Bytes.fetchLE32 b (headerLength + index * entryLength width + 3 * width + 4) =
          .ok e.size ∧
        e.offset.toNat + e.size.toNat ≤ b.length := by
  unfold readEntry
  simp only [Outcome.bind_eq_ok_iff, Outcome.throw_guard_eq_ok_iff, Bytes.cut_eq_ok_iff]
  constructor
  · rintro ⟨rawId, hrawId, offset, hoffset, size, hsize, hfits, soc, ⟨-, -, rfl⟩, platform,
      ⟨-, -, rfl⟩, variant, ⟨-, -, rfl⟩, h⟩
    obtain ⟨-, -, -, -, hlength⟩ := Bytes.fetch_eq_ok_iff.mp hrawId
    obtain rfl := Except.ok.inj h
    refine ⟨⟨hlength, ?_, ?_, ?_⟩, hrawId, hoffset, hsize, Nat.le_of_not_lt hfits⟩
    · rw [List.drop_zero, Nat.sub_zero]
    · rw [Nat.two_mul, Nat.add_sub_cancel]
    · rw [← List.length_drop, List.take_length]
  · rintro ⟨hnamed, hrawId, hoffset, hsize, hfits⟩
    have hlength := hnamed.length_eq
    refine ⟨_, hrawId, _, hoffset, _, hsize, Nat.not_lt.mpr hfits, _, ⟨by omega, by omega, rfl⟩, _,
      ⟨by omega, by omega, rfl⟩, _, ⟨by omega, by omega, rfl⟩, ?_⟩
    rw [List.drop_zero, Nat.sub_zero, Nat.two_mul, Nat.add_sub_cancel, ← Nat.two_mul,
      ← List.length_drop, List.take_length, ← hnamed.soc_eq, ← hnamed.platform_eq,
      ← hnamed.variant_eq]
    rfl

/-- The entries are read one after the other. -/
theorem readEntries_eq_ok_iff :
    (readEntries b width count index).result = .ok entries ↔
      entries.length = count ∧
        ∀ i e, entries[i]? = some e → readEntry b width (index + i) = .ok e := by
  induction count generalizing index entries with
  | zero =>
      rw [readEntries, Logged.result_pure, Except.ok.injEq, List.length_eq_zero_iff]
      constructor
      · rintro rfl
        exact ⟨rfl, by simp⟩
      · rintro ⟨rfl, -⟩
        rfl
  | succ count ih =>
      simp only [readEntries, Outcome.result_bind_eq_ok_iff, Outcome.result_lift, ih,
        Logged.result_debug, Logged.result_pure]
      constructor
      · rintro ⟨first, hfirst, -, -, others, ⟨hlength, hothers⟩, h⟩
        obtain rfl := Except.ok.inj h
        refine ⟨congrArg Nat.succ hlength, ?_⟩
        intro i e he
        cases i with
        | zero =>
            obtain rfl := Option.some.inj he
            exact hfirst
        | succ i =>
            rw [Nat.add_comm i, ← Nat.add_assoc]
            exact hothers i e he
      · rintro ⟨hlength, hentries⟩
        cases entries with
        | nil => exact absurd hlength (by simp)
        | cons first others =>
            refine ⟨first, hentries 0 first rfl, (), trivial, others,
              ⟨Nat.succ.inj hlength, ?_⟩, rfl⟩
            intro i e he
            rw [Nat.add_assoc, Nat.add_comm 1]
            exact hentries (i + 1) e he

/-- When a bundle is read. -/
theorem ofBytes_eq_ok_iff :
    (ofBytes b).result = .ok bundle ↔
      Bytes.fetch b 0 4 = .ok ContainerKind.bundleMagic ∧
        Bytes.fetchLE32 b 4 = .ok bundle.version ∧
        ∃ count width, Bytes.fetchLE32 b 8 = .ok count ∧
          identifierWidth bundle.version = .ok width ∧ bundle.entries.length = count.toNat ∧
          ∀ i e, bundle.entries[i]? = some e → readEntry b width i = .ok e := by
  unfold ofBytes
  simp only [Outcome.result_bind_eq_ok_iff, Outcome.result_lift, Outcome.throw_bind,
    Outcome.result_throw_guard_eq_ok_iff, readEntries_eq_ok_iff, Nat.zero_add, not_not]
  constructor
  · rintro ⟨leading, hleading, rfl, version, hversion, count, hcount, width, hwidth, entries,
      ⟨hlength, hentries⟩, h⟩
    obtain rfl := Except.ok.inj h
    exact ⟨hleading, hversion, count, width, hcount, hwidth, hlength, hentries⟩
  · rintro ⟨hleading, hversion, count, width, hcount, hwidth, hlength, hentries⟩
    exact ⟨_, hleading, rfl, _, hversion, count, hcount, width, hwidth, _,
      ⟨hlength, hentries⟩, rfl⟩

/-! ## The trees of a bundle -/

theorem mapM_tree_range' {all : List BundleEntry} (start : Nat)
    (hall : ∀ i, all[start + i]? = entries[i]?) (version : UInt32) :
    (List.range' start entries.length).mapM ((Bundle.mk version all).tree b) = .ok trees ↔
      List.Forall₂ (Holds b) entries trees := by
  induction entries generalizing start trees with
  | nil =>
      rw [List.length_nil, List.range'_zero, List.mapM_nil, List.forall₂_nil_left_iff]
      exact ⟨fun h => (Except.ok.inj h).symm, fun h => congrArg Except.ok h.symm⟩
  | cons e entries ih =>
      have hfirst : all[start]? = some e := hall 0
      have hothers : ∀ i, all[start + 1 + i]? = entries[i]? := by
        intro i
        rw [Nat.add_assoc, Nat.add_comm 1]
        exact hall (i + 1)
      have htree : (Bundle.mk version all).tree b start =
          Bytes.fetch b e.offset.toNat e.size.toNat := by
        rw [Bundle.tree, hfirst]
      rw [List.length_cons, List.range'_succ, List.mapM_cons, htree]
      simp only [Outcome.bind_eq_ok_iff, ih (start + 1) hothers]
      constructor
      · rintro ⟨first, hfetch, others, hrest, h⟩
        obtain rfl := Except.ok.inj h
        exact .cons hfetch hrest
      · rintro (_ | ⟨hfetch, hrest⟩)
        exact ⟨_, hfetch, _, hrest, rfl⟩

theorem treesOf_eq_ok_iff :
    Image.treesOf bundle b = .ok trees ↔ List.Forall₂ (Holds b) bundle.entries trees := by
  rw [Image.treesOf, List.range_eq_range']
  exact mapM_tree_range' 0 (fun i => by rw [Nat.zero_add]) bundle.version

/-! ## Where entries point -/

/-- The entries that are written for trees laid out from `pos` on. -/
def place : Nat → List (BundleEntry × Bytes) → List BundleEntry
  | _, [] => []
  | pos, (e, tree) :: rest =>
    let start := Bytes.align4 pos
    { e with offset := UInt32.ofNat start, size := UInt32.ofNat tree.length } ::
      place (start + tree.length) rest

variable {pos : Nat} {pairs : List (BundleEntry × Bytes)}

theorem length_place (pos : Nat) (pairs : List (BundleEntry × Bytes)) :
    (place pos pairs).length = pairs.length := by
  induction pairs generalizing pos with
  | nil => rfl
  | cons pair rest ih => rw [place, List.length_cons, ih, List.length_cons]

/-- The boards are those of before. -/
theorem sameBoard_place (pos : Nat) (pairs : List (BundleEntry × Bytes)) :
    List.Forall₂ SameBoard (pairs.map Prod.fst) (place pos pairs) := by
  induction pairs generalizing pos with
  | nil => exact .nil
  | cons pair rest ih => exact .cons ⟨rfl, rfl, rfl, rfl⟩ (ih _)

theorem named_place (hnamed : ∀ pair ∈ pairs, pair.1.Named width) :
    ∀ e ∈ place pos pairs, e.Named width := by
  induction pairs generalizing pos with
  | nil => simp [place]
  | cons pair rest ih =>
      obtain ⟨hpair, hrest⟩ := List.forall_mem_cons.mp hnamed
      exact List.forall_mem_cons.mpr
        ⟨⟨hpair.length_eq, hpair.soc_eq, hpair.platform_eq, hpair.variant_eq⟩, ih hrest⟩

/-- The table that is written holds the entries that `place` says. -/
theorem layOut_fst (hnamed : ∀ pair ∈ pairs, pair.1.Named width) :
    (layOut width pos pairs).1 = (place pos pairs).flatMap toBytes := by
  induction pairs generalizing pos with
  | nil => rfl
  | cons pair rest ih =>
      obtain ⟨hpair, hrest⟩ := List.forall_mem_cons.mp hnamed
      rw [layOut, place, List.flatMap_cons, ← ih hrest, toBytes, ← List.append_assoc]
      simp only [writeEntry, ByteField.bytes_ofBytes hpair.length_eq]

/-! ## The table -/

theorem length_toBytes (h : e.Named width) : e.toBytes.length = entryLength width := by
  simp only [toBytes, List.length_append, Bytes.length_le32, h.length_eq, entryLength]

theorem length_flatMap_toBytes (hnamed : ∀ e ∈ entries, e.Named width) :
    (entries.flatMap toBytes).length = entries.length * entryLength width := by
  induction entries with
  | nil => exact (Nat.zero_mul _).symm
  | cons e entries ih =>
      obtain ⟨he, hentries⟩ := List.forall_mem_cons.mp hnamed
      rw [List.flatMap_cons, List.length_append, length_toBytes he, ih hentries, List.length_cons,
        Nat.succ_mul, Nat.add_comm]

theorem readEntry_middle {before : Bytes} (behind : Bytes) (hnamed : e.Named width)
    (hbefore : before.length = headerLength + index * entryLength width)
    (hfits : e.offset.toNat + e.size.toNat ≤ (before ++ (e.toBytes ++ behind)).length) :
    readEntry (before ++ (e.toBytes ++ behind)) width index = .ok e := by
  have hrawId := Bytes.fetch_middle before e.rawId (Bytes.le32 e.offset ++
    (Bytes.le32 e.size ++ behind))
  have hoffset := Bytes.fetchLE32_middle (before ++ e.rawId) e.offset (Bytes.le32 e.size ++ behind)
  have hsize := Bytes.fetchLE32_middle (before ++ e.rawId ++ Bytes.le32 e.offset) e.size behind
  rw [List.length_append, Bytes.length_le32] at hsize
  rw [List.length_append] at hoffset hsize
  simp only [List.append_assoc, hbefore, hnamed.length_eq] at hrawId hoffset hsize
  refine readEntry_eq_ok_iff.mpr ⟨hnamed, ?_, ?_, ?_, hfits⟩
  all_goals simp only [toBytes, List.append_assoc]
  · exact hrawId
  · exact hoffset
  · exact hsize

/-- Every entry of a table reads at its own place. -/
theorem readEntry_table {front back : Bytes} (hfront : front.length = headerLength)
    (hnamed : ∀ e ∈ entries, e.Named width) (he : entries[index]? = some e)
    (hfits : e.offset.toNat + e.size.toNat ≤
      (front ++ (entries.flatMap toBytes ++ back)).length) :
    readEntry (front ++ (entries.flatMap toBytes ++ back)) width index = .ok e := by
  obtain ⟨hlt, rfl⟩ := List.getElem?_eq_some_iff.mp he
  have hsplit : front ++ (entries.flatMap toBytes ++ back) =
      (front ++ (entries.take index).flatMap toBytes) ++
        (entries[index].toBytes ++ ((entries.drop (index + 1)).flatMap toBytes ++ back)) := by
    rw [← List.append_assoc (toBytes _), ← List.flatMap_cons, ← List.drop_eq_getElem_cons hlt,
      List.append_assoc, ← List.append_assoc (List.flatMap _ _), ← List.flatMap_append,
      List.take_append_drop]
  rw [hsplit] at hfits ⊢
  refine readEntry_middle _ (hnamed _ (List.getElem_mem hlt)) ?_ hfits
  have htaken : ∀ e ∈ entries.take index, e.Named width :=
    fun e he => hnamed e (List.mem_of_mem_take he)
  rw [List.length_append, hfront, length_flatMap_toBytes htaken,
    List.length_take_of_le (Nat.le_of_lt hlt)]

/-! ## The trees behind it -/

theorem layOut_snd_cons (width pos : Nat) (tree : Bytes) (rest : List (BundleEntry × Bytes)) :
    (layOut width pos ((e, tree) :: rest)).2 =
      Bytes.zeros (Bytes.align4 pos - pos) ++ tree ++
        (layOut width (Bytes.align4 pos + tree.length) rest).2 := rfl

/-- Every entry points at its own tree. -/
theorem holds_place {front : Bytes}
    (hlen : (front ++ (layOut width front.length pairs).2).length < UInt32.size) (junk : Bytes) :
    List.Forall₂ (Holds (front ++ ((layOut width front.length pairs).2 ++ junk)))
      (place front.length pairs) (pairs.map Prod.snd) := by
  induction pairs generalizing front with
  | nil => exact .nil
  | cons pair rest ih =>
      obtain ⟨e, tree⟩ := pair
      -- the tree stands behind what the front is filled up with, and the others behind the tree
      have hgap := Bytes.length_fill_align4 front
      generalize hfill : front ++ Bytes.zeros (Bytes.align4 front.length - front.length) = filled
        at hgap
      have hbehind : (filled ++ tree).length = Bytes.align4 front.length + tree.length := by
        rw [List.length_append, hgap]
      rw [layOut_snd_cons, ← List.append_assoc, ← List.append_assoc, hfill] at hlen
      have hothers := @ih (filled ++ tree)
      rw [hbehind] at hothers
      have hwords : Bytes.align4 front.length + tree.length < UInt32.size := by
        rw [List.length_append, hbehind] at hlen
        omega
      have htree := Bytes.fetch_middle filled tree
        ((layOut width (Bytes.align4 front.length + tree.length) rest).2 ++ junk)
      rw [hgap, ← List.append_assoc] at htree
      rw [layOut_snd_cons, List.append_assoc (_ ++ _), ← List.append_assoc front,
        ← List.append_assoc front, hfill]
      refine .cons ?_ (hothers hlen)
      rw [Holds, UInt32.toNat_ofNat_of_lt' (by omega), UInt32.toNat_ofNat_of_lt' (by omega)]
      exact htree

/-! ## The whole -/

/-- The entries of the bundle can be read, and written. -/
structure Legible (width : Nat) (bundle : Bundle) : Prop where
  width_eq : identifierWidth bundle.version = .ok width
  named : ∀ e ∈ bundle.entries, e.Named width

theorem legible_of_ofBytes (h : (ofBytes b).result = .ok bundle) :
    ∃ width, bundle.Legible width := by
  obtain ⟨-, -, count, width, -, hwidth, -, hentries⟩ := ofBytes_eq_ok_iff.mp h
  refine ⟨width, hwidth, ?_⟩
  intro e he
  obtain ⟨i, hi⟩ := List.getElem?_of_mem he
  exact (readEntry_eq_ok_iff.mp (hentries i e hi)).1

/-- The header that is written. -/
def headerBytes (bundle : Bundle) : Bytes :=
  ContainerKind.bundleMagic ++
    (Bytes.le32 bundle.version ++ Bytes.le32 (UInt32.ofNat bundle.entries.length))

/-- Where the table that is written ends. -/
def tableStop (width : Nat) (bundle : Bundle) : Nat :=
  headerLength + bundle.entries.length * entryLength width

/-- The bundle with its entries pointing at these trees. -/
def placed (width : Nat) (bundle : Bundle) (trees : List Bytes) : Bundle where
  version := bundle.version
  entries := place (bundle.tableStop width) (bundle.entries.zip trees)

/-- The bundle that is written: the header, the table and the trees. -/
def rebuilt (width : Nat) (bundle : Bundle) (trees : List Bytes) : Bytes :=
  bundle.headerBytes ++ ((bundle.placed width trees).entries.flatMap toBytes ++
    (layOut width (bundle.tableStop width) (bundle.entries.zip trees)).2)

theorem length_headerBytes (bundle : Bundle) : bundle.headerBytes.length = headerLength := by
  simp [headerBytes, ContainerKind.bundleMagic, headerLength]

theorem rebuild_eq (h : bundle.Legible width) (hcount : trees.length = bundle.entries.length) :
    bundle.rebuild trees = .ok (bundle.rebuilt width trees) := by
  have hnamed : ∀ pair ∈ bundle.entries.zip trees, pair.1.Named width :=
    fun pair hpair => h.named _ (List.of_mem_zip hpair).1
  simp only [rebuild, hcount, ne_eq, not_true_eq_false, if_false, h.width_eq, Outcome.ok_bind]
  rw [rebuilt, placed, ← layOut_fst hnamed, headerBytes, tableStop]
  simp only [List.append_assoc]
  rfl

theorem legible_placed (h : bundle.Legible width) (trees : List Bytes) :
    (bundle.placed width trees).Legible width where
  width_eq := h.width_eq
  named := named_place fun _ hpair => h.named _ (List.of_mem_zip hpair).1

theorem sameBoard_placed (width : Nat) (hcount : trees.length = bundle.entries.length) :
    List.Forall₂ SameBoard bundle.entries (bundle.placed width trees).entries := by
  have hsame := sameBoard_place (bundle.tableStop width) (bundle.entries.zip trees)
  rwa [List.map_fst_zip (Nat.le_of_eq hcount.symm)] at hsame

theorem length_placed (width : Nat) (hcount : trees.length = bundle.entries.length) :
    (bundle.placed width trees).entries.length = bundle.entries.length := by
  rw [placed, length_place, List.length_zip, hcount, Nat.min_self]

/-- The header and the table reach to where the trees are laid out. -/
theorem length_header_table (h : bundle.Legible width)
    (hcount : trees.length = bundle.entries.length) :
    (bundle.headerBytes ++ (bundle.placed width trees).entries.flatMap toBytes).length =
      bundle.tableStop width := by
  rw [List.length_append, length_headerBytes,
    length_flatMap_toBytes (legible_placed h trees).named, length_placed width hcount, tableStop]

/-- The entries point into the bundle that is written, whatever follows it. -/
theorem holds_placed (h : bundle.Legible width) (hcount : trees.length = bundle.entries.length)
    (hlen : (bundle.rebuilt width trees).length < UInt32.size) (junk : Bytes) :
    List.Forall₂ (Holds (bundle.rebuilt width trees ++ junk)) (bundle.placed width trees).entries
      trees := by
  have hstop := length_header_table h hcount
  rw [rebuilt, ← List.append_assoc] at hlen ⊢
  rw [← hstop] at hlen
  have hholds := holds_place hlen junk
  rw [hstop, List.map_snd_zip (Nat.le_of_eq hcount)] at hholds
  rw [List.append_assoc (_ ++ _)]
  exact hholds

/-- The header that is written is read, with the count of the entries. -/
theorem fetch_headerBytes (bundle : Bundle) (rest : Bytes) :
    Bytes.fetch (bundle.headerBytes ++ rest) 0 4 = .ok ContainerKind.bundleMagic ∧
      Bytes.fetchLE32 (bundle.headerBytes ++ rest) 4 = .ok bundle.version ∧
      Bytes.fetchLE32 (bundle.headerBytes ++ rest) 8 =
        .ok (UInt32.ofNat bundle.entries.length) := by
  have hmagic := Bytes.fetch_middle [] ContainerKind.bundleMagic
    (Bytes.le32 bundle.version ++ (Bytes.le32 (UInt32.ofNat bundle.entries.length) ++ rest))
  have hversion := Bytes.fetchLE32_middle ContainerKind.bundleMagic bundle.version
    (Bytes.le32 (UInt32.ofNat bundle.entries.length) ++ rest)
  have hcount := Bytes.fetchLE32_middle (ContainerKind.bundleMagic ++ Bytes.le32 bundle.version)
    (UInt32.ofNat bundle.entries.length) rest
  rw [List.length_append, Bytes.length_le32, List.append_assoc] at hcount
  simp only [headerBytes, List.append_assoc]
  exact ⟨hmagic, hversion, hcount⟩

/-- **A rebuilt bundle is read as the same boards with the trees that it was given**, whatever
follows it. -/
theorem ofBytes_rebuilt (h : bundle.Legible width) (hcount : trees.length = bundle.entries.length)
    (hlen : (bundle.rebuilt width trees).length < UInt32.size) (junk : Bytes) :
    (ofBytes (bundle.rebuilt width trees ++ junk)).result = .ok (bundle.placed width trees) ∧
      Image.treesOf (bundle.placed width trees) (bundle.rebuilt width trees ++ junk) =
        .ok trees := by
  have hholds := holds_placed h hcount hlen junk
  refine ⟨ofBytes_eq_ok_iff.mpr ?_, treesOf_eq_ok_iff.mpr hholds⟩
  have hentries := length_placed width hcount
  -- an entry is longer than a byte, so a count that does not fit a word is a bundle too long
  have hword : (UInt32.ofNat bundle.entries.length).toNat = bundle.entries.length := by
    have htable := length_flatMap_toBytes (legible_placed h trees).named
    have hle : bundle.entries.length ≤ bundle.entries.length * entryLength width :=
      Nat.le_mul_of_pos_right _ (by unfold entryLength; omega)
    rw [rebuilt, List.length_append, List.length_append, htable, hentries] at hlen
    exact UInt32.toNat_ofNat_of_lt' (by omega)
  rw [rebuilt, List.append_assoc, List.append_assoc] at hholds ⊢
  obtain ⟨hmagic, hversion, hread⟩ := fetch_headerBytes bundle
    ((bundle.placed width trees).entries.flatMap toBytes ++
      ((layOut width (bundle.tableStop width) (bundle.entries.zip trees)).2 ++ junk))
  refine ⟨hmagic, hversion, _, width, hread, h.width_eq, hentries.trans hword.symm, ?_⟩
  intro i e he
  obtain ⟨hi, rfl⟩ := List.getElem?_eq_some_iff.mp he
  have hhere := hholds.get hi (hholds.length_eq ▸ hi)
  exact readEntry_table (length_headerBytes bundle) (legible_placed h trees).named he hhere.le

end Bundle

end EmmcLayout
