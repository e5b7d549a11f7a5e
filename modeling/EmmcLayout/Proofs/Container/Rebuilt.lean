import EmmcLayout.Proofs.Container.Bundle

/-!
# The trees of a rebuilt bundle

The trees of a bundle that is written are `LaidOut`: each of them starts at a multiple of four,
behind the table and behind the tree in front of it.  An entry says where with two words, which do
not wrap around as long as the whole bundle is shorter than they can count (`laidOut_place`).

`rebuild_reads_back` is about every bundle that was read: it is written with as many trees as it
has entries, and then read as the same boards with those trees.
-/

namespace EmmcLayout

namespace BundleEntry

/-- The tree of the first entry ends before that of the second one starts. -/
def Before (a b : BundleEntry) : Prop :=
  a.offset.toNat + a.size.toNat ≤ b.offset.toNat

end BundleEntry

namespace Bundle

open BundleEntry

variable {b : Bytes} {width pos index : Nat} {e : BundleEntry} {entries : List BundleEntry}
  {pairs : List (BundleEntry × Bytes)} {bundle : Bundle} {tree : Bytes} {trees : List Bytes}

/-- The trees of the entries lie from `start` on, one behind the other and each at a multiple of
four. -/
structure LaidOut (start : Nat) (entries : List BundleEntry) : Prop where
  behind : ∀ e ∈ entries, start ≤ e.offset.toNat
  aligned : ∀ e ∈ entries, e.offset.toNat % 4 = 0
  apart : entries.Pairwise Before

theorem LaidOut.nil (start : Nat) : LaidOut start [] where
  behind := by simp
  aligned := by simp
  apart := .nil

/-- One more tree in front of the others. -/
theorem LaidOut.cons (hbehind : pos ≤ e.offset.toNat) (haligned : e.offset.toNat % 4 = 0)
    (h : LaidOut (e.offset.toNat + e.size.toNat) entries) : LaidOut pos (e :: entries) where
  behind := by
    refine List.forall_mem_cons.mpr ⟨hbehind, fun other hother => ?_⟩
    have hother := h.behind other hother
    omega
  aligned := List.forall_mem_cons.mpr ⟨haligned, h.aligned⟩
  apart := .cons h.behind h.apart

/-- What is laid out behind the first tree ends where it all ends. -/
theorem length_layOut_behind (width pos : Nat) (e : BundleEntry) (tree : Bytes)
    (rest : List (BundleEntry × Bytes)) :
    Bytes.align4 pos + tree.length +
        (layOut width (Bytes.align4 pos + tree.length) rest).2.length =
      pos + (layOut width pos ((e, tree) :: rest)).2.length := by
  have hle := Bytes.le_align4 pos
  rw [layOut_snd_cons, List.length_append, List.length_append, Bytes.zeros, List.length_replicate]
  omega

/-- The entries that are written say where the trees are laid out. -/
theorem laidOut_place (h : pos + (layOut width pos pairs).2.length < UInt32.size) :
    LaidOut pos (place pos pairs) := by
  induction pairs generalizing pos with
  | nil => exact .nil pos
  | cons pair rest ih =>
      obtain ⟨e, tree⟩ := pair
      rw [← length_layOut_behind] at h
      have hstart : (UInt32.ofNat (Bytes.align4 pos)).toNat = Bytes.align4 pos :=
        UInt32.toNat_ofNat_of_lt' (by omega)
      have hsize : (UInt32.ofNat tree.length).toNat = tree.length :=
        UInt32.toNat_ofNat_of_lt' (by omega)
      refine .cons ?_ ?_ ?_
      · rw [hstart]
        exact Bytes.le_align4 pos
      · rw [hstart]
        exact Bytes.align4_mod pos
      · rw [hstart, hsize]
        exact ih h

theorem laidOut_placed (h : bundle.Legible width) (hcount : trees.length = bundle.entries.length)
    (hlen : (bundle.rebuilt width trees).length < UInt32.size) :
    LaidOut (bundle.tableStop width) (bundle.placed width trees).entries := by
  rw [rebuilt, ← List.append_assoc, List.length_append, length_header_table h hcount] at hlen
  exact laidOut_place hlen

/-- The trees of a bundle are those that its entries hold. -/
theorem tree_eq_ok_iff (h : List.Forall₂ (Holds b) bundle.entries trees) :
    bundle.tree b index = .ok tree ↔ trees[index]? = some tree := by
  by_cases hlt : index < bundle.entries.length
  · have hlt' : index < trees.length := h.length_eq ▸ hlt
    have hheld : bundle.tree b index = .ok trees[index] := by
      rw [Bundle.tree, List.getElem?_eq_getElem hlt]
      exact h.get hlt hlt'
    rw [hheld, List.getElem?_eq_getElem hlt', Except.ok.injEq, Option.some.injEq]
  · have hge : trees.length ≤ index := h.length_eq ▸ Nat.le_of_not_lt hlt
    rw [Bundle.tree, List.getElem?_eq_none (Nat.le_of_not_lt hlt), List.getElem?_eq_none hge]
    exact ⟨fun h => absurd h (by simp), fun h => absurd h (by simp)⟩

/-- **A bundle is rebuilt from as many trees as it has entries, and holds exactly these.**  As long
as it is short enough for its offsets, it is read as the same version and the same boards in the
same order, each with its own tree. -/
theorem rebuild_reads_back (h : (ofBytes b).result = .ok bundle)
    (hcount : trees.length = bundle.entries.length) :
    ∃ out, bundle.rebuild trees = .ok out ∧
      (out.length < UInt32.size →
        ∃ again width, (ofBytes out).result = .ok again ∧ again.version = bundle.version ∧
          identifierWidth again.version = .ok width ∧
          List.Forall₂ SameBoard bundle.entries again.entries ∧
          (∀ index tree, again.tree out index = .ok tree ↔ trees[index]? = some tree) ∧
          LaidOut (again.tableStop width) again.entries) := by
  obtain ⟨width, hlegible⟩ := legible_of_ofBytes h
  refine ⟨_, rebuild_eq hlegible hcount, fun hlen => ?_⟩
  have hread := (ofBytes_rebuilt hlegible hcount hlen []).1
  have hholds := holds_placed hlegible hcount hlen []
  rw [List.append_nil] at hread hholds
  have hstop : (bundle.placed width trees).tableStop width = bundle.tableStop width := by
    rw [tableStop, length_placed width hcount, tableStop]
  refine ⟨_, width, hread, rfl, hlegible.width_eq, sameBoard_placed width hcount,
    fun index tree => tree_eq_ok_iff hholds, ?_⟩
  rw [hstop]
  exact laidOut_placed hlegible hcount hlen

/-- A bundle for two boards, whose trees are still to come. -/
def twoBoards : Bytes :=
  let entry (rawId : String) : Bytes := Bytes.padTo 48 (Utf8.encode rawId) ++ Bytes.zeros 8
  ContainerKind.bundleMagic ++ Bytes.le32 2 ++ Bytes.le32 2 ++ entry "axg " ++ entry "a311"

/-- The first tree ends within a word, and the second one starts at the next. -/
theorem rebuild_reads_back_of_twoBoards :
    ∃ bundle out again, (ofBytes twoBoards).result = .ok bundle ∧
      bundle.rebuild [[208, 13, 254, 237, 0], [1, 2]] = .ok out ∧
      (ofBytes out).result = .ok again ∧
      List.Forall₂ SameBoard bundle.entries again.entries ∧
      again.tree out 0 = .ok [208, 13, 254, 237, 0] ∧ again.tree out 1 = .ok [1, 2] ∧
      again.entries.Pairwise Before := by
  obtain ⟨bundle, hbundle, hshort⟩ := Outcome.exists_ok_of_any (x := (ofBytes twoBoards).result)
    (p := fun bundle => decide (bundle.entries.length = 2) &&
      (bundle.rebuild [[208, 13, 254, 237, 0], [1, 2]]).toOption.any
        (decide <| ·.length < UInt32.size))
    (by decide +kernel)
  obtain ⟨hcount, hsize⟩ := Bool.and_eq_true_iff.mp hshort
  have hlength : ([[208, 13, 254, 237, 0], [1, 2]] : List Bytes).length = bundle.entries.length :=
    (of_decide_eq_true hcount).symm
  obtain ⟨out, hout, hread⟩ := rebuild_reads_back hbundle hlength
  rw [hout] at hsize
  obtain ⟨again, width, hagain, -, -, hsame, htrees, hlaid⟩ := hread (of_decide_eq_true hsize)
  exact ⟨bundle, out, again, hbundle, hout, hagain, hsame, (htrees 0 _).mpr rfl,
    (htrees 1 _).mpr rfl, hlaid.apart⟩

end Bundle

end EmmcLayout
