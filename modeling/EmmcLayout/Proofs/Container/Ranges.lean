import EmmcLayout.Proofs.Container.Bundle
import EmmcLayout.Proofs.DeviceTree.Ranges

/-!
# Ranges of a container

An entry of a bundle is checked to lie within it when it is read, so that its tree can be taken
later on (`Bundle.exists_tree`).  `reading_guarded` gathers what holds of every byte string: it
is read as a tree, a bundle or an image, or refused, and no range is cut out of it that is not
there.
-/

namespace EmmcLayout

open Outcome (FailsOnly)

variable {b : Bytes}

/-! ## Bundles -/

namespace Bundle

variable {bundle : Bundle}

/-- The identifiers are cut out of as many bytes as were read for them. -/
theorem guarded_readEntry (b : Bytes) (width index : Nat) : Guarded (readEntry b width index) := by
  unfold readEntry
  refine Guarded.bind_iff.mpr ⟨Bytes.guarded_fetch _ _ _, fun rawId hrawId => ?_⟩
  obtain ⟨-, -, -, -, hlen⟩ := Bytes.fetch_eq_ok_iff.mp hrawId
  refine Guarded.bind_iff.mpr ⟨Bytes.guarded_fetchLE32 _ _, fun offset _ => ?_⟩
  refine Guarded.bind_iff.mpr ⟨Bytes.guarded_fetchLE32 _ _, fun size _ => ?_⟩
  split
  · exact Guarded.error_iff.mpr trivial
  refine Guarded.bind_iff.mpr
    ⟨Bytes.guarded_cut (Nat.zero_le _) (by omega), fun soc _ => ?_⟩
  refine Guarded.bind_iff.mpr ⟨Bytes.guarded_cut (by omega) (by omega), fun platform _ => ?_⟩
  refine Guarded.bind_iff.mpr ⟨Bytes.guarded_cut (by omega) (Nat.le_refl _), fun variant _ => ?_⟩
  exact .pure _

theorem failsOnly_readEntries (b : Bytes) (width count index : Nat) :
    FailsOnly FormatError.BlamesInput (readEntries b width count index) := by
  induction count generalizing index with
  | zero => exact Outcome.failsOnly_pure _
  | succ count ih =>
      simp only [readEntries, Outcome.failsOnly_bind, Guarded.failsOnly_lift_iff]
      refine ⟨guarded_readEntry b width index, fun entry _ => ⟨Outcome.failsOnly_debug _, ?_⟩⟩
      exact fun _ _ => ⟨ih _, fun _ _ => Outcome.failsOnly_pure _⟩

theorem guarded_identifierWidth (version : UInt32) : Guarded (identifierWidth version) := by
  simp [identifierWidth, FormatError.BlamesInput]

theorem failsOnly_ofBytes (b : Bytes) : FailsOnly FormatError.BlamesInput (ofBytes b) := by
  simp only [ofBytes, Outcome.throw_bind, Outcome.failsOnly_bind, Outcome.failsOnly_ite,
    Outcome.failsOnly_throw, Outcome.failsOnly_pure, Guarded.failsOnly_lift_iff,
    Bytes.guarded_fetch, Bytes.guarded_fetchLE32, guarded_identifierWidth, failsOnly_readEntries,
    true_and, implies_true, and_true]
  exact fun _ _ _ => trivial

/-- **Every entry of a bundle gives its tree.** -/
theorem exists_tree (h : (ofBytes b).result = .ok bundle) {i : Nat}
    (hi : i < bundle.entries.length) : ∃ tree, bundle.tree b i = .ok tree := by
  obtain ⟨-, -, count, width, -, -, -, hentries⟩ := ofBytes_eq_ok_iff.mp h
  have he : bundle.entries[i]? = some bundle.entries[i] := List.getElem?_eq_getElem hi
  obtain ⟨-, -, -, -, hfits⟩ := readEntry_eq_ok_iff.mp (hentries i _ he)
  rw [tree, he]
  exact ⟨_, Bytes.fetch_of_le hfits⟩

end Bundle

/-! ## Images -/

namespace Image

theorem guarded_tree (bundle : Bundle) (b : Bytes) (i : Nat) : Guarded (bundle.tree b i) := by
  unfold Bundle.tree
  split
  · exact Guarded.error_iff.mpr trivial
  · exact Bytes.guarded_fetch _ _ _

theorem guarded_treesOf (bundle : Bundle) (b : Bytes) : Guarded (treesOf bundle b) := by
  unfold treesOf
  generalize List.range bundle.entries.length = indices
  induction indices with
  | nil => exact .pure _
  | cons i indices ih =>
      rw [List.mapM_cons]
      refine Guarded.bind_iff.mpr ⟨guarded_tree bundle b i, fun _ _ => ?_⟩
      exact Guarded.bind_iff.mpr ⟨ih, fun _ _ => .pure _⟩

theorem guarded_kind (b : Bytes) : Guarded (ContainerKind.ofBytes b) := by
  simp [ContainerKind.ofBytes, FormatError.BlamesInput]

theorem failsOnly_loadBody (b : Bytes) : FailsOnly FormatError.BlamesInput (loadBody b) := by
  simp only [loadBody, Outcome.failsOnly_bind, Outcome.failsOnly_ite, Outcome.failsOnly_pure,
    Guarded.failsOnly_lift_iff, guarded_kind, Bundle.failsOnly_ofBytes, guarded_treesOf,
    DeviceTree.guarded_ofBytes, implies_true, and_true]

theorem failsOnly_load {codec : Codec}
    (hcodec : Guarded (codec.decompress b maxInflatedLength)) :
    FailsOnly FormatError.BlamesInput (load codec b) := by
  simp only [load, Outcome.throw_bind, Outcome.failsOnly_bind, Outcome.failsOnly_ite,
    Outcome.failsOnly_pure, Outcome.failsOnly_throw, Guarded.failsOnly_lift_iff, guarded_kind,
    failsOnly_loadBody, hcodec, true_and, implies_true, and_true]
  exact fun _ _ _ _ _ _ _ _ => trivial

/-- Reading gzip is guarded, so that reading the compressed images of devices is. -/
theorem guarded_gzip (b : Bytes) (limit : Nat) : Guarded (Codec.gzip.decompress b limit) := by
  show Guarded (Gzip.decompress b limit)
  unfold Gzip.decompress
  split
  · exact Guarded.error_iff.mpr trivial
  · dsimp only
    split
    · exact Guarded.error_iff.mpr trivial
    · split
      · exact Guarded.ite_iff.mpr ⟨fun _ => .ok _, fun _ => Guarded.error_iff.mpr trivial⟩
      · exact Guarded.error_iff.mpr trivial

end Image

/-! ## Every byte string -/

/-- **No bytes make a walk leave its ranges.**  Every byte string is read, or refused for a reason
that lies in it, as a tree, as a bundle and as an image through any codec.  A tree that was opened
can be walked, and every entry of a bundle that was read gives its tree.

The partitions of every byte string are replaced, or refused for a reason that lies in it, where the
stack has room for the nesting of the tree, which is a quarter of its bytes at most.  On a smaller
stack the program ends. -/
theorem reading_guarded (b : Bytes) :
    (Guarded (DeviceTree.ofBytes b) ∧
      ∀ t, DeviceTree.ofBytes b = .ok t → t.Walkable) ∧
    (4 * DeviceTree.replacementNesting b ≤ b.length ∧ ∀ records,
      Guarded (DeviceTree.replacePartitions b records).result ∧
      ∀ room, DeviceTree.replacePartitionsWithin room b records =
        if room < DeviceTree.replacementNesting b then none
        else some (DeviceTree.replacePartitions b records)) ∧
    (Guarded (Bundle.ofBytes b).result ∧
      ∀ bundle, (Bundle.ofBytes b).result = .ok bundle →
        ∀ i < bundle.entries.length, ∃ tree, bundle.tree b i = .ok tree) ∧
    ∀ codec : Codec, Guarded (codec.decompress b Image.maxInflatedLength) →
      Guarded (Image.load codec b).result := by
  refine ⟨⟨DeviceTree.guarded_ofBytes b, fun t ht => DeviceTree.walkable_of_ofBytes ht⟩,
    ⟨DeviceTree.four_mul_replacementNesting_le b, fun records => ⟨?_, fun room => ?_⟩⟩, ?_, ?_⟩
  · exact DeviceTree.failsOnly_replacePartitions b records
  · exact DeviceTree.replacePartitionsWithin_eq room b records
  · exact ⟨Bundle.failsOnly_ofBytes b, fun bundle hbundle i hi => Bundle.exists_tree hbundle hi⟩
  · intro codec hcodec
    exact Image.failsOnly_load hcodec

theorem reading_guarded_of_boardTree :
    ∃ t, DeviceTree.ofBytes DeviceTree.boardTree = .ok t ∧ t.Walkable ∧
      Guarded (Image.load Codec.gzip DeviceTree.boardTree).result := by
  obtain ⟨⟨-, hwalkable⟩, -, -, hload⟩ := reading_guarded DeviceTree.boardTree
  obtain ⟨t, ht⟩ := Outcome.exists_ok_of_isOk (x := DeviceTree.ofBytes DeviceTree.boardTree)
    (by decide +kernel)
  exact ⟨t, ht, hwalkable t ht, hload Codec.gzip (Image.guarded_gzip _ _)⟩

/-- A call takes 32 bytes of a stack at least, so 8 MiB have room for no more than `2 ^ 18` of them,
and a tree of six megabytes lies deeper. -/
theorem nestedTree_without_census :
    ∃ t, DeviceTree.ofBytes (DeviceTree.nestedTree (2 ^ 19)) = .ok t ∧
      DeviceTree.PhandleCensus.ofTreeWithin (2 ^ 18) t = none :=
  DeviceTree.nestedTree_overflows (by decide) (by decide)

end EmmcLayout
