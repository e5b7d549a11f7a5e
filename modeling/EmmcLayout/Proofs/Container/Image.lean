import EmmcLayout.Container.Image
import EmmcLayout.Proofs.DeviceTree.Replacement

/-!
# What a failed replacement leaves behind

The partitions of an image are replaced tree by tree, in place.  `replacePartitions_after_error`
says how far a replacement that fails has come: the trees in front of the one that failed are
rewritten, that one and the trees behind it are as they were.  An image of one tree, and one whose
first tree fails, is therefore left alone; `replacePartitions_half_done` is an image that is not.
-/

namespace EmmcLayout.Image

variable {records : List Record} {trees : List Bytes} {image : Image} {e : FormatError}

/-- The second tree is the first one with its partitions replaced. -/
def Rewrites (records : List Record) (old new : Bytes) : Prop :=
  ∃ assigned, (DeviceTree.replacePartitions old records).result = .ok ⟨new, assigned⟩

theorem replaceEach_of_error {tree : Bytes} (rest : List Bytes)
    (h : (DeviceTree.replacePartitions tree records).result = .error e) :
    (replaceEach records (tree :: rest)).1 = tree :: rest ∧
      (replaceEach records (tree :: rest)).2.result = .error e := by
  constructor
  · simp only [replaceEach, h]
  · simp only [replaceEach, h, Outcome.result_map, Except.map]

theorem replaceEach_of_ok {tree : Bytes} {replaced : DeviceTree.Replaced} (rest : List Bytes)
    (h : (DeviceTree.replacePartitions tree records).result = .ok replaced) :
    (replaceEach records (tree :: rest)).1 = replaced.bytes :: (replaceEach records rest).1 ∧
      (replaceEach records (tree :: rest)).2.result =
        (replaceEach records rest).2.result.map (replaced.assigned :: ·) := by
  constructor
  · simp only [replaceEach, h]
  · simp only [replaceEach, h, Logged.result_bind, Outcome.ok_bind]
    cases (replaceEach records rest).2.result with
    | error e => rfl
    | ok assigned => rfl

/-- Trees are rewritten up to the first one that fails. -/
theorem replaceEach_after_error (h : (replaceEach records trees).2.result = .error e) :
    ∃ done done' tree rest, trees = done ++ tree :: rest ∧
      (DeviceTree.replacePartitions tree records).result = .error e ∧
      List.Forall₂ (Rewrites records) done done' ∧
      (replaceEach records trees).1 = done' ++ tree :: rest := by
  induction trees with
  | nil => exact absurd h (by simp [replaceEach])
  | cons tree rest ih =>
      cases hresult : (DeviceTree.replacePartitions tree records).result with
      | error e' =>
          obtain ⟨htrees, herror⟩ := replaceEach_of_error rest hresult
          obtain rfl : e' = e := Except.error.inj (herror.symm.trans h)
          exact ⟨[], [], tree, rest, rfl, hresult, .nil, htrees⟩
      | ok replaced =>
          obtain ⟨htrees, hothers⟩ := replaceEach_of_ok rest hresult
          have hrest : (replaceEach records rest).2.result = .error e := by
            rw [h] at hothers
            cases hcase : (replaceEach records rest).2.result with
            | error e' =>
                rw [hcase] at hothers
                exact congrArg Except.error (Except.error.inj hothers).symm
            | ok assigned =>
                rw [hcase] at hothers
                exact absurd hothers (by simp)
          obtain ⟨done, done', failed, behind, rfl, hfailed, hdone, hleft⟩ := ih hrest
          refine ⟨tree :: done, replaced.bytes :: done', failed, behind, rfl, hfailed, ?_, ?_⟩
          · exact .cons ⟨replaced.assigned, hresult⟩ hdone
          · rw [htrees, hleft]
            rfl

/-- **How far a replacement that failed has come.**  The trees in front of the one that failed are
rewritten, and nothing else is touched; so the image is what it was exactly when each of those
trees was rewritten to itself. -/
theorem replacePartitions_after_error
    (h : (image.replacePartitions records).2.result = .error e) :
    ∃ done done' tree rest, image.trees = done ++ tree :: rest ∧
      (DeviceTree.replacePartitions tree records).result = .error e ∧
      List.Forall₂ (Rewrites records) done done' ∧
      (image.replacePartitions records).1.trees = done' ++ tree :: rest ∧
      (image.replacePartitions records).1.kind = image.kind ∧
      ((image.replacePartitions records).1 = image ↔ done' = done) := by
  obtain ⟨compressed, body⟩ := image
  cases body with
  | plain tree =>
      cases hresult : (DeviceTree.replacePartitions tree records).result with
      | error e' =>
          have hsame : ((⟨compressed, .plain tree⟩ : Image).replacePartitions records).1 =
              ⟨compressed, .plain tree⟩ := by
            simp only [replacePartitions, hresult]
          simp only [replacePartitions, hresult, Outcome.result_map, Except.map] at h
          obtain rfl := Except.error.inj h
          rw [hsame]
          exact ⟨[], [], tree, [], rfl, hresult, .nil, rfl, rfl, iff_of_true rfl rfl⟩
      | ok replaced =>
          simp only [replacePartitions, hresult, Outcome.result_map, Except.map] at h
          exact absurd h (by simp)
  | bundle bundle trees =>
      have heach : (replaceEach records trees).2.result = .error e := by
        simp only [replacePartitions, Outcome.result_map] at h
        cases hcase : (replaceEach records trees).2.result with
        | error e' =>
            rw [hcase] at h
            exact congrArg Except.error (Except.error.inj h)
        | ok assigned =>
            rw [hcase] at h
            exact absurd h (by simp)
      obtain ⟨done, done', tree, rest, rfl, hfailed, hdone, hleft⟩ := replaceEach_after_error heach
      refine ⟨done, done', tree, rest, rfl, hfailed, hdone, hleft, by cases compressed <;> rfl, ?_⟩
      simp only [replacePartitions, hleft, Image.mk.injEq, ImageBody.bundle.injEq, true_and,
        List.append_cancel_right_eq]

/-- A tree of a root alone. -/
def bareTree : Bytes :=
  let written := DeviceTree.emitAll ⟨[]⟩ [.beginNode [], .endNode, .endTree]
  DeviceTree.assemble {} DeviceTree.emptyReservations written.1 written.2.bytes

/-- A bundle of two trees, of which the second one has no partitions node. -/
def halfBundle : Bytes :=
  let entry : BundleEntry :=
    { soc := "", platform := "", variant := "", rawId := Bytes.zeros 12, offset := 0, size := 0 }
  ((Bundle.mk 1 [entry, entry]).rebuild [DeviceTree.smallTree, bareTree]).toOption.getD []

/-- What replacing the partitions of the bundle comes to, computed. -/
theorem exists_halfBundle :
    ∃ image e, (load .gzip halfBundle).result = .ok image ∧
      (image.replacePartitions [⟨"system", 0x2000, 4, 0, 0⟩]).2.result = .error e ∧
      (image.replacePartitions [⟨"system", 0x2000, 4, 0, 0⟩]).1.trees ≠ image.trees := by
  obtain ⟨image, hload, hafter⟩ := Outcome.exists_ok_of_any (x := (load .gzip halfBundle).result)
    (p := fun image =>
      let after := image.replacePartitions [⟨"system", 0x2000, 4, 0, 0⟩]
      !after.2.result.isOk && decide (after.1.trees ≠ image.trees)) (by decide +kernel)
  rw [Bool.and_eq_true, Bool.not_eq_true', decide_eq_true_iff] at hafter
  obtain ⟨e, he⟩ := Outcome.exists_error_of_isOk hafter.1
  exact ⟨image, e, hload, he, hafter.2⟩

theorem replacePartitions_after_error_of_halfBundle :
    ∃ image e done done' tree rest, (load .gzip halfBundle).result = .ok image ∧
      (image.replacePartitions [⟨"system", 0x2000, 4, 0, 0⟩]).2.result = .error e ∧
      image.trees = done ++ tree :: rest ∧
      (image.replacePartitions [⟨"system", 0x2000, 4, 0, 0⟩]).1.trees = done' ++ tree :: rest ∧
      done' ≠ done := by
  obtain ⟨image, e, hload, he, hne⟩ := exists_halfBundle
  obtain ⟨done, done', tree, rest, htrees, -, -, hafter, -, -⟩ := replacePartitions_after_error he
  refine ⟨image, e, done, done', tree, rest, hload, he, htrees, hafter, ?_⟩
  rintro rfl
  exact hne (hafter.trans htrees.symm)

/-- **A replacement that fails can leave trees rewritten behind it.** -/
theorem replacePartitions_half_done :
    ¬ ∀ (image : Image) (records : List Record) (e : FormatError),
      (image.replacePartitions records).2.result = .error e →
        (image.replacePartitions records).1.trees = image.trees := by
  intro hkept
  obtain ⟨image, e, -, he, hne⟩ := exists_halfBundle
  exact hne (hkept image _ e he)

end EmmcLayout.Image
