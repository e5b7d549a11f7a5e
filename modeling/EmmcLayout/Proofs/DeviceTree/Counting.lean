import EmmcLayout.Proofs.DeviceTree.Allocation
import EmmcLayout.Proofs.DeviceTree.Fresh

/-!
# What the census of a tree holds

A census has counted every declaration under the copy of a name that a search finds, and no other
(`count_ofTree`).  A strings block may hold a name more than once.  What a tree declares under
another copy is missing in the census (`count_ofTree_misses_second_copy`).
-/

namespace EmmcLayout.DeviceTree.PhandleCensus

variable {t : DeviceTree} {c counted : PhandleCensus} {vs : List UInt32} {v : UInt32}

/-- Settling changes no count. -/
theorem Tallies.of_settle (h : Tallies counted vs) (hsettle : counted.settle = .ok c) :
    Tallies c vs := by
  have hcounts := counts_settle hsettle
  refine ⟨hcounts ▸ h.ascending, ?_, hcounts ▸ h.pos⟩
  intro v
  rw [count, hcounts]
  exact h.count_eq v

theorem tallies_ofTree (h : (ofTree t).result = .ok c) :
    Tallies c (t.foundDeclarations.map Declaration.value) := by
  obtain ⟨names, root, inner, counted, hsurvey, htallies, hsettle⟩ := survey_and_tallies h
  rw [hsurvey.map_value_found]
  exact htallies.of_settle hsettle

/-- The bounds of a settled census are those of what it has counted. -/
theorem bounds_ofTree (h : (ofTree t).result = .ok c) :
    Bounds (t.foundDeclarations.map Declaration.value) c.least c.greatest := by
  obtain ⟨names, root, inner, counted, hsurvey, htallies, hsettle⟩ := survey_and_tallies h
  have hsettled := htallies.settle hsettle
  have hbounds := (Steady.of_settle htallies.ascending hsettle).bounds
  rw [hsurvey.map_value_found]
  exact hbounds.congr hsettled.mem_values_iff

/-- **The census of a tree counts the declarations whose names a search finds.**  So it has the
number of all declarations of a value just when every one of them has such a name.  Its bounds are
the smallest and the greatest value that it has counted. -/
theorem count_ofTree (h : (ofTree t).result = .ok c) :
    (∀ v, c.count v = t.foundDeclarations.countP fun d => d.value = v) ∧
      (∀ v, (c.count v = t.declarations.countP fun d => d.value = v) ↔
        ∀ d ∈ t.declarations, d.value = v → t.stringsBlock.findsPhandle d.nameOffset) ∧
      Bounds (t.foundDeclarations.map Declaration.value) c.least c.greatest := by
  have hfound : ∀ v, c.count v = t.foundDeclarations.countP fun d => d.value = v := by
    intro v
    rw [(tallies_ofTree h).count_eq, List.count_eq_countP, List.countP_map]
    rfl
  refine ⟨hfound, ?_, bounds_ofTree h⟩
  intro v
  -- of the declarations of `v`, the found ones are counted
  have hsome : c.count v = (t.declarations.filter fun d => d.value = v).countP fun d =>
      t.stringsBlock.findsPhandle d.nameOffset := by
    rw [hfound, foundDeclarations, List.countP_filter, List.countP_filter]
    simp only [Bool.and_comm]
  rw [hsome, List.countP_eq_length_filter (l := t.declarations), List.countP_eq_length]
  simp only [List.mem_filter, decide_eq_true_eq, and_imp]

/-- The tree of one board declares three phandles, each of them once. -/
theorem count_ofTree_of_boardTree :
    ∃ t c, DeviceTree.ofBytes boardTree = .ok t ∧ (ofTree t).result = .ok c ∧
      (∀ d ∈ t.declarations, t.stringsBlock.findsPhandle d.nameOffset) ∧
      (∀ v, c.count v = t.declarations.countP fun d => d.value = v) := by
  obtain ⟨t, ht, hfacts⟩ := Outcome.exists_ok_of_any (x := DeviceTree.ofBytes boardTree)
    (p := fun t => (ofTree t).result.toOption.any fun _ =>
      decide (∀ d ∈ t.declarations, t.stringsBlock.findsPhandle d.nameOffset))
    (by decide +kernel)
  obtain ⟨c, hc, hfinds⟩ := Outcome.exists_ok_of_any hfacts
  have hfinds := of_decide_eq_true hfinds
  obtain ⟨-, hcount, -⟩ := count_ofTree hc
  refine ⟨t, c, ht, hc, hfinds, ?_⟩
  intro v
  exact (hcount v).mpr fun d hd _ => hfinds d hd

/-- A declaration under the second copy of a name is not counted. -/
theorem count_ofTree_misses_second_copy :
    ∃ t c, DeviceTree.ofBytes twoCopiesTree = .ok t ∧ (ofTree t).result = .ok c ∧
      (t.declarations.countP fun d => d.value = 1) = 1 ∧ c.count 1 = 0 := by
  obtain ⟨t, ht, hfacts⟩ := Outcome.exists_ok_of_any (x := DeviceTree.ofBytes twoCopiesTree)
    (p := fun t => (ofTree t).result.toOption.any fun c : PhandleCensus =>
      decide ((t.declarations.countP fun d => d.value = 1) = 1 ∧ c.count 1 = 0))
    (by decide +kernel)
  obtain ⟨c, hc, hmissed⟩ := Outcome.exists_ok_of_any hfacts
  obtain ⟨hdeclared, hcount⟩ := of_decide_eq_true hmissed
  exact ⟨t, c, ht, hc, hdeclared, hcount⟩

end EmmcLayout.DeviceTree.PhandleCensus
