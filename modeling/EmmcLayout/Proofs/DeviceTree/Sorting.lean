import EmmcLayout.Proofs.DeviceTree.Partitions

/-!
# Putting records in the order of the references

The records are sorted by exchanges.  The place whose turn it is gets the first record from there on
that has the handle wanted there, and what stood in the place goes where that record was.  `Settles`
says what happens at one place and `Arranged` what a run over all places leaves, so every statement
below is proved for one place first.

* A run loses and doubles nothing, and where the references are the handles of the records in some
  order, this order is what it leaves: `sort_follows_references`.
* A record that no reference names is never brought forward, and as long as no record has the handle
  that is wanted in its place, it stays there.  So such records keep their order when only the last
  one of them stands in a place that is wanted for another: `sort_keeps_unreferenced`.

In general they do not.  A record that is exchanged passes all records in between, and
`sort_reverses_unreferenced` is the smallest list where one of those is unreferenced, too.
-/

namespace EmmcLayout.DeviceTree.PartitionsNode

variable {wanted : UInt32} {more references named : List UInt32} {first head found r : Record}
  {rest tail others rs sorted : List Record} {i : Nat} {node : PartitionsNode}

/-! ## One place -/

theorem split_of_exchange? (h : exchange? wanted first rest = some (found, others)) :
    ∃ before behind, rest = before ++ found :: behind ∧ (∀ r ∈ before, r.handle ≠ wanted) ∧
      found.handle = wanted ∧ others = before ++ first :: behind := by
  induction rest generalizing found others with
  | nil => exact absurd h (by simp [exchange?])
  | cons r rest ih =>
      rw [exchange?] at h
      by_cases hr : r.handle = wanted
      · rw [if_pos hr] at h
        obtain ⟨rfl, rfl⟩ := Prod.mk.inj (Option.some_inj.mp h)
        exact ⟨[], rest, rfl, by simp, hr, rfl⟩
      · rw [if_neg hr] at h
        obtain ⟨⟨found', others'⟩, hfound, heq⟩ := Option.map_eq_some_iff.mp h
        obtain ⟨rfl, rfl⟩ := Prod.mk.inj heq
        obtain ⟨before, behind, rfl, hbefore, hhandle, rfl⟩ := ih hfound
        exact ⟨r :: before, behind, rfl, List.forall_mem_cons.mpr ⟨hr, hbefore⟩, hhandle, rfl⟩

theorem exchange?_eq_none_iff :
    exchange? wanted first rest = none ↔ ∀ r ∈ rest, r.handle ≠ wanted := by
  induction rest with
  | nil => simp [exchange?]
  | cons r rest ih =>
      rw [exchange?, List.forall_mem_cons]
      by_cases hr : r.handle = wanted
      · simp [hr]
      · simp [hr, ih]

/-- What becomes of a place where a handle is wanted, when `first` stands in it and `rest` behind
it: the record in the place afterwards, and those behind it. -/
inductive Settles (wanted : UInt32) (first : Record) (rest : List Record) :
    Record → List Record → Prop
  /-- The record has the handle. -/
  | fits (h : first.handle = wanted) : Settles wanted first rest first rest
  /-- No record has it. -/
  | missing (h : ∀ r ∈ first :: rest, r.handle ≠ wanted) : Settles wanted first rest first rest
  /-- The first record behind it that has the handle is exchanged with it. -/
  | exchanged (before : List Record) (found : Record) (behind : List Record)
      (hrest : rest = before ++ found :: behind)
      (hbefore : ∀ r ∈ first :: before, r.handle ≠ wanted) (hfound : found.handle = wanted) :
      Settles wanted first rest found (before ++ first :: behind)

/-- What a run over the places leaves. -/
inductive Arranged : List UInt32 → List Record → List Record → Prop
  | unnamed (rs : List Record) : Arranged [] rs rs
  | empty (references : List UInt32) : Arranged references [] []
  | place {wanted : UInt32} {more : List UInt32} {first head : Record}
      {rest tail sorted : List Record} (hplace : Settles wanted first rest head tail)
      (hmore : Arranged more tail sorted) :
      Arranged (wanted :: more) (first :: rest) (head :: sorted)

theorem arranged_arrange (references : List UInt32) (rs : List Record) :
    Arranged references rs (arrange references rs).1 := by
  induction references generalizing rs with
  | nil => exact .unnamed rs
  | cons wanted more ih =>
      cases rs with
      | nil => exact .empty _
      | cons first rest =>
          rw [arrange]
          split
          · rename_i hfits
            exact .place (.fits hfits) (ih rest)
          · rename_i hne
            split
            · rename_i found others hfound
              obtain ⟨before, behind, hrest, hbefore, hhandle, rfl⟩ := split_of_exchange? hfound
              exact .place (.exchanged before found behind hrest
                (List.forall_mem_cons.mpr ⟨hne, hbefore⟩) hhandle) (ih _)
            · rename_i hnone
              exact .place (.missing
                (List.forall_mem_cons.mpr ⟨hne, exchange?_eq_none_iff.mp hnone⟩)) (ih rest)

theorem Settles.perm (h : Settles wanted first rest head tail) :
    (head :: tail).Perm (first :: rest) := by
  cases h with
  | fits => exact .refl _
  | missing => exact .refl _
  | exchanged before _ behind hrest =>
      subst hrest
      calc head :: (before ++ first :: behind)
        _ |>.Perm (head :: first :: (before ++ behind)) := List.perm_middle.cons head
        _ |>.Perm (first :: head :: (before ++ behind)) := .swap ..
        _ |>.Perm (first :: (before ++ head :: behind)) := List.perm_middle.symm.cons first

theorem Settles.length_eq (h : Settles wanted first rest head tail) : tail.length = rest.length :=
  Nat.succ_inj.mp h.perm.length_eq

/-- A handle that is wanted is in its place afterwards, unless no record has it. -/
theorem Settles.handle_eq (h : Settles wanted first rest head tail)
    (hwanted : wanted ∈ (first :: rest).map Record.handle) : head.handle = wanted := by
  cases h with
  | fits h => exact h
  | missing h =>
      obtain ⟨r, hr, heq⟩ := List.mem_map.mp hwanted
      exact absurd heq (h r hr)
  | exchanged _ _ _ _ _ hfound => exact hfound

theorem Settles.eq_of_ne (h : Settles wanted first rest head tail) (hne : head.handle ≠ wanted) :
    head = first := by
  cases h with
  | fits => rfl
  | missing => rfl
  | exchanged _ _ _ _ _ hfound => exact absurd hfound hne

/-- Behind the place everything stands where it stood, but for the record that was taken out of it,
which stands where the one with the handle did. -/
theorem Settles.getElem? (h : Settles wanted first rest head tail) (i : Nat) :
    tail[i]? = rest[i]? ∨
      tail[i]? = some first ∧ rest[i]? = some head ∧ head.handle = wanted := by
  cases h with
  | fits => exact .inl rfl
  | missing => exact .inl rfl
  | exchanged before _ behind hrest _ hfound =>
      subst hrest
      rcases Nat.lt_trichotomy i before.length with hlt | rfl | hgt
      · exact .inl (by rw [List.getElem?_append_left hlt, List.getElem?_append_left hlt])
      · exact .inr ⟨by simp, by simp, hfound⟩
      · obtain ⟨k, rfl⟩ := Nat.exists_eq_add_of_lt hgt
        rw [Nat.add_assoc, List.getElem?_append_right (Nat.le_add_right _ _),
          List.getElem?_append_right (Nat.le_add_right _ _), Nat.add_sub_cancel_left]
        exact .inl rfl

/-! ## A run -/

theorem Arranged.perm (h : Arranged references rs sorted) : sorted.Perm rs := by
  induction h with
  | unnamed => exact .refl _
  | empty => exact .refl _
  | place hplace _ ih => exact (ih.cons _).trans hplace.perm

/-- Only as many references matter as there are records. -/
theorem Arranged.take (h : Arranged references rs sorted) :
    Arranged (references.take rs.length) rs sorted := by
  induction h with
  | unnamed rs =>
      rw [List.take_nil]
      exact .unnamed rs
  | empty => exact .empty _
  | place hplace _ ih =>
      rw [hplace.length_eq] at ih
      exact .place hplace ih

/-- References that are the handles of the records are followed. -/
theorem Arranged.map_handle (h : Arranged references rs sorted)
    (hperm : references.Perm (rs.map Record.handle)) : sorted.map Record.handle = references := by
  induction h with
  | unnamed => exact hperm.nil_eq.symm
  | empty => exact hperm.eq_nil.symm
  | @place wanted more first head rest tail sorted hplace _ ih =>
      have hhead := hplace.handle_eq (hperm.subset List.mem_cons_self)
      have hsplit : (wanted :: more).Perm (wanted :: tail.map Record.handle) := by
        rw [← hhead, ← List.map_cons, hhead]
        exact hperm.trans (hplace.perm.map _).symm
      rw [List.map_cons, hhead, ih hsplit.cons_inv]

/-! ## Records that no reference names -/

/-- Some record has the handle that is wanted in the place. -/
def Claimed (references : List UInt32) (rs : List Record) (i : Nat) : Prop :=
  ∃ r ∈ rs, references[i]? = some r.handle

/-- The records whose handle is none of these. -/
def unreferenced (named : List UInt32) (rs : List Record) : List Record :=
  rs.filter fun r => r.handle ∉ named

theorem Settles.claimed (h : Settles wanted first rest head tail) (hi : Claimed more tail i) :
    Claimed (wanted :: more) (first :: rest) (i + 1) := by
  obtain ⟨r, hr, hwanted⟩ := hi
  exact ⟨r, h.perm.subset (List.mem_cons_of_mem _ hr), hwanted⟩

/-- A record that no reference names stands where it stood, or behind. -/
theorem Arranged.exists_le (h : Arranged references rs sorted) (hnamed : references ⊆ named)
    (hr : r.handle ∉ named) (hi : sorted[i]? = some r) : ∃ j ≤ i, rs[j]? = some r := by
  induction h generalizing i with
  | unnamed => exact ⟨i, Nat.le_refl i, hi⟩
  | empty => exact ⟨i, Nat.le_refl i, hi⟩
  | @place wanted more first head rest tail sorted hplace _ ih =>
      obtain ⟨hwanted, hmore⟩ := List.cons_subset.mp hnamed
      cases i with
      | zero =>
          obtain rfl := Option.some_inj.mp hi
          refine ⟨0, Nat.le_refl 0, ?_⟩
          rw [List.getElem?_cons_zero, hplace.eq_of_ne fun heq => hr (heq ▸ hwanted)]
      | succ i =>
          obtain ⟨j, hle, hj⟩ := ih hmore hi
          rcases hplace.getElem? j with hsame | ⟨hfirst, -, -⟩
          · exact ⟨j + 1, Nat.succ_le_succ hle, hsame ▸ hj⟩
          · exact ⟨0, Nat.zero_le _, hfirst.symm.trans hj⟩

/-- Such a record stays, unless its place is claimed. -/
theorem Arranged.getElem?_eq (h : Arranged references rs sorted) (hnamed : references ⊆ named)
    (hr : r.handle ∉ named) (hi : rs[i]? = some r) (hfree : ¬ Claimed references rs i) :
    sorted[i]? = some r := by
  induction h generalizing i with
  | unnamed => exact hi
  | empty => exact hi
  | @place wanted more first head rest tail sorted hplace _ ih =>
      obtain ⟨hwanted, hmore⟩ := List.cons_subset.mp hnamed
      cases i with
      | zero =>
          have hne : head.handle ≠ wanted := fun heq =>
            hfree ⟨head, hplace.perm.subset List.mem_cons_self, congrArg some heq.symm⟩
          rw [List.getElem?_cons_zero, hplace.eq_of_ne hne]
          exact hi
      | succ i =>
          refine ih hmore ?_ fun hclaimed => hfree (hplace.claimed hclaimed)
          rcases hplace.getElem? i with hsame | ⟨-, hhead, heq⟩
          · exact hsame.trans hi
          · obtain rfl := Option.some_inj.mp (hhead.symm.trans hi)
            exact absurd (heq ▸ hwanted) hr

/-- All records of these handles but the last one stand in places that are not claimed. -/
def Undisturbed (named references : List UInt32) (rs : List Record) : Prop :=
  ∀ (i j : Nat) (a b : Record), i < j → rs[i]? = some a → rs[j]? = some b →
    a.handle ∉ named → b.handle ∉ named → ¬ Claimed references rs i

theorem Settles.undisturbed (h : Settles wanted first rest head tail)
    (hstays : head = first ∨ first.handle ∈ named)
    (hfree : Undisturbed named (wanted :: more) (first :: rest)) : Undisturbed named more tail := by
  have hback : ∀ {k : Nat} {x : Record}, x.handle ∉ named → tail[k]? = some x →
      rest[k]? = some x := by
    intro k x hx hk
    rcases h.getElem? k with hsame | ⟨hfirst, hhead, -⟩
    · exact hsame ▸ hk
    · obtain rfl := Option.some_inj.mp (hfirst.symm.trans hk)
      rcases hstays with rfl | hnamed
      · exact hhead
      · exact absurd hnamed hx
  intro i j a b hij ha hb hna hnb hclaimed
  exact hfree (i + 1) (j + 1) a b (Nat.succ_lt_succ hij) (hback hna ha) (hback hnb hb) hna hnb
    (h.claimed hclaimed)

theorem Settles.unreferenced_eq (h : Settles wanted first rest head tail) (hwanted : wanted ∈ named)
    (hstays : head = first ∨ first.handle ∈ named) :
    unreferenced named (head :: tail) = unreferenced named (first :: rest) := by
  cases h with
  | fits => rfl
  | missing => rfl
  | exchanged before _ behind hrest hbefore hfound =>
      have hhead : head.handle ∈ named := hfound ▸ hwanted
      have hfirst : first.handle ∈ named := by
        rcases hstays with rfl | hnamed
        · exact hhead
        · exact hnamed
      subst hrest
      simp [unreferenced, hhead, hfirst]

/-- In undisturbed places the records that no reference names keep their order. -/
theorem Arranged.unreferenced_eq (h : Arranged references rs sorted) (hnamed : references ⊆ named)
    (hfree : Undisturbed named references rs) :
    unreferenced named sorted = unreferenced named rs := by
  induction h with
  | unnamed => rfl
  | empty => rfl
  | @place wanted more first head rest tail sorted hplace hrun ih =>
      obtain ⟨hwanted, hmore⟩ := List.cons_subset.mp hnamed
      by_cases hstays : head = first ∨ first.handle ∈ named
      · have htail := ih hmore (hplace.undisturbed hstays hfree)
        rw [← hplace.unreferenced_eq hwanted hstays]
        simp only [unreferenced, List.filter_cons] at htail ⊢
        rw [htail]
      · -- an unreferenced record leaves a place that is claimed, so it is the last one of them
        obtain ⟨hmoved, hfirst⟩ := not_or.mp hstays
        have hhead : head.handle = wanted := by
          by_contra hne
          exact hmoved (hplace.eq_of_ne hne)
        have hclaimed : Claimed (wanted :: more) (first :: rest) 0 :=
          ⟨head, hplace.perm.subset List.mem_cons_self, congrArg some hhead.symm⟩
        have hlast : unreferenced named (first :: rest) = [first] := by
          have hrest : ∀ x ∈ rest, x.handle ∈ named := by
            intro x hx
            by_contra hnx
            obtain ⟨j, hj⟩ := List.getElem?_of_mem hx
            exact hfree 0 (j + 1) first x (Nat.succ_pos j) rfl hj hfirst hnx hclaimed
          rw [unreferenced, List.filter_cons_of_pos (by simpa using hfirst),
            List.filter_eq_nil_iff.mpr (by simpa using hrest)]
        have hperm := (Arranged.place hplace hrun).perm.filter fun r => decide (r.handle ∉ named)
        rw [hlast]
        exact List.perm_singleton.mp (hlast ▸ hperm)

/-! ## Sorting a node -/

theorem result_sort (ε : Type) (node : PartitionsNode) :
    (node.sort : Logged ε PartitionsNode).result =
      .ok { node with records := node.sortedRecords.1 } := rfl

theorem sortedRecords_fst (node : PartitionsNode) :
    node.sortedRecords.1 =
      (arrange node.references.toList (node.records.take maxPartitions)).1 ++
        node.records.drop maxPartitions := rfl

theorem sortedRecords_perm (node : PartitionsNode) : node.sortedRecords.1.Perm node.records := by
  have hrun := (arranged_arrange node.references.toList (node.records.take maxPartitions)).perm
  have hall := hrun.append_right (node.records.drop maxPartitions)
  rwa [List.take_append_drop] at hall

/-- The references that count: those for the places in which records stand. -/
def countedReferences (node : PartitionsNode) : List UInt32 :=
  node.references.toList.take node.records.length

theorem arranged_sortedRecords (h : node.records.length ≤ maxPartitions) :
    Arranged node.countedReferences node.records node.sortedRecords.1 := by
  rw [sortedRecords_fst, List.take_of_length_le h, List.drop_eq_nil_of_le h, List.append_nil]
  exact (arranged_arrange node.references.toList node.records).take

/-- **Sorting follows the references.**  The records are permuted and nothing else changes.  Where
the references that count are the handles of the records in some order, each record stands in the
place that refers to it.  The handles need not differ for that. -/
theorem sort_follows_references (ε : Type) (node : PartitionsNode) :
    ∃ sorted, (node.sort : Logged ε PartitionsNode).result = .ok { node with records := sorted } ∧
      sorted.Perm node.records ∧
      (node.records.length ≤ maxPartitions →
        node.countedReferences.Perm (node.records.map Record.handle) →
          ∀ (i : Nat) (r : Record), sorted[i]? = some r → node.references[i]? = some r.handle) := by
  refine ⟨_, result_sort ε node, sortedRecords_perm node, fun hlength hperm i r hr => ?_⟩
  have hmap := (arranged_sortedRecords hlength).map_handle hperm
  have hi : node.countedReferences[i]? = some r.handle := by
    rw [← hmap, List.getElem?_map, hr]
    rfl
  rw [countedReferences, List.getElem?_take] at hi
  split_ifs at hi
  rwa [← Vector.getElem?_toList]

/-- A node of these records and references. -/
def nodeOf (records : List Record) (references : Vector UInt32 maxPartitions) : PartitionsNode :=
  { empty with records, references, declared := UInt32.ofNat records.length }

/-- Three records in another order than their references, one of which is known by its second
phandle. -/
def shuffledNode : PartitionsNode :=
  nodeOf [⟨"boot", 0x1000, 1, 7, 7⟩, ⟨"data", autofillSize, 4, 0, 5⟩, ⟨"misc", 0x1000, 1, 6, 0⟩]
    (((Vector.replicate maxPartitions 0).set 0 5).set 1 6 |>.set 2 7)

theorem sort_follows_references_of_shuffledNode :
    shuffledNode.records.length ≤ maxPartitions ∧
      shuffledNode.countedReferences.Perm (shuffledNode.records.map Record.handle) ∧
      ∃ sorted, (shuffledNode.sort : Logged Empty PartitionsNode).result =
          .ok { shuffledNode with records := sorted } ∧
        ∀ (i : Nat) (r : Record), sorted[i]? = some r →
          shuffledNode.references[i]? = some r.handle := by
  have hlength : shuffledNode.records.length ≤ maxPartitions := by decide
  have hperm : shuffledNode.countedReferences.Perm (shuffledNode.records.map Record.handle) := by
    decide +kernel
  obtain ⟨sorted, hsort, -, hfollows⟩ := sort_follows_references Empty shuffledNode
  exact ⟨hlength, hperm, sorted, hsort, hfollows hlength hperm⟩

/-- **What sorting does to records that no reference names.**  None of them is brought forward, and
one whose place is not claimed for another record stays there.  So they keep their order when this
holds of all but the last one of them. -/
theorem sort_keeps_unreferenced (ε : Type) (hlength : node.records.length ≤ maxPartitions) :
    ∃ sorted, (node.sort : Logged ε PartitionsNode).result = .ok { node with records := sorted } ∧
      (∀ (i : Nat) (r : Record), r.handle ∉ node.countedReferences → sorted[i]? = some r →
        ∃ j ≤ i, node.records[j]? = some r) ∧
      (∀ (i : Nat) (r : Record), r.handle ∉ node.countedReferences → node.records[i]? = some r →
        ¬ Claimed node.countedReferences node.records i → sorted[i]? = some r) ∧
      (Undisturbed node.countedReferences node.countedReferences node.records →
        unreferenced node.countedReferences sorted =
          unreferenced node.countedReferences node.records) := by
  have hrun := arranged_sortedRecords hlength
  have hall : node.countedReferences ⊆ node.countedReferences := List.Subset.refl _
  exact ⟨_, result_sort ε node, fun i r hr hi => hrun.exists_le hall hr hi,
    fun i r hr hi hfree => hrun.getElem?_eq hall hr hi hfree,
    fun hfree => hrun.unreferenced_eq hall hfree⟩

/-- A node whose references leave out two of four records; the second of these stands where the
last record belongs. -/
def partlyNamedNode : PartitionsNode :=
  nodeOf [⟨"misc", 0x1000, 1, 5, 0⟩, ⟨"boot", 0x1000, 1, 1, 0⟩, ⟨"logo", 0x1000, 1, 2, 0⟩,
    ⟨"data", autofillSize, 4, 6, 0⟩] (((Vector.replicate maxPartitions 0).set 0 5).set 2 6)

theorem sort_keeps_unreferenced_of_partlyNamedNode :
    partlyNamedNode.records.length ≤ maxPartitions ∧
      Undisturbed partlyNamedNode.countedReferences partlyNamedNode.countedReferences
        partlyNamedNode.records ∧
      ∃ sorted, (partlyNamedNode.sort : Logged Empty PartitionsNode).result =
          .ok { partlyNamedNode with records := sorted } ∧
        unreferenced partlyNamedNode.countedReferences sorted =
          [⟨"boot", 0x1000, 1, 1, 0⟩, ⟨"logo", 0x1000, 1, 2, 0⟩] := by
  have hlength : partlyNamedNode.records.length ≤ maxPartitions := by decide
  have hfree : Undisturbed partlyNamedNode.countedReferences partlyNamedNode.countedReferences
      partlyNamedNode.records := by
    intro i j a b hij ha hb hna hnb hclaimed
    have hj : j < 4 := (List.getElem?_eq_some_iff.mp hb).1
    obtain rfl | rfl | ⟨rfl, rfl⟩ : i = 0 ∨ i = 1 ∨ i = 2 ∧ j = 3 := by omega
    · obtain rfl := Option.some_inj.mp ha
      exact hna (by decide +kernel)
    · -- no record has the handle 0, which is wanted there
      revert hclaimed
      unfold Claimed
      decide +kernel
    · obtain rfl := Option.some_inj.mp hb
      exact hnb (by decide +kernel)
  obtain ⟨sorted, hsort, -, -, horder⟩ := sort_keeps_unreferenced Empty hlength
  exact ⟨hlength, hfree, sorted, hsort, (horder hfree).trans (by decide +kernel)⟩

/-- A node of which one reference names the last of three records. -/
def displacedNode : PartitionsNode :=
  nodeOf [⟨"boot", 0x1000, 1, 1, 0⟩, ⟨"logo", 0x1000, 1, 2, 0⟩, ⟨"data", 0x1000, 4, 3, 0⟩]
    ((Vector.replicate maxPartitions 0).set 0 3)

/-- The record in the first place is exchanged with the last one and passes the one in between,
though no reference names either of the two. -/
theorem sort_reverses_unreferenced :
    displacedNode.records.length ≤ maxPartitions ∧
      ∃ sorted, (displacedNode.sort : Logged Empty PartitionsNode).result =
          .ok { displacedNode with records := sorted } ∧
        unreferenced displacedNode.countedReferences displacedNode.records =
          [⟨"boot", 0x1000, 1, 1, 0⟩, ⟨"logo", 0x1000, 1, 2, 0⟩] ∧
        unreferenced displacedNode.countedReferences sorted =
          [⟨"logo", 0x1000, 1, 2, 0⟩, ⟨"boot", 0x1000, 1, 1, 0⟩] :=
  ⟨by decide, _, result_sort Empty displacedNode, by decide +kernel, by decide +kernel⟩

end EmmcLayout.DeviceTree.PartitionsNode
