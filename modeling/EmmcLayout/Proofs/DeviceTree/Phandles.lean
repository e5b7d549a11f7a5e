import EmmcLayout.DeviceTree.Phandles
import EmmcLayout.Proofs.Outcome

/-!
# The census of phandles

A census hands out the least free number from 1 on, and never the greatest word.  Its counts are
`Ascending` all the time, which is why a number that is handed out is free (`allocate_fresh`).  There,
counting is the same as putting a value in its place (`increment_eq_insert`).
`Tallies c vs` says that a census has counted the declarations `vs`; `settle_eq_ok_iff` is what it
means that they follow one scheme.
-/

namespace EmmcLayout.DeviceTree.PhandleCensus

variable {c c' : PhandleCensus} {value : UInt32}

theorem le_leastFree (candidate : Nat) (vs : List UInt32) : candidate ≤ leastFree candidate vs := by
  induction vs generalizing candidate with
  | nil => exact Nat.le_refl candidate
  | cons v vs ih =>
      rw [leastFree]
      split
      · exact Nat.le_refl candidate
      · split
        · exact Nat.le_trans (Nat.le_succ candidate) (ih (candidate + 1))
        · exact ih candidate

/-- What is handed out, and what the census is then. -/
theorem allocate_eq_ok_iff :
    c.allocate = .ok (value, c') ↔
      value.toNat = leastFree 1 (c.counts.map Prod.fst) ∧ value.toNat < UInt32.size - 1 ∧
        c' = c.withCounts (insert value c.multiplicity c.counts) := by
  simp only [allocate]
  by_cases hfull : UInt32.size - 1 ≤ leastFree 1 (c.counts.map Prod.fst)
  · rw [if_pos hfull]
    constructor
    · intro h
      exact absurd h (by simp)
    · rintro ⟨hvalue, hlt, -⟩
      omega
  · have hlt : leastFree 1 (c.counts.map Prod.fst) < UInt32.size - 1 := Nat.lt_of_not_le hfull
    have hword : (UInt32.ofNat (leastFree 1 (c.counts.map Prod.fst))).toNat =
        leastFree 1 (c.counts.map Prod.fst) :=
      UInt32.toNat_ofNat_of_lt' (Nat.lt_of_lt_of_le hlt (Nat.sub_le _ _))
    rw [if_neg hfull, Except.ok.injEq, Prod.mk.injEq]
    constructor
    · rintro ⟨rfl, rfl⟩
      exact ⟨hword, by rw [hword]; exact hlt, rfl⟩
    · rintro ⟨hvalue, -, rfl⟩
      have hsame : UInt32.ofNat (leastFree 1 (c.counts.map Prod.fst)) = value := by
        rw [← UInt32.toNat_inj, hword, hvalue]
      rw [hsame]
      exact ⟨rfl, rfl⟩

theorem ne_zero_of_allocate (h : c.allocate = .ok (value, c')) : value ≠ 0 := by
  obtain ⟨hvalue, -, -⟩ := allocate_eq_ok_iff.mp h
  have hle := le_leastFree 1 (c.counts.map Prod.fst)
  rintro rfl
  have hzero : (0 : UInt32).toNat = 0 := rfl
  omega

/-! ## Counts in ascending order -/

/-- The values come in ascending order, each of them once. -/
def Ascending (counts : List (UInt32 × Nat)) : Prop :=
  counts.Pairwise fun p q => p.1 < q.1

variable {counts : List (UInt32 × Nat)} {v w : UInt32} {n : Nat} {vs : List UInt32}

theorem lookup_of_lt (h : ∀ p ∈ counts, v < p.1) : counts.lookup v = none := by
  rw [List.lookup_eq_none_iff]
  intro p hp
  rw [bne_iff_ne]
  exact UInt32.ne_of_lt (h p hp)

theorem lookup_cons_eq (p : UInt32 × Nat) (w : UInt32) :
    (p :: counts).lookup w = if w = p.1 then some p.2 else counts.lookup w := by
  rw [List.lookup_cons]
  by_cases hw : w = p.1
  · simp [hw]
  · simp [hw, beq_eq_false_iff_ne.mpr hw]

theorem mem_iff_lookup (h : Ascending counts) : (v, n) ∈ counts ↔ counts.lookup v = some n := by
  induction counts with
  | nil => simp
  | cons p rest ih =>
      obtain ⟨u, m⟩ := p
      obtain ⟨hless, hrest⟩ := List.pairwise_cons.mp h
      rw [List.mem_cons, ih hrest, lookup_cons_eq, Prod.mk.injEq]
      by_cases hv : v = u
      · subst hv
        rw [lookup_of_lt hless]
        simp [eq_comm]
      · simp [hv]

theorem mem_insert {p : UInt32 × Nat} (hp : p ∈ insert v n counts) :
    p = (v, n) ∨ p ∈ counts := by
  induction counts with
  | nil => exact .inl (List.mem_singleton.mp hp)
  | cons q rest ih =>
      obtain ⟨u, m⟩ := q
      rw [insert] at hp
      split at hp
      · exact List.mem_cons.mp hp
      · split at hp
        · rcases List.mem_cons.mp hp with heq | hp
          · exact .inl heq
          · exact .inr (.tail _ hp)
        · rcases List.mem_cons.mp hp with heq | hp
          · exact .inr (heq ▸ List.mem_cons_self)
          · exact (ih hp).imp_right (.tail _)

/-- A value below the first one is below all of them. -/
theorem Ascending.lt_of_lt_head {p : UInt32 × Nat} (h : Ascending (p :: counts)) (hlt : v < p.1) :
    ∀ q ∈ p :: counts, v < q.1 := by
  refine List.forall_mem_cons.mpr ⟨hlt, ?_⟩
  intro q hq
  exact UInt32.lt_trans hlt ((List.pairwise_cons.mp h).1 q hq)

theorem Ascending.insert (h : Ascending counts) (v : UInt32) (n : Nat) :
    Ascending (insert v n counts) := by
  induction counts with
  | nil => exact List.pairwise_singleton _ _
  | cons p rest ih =>
      obtain ⟨u, m⟩ := p
      obtain ⟨hless, hrest⟩ := List.pairwise_cons.mp h
      rw [PhandleCensus.insert]
      split
      · rename_i hlt
        exact List.pairwise_cons.mpr ⟨h.lt_of_lt_head hlt, h⟩
      · rename_i hnot
        split
        · rename_i heq
          subst heq
          exact List.pairwise_cons.mpr ⟨hless, hrest⟩
        · rename_i hne
          have hlt : u < v := UInt32.lt_of_le_of_ne (UInt32.not_lt.mp hnot) (Ne.symm hne)
          refine List.pairwise_cons.mpr ⟨?_, ih hrest⟩
          intro q hq
          rcases mem_insert hq with rfl | hold
          · exact hlt
          · exact hless q hold

theorem lookup_insert (h : Ascending counts) (v w : UInt32) (n : Nat) :
    (insert v n counts).lookup w = if w = v then some n else counts.lookup w := by
  induction counts with
  | nil => rw [insert, lookup_cons_eq]
  | cons p rest ih =>
      obtain ⟨u, m⟩ := p
      obtain ⟨hless, hrest⟩ := List.pairwise_cons.mp h
      rw [insert]
      split
      · rw [lookup_cons_eq]
      · split
        · rename_i heq
          subst heq
          rw [lookup_cons_eq, lookup_cons_eq]
          split
          · rfl
          · rfl
        · rename_i hne
          rw [lookup_cons_eq, lookup_cons_eq, ih hrest]
          by_cases hw : w = u
          · rw [if_pos hw, if_pos hw, if_neg (fun hv => hne (hv.symm.trans hw))]
          · rw [if_neg hw, if_neg hw]

/-- Counting one more declaration puts its value in place with one more. -/
theorem increment_eq_insert (h : Ascending counts) (v : UInt32) :
    increment v counts = insert v ((counts.lookup v).getD 0 + 1) counts := by
  induction counts with
  | nil => rfl
  | cons p rest ih =>
      obtain ⟨u, m⟩ := p
      obtain ⟨-, hrest⟩ := List.pairwise_cons.mp h
      rw [increment, insert]
      split
      · rename_i hlt
        rw [lookup_of_lt (h.lt_of_lt_head hlt)]
        rfl
      · split
        · rename_i heq
          rw [lookup_cons_eq, if_pos heq, heq]
          rfl
        · rename_i hne
          rw [lookup_cons_eq, if_neg hne, ih hrest]

theorem Ascending.increment (h : Ascending counts) (v : UInt32) :
    Ascending (increment v counts) := by
  rw [increment_eq_insert h]
  exact h.insert v _

/-- One more declaration of `v`, and no other. -/
theorem getD_lookup_increment (h : Ascending counts) (v w : UInt32) :
    ((increment v counts).lookup w).getD 0 =
      (counts.lookup w).getD 0 + if v = w then 1 else 0 := by
  rw [increment_eq_insert h, lookup_insert h]
  by_cases hw : v = w
  · subst hw
    simp
  · simp [hw, Ne.symm hw]

/-- The census counts exactly these declarations. -/
structure Tallies (c : PhandleCensus) (vs : List UInt32) : Prop where
  ascending : Ascending c.counts
  count_eq : ∀ v, c.count v = vs.count v
  pos : ∀ p ∈ c.counts, 0 < p.2

theorem Tallies.empty : Tallies empty [] :=
  ⟨.nil, fun _ => rfl, fun _ hp => absurd hp List.not_mem_nil⟩

theorem Tallies.add (h : Tallies c vs) (v : UInt32) : Tallies (c.add v) (vs ++ [v]) where
  ascending := h.ascending.increment v
  count_eq w := by
    have hcount := h.count_eq w
    rw [count] at hcount
    rw [count, PhandleCensus.add, getD_lookup_increment h.ascending, hcount, List.count_append,
      List.count_singleton]
    simp [beq_iff_eq]
  pos p hp := by
    rw [PhandleCensus.add, increment_eq_insert h.ascending] at hp
    rcases mem_insert hp with rfl | hold
    · exact Nat.succ_pos _
    · exact h.pos p hold

theorem Tallies.foldl (h : Tallies c vs) (ws : List UInt32) :
    Tallies (ws.foldl PhandleCensus.add c) (vs ++ ws) := by
  induction ws generalizing c vs with
  | nil =>
      rw [List.append_nil]
      exact h
  | cons w ws ih =>
      have hadd := ih (h.add w)
      rw [List.append_assoc] at hadd
      exact hadd

/-- The census of these declarations, one after the other. -/
theorem tallies_foldl (vs : List UInt32) : Tallies (vs.foldl PhandleCensus.add empty) vs :=
  Tallies.empty.foldl vs

theorem Tallies.mem_iff (h : Tallies c vs) : (v, n) ∈ c.counts ↔ n = vs.count v ∧ 0 < n := by
  rw [← h.count_eq v, count, mem_iff_lookup h.ascending]
  constructor
  · intro hlookup
    have hpos := h.pos (v, n) ((mem_iff_lookup h.ascending).mpr hlookup)
    rw [hlookup]
    exact ⟨rfl, hpos⟩
  · rintro ⟨hn, hpos⟩
    cases hlookup : c.counts.lookup v with
    | none =>
        rw [hlookup] at hn
        exact absurd hn (Nat.ne_of_gt hpos)
    | some m =>
        rw [hlookup] at hn
        rw [hn]
        rfl

theorem Tallies.mem_values_iff (h : Tallies c vs) : v ∈ c.counts.map Prod.fst ↔ v ∈ vs := by
  rw [List.mem_map, ← List.count_pos_iff]
  constructor
  · rintro ⟨⟨u, n⟩, hp, rfl⟩
    obtain ⟨rfl, hpos⟩ := h.mem_iff.mp hp
    exact hpos
  · intro hpos
    exact ⟨(v, vs.count v), h.mem_iff.mpr ⟨rfl, hpos⟩, rfl⟩

theorem Tallies.counts_eq_nil_iff (h : Tallies c vs) : c.counts = [] ↔ vs = [] := by
  rw [← List.map_eq_nil_iff (f := Prod.fst), List.eq_nil_iff_forall_not_mem,
    List.eq_nil_iff_forall_not_mem]
  exact forall_congr' fun v => not_congr h.mem_values_iff

/-! ## Settling -/

theorem any_two_of_forall (hne : counts ≠ []) (h : ∀ p ∈ counts, p.2 = c.multiplicity) :
    (counts.any fun (_, n) => n = 2) = c.paired := by
  obtain ⟨p, hp⟩ := List.exists_mem_of_ne_nil counts hne
  cases hpaired : c.paired with
  | true =>
      rw [List.any_eq_true]
      refine ⟨p, hp, decide_eq_true ?_⟩
      rw [h p hp, multiplicity, hpaired, if_pos rfl]
  | false =>
      rw [List.any_eq_false]
      intro q hq
      have hone := h q hq
      rw [multiplicity, hpaired] at hone
      simp [hone]

/-- **A census is settled when every value has the same number of declarations**, one or two. -/
theorem settle_eq_ok_iff :
    c.settle = .ok c' ↔ c.counts ≠ [] ∧ (∀ p ∈ c.counts, p.2 = c'.multiplicity) ∧
      c' = { c.withCounts c.counts with paired := c'.paired } := by
  unfold settle
  split
  · rename_i value n hfind
    have hbad := List.find?_some hfind
    simp only [ne_eq, decide_eq_true_eq] at hbad
    constructor
    · intro h
      exact absurd h (by simp)
    · rintro ⟨-, hall, -⟩
      have hn : n = c'.multiplicity := hall _ (List.mem_of_find?_eq_some hfind)
      rw [multiplicity] at hn
      split at hn
      · exact absurd hn hbad.2
      · exact absurd hn hbad.1
  · rename_i hfind
    constructor
    · intro h
      dsimp only at h
      split at h
      · exact absurd h (by simp)
      · rename_i hmixed
        split at h
        · exact absurd h (by simp)
        · rename_i hne
          obtain rfl := Except.ok.inj h
          refine ⟨hne, ?_, rfl⟩
          intro p hp
          have hsearch := List.find?_eq_none.mp hfind p hp
          have hfew : p.2 = 1 ∨ p.2 = 2 := by
            simp only [ne_eq, decide_eq_true_eq] at hsearch
            omega
          show p.2 = if (c.counts.any fun (_, n) => n = 2) = true then 2 else 1
          split
          · rename_i htwo
            refine hfew.resolve_left ?_
            intro hone
            exact hmixed ⟨htwo, List.any_eq_true.mpr ⟨p, hp, decide_eq_true hone⟩⟩
          · rename_i hnone
            refine hfew.resolve_right ?_
            intro htwo
            exact hnone (List.any_eq_true.mpr ⟨p, hp, decide_eq_true htwo⟩)
    · rintro ⟨hne, hall, hc'⟩
      dsimp only
      rw [any_two_of_forall hne hall, if_neg, if_neg hne]
      · exact congrArg Except.ok hc'.symm
      · rintro ⟨hpaired, hone⟩
        rw [List.any_eq_true] at hone
        obtain ⟨p, hp, hp'⟩ := hone
        have hn := hall p hp
        rw [multiplicity, if_pos hpaired] at hn
        simp [hn] at hp'

theorem counts_settle (h : c.settle = .ok c') : c'.counts = c.counts := by
  obtain ⟨-, -, heq⟩ := settle_eq_ok_iff.mp h
  rw [heq]
  rfl

/-- A settled census of these declarations: it has their values, every one of which is declared as
often as the scheme has it. -/
structure Settled (c : PhandleCensus) (vs : List UInt32) : Prop where
  ascending : Ascending c.counts
  mem_values_iff : ∀ v, v ∈ c.counts.map Prod.fst ↔ v ∈ vs
  count_eq : ∀ v ∈ vs, vs.count v = c.multiplicity
  ne_nil : vs ≠ []

theorem Tallies.settle (h : Tallies c vs) (hc : c.settle = .ok c') : Settled c' vs := by
  obtain ⟨hne, hall, -⟩ := settle_eq_ok_iff.mp hc
  have hcounts := counts_settle hc
  refine ⟨hcounts ▸ h.ascending, fun v => hcounts ▸ h.mem_values_iff, ?_,
    fun hnil => hne (h.counts_eq_nil_iff.mpr hnil)⟩
  intro v hv
  exact hall (v, vs.count v) (h.mem_iff.mpr ⟨rfl, List.count_pos_iff.mpr hv⟩)

/-- A census is settled when the tree declares every value as often as one scheme has it. -/
theorem Tallies.exists_settle (h : Tallies c vs) (hvs : vs ≠ []) (paired : Bool)
    (hcount : ∀ v ∈ vs, vs.count v = if paired then 2 else 1) :
    ∃ c', c.settle = .ok c' ∧ c'.paired = paired := by
  refine ⟨{ c.withCounts c.counts with paired }, settle_eq_ok_iff.mpr ⟨?_, ?_, rfl⟩, rfl⟩
  · rw [ne_eq, h.counts_eq_nil_iff]
    exact hvs
  · rintro ⟨v, n⟩ hp
    obtain ⟨rfl, hpos⟩ := h.mem_iff.mp hp
    exact hcount v (List.count_pos_iff.mp hpos)

/-! ## Giving back -/

theorem counts_release (c : PhandleCensus) (v : UInt32) :
    (c.release v).counts = c.counts.filter fun (w, _) => w ≠ v := by
  unfold release
  split
  · rfl
  · rename_i hnone
    symm
    rw [List.filter_eq_self]
    intro p hp
    refine decide_eq_true ?_
    intro hv
    exact hnone (List.any_eq_true.mpr ⟨p, hp, decide_eq_true hv⟩)

theorem paired_release (c : PhandleCensus) (v : UInt32) : (c.release v).paired = c.paired := by
  unfold release
  split
  · rfl
  · rfl

theorem Ascending.release (h : Ascending c.counts) (v : UInt32) :
    Ascending (c.release v).counts := by
  rw [counts_release]
  exact h.filter _

theorem mem_values_release :
    w ∈ (c.release v).counts.map Prod.fst ↔ w ∈ c.counts.map Prod.fst ∧ w ≠ v := by
  simp only [counts_release, List.mem_map, List.mem_filter, decide_eq_true_eq]
  constructor
  · rintro ⟨p, ⟨hp, hne⟩, rfl⟩
    exact ⟨⟨p, hp, rfl⟩, hne⟩
  · rintro ⟨⟨p, hp, rfl⟩, hne⟩
    exact ⟨p, ⟨hp, hne⟩, rfl⟩

/-! ## Handing out -/

/-- What is handed out is free. -/
theorem leastFree_notMem {vs : List UInt32} (h : vs.Pairwise (· < ·)) (candidate : Nat) :
    ∀ v ∈ vs, v.toNat ≠ leastFree candidate vs := by
  induction vs generalizing candidate with
  | nil => simp
  | cons u vs ih =>
      obtain ⟨hless, hrest⟩ := List.pairwise_cons.mp h
      intro v hv
      rw [leastFree]
      split
      · rename_i hlt
        rcases List.mem_cons.mp hv with rfl | hv
        · exact Nat.ne_of_gt hlt
        · exact Nat.ne_of_gt (Nat.lt_trans hlt (UInt32.lt_iff_toNat_lt.mp (hless v hv)))
      · split
        · rename_i heq
          rcases List.mem_cons.mp hv with rfl | hv
          · have hle := le_leastFree (candidate + 1) vs
            omega
          · exact ih hrest _ v hv
        · rename_i hnot hne
          rcases List.mem_cons.mp hv with rfl | hv
          · have hle := le_leastFree candidate vs
            omega
          · exact ih hrest _ v hv

theorem mem_values_insert :
    w ∈ (insert v n counts).map Prod.fst ↔ w = v ∨ w ∈ counts.map Prod.fst := by
  induction counts with
  | nil => simp [insert]
  | cons p rest ih =>
      obtain ⟨u, m⟩ := p
      rw [insert]
      split
      · simp
      · split
        · rename_i heq
          subst heq
          simp
        · rw [List.map_cons, List.map_cons, List.mem_cons, List.mem_cons, ih, or_left_comm]

/-- **What is handed out was free, lies in range, and is taken afterwards.** -/
theorem allocate_fresh (h : Ascending c.counts) (halloc : c.allocate = .ok (value, c')) :
    value ∉ c.counts.map Prod.fst ∧ 1 ≤ value.toNat ∧ value.toNat ≤ 0xFFFFFFFE ∧
      Ascending c'.counts ∧
      ∀ w, w ∈ c'.counts.map Prod.fst ↔ w = value ∨ w ∈ c.counts.map Prod.fst := by
  obtain ⟨hvalue, hlt, rfl⟩ := allocate_eq_ok_iff.mp halloc
  have hle := le_leastFree 1 (c.counts.map Prod.fst)
  have hsize : UInt32.size = 4294967296 := rfl
  refine ⟨?_, by omega, by omega, h.insert value _, fun w => mem_values_insert⟩
  intro hmem
  exact leastFree_notMem (List.pairwise_map.mpr h) 1 value hmem hvalue

end EmmcLayout.DeviceTree.PhandleCensus
