import EmmcLayout.Proofs.DeviceTree.Phandles
import Mathlib.Data.List.Pairwise

/-!
# A census over its life

A census is counted, settled, and then changed: numbers are handed out and given back, in any
order.  What one change does is said for every census in ascending order (`count_release`,
`mem_of_lt_leastFree`, `allocate_eq_error_iff`).  From there come an invariant that every change keeps
(`Steady`), and what the changes of a settled census do to it, however many of them there were
(`changes_of_settled`).
-/

namespace EmmcLayout.DeviceTree.PhandleCensus

variable {c c' settled : PhandleCensus} {counts : List (UInt32 × Nat)} {u v w : UInt32} {n : Nat}

/-! ## The least free number -/

/-- Every number that the search went past is taken. -/
theorem mem_of_lt_leastFree {vs : List UInt32} (candidate : Nat) (hle : candidate ≤ u.toNat)
    (hlt : u.toNat < leastFree candidate vs) : u ∈ vs := by
  induction vs generalizing candidate with
  | nil =>
      rw [leastFree] at hlt
      omega
  | cons v vs ih =>
      rw [leastFree] at hlt
      split at hlt
      · omega
      · split at hlt
        · rename_i heq
          by_cases hu : u = v
          · rw [hu]
            exact List.mem_cons_self
          · have hne : u.toNat ≠ v.toNat := fun h => hu (UInt32.toNat_inj.mp h)
            exact .tail _ (ih (candidate + 1) (by omega) hlt)
        · exact .tail _ (ih candidate hle hlt)

theorem leastFree_le {candidate : Nat} (h : candidate ≤ UInt32.size) (vs : List UInt32) :
    leastFree candidate vs ≤ UInt32.size := by
  induction vs generalizing candidate with
  | nil => exact h
  | cons v vs ih =>
      have hv := v.toNat_lt_size
      rw [leastFree]
      split
      · exact h
      · split
        · exact ih (by omega)
        · exact ih h

/-- The least free number depends on the values alone, 0 aside. -/
theorem leastFree_congr {vs ws : List UInt32} (hvs : vs.Pairwise (· < ·))
    (hws : ws.Pairwise (· < ·)) (hsame : ∀ v, v ≠ 0 → (v ∈ vs ↔ v ∈ ws)) :
    leastFree 1 vs = leastFree 1 ws := by
  have hle : ∀ vs ws : List UInt32, ws.Pairwise (· < ·) → (∀ v, v ≠ 0 → v ∈ vs → v ∈ ws) →
      leastFree 1 vs ≤ leastFree 1 ws := by
    intro vs ws hws hsub
    by_contra hlt
    have hlow := le_leastFree 1 ws
    have hhigh := leastFree_le (show 1 ≤ UInt32.size by decide) vs
    have hword : (UInt32.ofNat (leastFree 1 ws)).toNat = leastFree 1 ws :=
      UInt32.toNat_ofNat_of_lt' (by omega)
    have hmem : UInt32.ofNat (leastFree 1 ws) ∈ vs :=
      mem_of_lt_leastFree 1 (by omega) (by omega)
    refine leastFree_notMem hws 1 _ (hsub _ ?_ hmem) hword
    intro hzero
    rw [hzero] at hword
    have hnone : (0 : UInt32).toNat = 0 := rfl
    omega
  exact Nat.le_antisymm (hle vs ws hws fun v hv => (hsame v hv).mp)
    (hle ws vs hvs fun v hv => (hsame v hv).mpr)

/-- A number is handed out unless all of them are taken. -/
theorem allocate_eq_error_iff {e : FormatError} (h : Ascending c.counts) :
    c.allocate = .error e ↔ e = .phandlesExhausted ∧
      ∀ v : UInt32, 1 ≤ v → v ≤ 0xFFFFFFFE → v ∈ c.counts.map Prod.fst := by
  have hsize : UInt32.size = 4294967296 := rfl
  have hone : (1 : UInt32).toNat = 1 := rfl
  have htop : (0xFFFFFFFE : UInt32).toNat = 4294967294 := rfl
  simp only [allocate]
  by_cases hfull : UInt32.size - 1 ≤ leastFree 1 (c.counts.map Prod.fst)
  · rw [if_pos hfull]
    constructor
    · intro he
      refine ⟨(Except.error.inj he).symm, ?_⟩
      intro v hlow hhigh
      rw [UInt32.le_iff_toNat_le] at hlow hhigh
      exact mem_of_lt_leastFree 1 (hone ▸ hlow) (by omega)
    · rintro ⟨rfl, -⟩
      rfl
  · rw [if_neg hfull]
    constructor
    · intro he
      exact absurd he (by simp)
    · rintro ⟨-, hall⟩
      -- The least free number is one of those that are all taken.
      have hlow := le_leastFree 1 (c.counts.map Prod.fst)
      have hfree : (UInt32.ofNat (leastFree 1 (c.counts.map Prod.fst))).toNat =
          leastFree 1 (c.counts.map Prod.fst) := UInt32.toNat_ofNat_of_lt' (by omega)
      have hmem : UInt32.ofNat (leastFree 1 (c.counts.map Prod.fst)) ∈ c.counts.map Prod.fst := by
        apply hall
        · rw [UInt32.le_iff_toNat_le]
          omega
        · rw [UInt32.le_iff_toNat_le]
          omega
      exact absurd hfree (leastFree_notMem (List.pairwise_map.mpr h) 1 _ hmem)

/-! ## Counts after a change -/

theorem lookup_filter_ne (counts : List (UInt32 × Nat)) (v w : UInt32) :
    (counts.filter fun (u, _) => u ≠ v).lookup w = if w = v then none else counts.lookup w := by
  induction counts with
  | nil => simp
  | cons p rest ih =>
      obtain ⟨x, m⟩ := p
      by_cases hx : x = v
      · rw [List.filter_cons_of_neg (by simpa using hx), ih, lookup_cons_eq]
        by_cases hw : w = v
        · rw [if_pos hw, if_pos hw]
        · rw [if_neg hw, if_neg hw, if_neg (fun h => hw (h.trans hx))]
      · rw [List.filter_cons_of_pos (by simpa using hx), lookup_cons_eq, ih, lookup_cons_eq]
        by_cases hw : w = x
        · rw [if_pos hw, if_pos hw, if_neg (fun h => hx (hw.symm.trans h))]
        · rw [if_neg hw, if_neg hw]

theorem count_release (c : PhandleCensus) (v w : UInt32) :
    (c.release v).count w = if w = v then 0 else c.count w := by
  rw [count, counts_release, lookup_filter_ne]
  split
  · rfl
  · rfl

theorem count_of_mem (h : Ascending c.counts) (hmem : (v, n) ∈ c.counts) : c.count v = n := by
  rw [count, (mem_iff_lookup h).mp hmem]
  rfl

/-! ## Bounds -/

/-- The bounds are the smallest and the greatest of the values, and 0 when there is none. -/
structure Bounds (values : List UInt32) (least greatest : UInt32) : Prop where
  between : ∀ v ∈ values, least ≤ v ∧ v ≤ greatest
  attained : values ≠ [] → least ∈ values ∧ greatest ∈ values
  of_nil : values = [] → least = 0 ∧ greatest = 0

theorem Bounds.congr {vs ws : List UInt32} {least greatest : UInt32} (h : Bounds vs least greatest)
    (hsame : ∀ v, v ∈ vs ↔ v ∈ ws) : Bounds ws least greatest := by
  have hnil : vs = [] ↔ ws = [] := by
    rw [List.eq_nil_iff_forall_not_mem, List.eq_nil_iff_forall_not_mem]
    exact forall_congr' fun v => not_congr (hsame v)
  refine ⟨fun v hv => h.between v ((hsame v).mpr hv), ?_, fun hws => h.of_nil (hnil.mpr hws)⟩
  intro hne
  obtain ⟨hleast, hgreatest⟩ := h.attained fun hvs => hne (hnil.mp hvs)
  exact ⟨(hsame _).mp hleast, (hsame _).mp hgreatest⟩

theorem bounds_of_ascending (h : Ascending counts) :
    Bounds (counts.map Prod.fst) (bounds counts).1 (bounds counts).2 := by
  cases counts with
  | nil =>
      refine ⟨fun v hv => absurd hv List.not_mem_nil, fun hne => absurd rfl hne, fun _ => ?_⟩
      exact ⟨rfl, rfl⟩
  | cons p rest =>
      have hgreatest : (bounds (p :: rest)).2 = ((p :: rest).getLast (List.cons_ne_nil p rest)).1 := by
        rw [bounds, List.getLast?_eq_some_getLast (List.cons_ne_nil p rest)]
        rfl
      have hlast := List.getLast_mem (List.cons_ne_nil p rest)
      refine ⟨?_, ?_, fun hnil => absurd hnil (by simp)⟩
      · intro v hv
        obtain ⟨q, hq, rfl⟩ := List.mem_map.mp hv
        constructor
        · show p.1 ≤ q.1
          rcases List.mem_cons.mp hq with rfl | hq
          · exact UInt32.le_refl _
          · exact UInt32.le_of_lt ((List.pairwise_cons.mp h).1 q hq)
        · rw [hgreatest]
          have hsorted : (p :: rest).Pairwise fun x y => x.1 ≤ y.1 :=
            h.imp fun hlt => UInt32.le_of_lt hlt
          exact hsorted.rel_getLast_of_rel_getLast_getLast hq (UInt32.le_refl _)
      · intro _
        refine ⟨List.mem_cons_self, ?_⟩
        rw [hgreatest]
        exact List.mem_map_of_mem hlast

/-! ## Histories -/

/-- A change of a settled census. -/
inductive Change where
  | release (value : UInt32)
  | allocate

/-- An operation on a census. -/
inductive Operation where
  | add (value : UInt32)
  | settle
  | ofChange (change : Change)

/-- The census after a change.  One that fails leaves it as it was. -/
def Change.apply (c : PhandleCensus) : Change → PhandleCensus
  | .release value => c.release value
  | .allocate =>
    match c.allocate with
    | .ok (_, c') => c'
    | .error _ => c

/-- The census after an operation.  One that fails leaves it as it was. -/
def Operation.apply (c : PhandleCensus) : Operation → PhandleCensus
  | .add value => c.add value
  | .settle =>
    match c.settle with
    | .ok c' => c'
    | .error _ => c
  | .ofChange change => change.apply c

/-- The census after these operations, starting from nothing. -/
def history (operations : List Operation) : PhandleCensus :=
  operations.foldl Operation.apply empty

/-- The census after these changes. -/
def after (c : PhandleCensus) (changes : List Change) : PhandleCensus :=
  changes.foldl Change.apply c

theorem Change.ascending (h : Ascending c.counts) (change : Change) :
    Ascending (change.apply c).counts := by
  cases change with
  | release value => exact h.release value
  | allocate =>
      rw [Change.apply]
      split
      · rename_i value c' halloc
        exact (allocate_fresh h halloc).2.2.2.1
      · exact h

theorem Operation.ascending (h : Ascending c.counts) (operation : Operation) :
    Ascending (operation.apply c).counts := by
  cases operation with
  | add value => exact h.increment value
  | settle =>
      rw [Operation.apply]
      split
      · rename_i c' hsettle
        rw [counts_settle hsettle]
        exact h
      · exact h
  | ofChange change => exact change.ascending h

/-- The values are in ascending order all the time. -/
theorem ascending_history (operations : List Operation) : Ascending (history operations).counts := by
  have hall : ∀ c : PhandleCensus, Ascending c.counts →
      Ascending (operations.foldl Operation.apply c).counts := by
    induction operations with
    | nil =>
        intro c h
        exact h
    | cons operation operations ih =>
        intro c h
        exact ih _ (operation.ascending h)
  exact hall empty List.Pairwise.nil

/-! ## After settling -/

/-- What changes keep, once `settled` is settled: its scheme, in which every value is declared, and
bounds that belong to the values. -/
structure Steady (settled c : PhandleCensus) : Prop where
  ascending : Ascending c.counts
  paired_eq : c.paired = settled.paired
  eq_multiplicity : ∀ p ∈ c.counts, p.2 = settled.multiplicity
  bounds_eq : (c.least, c.greatest) = PhandleCensus.bounds c.counts

namespace Steady

theorem of_settle (h : Ascending c.counts) (hsettle : c.settle = .ok settled) :
    Steady settled settled := by
  obtain ⟨-, hall, heq⟩ := settle_eq_ok_iff.mp hsettle
  have hcounts := counts_settle hsettle
  refine ⟨hcounts ▸ h, rfl, hcounts ▸ hall, ?_⟩
  rw [hcounts, heq]
  rfl

theorem multiplicity_eq (h : Steady settled c) : c.multiplicity = settled.multiplicity := by
  rw [multiplicity, multiplicity, h.paired_eq]

/-- Other counts of the same scheme, with the bounds that belong to them. -/
theorem withCounts (h : Steady settled c) (hascending : Ascending counts)
    (hall : ∀ p ∈ counts, p.2 = settled.multiplicity) : Steady settled (c.withCounts counts) :=
  ⟨hascending, h.paired_eq, hall, rfl⟩

theorem release (h : Steady settled c) (value : UInt32) : Steady settled (c.release value) := by
  rw [PhandleCensus.release]
  split
  · refine h.withCounts (h.ascending.filter _) ?_
    intro p hp
    exact h.eq_multiplicity p (List.mem_filter.mp hp).1
  · exact h

theorem allocate (h : Steady settled c) (halloc : c.allocate = .ok (v, c')) :
    Steady settled c' := by
  obtain ⟨-, -, rfl⟩ := allocate_eq_ok_iff.mp halloc
  refine h.withCounts (h.ascending.insert v _) ?_
  intro p hp
  rcases mem_insert hp with rfl | hp
  · exact h.multiplicity_eq
  · exact h.eq_multiplicity p hp

theorem change (h : Steady settled c) (change : Change) : Steady settled (change.apply c) := by
  cases change with
  | release value => exact h.release value
  | allocate =>
      rw [Change.apply]
      split
      · rename_i value c' halloc
        exact h.allocate halloc
      · exact h

theorem after (h : Steady settled c) (changes : List Change) :
    Steady settled (c.after changes) := by
  induction changes generalizing c with
  | nil => exact h
  | cons change changes ih => exact ih (h.change change)

theorem count_eq (h : Steady settled c) (hv : v ∈ c.counts.map Prod.fst) :
    c.count v = settled.multiplicity := by
  obtain ⟨p, hp, rfl⟩ := List.mem_map.mp hv
  rw [count_of_mem h.ascending hp]
  exact h.eq_multiplicity p hp

theorem bounds (h : Steady settled c) : Bounds (c.counts.map Prod.fst) c.least c.greatest := by
  have hbounds := bounds_of_ascending h.ascending
  rw [← h.bounds_eq] at hbounds
  exact hbounds

/-- What is handed out is the least free number; it is recorded the way the others are, and they
stay as they were. -/
theorem allocate_least (h : Steady settled c) (halloc : c.allocate = .ok (v, c')) :
    v ∉ c.counts.map Prod.fst ∧ 1 ≤ v ∧ v ≤ 0xFFFFFFFE ∧
      (∀ u, 1 ≤ u → u < v → u ∈ c.counts.map Prod.fst) ∧
      v ∈ c'.counts.map Prod.fst ∧ c'.count v = settled.multiplicity ∧
      ∀ w, w ≠ v → c'.count w = c.count w := by
  obtain ⟨hfree, hlow, hhigh, -, hvalues⟩ := allocate_fresh h.ascending halloc
  have hrecorded : v ∈ c'.counts.map Prod.fst := (hvalues v).mpr (.inl rfl)
  refine ⟨hfree, UInt32.le_iff_toNat_le.mpr hlow, UInt32.le_iff_toNat_le.mpr hhigh, ?_,
    hrecorded, (h.allocate halloc).count_eq hrecorded, ?_⟩
  · intro u hone hlt
    apply mem_of_lt_leastFree 1 (UInt32.le_iff_toNat_le.mp hone)
    rw [← (allocate_eq_ok_iff.mp halloc).1]
    exact UInt32.lt_iff_toNat_lt.mp hlt
  · intro w hw
    obtain ⟨-, -, rfl⟩ := allocate_eq_ok_iff.mp halloc
    show ((insert v c.multiplicity c.counts).lookup w).getD 0 = _
    rw [lookup_insert h.ascending, if_neg hw]
    rfl

end Steady

/-- **After any changes of a settled census** every value has the number of declarations that was
settled, and the bounds are those of the values.  The next number that is handed out is the least
free one from 1 to 0xFFFFFFFE: it is recorded the way the others are, and no other count changes.
There is none only when all of them are recorded.  Giving a value back removes that value and
nothing else.

The census may have any history before it is settled. -/
theorem changes_of_settled (operations : List Operation)
    (hsettle : (history operations).settle = .ok settled) (changes : List Change)
    (hc : settled.after changes = c) :
    c.paired = settled.paired ∧
      (∀ v ∈ c.counts.map Prod.fst, c.count v = if settled.paired then 2 else 1) ∧
      Bounds (c.counts.map Prod.fst) c.least c.greatest ∧
      (∀ v c', c.allocate = .ok (v, c') →
        v ∉ c.counts.map Prod.fst ∧ 1 ≤ v ∧ v ≤ 0xFFFFFFFE ∧
          (∀ u, 1 ≤ u → u < v → u ∈ c.counts.map Prod.fst) ∧
          v ∈ c'.counts.map Prod.fst ∧ c'.count v = (if settled.paired then 2 else 1) ∧
          ∀ w, w ≠ v → c'.count w = c.count w) ∧
      (∀ e, c.allocate = .error e ↔ e = .phandlesExhausted ∧
        ∀ v : UInt32, 1 ≤ v → v ≤ 0xFFFFFFFE → v ∈ c.counts.map Prod.fst) ∧
      ∀ v w, (c.release v).count w = (if w = v then 0 else c.count w) ∧
        (w ∈ (c.release v).counts.map Prod.fst ↔ w ∈ c.counts.map Prod.fst ∧ w ≠ v) := by
  have hsteady : Steady settled c :=
    hc ▸ (Steady.of_settle (ascending_history operations) hsettle).after changes
  refine ⟨hsteady.paired_eq, fun v hv => hsteady.count_eq hv, hsteady.bounds, ?_, ?_, ?_⟩
  · intro v c' halloc
    exact hsteady.allocate_least halloc
  · intro e
    exact allocate_eq_error_iff hsteady.ascending
  · intro v w
    exact ⟨count_release c v w, mem_values_release⟩

/-- Of 1, 3 and 7 the first is given back while two numbers are handed out: 2, and 1 again. -/
theorem changes_of_settled_three :
    ∃ settled c, (history [.add 3, .add 1, .add 7]).settle = .ok settled ∧
      settled.after [.allocate, .release 1, .allocate, .release 7] = c ∧
      c.counts.map Prod.fst = [1, 2, 3] ∧ Bounds [1, 2, 3] c.least c.greatest ∧
      ∃ c', c.allocate = .ok (4, c') ∧ c'.count 4 = 1 := by
  obtain ⟨settled, hsettle, hfacts⟩ := Outcome.exists_ok_of_any
    (x := (history [.add 3, .add 1, .add 7]).settle)
    (p := fun settled => decide (settled.paired = false ∧
      (settled.after [.allocate, .release 1, .allocate, .release 7]).counts.map Prod.fst =
        [1, 2, 3] ∧
      (settled.after [.allocate, .release 1, .allocate, .release 7]).allocate.toOption.map Prod.fst =
        some 4))
    (by decide +kernel)
  obtain ⟨hsingle, hvalues, hfour⟩ := of_decide_eq_true hfacts
  obtain ⟨-, -, hbounds, hleast, -, -⟩ := changes_of_settled _ hsettle
    [.allocate, .release 1, .allocate, .release 7] rfl
  rw [hvalues] at hbounds
  refine ⟨settled, _, hsettle, rfl, hvalues, hbounds, ?_⟩
  cases halloc : (settled.after [.allocate, .release 1, .allocate, .release 7]).allocate with
  | error e =>
      rw [halloc] at hfour
      exact absurd hfour (by simp [Except.toOption])
  | ok handed =>
      obtain ⟨v, c'⟩ := handed
      rw [halloc] at hfour
      obtain rfl : v = 4 := Option.some.inj hfour
      obtain ⟨-, -, -, -, -, hcount, -⟩ := hleast 4 c' halloc
      rw [hsingle] at hcount
      exact ⟨c', rfl, hcount⟩

end EmmcLayout.DeviceTree.PhandleCensus
