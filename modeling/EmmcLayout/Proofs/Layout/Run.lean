import EmmcLayout.Layout.Build
import EmmcLayout.Proofs.Layout.Coherent

/-!
# Runs of a placement

A run places definers, or carries out editors, one after the other.  Runs compose
(`appendAll_append`, `editAll_append`), and what every step keeps a run keeps (`appendAll_keeps`,
`editAll_keeps`).  `finish_eq_ok_iff` says which partitions end a run well, and from it follow the
conditions under which tables are created, cloned and edited.
-/

namespace EmmcLayout.Layout

variable {options : LayoutOptions} {p q : Placer} {capacity : UInt64}

/-- The start of a placement is only noted. -/
theorem failsOnly_start_bind {α : Type} {P : Error → Prop} {ps : List Partition}
    {f : Placer → Outcome α} :
    Outcome.FailsOnly P (Placer.start ps capacity >>= f) ↔
      Outcome.FailsOnly P (f (Placer.fresh capacity ps)) := by
  rw [Outcome.FailsOnly, Outcome.FailsOnly, Logged.result_bind, Placer.start_result,
    Outcome.ok_bind]

/-! ## Placing definers -/

theorem appendAll_cons_eq_ok_iff {d : Definer} {ds : List Definer} :
    (appendAll options p (d :: ds)).result = .ok q ↔
      ∃ p', (p.append options d).result = .ok p' ∧ (appendAll options p' ds).result = .ok q :=
  Outcome.result_bind_eq_ok_iff

theorem appendAll_nil_eq_ok_iff : (appendAll options p []).result = .ok q ↔ p = q := by
  show (Except.ok p : Except Error Placer) = .ok q ↔ p = q
  rw [Except.ok.injEq]

theorem appendAll_append (ds es : List Definer) :
    (appendAll options p (ds ++ es)).result =
      (appendAll options p ds).result >>= fun q => (appendAll options q es).result := by
  induction ds generalizing p with
  | nil => rfl
  | cons d ds ih =>
      rw [List.cons_append, appendAll, appendAll, Logged.result_bind, Logged.result_bind]
      cases (p.append options d).result with
      | error e => rfl
      | ok p' => exact ih

/-- What placing one definer keeps, placing many keeps. -/
theorem appendAll_keeps {I : Placer → Prop}
    (hstep : ∀ {p q : Placer} {d : Definer}, I p → (p.append options d).result = .ok q → I q)
    {ds : List Definer} (hp : I p) (h : (appendAll options p ds).result = .ok q) : I q := by
  induction ds generalizing p with
  | nil =>
      obtain rfl := appendAll_nil_eq_ok_iff.mp h
      exact hp
  | cons d ds ih =>
      obtain ⟨p', hp', h⟩ := appendAll_cons_eq_ok_iff.mp h
      exact ih (hstep hp hp') h

/-- What placing one definer does not fail for, placing many does not. -/
theorem failsOnly_appendAll_of_append {P : Error → Prop} (ds : List Definer)
    (hstep : ∀ (p : Placer) (d : Definer), Outcome.FailsOnly P (p.append options d)) :
    Outcome.FailsOnly P (appendAll options p ds) := by
  induction ds generalizing p with
  | nil => exact Outcome.failsOnly_pure p
  | cons d ds ih => exact (Outcome.failsOnly_bind _ _).mpr ⟨hstep p d, fun _ _ => ih⟩

/-! ## Carrying out editors -/

theorem editAll_append (as bs : List Editor) :
    (editAll options p (as ++ bs)).result =
      (editAll options p as).result >>= fun q => (editAll options q bs).result := by
  induction as generalizing p with
  | nil => rfl
  | cons e as ih =>
      rw [List.cons_append, editAll, editAll, Logged.result_bind, Logged.result_bind]
      cases (editStep options p e).result with
      | error e => rfl
      | ok p' => exact ih

/-- What one editor keeps, many keep. -/
theorem editAll_keeps {I : Placer → Prop}
    (hstep : ∀ {p q : Placer} {e : Editor}, I p → (editStep options p e).result = .ok q → I q)
    {es : List Editor} (hp : I p) (h : (editAll options p es).result = .ok q) : I q := by
  induction es generalizing p with
  | nil =>
      obtain rfl := Except.ok.inj h
      exact hp
  | cons e es ih =>
      obtain ⟨p', hp', h⟩ := Outcome.result_bind_eq_ok_iff.mp h
      exact ih (hstep hp hp') h

/-- What one editor does not fail for where an invariant holds, many do not. -/
theorem failsOnly_editAll_of_editStep {P : Error → Prop} {I : Placer → Prop}
    (hkeep : ∀ {p q : Placer} {e : Editor}, I p → (editStep options p e).result = .ok q → I q)
    (hstep : ∀ {p : Placer} (e : Editor), I p → Outcome.FailsOnly P (editStep options p e))
    (es : List Editor) (hp : I p) : Outcome.FailsOnly P (editAll options p es) := by
  induction es generalizing p with
  | nil => exact Outcome.failsOnly_pure p
  | cons e es ih =>
      exact (Outcome.failsOnly_bind _ _).mpr ⟨hstep e hp, fun _ hq => ih (hkeep hp hq)⟩

/-- A modifier is carried out behind a settled placement. -/
theorem editStep_modifier_eq_ok_iff {m : Modifier} :
    (editStep options p (.modifier m)).result = .ok q ↔
      ∃ settled partitions, (p.settle options).result = .ok settled ∧
        (modify options.alignment settled.partitions m).result = .ok partitions ∧
        q = settled.resync partitions := by
  unfold editStep
  rw [Outcome.result_bind_eq_ok_iff]
  constructor
  · rintro ⟨settled, hsettled, h⟩
    obtain ⟨partitions, hpartitions, h⟩ := Outcome.result_bind_eq_ok_iff.mp h
    exact ⟨settled, partitions, Outcome.mapError_eq_ok_iff.mp hsettled, hpartitions,
      (Except.ok.inj h).symm⟩
  · rintro ⟨settled, partitions, hsettled, hpartitions, rfl⟩
    refine ⟨settled, Outcome.mapError_eq_ok_iff.mpr hsettled, ?_⟩
    rw [Outcome.result_bind_eq_ok_iff]
    exact ⟨partitions, hpartitions, rfl⟩

theorem Placer.Coherent.editStep {e : Editor} (hp : p.Coherent)
    (h : (editStep options p e).result = .ok q) : q.Coherent := by
  cases e with
  | definer d => exact hp.append h
  | modifier m =>
      obtain ⟨settled, partitions, -, -, rfl⟩ := editStep_modifier_eq_ok_iff.mp h
      exact Placer.coherent_fresh _ _

/-! ## The end of a run -/

theorem checkEnds_eq_ok_iff {ps : List Partition} {u : Unit} :
    checkEnds capacity ps = .ok u ↔ ∀ x ∈ ps, x.stop ≤ capacity.toNat := by
  induction ps with
  | nil => simp [checkEnds]
  | cons x ps ih =>
      rw [List.forall_mem_cons, checkEnds]
      cases hstop : x.stop? with
      | none =>
          have hover : ¬ x.stop ≤ capacity.toNat := by
            intro hle
            have hcap : capacity.toNat < UInt64.size := capacity.toNat_lt
            have hlt : x.offset.toNat + x.size.toNat < UInt64.size := Nat.lt_of_le_of_lt hle hcap
            simp [Partition.stop?, Word.add?, hlt] at hstop
          simp [hover]
      | some stop =>
          have hstop' := Partition.stop?_eq_some_iff.mp hstop
          by_cases hpast : capacity < stop
          · have hlt := UInt64.lt_iff_toNat_lt.mp hpast
            have hover : ¬ x.stop ≤ capacity.toNat := by omega
            simp [hpast, hover]
          · have hle : x.stop ≤ capacity.toNat := by
              rw [UInt64.lt_iff_toNat_lt] at hpast
              omega
            simp only [hpast, if_false, hle, true_and]
            exact ih

/-- Notes never make a computation fail. -/
theorem result_forM_warn (ε : Type) {α : Type} (xs : List α) (text : α → String) :
    (xs.forM fun x => (Logged.warn (text x) : Logged ε Unit)).result = .ok () := by
  induction xs with
  | nil => rfl
  | cons x xs ih =>
      show ((Logged.warn (text x) : Logged ε Unit) >>= fun _ =>
        xs.forM fun x => Logged.warn (text x)).result = .ok ()
      rw [Logged.result_bind, Logged.result_warn, Outcome.ok_bind]
      exact ih

/-- The overlaps are warned of and counted, whatever the table is. -/
theorem result_warnOverlaps_eq (ε : Type) (t : Table) :
    (t.warnOverlaps : Logged ε Nat).result = .ok (Span.overlaps t.spans).length := by
  rw [Table.warnOverlaps, Logged.result_bind]
  have hnotes := result_forM_warn ε (Span.overlaps t.spans) fun x =>
    x.1 ++ " at " ++ Text.hex x.2.1.toNat ++ " overlaps the previous partition by " ++
      Text.hex x.2.2.toNat ++ " bytes"
  rw [hnotes]
  rfl

theorem result_warnOverlaps (ε : Type) (t : Table) :
    ∃ n, (t.warnOverlaps : Logged ε Nat).result = .ok n :=
  ⟨_, result_warnOverlaps_eq ε t⟩

/-- Warning of overlaps does not fail. -/
theorem failsOnly_warnOverlaps {ε : Type} {P : ε → Prop} (t : Table) :
    Outcome.FailsOnly P (t.warnOverlaps : Logged ε Nat) := by
  obtain ⟨n, hn⟩ := result_warnOverlaps ε t
  intro e h
  simp [hn] at h

/-- The end of a run without its notes. -/
theorem finish_result (capacity : UInt64) (ps : List Partition) :
    (finish capacity ps).result = (do
      (Table.ofPartitions ps).validate.mapError Error.validation
      (checkEnds capacity ps).mapError Error.layout
      return Table.ofPartitions ps) := by
  obtain ⟨n, hn⟩ := result_warnOverlaps Error (Table.ofPartitions ps)
  unfold finish
  simp only [Logged.result_bind, hn]
  rfl

/-- A run ends well when its partitions make a valid table and all end on the device. -/
theorem finish_eq_ok_iff {ps : List Partition} {t : Table} :
    (finish capacity ps).result = .ok t ↔
      t = Table.ofPartitions ps ∧ t.validate = .ok () ∧ ∀ x ∈ ps, x.stop ≤ capacity.toNat := by
  rw [finish_result]
  simp only [Outcome.bind_eq_ok_iff, Outcome.mapError_eq_ok_iff, checkEnds_eq_ok_iff]
  constructor
  · rintro ⟨⟨⟩, hvalid, -, hends, h⟩
    obtain rfl := Except.ok.inj h
    exact ⟨rfl, hvalid, hends⟩
  · rintro ⟨rfl, hvalid, hends⟩
    exact ⟨(), hvalid, (), hends, rfl⟩

/-! ## Cloning -/

/-- The partition that a definer asks for when it is cloned. -/
theorem clonePartitions_cons_eq_ok_iff {d : Definer} {ds : List Definer} {ps qs : List Partition} :
    clonePartitions ps (d :: ds) = .ok qs ↔
      (∀ x ∈ ps, ¬ x.isNamed d.name = true) ∧
        ∃ part, Partition.create d.name ((d.offset.map Amount.value).getD 0)
            ((d.size.map Amount.value).getD 0) (d.mask.getD 0) = .ok part ∧
          clonePartitions (ps ++ [part]) ds = .ok qs := by
  have hany : (ps.any (·.isNamed d.name)) = true ↔ ¬ ∀ x ∈ ps, ¬ x.isNamed d.name = true := by
    rw [List.any_eq_true]
    simp
  simp only [clonePartitions]
  split
  · rename_i hnamed
    rw [hany] at hnamed
    simp only [hnamed, false_and, reduceCtorEq]
  · rename_i hfree
    rw [hany, not_not] at hfree
    rw [and_iff_right hfree]
    cases Partition.create d.name ((d.offset.map Amount.value).getD 0)
        ((d.size.map Amount.value).getD 0) (d.mask.getD 0) with
    | error reason => simp
    | ok part => simp

/-- Cloning succeeds when a table has room for the definers, and holds a valid table of them. -/
theorem cloneTable_eq_ok_iff {ds : List Definer} {t : Table} :
    (cloneTable ds).result = .ok t ↔
      ds.length ≤ maxPartitions ∧ ∃ ps, clonePartitions [] ds = .ok ps ∧
        t = Table.ofPartitions ps ∧ t.validate = .ok () := by
  unfold cloneTable
  simp only [Outcome.fail_bind, Outcome.result_guard_eq_ok_iff, Outcome.result_bind_eq_ok_iff,
    Outcome.lift_grammarExcept, Outcome.result_ofExcept_eq_ok_iff, Nat.not_lt]
  refine and_congr_right fun _ => exists_congr fun ps => and_congr_right fun _ => ?_
  obtain ⟨n, hn⟩ := result_warnOverlaps Error (Table.ofPartitions ps)
  constructor
  · rintro ⟨⟨⟩, hvalid, -, -, h⟩
    obtain rfl := Except.ok.inj h
    exact ⟨rfl, Outcome.mapError_eq_ok_iff.mp hvalid⟩
  · rintro ⟨rfl, hvalid⟩
    exact ⟨(), Outcome.mapError_eq_ok_iff.mpr hvalid, n, hn, rfl⟩

/-! ## Creating -/

theorem createTable_eq_ok_iff {ds : List Definer} {t : Table} :
    (createTable ds capacity options).result = .ok t ↔
      ∃ base q settled, (Table.vendorLayout capacity options).result = .ok base ∧
        (appendAll options (Placer.fresh capacity base.partitions) ds).result = .ok q ∧
        (q.settle options).result = .ok settled ∧
        (finish capacity settled.partitions).result = .ok t := by
  unfold createTable
  simp only [Outcome.result_bind_eq_ok_iff, Outcome.lift_layout,
    Outcome.result_ofLogged_eq_ok_iff, Placer.start_result]
  constructor
  · rintro ⟨base, hbase, p, hp, q, hq, settled, hsettled, h⟩
    obtain rfl := Except.ok.inj hp
    exact ⟨base, q, settled, hbase, hq, hsettled, h⟩
  · rintro ⟨base, q, settled, hbase, hq, hsettled, h⟩
    exact ⟨base, hbase, _, rfl, q, hq, settled, hsettled, h⟩

/-! ## Editing -/

theorem editTable_eq_ok_iff {base t : Table} {es : List Editor} :
    (editTable base es capacity options).result = .ok t ↔
      ∃ q settled, (editAll options (Placer.fresh capacity base.partitions) es).result = .ok q ∧
        (q.settle options).result = .ok settled ∧
        (finish capacity settled.partitions).result = .ok t := by
  unfold editTable
  simp only [Outcome.result_bind_eq_ok_iff, Outcome.lift_layout,
    Outcome.result_ofLogged_eq_ok_iff, Placer.start_result]
  constructor
  · rintro ⟨p, hp, q, hq, settled, hsettled, h⟩
    obtain rfl := Except.ok.inj hp
    exact ⟨q, settled, hq, hsettled, h⟩
  · rintro ⟨q, settled, hq, hsettled, h⟩
    exact ⟨_, rfl, q, hq, settled, hsettled, h⟩

end EmmcLayout.Layout
