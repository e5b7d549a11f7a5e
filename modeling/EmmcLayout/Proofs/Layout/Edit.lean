import EmmcLayout.Proofs.Layout.Run

/-!
# Edits compose

An edit may be carried out in one go or in two, with a table in between: `editTable_append`.  What
the table in between does not hold is a partition that waits for its size, so the statement asks
that none waits where the lists meet, or that the second list does not notice: it settles at once.

The cursor of a run is recomputed from the table when the second edit starts.  That the two agree is
the invariant `Placer.Coherent`.
-/

namespace EmmcLayout.Layout

variable {options : LayoutOptions} {capacity : UInt64} {p q : Placer}

/-- Every definer that leaves its size out has a modifier somewhere behind it. -/
def SettledEnd (es : List Editor) : Prop :=
  ∀ d tail, .definer d :: tail <:+ es → d.size = none → ∃ m, .modifier m ∈ tail

/-- The first step, if there is one, settles what waits. -/
def SettlesFirst (es : List Editor) : Prop :=
  es = [] ∨ ∃ m rest, es = .modifier m :: rest

/-! ## What waits at the end of a run -/

/-- A step leaves a waiting partition only where one waited already or the step starts one. -/
theorem waiting_of_editStep {e : Editor} (h : (editStep options p e).result = .ok q)
    (hq : q.waiting ≠ none) :
    ∃ d, e = .definer d ∧ (p.waiting ≠ none ∨ d.size = none) := by
  cases e with
  | definer d =>
      refine ⟨d, rfl, ?_⟩
      by_cases hw : p.waiting = none
      · right
        obtain ⟨part, -, rfl⟩ := Placer.append_eq_ok_iff.mp h
        cases hd : d.size with
        | none => rfl
        | some amount =>
            rw [hd, Option.isSome_some, Placer.push_sized hw] at hq
            exact absurd rfl hq
      · left
        exact hw
  | modifier m =>
      obtain ⟨settled, partitions, -, -, rfl⟩ := editStep_modifier_eq_ok_iff.mp h
      exact absurd rfl hq

/-- What waits at the end of a run waited all along, or was started behind the last modifier. -/
theorem waiting_of_editAll {es : List Editor} (h : (editAll options p es).result = .ok q)
    (hq : q.waiting ≠ none) :
    (p.waiting ≠ none ∧ ∀ m, .modifier m ∉ es) ∨
      ∃ d tail, .definer d :: tail <:+ es ∧ d.size = none ∧ ∀ m, .modifier m ∉ tail := by
  induction es generalizing p with
  | nil =>
      obtain rfl := Except.ok.inj h
      left
      exact ⟨hq, by simp⟩
  | cons e es ih =>
      obtain ⟨p', hp', h⟩ := Outcome.result_bind_eq_ok_iff.mp h
      rcases ih h with ⟨hwaiting, hnone⟩ | ⟨d, tail, hsuffix, hd, hnone⟩
      -- it waited behind the first step already: the step left it, or started it
      · obtain ⟨d, rfl, hstarted | hd⟩ := waiting_of_editStep hp' hwaiting
        · left
          refine ⟨hstarted, ?_⟩
          intro m hm
          rcases List.mem_cons.mp hm with habsurd | hm
          · exact Editor.noConfusion habsurd
          · exact hnone m hm
        · right
          exact ⟨d, es, List.suffix_rfl, hd, hnone⟩
      · right
        exact ⟨d, tail, hsuffix.trans (List.suffix_cons e es), hd, hnone⟩

theorem waiting_of_settledEnd {es : List Editor} (hes : SettledEnd es) {ps : List Partition}
    (h : (editAll options (Placer.fresh capacity ps) es).result = .ok q) : q.waiting = none := by
  by_contra hq
  rcases waiting_of_editAll h hq with ⟨hstart, -⟩ | ⟨d, tail, hsuffix, hd, hnone⟩
  · exact hstart rfl
  · obtain ⟨m, hm⟩ := hes d tail hsuffix hd
    exact hnone m hm

theorem capacity_of_editStep {e : Editor} (h : (editStep options p e).result = .ok q)
    (hp : p.Coherent) : q.cursor.capacity = p.cursor.capacity := by
  cases e with
  | definer d => exact Placer.capacity_of_append h
  | modifier m =>
      obtain ⟨settled, partitions, hsettled, -, rfl⟩ := editStep_modifier_eq_ok_iff.mp h
      obtain ⟨-, rfl⟩ := (Placer.settle_eq_ok_iff hp).mp hsettled
      show (p.resolved (p.room options)).cursor.capacity = _
      rw [Placer.capacity_resolved]

/-! ## Runs from any state -/

/-- The rest of an edit: the editors that are left, then settling and the checks at the end. -/
def resume (options : LayoutOptions) (capacity : UInt64) (p : Placer) (es : List Editor) :
    Except Error Table := do
  let q ← (editAll options p es).result
  let settled ← (q.settle options).result.mapError Error.layout
  (finish capacity settled.partitions).result

theorem editTable_result (base : Table) (es : List Editor) :
    (editTable base es capacity options).result =
      resume options capacity (Placer.fresh capacity base.partitions) es := by
  rw [editTable, Logged.result_bind, Placer.start_result]
  simp only [Outcome.ok_bind, Logged.result_bind]
  rfl

theorem resume_append (as bs : List Editor) :
    resume options capacity p (as ++ bs) =
      (editAll options p as).result >>= fun q => resume options capacity q bs := by
  rw [resume, editAll_append]
  cases (editAll options p as).result with
  | error e => rfl
  | ok q => rfl

/-- Editors that settle first do not notice that it was done before. -/
theorem resume_of_settled {es : List Editor} (hes : SettlesFirst es)
    (h : (p.settle options).result = .ok q) (hq : q.waiting = none) :
    resume options capacity q es = resume options capacity p es := by
  have hagain : (q.settle options).result = (p.settle options).result := by
    rw [h, Placer.settle_of_settled hq]
  rcases hes with rfl | ⟨m, rest, rfl⟩
  · show (q.settle options).result.mapError _ >>= _ = (p.settle options).result.mapError _ >>= _
    rw [hagain]
  · have hstep : (editStep options q (.modifier m)).result =
        (editStep options p (.modifier m)).result := by
      simp only [editStep, Logged.result_bind, Outcome.lift_layout, Outcome.result_ofLogged, hagain]
    rw [resume, resume, editAll, editAll, Logged.result_bind, Logged.result_bind, hstep]

/-! ## The two ways agree -/

/-- **Edits compose.**  When the first edit succeeds, going on from its table gives the same table,
or the same failure, as one edit with both lists. -/
theorem editTable_append {base t : Table} {as bs : List Editor}
    (hmeet : SettledEnd as ∨ SettlesFirst bs)
    (h : (editTable base as capacity options).result = .ok t) :
    (editTable t bs capacity options).result =
      (editTable base (as ++ bs) capacity options).result := by
  rw [editTable_result, resume] at h
  obtain ⟨p, hrun, h⟩ := Outcome.bind_eq_ok_iff.mp h
  obtain ⟨q, hsettle, hfinish⟩ := Outcome.bind_eq_ok_iff.mp h
  rw [Outcome.mapError_eq_ok_iff] at hsettle
  obtain ⟨rfl, -, -⟩ := finish_eq_ok_iff.mp hfinish
  -- the state in which the first edit ends
  obtain ⟨hcoherent, hcapacity⟩ : p.Coherent ∧ p.cursor.capacity = capacity :=
    editAll_keeps (I := fun x => x.Coherent ∧ x.cursor.capacity = capacity)
      (fun hx hstep => ⟨hx.1.editStep hstep, (capacity_of_editStep hstep hx.1).trans hx.2⟩)
      ⟨Placer.coherent_fresh _ _, rfl⟩ hrun
  -- is the state in which the second edit starts, once it is settled
  obtain ⟨-, hq⟩ := (Placer.settle_eq_ok_iff hcoherent).mp hsettle
  have hwaiting : q.waiting = none := by
    rw [hq]
    exact Placer.waiting_resolved _ _
  have hstart : Placer.fresh capacity q.partitions = q := by
    have hfresh := (hcoherent.settle hsettle).eq_fresh hwaiting
    rw [hq, Placer.capacity_resolved, hcapacity, ← hq] at hfresh
    exact hfresh.symm
  rw [editTable_result, editTable_result, resume_append, hrun, Outcome.ok_bind]
  show resume options capacity (Placer.fresh capacity q.partitions) bs = _
  rw [hstart]
  rcases hmeet with hend | hfirst
  · have hnone := waiting_of_settledEnd hend hrun
    rw [Placer.settle_of_settled hnone] at hsettle
    rw [Except.ok.inj hsettle]
  · exact resume_of_settled hfirst hsettle hwaiting

/-- A partition that waits where the lists meet, and is deleted by the second list. -/
theorem editTable_append_of_autofill :
    ∃ t, (editTable Table.empty
        [.definer ⟨"boot", none, some (.absolute 0x1001), none⟩,
          .definer ⟨"data", none, none, none⟩] 0x100000 {}).result = .ok t ∧
      (editTable t [.modifier ⟨.byIndex (-1), .delete⟩] 0x100000 {}).result =
        (editTable Table.empty
          [.definer ⟨"boot", none, some (.absolute 0x1001), none⟩,
            .definer ⟨"data", none, none, none⟩, .modifier ⟨.byIndex (-1), .delete⟩] 0x100000
          {}).result := by
  obtain ⟨t, ht⟩ : ∃ t, (editTable Table.empty
      [.definer ⟨"boot", none, some (.absolute 0x1001), none⟩,
        .definer ⟨"data", none, none, none⟩] 0x100000 {}).result = .ok t := by
    apply Outcome.exists_ok_of_isOk
    rw [editTable_result, resume]
    simp only [finish_result]
    decide +kernel
  exact ⟨t, ht, editTable_append (.inr (.inr ⟨_, _, rfl⟩)) ht⟩

end EmmcLayout.Layout
