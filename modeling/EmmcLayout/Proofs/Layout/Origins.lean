import EmmcLayout.Proofs.Layout.Creation
import EmmcLayout.Proofs.Layout.Edit
import EmmcLayout.Proofs.Layout.Modify

/-!
# Where the partitions of an edited table come from

An edit that only places definers, deletes and moves never lets a partition run into another:
`editTable_keeps_apart`.  The overlaps that it leaves are those the base had before.

Every partition is followed through the run with its origin, a slot of the base or the step that
placed it (`Traced`).  Placing a definer adds one behind all others (`Traced.append`), settling
moves only what was placed by definers (`Traced.resolved`), and a modifier passes on some of the
partitions in some order (`exists_subperm_of_modify`), which is all that `Traced` needs of it.

While the edit runs, a partition of the base may leave the word.  Ends are therefore compared
saturated; the check at the end of the edit makes them exact.
-/

namespace EmmcLayout

namespace Partition

/-- The address lies within the partition. -/
def Covers (p : Partition) (address : Nat) : Prop :=
  p.offset.toNat ≤ address ∧ address < p.stop

/-- One of the two ends before the other one starts. -/
def Clear (a b : Partition) : Prop :=
  a.stopSat.toNat ≤ b.offset.toNat ∨ b.stopSat.toNat ≤ a.offset.toNat

theorem Clear.symm {a b : Partition} (h : Clear a b) : Clear b a :=
  Or.symm h

theorem Before.clear {a b : Partition} (h : a.Before b) : Clear a b := by
  left
  rw [toNat_stopSat]
  exact Nat.le_trans (Nat.min_le_left _ _) h

theorem before_or_before_of_clear {a b : Partition} (h : Clear a b) (ha : a.stop < UInt64.size)
    (hb : b.stop < UInt64.size) : a.Before b ∨ b.Before a := by
  rwa [Clear, toNat_stopSat_of_lt ha, toNat_stopSat_of_lt hb] at h

theorem Before.shift {a b : Partition} (h : a.Before b) {amount : UInt64}
    (ha : a.offset.toNat + amount.toNat < UInt64.size)
    (hb : b.offset.toNat + amount.toNat < UInt64.size) :
    (a.shift amount).Before (b.shift amount) := by
  rw [Before, stop_shift ha, toNat_offset_shift hb]
  exact Nat.add_le_add_right h _

/-- Partitions that stay within the word and are clear of each other share no address. -/
theorem Clear.not_covers {a b : Partition} (h : Clear a b) (ha : a.stop < UInt64.size)
    (hb : b.stop < UInt64.size) {address : Nat} (hcover : a.Covers address) :
    ¬ b.Covers address := by
  rintro ⟨hfrom, hto⟩
  obtain ⟨hfrom', hto'⟩ := hcover
  rcases before_or_before_of_clear h ha hb with hbefore | hbefore
  · rw [Before] at hbefore
    omega
  · rw [Before] at hbefore
    omega

end Partition

namespace Layout

variable {options : LayoutOptions} {p q : Placer} {d : Definer} {x : Partition}

/-! ## Origins -/

/-- The slot is all that its definer says of it: name and mask, alignment, the size where one is
given, and the offset where it is given as an address. -/
structure Serves (options : LayoutOptions) (d : Definer) (slot : Partition) : Prop
    extends Fulfils options d slot where
  size_eq : ∀ amount, d.size = some amount →
    slot.size.toNat = roundUp options.alignment.toNat amount.value.toNat
  offset_eq : ∀ offset, d.offset = some (.absolute offset) →
    slot.offset.toNat = roundUp options.alignment.toNat offset.toNat

theorem Placer.Accepts.serves (h : Placer.Accepts options p d x) : Serves options d x where
  toFulfils := h.fulfils
  size_eq := by
    intro amount hd
    have hsize := h.size_eq
    rw [hd] at hsize
    exact hsize
  offset_eq := by
    intro offset hd
    obtain ⟨wanted, hwanted, hoffset⟩ := h.offset_eq
    rw [Placer.wantedOffset_eq_ok_iff, hd] at hwanted
    rw [hoffset, hwanted.2.2]

/-- Behind a partition that waits, nothing is placed at an address. -/
theorem Placer.Accepts.offset_ne_absolute (h : Placer.Accepts options p d x)
    (hw : p.waiting ≠ none) (offset : UInt64) : d.offset ≠ some (.absolute offset) := by
  intro hd
  obtain ⟨wanted, hwanted, -⟩ := h.offset_eq
  rw [Placer.wantedOffset_eq_ok_iff, hd] at hwanted
  exact hw hwanted.1

/-- A slot without a size of its own can take any. -/
theorem Serves.with_size (h : Serves options d x) (hd : d.size = none) {amount : UInt64}
    (hamount : Aligned options.alignment.toNat amount.toNat) :
    Serves options d { x with size := amount } where
  toFulfils := h.toFulfils.with_size hamount
  size_eq := by simp [hd]
  offset_eq := h.offset_eq

/-- A slot without an address of its own can move. -/
theorem Serves.shift (h : Serves options d x) (hd : ∀ offset, d.offset ≠ some (.absolute offset))
    {amount : UInt64} (hamount : Aligned options.alignment.toNat amount.toNat)
    (hfits : x.offset.toNat + amount.toNat < UInt64.size) : Serves options d (x.shift amount) where
  toFulfils := h.toFulfils.shift hamount hfits
  size_eq := h.size_eq
  offset_eq offset habsolute := absurd habsolute (hd offset)

/-- Where a partition of an edited table comes from. -/
inductive Origin
  /-- A slot of the base. -/
  | kept (slot : Nat)
  /-- The definer at this place among the editors. -/
  | placed (step : Nat)
  deriving DecidableEq

/-- The partition is the slot of the base, unchanged, or serves the definer. -/
def Origin.Explains (options : LayoutOptions) (base : List Partition) (es : List Editor) :
    Origin → Partition → Prop
  | .kept slot, x => base[slot]? = some x
  | .placed step, x => ∃ d, es[step]? = some (.definer d) ∧ Serves options d x

variable {base : List Partition} {es done : List Editor} {e : Editor}
  {slots : List (Origin × Partition)}

theorem definer_unique {step : Nat} {d' : Definer} (hd : es[step]? = some (.definer d))
    (hd' : es[step]? = some (.definer d')) : d = d' :=
  Editor.definer.inj (Option.some.inj (hd.symm.trans hd'))

theorem definer_append {step : Nat} (hd : done[step]? = some (.definer d)) (es : List Editor) :
    (done ++ es)[step]? = some (.definer d) := by
  obtain ⟨hlt, -⟩ := List.getElem?_eq_some_iff.mp hd
  rw [List.getElem?_append_left hlt, hd]

/-- Further editors change no origin. -/
theorem Origin.Explains.append {o : Origin} (h : o.Explains options base done x)
    (es : List Editor) : o.Explains options base (done ++ es) x := by
  cases o with
  | kept slot => exact h
  | placed step =>
      obtain ⟨d, hd, hserves⟩ := h
      exact ⟨d, definer_append hd es, hserves⟩

/-- Both come from the base, or they are clear of each other. -/
def Apart (s t : Origin × Partition) : Prop :=
  ((∃ a, s.1 = .kept a) ∧ ∃ b, t.1 = .kept b) ∨ s.2.Clear t.2

/-- Within the word, only partitions of the base share an address. -/
theorem Apart.kept_of_covers {s t : Origin × Partition} (h : Apart s t)
    (hs : s.2.stop < UInt64.size) (ht : t.2.stop < UInt64.size) {address : Nat}
    (hcoverS : s.2.Covers address) (hcoverT : t.2.Covers address) :
    (∃ a, s.1 = .kept a) ∧ ∃ b, t.1 = .kept b := by
  rcases h with hkept | hclear
  · exact hkept
  · exact absurd hcoverT (hclear.not_covers hs ht hcoverS)

theorem Apart.symm {s t : Origin × Partition} (h : Apart s t) : Apart t s :=
  h.imp And.symm Partition.Clear.symm

/-- The definer of this origin leaves open where its partition lies. -/
def Floating (done : List Editor) (o : Origin) : Prop :=
  ∃ step d, o = .placed step ∧ done[step]? = some (.definer d) ∧
    ∀ offset, d.offset ≠ some (.absolute offset)

theorem Floating.append {o : Origin} (h : Floating done o) (es : List Editor) :
    Floating (done ++ es) o := by
  obtain ⟨step, d, ho, hd, hoffset⟩ := h
  exact ⟨step, d, ho, definer_append hd es, hoffset⟩

/-- What waits was placed by a definer without a size, and what lies behind it can still move. -/
def WaitsIn (done : List Editor) (p : Placer) (slots : List (Origin × Partition)) : Prop :=
  ∀ w, p.waiting = some w → ∃ front behind step d,
    slots = front ++ (.placed step, w.partition) :: behind ∧ front.map Prod.snd = p.placed ∧
      done[step]? = some (.definer d) ∧ d.size = none ∧ ∀ s ∈ behind, Floating done s.1

/-- The partitions of a placement with their origins in the base and in the editors done so far. -/
structure Traced (options : LayoutOptions) (base : List Partition) (done : List Editor)
    (p : Placer) (slots : List (Origin × Partition)) : Prop where
  partitions_eq : slots.map Prod.snd = p.partitions
  explained : ∀ s ∈ slots, s.1.Explains options base done s.2
  distinct : (slots.map Prod.fst).Nodup
  apart : slots.Pairwise Apart
  waiting : WaitsIn done p slots

/-! ## Steps -/

theorem traced_fresh (options : LayoutOptions) (capacity : UInt64) (base : List Partition) :
    Traced options base [] (Placer.fresh capacity base)
      (base.zipIdx.map fun s => (.kept s.2, s.1)) where
  partitions_eq := by
    rw [List.map_map]
    exact List.zipIdx_map_fst 0 base
  explained := by
    intro s hs
    obtain ⟨⟨x, slot⟩, hx, rfl⟩ := List.mem_map.mp hs
    exact List.mem_zipIdx_iff_getElem?.mp hx
  distinct := by
    have horigins :
        (base.zipIdx.map fun s => ((.kept s.2, s.1) : Origin × Partition)).map Prod.fst =
          (List.range' 0 base.length).map Origin.kept := by
      rw [List.map_map, ← List.zipIdx_map_snd, List.map_map]
      rfl
    rw [horigins]
    exact List.Nodup.map (fun a b h => Origin.kept.inj h) List.nodup_range'
  apart := by
    refine List.pairwise_map.mpr (List.pairwise_of_forall ?_)
    intro s t
    exact .inl ⟨⟨_, rfl⟩, ⟨_, rfl⟩⟩
  waiting := by
    intro w hw
    exact absurd hw (by simp [Placer.fresh])

theorem getElem?_length_append (done : List Editor) (d : Definer) :
    (done ++ [Editor.definer d])[done.length]? = some (.definer d) := by
  rw [List.getElem?_append_right (Nat.le_refl _), Nat.sub_self]
  rfl

/-- The next step has placed nothing yet. -/
theorem Traced.placed_notMem (hp : Traced options base done p slots) :
    .placed done.length ∉ slots.map Prod.fst := by
  intro hmem
  obtain ⟨s, hs, ho⟩ := List.mem_map.mp hmem
  have hexplained := hp.explained s hs
  rw [ho] at hexplained
  obtain ⟨d, hd, -⟩ := hexplained
  obtain ⟨hlt, -⟩ := List.getElem?_eq_some_iff.mp hd
  exact Nat.lt_irrefl _ hlt

/-- A partition that is placed waits, or joins what lies behind the one that does. -/
theorem Traced.waitsIn_push (hp : Traced options base done p slots) {part : Partition}
    (h : Placer.Accepts options p d part) :
    WaitsIn (done ++ [.definer d]) (p.push d.size.isSome part part.stopSat)
      (slots ++ [(.placed done.length, part)]) := by
  intro w hw
  have hnew := getElem?_length_append done d
  cases hpw : p.waiting with
  | some w' =>
      rw [Placer.push_of_waiting hpw] at hw ⊢
      obtain rfl := Option.some.inj hw
      obtain ⟨front, behind, step, d', rfl, hfront, hd', hsize, hfloating⟩ := hp.waiting w' hpw
      refine ⟨front, behind ++ [(.placed done.length, part)], step, d', ?_, hfront,
        definer_append hd' _, hsize, List.forall_mem_append.mpr ⟨?_, ?_⟩⟩
      · rw [List.append_assoc]
        rfl
      · intro s hs
        exact (hfloating s hs).append _
      · intro s hs
        rw [List.mem_singleton.mp hs]
        exact ⟨done.length, d, rfl, hnew, h.offset_ne_absolute (by simp [hpw])⟩
  | none =>
      cases hd : d.size with
      | some amount =>
          rw [hd, Option.isSome_some, Placer.push_sized hpw] at hw
          exact absurd hw (by simp)
      | none =>
          rw [hd, Option.isSome_none, Placer.push_unsized hpw] at hw
          rw [Option.isSome_none, Placer.push_unsized hpw]
          obtain rfl := Option.some.inj hw
          refine ⟨slots, [], done.length, d, rfl, ?_, hnew, hd, by simp⟩
          rw [hp.partitions_eq, Placer.partitions_of_settled hpw]

/-- Placing a definer adds one partition behind all others. -/
theorem Traced.append (hc : p.Coherent) (hp : Traced options base done p slots)
    (h : (p.append options d).result = .ok q) :
    ∃ slots', Traced options base (done ++ [.definer d]) q slots' := by
  obtain ⟨part, haccepts, rfl⟩ := Placer.append_eq_ok_iff.mp h
  refine ⟨slots ++ [(.placed done.length, part)], ?_, List.forall_mem_append.mpr ⟨?_, ?_⟩, ?_, ?_,
    hp.waitsIn_push haccepts⟩
  · rw [Placer.partitions_push, List.map_append, hp.partitions_eq]
    rfl
  · intro s hs
    exact (hp.explained s hs).append _
  · intro s hs
    rw [List.mem_singleton.mp hs]
    exact ⟨d, getElem?_length_append done d, haccepts.serves⟩
  · rw [List.map_append, List.nodup_append]
    refine ⟨hp.distinct, List.nodup_singleton _, ?_⟩
    intro o ho o' ho' heq
    rw [heq, List.mem_singleton.mp ho'] at ho
    exact hp.placed_notMem ho
  · refine List.pairwise_append.mpr ⟨hp.apart, List.pairwise_singleton _ _, ?_⟩
    intro s hs t ht
    rw [List.mem_singleton.mp ht]
    have hmem : s.2 ∈ p.partitions := by
      rw [← hp.partitions_eq]
      exact List.mem_map_of_mem hs
    have hstop := Table.stopSat_le_reach hmem
    rw [hc.reach_eq] at hstop
    exact .inr (.inl (Nat.le_trans hstop haccepts.nextFree_le_offset))

/-! ## Settling -/

/-- The slot with its partition moved. -/
def moveSlot (amount : UInt64) (s : Origin × Partition) : Origin × Partition :=
  (s.1, s.2.shift amount)

theorem map_fst_moveSlot (amount : UInt64) (slots : List (Origin × Partition)) :
    (slots.map (moveSlot amount)).map Prod.fst = slots.map Prod.fst := by
  rw [List.map_map]
  rfl

theorem map_snd_moveSlot (amount : UInt64) (slots : List (Origin × Partition)) :
    (slots.map (moveSlot amount)).map Prod.snd =
      (slots.map Prod.snd).map (Partition.shift amount) := by
  rw [List.map_map, List.map_map]
  rfl

/-- What settling leaves of the slots, with the partition that waited in the middle. -/
def resolvedSlots (front behind : List (Origin × Partition)) (o : Origin) (x : Partition)
    (amount : UInt64) : List (Origin × Partition) :=
  front ++ (o, { x with size := amount }) :: behind.map (moveSlot amount)

theorem Floating.explains_shift {o : Origin} (h : Floating done o)
    (hx : o.Explains options base done x) {amount : UInt64}
    (hamount : Aligned options.alignment.toNat amount.toNat)
    (hfits : x.offset.toNat + amount.toNat < UInt64.size) :
    o.Explains options base done (x.shift amount) := by
  obtain ⟨step, d, rfl, hd, hoffset⟩ := h
  obtain ⟨d', hd', hserves⟩ := hx
  obtain rfl := definer_unique hd hd'
  exact ⟨d, hd, hserves.shift hoffset hamount hfits⟩

/-- Two slots that a definer placed are clear of each other. -/
theorem Apart.clear {s t : Origin × Partition} (h : Apart s t) (hs : Floating done s.1) :
    s.2.Clear t.2 := by
  obtain ⟨step, d, ho, -, -⟩ := hs
  rcases h with ⟨⟨a, ha⟩, -⟩ | hclear
  · rw [ho] at ha
    exact Origin.noConfusion ha
  · exact hclear

/-- Growing the partition that waits and moving all behind it by as much keeps them apart. -/
theorem apart_resolvedSlots (hc : p.Coherent) {w : Waiting} (hw : p.waiting = some w)
    {front behind : List (Origin × Partition)} {o : Origin}
    (hfront : front.map Prod.snd = p.placed) (hbehind : behind.map Prod.snd = w.behind)
    (hfloating : ∀ s ∈ behind, Floating done s.1)
    (hapart : (front ++ (o, w.partition) :: behind).Pairwise Apart) {amount : UInt64}
    (hfits : p.cursor.nextFree.toNat + amount.toNat < UInt64.size) :
    (resolvedSlots front behind o w.partition amount).Pairwise Apart := by
  obtain ⟨hfrontApart, hrest, -⟩ := List.pairwise_append.mp hapart
  obtain ⟨-, hbehindApart⟩ := List.pairwise_cons.mp hrest
  have hmem : ∀ s ∈ behind, s.2 ∈ w.behind := fun s hs => hbehind ▸ List.mem_map_of_mem hs
  have hfits' : ∀ s ∈ behind, s.2.offset.toNat + amount.toNat < UInt64.size :=
    fun s hs => hc.behind_fits hw hfits s.2 (hmem s hs)
  have hbetween : ∀ s ∈ behind, w.partition.offset.toNat ≤ s.2.offset.toNat ∧
      s.2.stop ≤ p.cursor.nextFree.toNat := fun s hs => hc.behind_le w hw s.2 (hmem s hs)
  -- what is placed ends where the waiting partition starts, or before
  have hplaced : ∀ s ∈ front, ∀ y : Partition,
      w.partition.offset.toNat ≤ y.offset.toNat → s.2.Clear y := by
    intro s hs y hy
    have hreach := Table.stopSat_le_reach (hfront ▸ List.mem_map_of_mem hs : s.2 ∈ p.placed)
    exact .inl (Nat.le_trans hreach (Nat.le_trans (hc.placed_le w hw) hy))
  rw [resolvedSlots, List.pairwise_append, List.pairwise_cons, List.pairwise_map]
  refine ⟨hfrontApart, ⟨?_, ?_⟩, ?_⟩
  -- the waiting partition against those behind it
  · intro t ht
    obtain ⟨s, hs, rfl⟩ := List.mem_map.mp ht
    have hle := (hbetween s hs).1
    refine .inr (Partition.Before.clear ?_)
    rw [Partition.Before, moveSlot, Partition.toNat_offset_shift (hfits' s hs)]
    exact Nat.add_le_add_right hle _
  -- those behind it among themselves
  · refine hbehindApart.imp_of_mem ?_
    intro s t hs ht hst
    have hlt : p.cursor.nextFree.toNat < UInt64.size := p.cursor.nextFree.toNat_lt
    rcases Partition.before_or_before_of_clear (hst.clear (hfloating s hs))
      (Nat.lt_of_le_of_lt (hbetween s hs).2 hlt) (Nat.lt_of_le_of_lt (hbetween t ht).2 hlt)
      with hbefore | hbefore
    · exact .inr (hbefore.shift (hfits' s hs) (hfits' t ht)).clear
    · exact .inr (hbefore.shift (hfits' t ht) (hfits' s hs)).clear.symm
  -- those in front of it against all others
  · intro s hs t ht
    right
    rcases List.mem_cons.mp ht with rfl | ht
    · exact hplaced s hs _ (Nat.le_refl _)
    · obtain ⟨b, hb, rfl⟩ := List.mem_map.mp ht
      refine hplaced s hs _ ?_
      rw [moveSlot, Partition.toNat_offset_shift (hfits' b hb)]
      exact Nat.le_trans (hbetween b hb).1 (Nat.le_add_right _ _)

/-- Settling gives a size to the partition that waits, and moves only what lies behind it. -/
theorem Traced.resolved (hc : p.Coherent) (hp : Traced options base done p slots)
    {amount : UInt64} (hamount : Aligned options.alignment.toNat amount.toNat)
    (hfits : p.waiting ≠ none → p.cursor.nextFree.toNat + amount.toNat < UInt64.size) :
    ∃ slots', Traced options base done (p.resolved amount) slots' := by
  cases hw : p.waiting with
  | none =>
      rw [Placer.resolved_of_none hw]
      exact ⟨slots, hp⟩
  | some w =>
      replace hfits := hfits (by simp [hw])
      obtain ⟨front, behind, step, d, rfl, hfront, hd, hsize, hfloating⟩ := hp.waiting w hw
      have hbehind : behind.map Prod.snd = w.behind := by
        have heq := hp.partitions_eq
        rw [Placer.partitions_of_waiting hw, List.map_append, hfront] at heq
        exact (List.cons.inj (List.append_cancel_left heq)).2
      obtain ⟨hexplainedFront, hexplained⟩ := List.forall_mem_append.mp hp.explained
      obtain ⟨⟨d', hd', hserves⟩, hexplainedBehind⟩ := List.forall_mem_cons.mp hexplained
      obtain rfl := definer_unique hd hd'
      refine ⟨resolvedSlots front behind (.placed step) w.partition amount, ?_, ?_, ?_,
        apart_resolvedSlots hc hw hfront hbehind hfloating hp.apart hfits, ?_⟩
      · rw [Placer.partitions_of_settled (Placer.waiting_resolved amount p),
          Placer.resolved_of_some hw, resolvedSlots, List.map_append, List.map_cons,
          map_snd_moveSlot, hfront, hbehind]
      · refine List.forall_mem_append.mpr ⟨hexplainedFront, List.forall_mem_cons.mpr
          ⟨⟨d, hd, hserves.with_size hsize hamount⟩, ?_⟩⟩
        intro t ht
        obtain ⟨s, hs, rfl⟩ := List.mem_map.mp ht
        refine (hfloating s hs).explains_shift (hexplainedBehind s hs) hamount ?_
        exact hc.behind_fits hw hfits s.2 (hbehind ▸ List.mem_map_of_mem hs)
      · rw [resolvedSlots, List.map_append, List.map_cons, map_fst_moveSlot]
        have hdistinct := hp.distinct
        rwa [List.map_append, List.map_cons] at hdistinct
      · intro w' hw'
        rw [Placer.waiting_resolved] at hw'
        exact absurd hw' (by simp)

/-! ## Modifiers -/

/-- If it is a modifier at all, it deletes or moves. -/
def Rearranges (e : Editor) : Prop :=
  ∀ m, e = .modifier m → m.operation = .delete ∨ ∃ placement, m.operation = .place placement

/-- Such a modifier passes on some of the slots, in some order. -/
theorem exists_subperm_of_modify {alignment : UInt64} {m : Modifier}
    (hm : Rearranges (.modifier m)) {after : List Partition}
    (h : (modify alignment (slots.map Prod.snd) m).result = .ok after) :
    ∃ slots' : List (Origin × Partition),
      slots'.Subperm slots ∧ slots'.map Prod.snd = after := by
  obtain ⟨index, entry, -, hentry, h⟩ := modify_eq_ok_iff.mp h
  obtain ⟨hindex, -⟩ := List.getElem?_eq_some_iff.mp hentry
  rcases hm m rfl with hop | ⟨placement, hop⟩
  · rw [hop, operate_delete_iff, List.eraseIdx_map] at h
    exact ⟨slots.eraseIdx index, (List.eraseIdx_sublist slots index).subperm, h.symm⟩
  · rw [hop, operate_place_iff] at h
    obtain ⟨target, htarget, rfl⟩ := h
    rw [List.length_map] at hindex htarget
    split
    · exact ⟨slots, List.Subperm.refl slots, rfl⟩
    · exact ⟨moveEntry index target slots, (moveEntry_perm hindex (target_lt htarget)).subperm,
        map_moveEntry _ _ _ _⟩

/-- A placement that starts over behind some of the slots knows where they come from. -/
theorem Traced.resync (hp : Traced options base done p slots)
    {slots' : List (Origin × Partition)} (h : slots'.Subperm slots) (e : Editor) :
    Traced options base (done ++ [e]) (p.resync (slots'.map Prod.snd)) slots' where
  partitions_eq := rfl
  explained s hs := (hp.explained s (h.subset hs)).append _
  distinct := List.pairwise_map.mpr
    (pairwise_of_subperm Ne.symm h (List.pairwise_map.mp hp.distinct))
  apart := pairwise_of_subperm Apart.symm h hp.apart
  waiting w hw := absurd hw (by simp [Placer.resync])

/-! ## Runs -/

theorem Traced.settle (hc : p.Coherent) (hp : Traced options base done p slots)
    (h : (p.settle options).result = .ok q) : ∃ slots', Traced options base done q slots' := by
  obtain ⟨hle, rfl⟩ := (Placer.settle_eq_ok_iff hc).mp h
  exact hp.resolved hc (Placer.aligned_room options p) (Placer.room_fits options hle)

theorem Traced.editStep (hc : p.Coherent) (hp : Traced options base done p slots)
    (he : Rearranges e) (h : (editStep options p e).result = .ok q) :
    ∃ slots', Traced options base (done ++ [e]) q slots' := by
  cases e with
  | definer d => exact hp.append hc h
  | modifier m =>
      obtain ⟨settled, partitions, hsettled, hmodify, rfl⟩ := editStep_modifier_eq_ok_iff.mp h
      obtain ⟨slots', hslots'⟩ := hp.settle hc hsettled
      rw [← hslots'.partitions_eq] at hmodify
      obtain ⟨rest, hrest, rfl⟩ := exists_subperm_of_modify he hmodify
      exact ⟨rest, hslots'.resync hrest (.modifier m)⟩

theorem traced_of_editAll (hes : ∀ e ∈ es, Rearranges e) (hc : p.Coherent)
    (hp : Traced options base done p slots) (h : (editAll options p es).result = .ok q) :
    q.Coherent ∧ ∃ slots', Traced options base (done ++ es) q slots' := by
  induction es generalizing p done slots with
  | nil =>
      obtain rfl := Except.ok.inj h
      rw [List.append_nil]
      exact ⟨hc, slots, hp⟩
  | cons e es ih =>
      obtain ⟨he, hes⟩ := List.forall_mem_cons.mp hes
      obtain ⟨p', hp', h⟩ := Outcome.result_bind_eq_ok_iff.mp h
      obtain ⟨slots', hslots'⟩ := hp.editStep hc he hp'
      obtain ⟨hcoherent, slots'', hslots''⟩ := ih hes (hc.editStep hp') hslots' h
      rw [List.append_assoc] at hslots''
      exact ⟨hcoherent, slots'', hslots''⟩

theorem apart_of_ne (h : slots.Pairwise Apart) {i j : Nat} (hij : i ≠ j)
    {s t : Origin × Partition} (hs : slots[i]? = some s) (ht : slots[j]? = some t) :
    Apart s t := by
  obtain ⟨hi, rfl⟩ := List.getElem?_eq_some_iff.mp hs
  obtain ⟨hj, rfl⟩ := List.getElem?_eq_some_iff.mp ht
  rw [List.pairwise_iff_getElem] at h
  rcases Nat.lt_or_gt_of_ne hij with hlt | hgt
  · exact h i j hi hj hlt
  · exact (h j i hj hi hgt).symm

/-- The origins say of each partition of the table where it comes from: a slot of the base as it
was, each slot at most once, or a definer, each definer at most once.  Two partitions that share an
address are both slots of the base. -/
structure AccountFor (options : LayoutOptions) (base : Table) (es : List Editor) (t : Table)
    (origins : List Origin) : Prop where
  distinct : origins.Nodup
  explained : List.Forall₂ (Origin.Explains options base.partitions es) origins t.partitions
  overlaps_kept : ∀ (i j : Nat) (x y : Partition) (address : Nat), i ≠ j →
    t.partitions[i]? = some x → t.partitions[j]? = some y →
      x.Covers address → y.Covers address →
        ∃ a b, origins[i]? = some (.kept a) ∧ origins[j]? = some (.kept b)

/-- **Placing, deleting and moving create no overlap.**  Where the modifiers of an edit only delete
and move, each partition of the edited table is a slot of the base, unchanged, or was placed by a
definer, and only slots of the base overlap. -/
theorem editTable_keeps_apart {base t : Table} {capacity : UInt64}
    (hes : ∀ e ∈ es, Rearranges e)
    (h : (editTable base es capacity options).result = .ok t) :
    ∃ origins, AccountFor options base es t origins := by
  obtain ⟨p, settled, hrun, hsettle, hfinish⟩ := editTable_eq_ok_iff.mp h
  obtain ⟨hcoherent, slots, hslots⟩ := traced_of_editAll hes (Placer.coherent_fresh _ _)
    (traced_fresh options capacity base.partitions) hrun
  obtain ⟨slots, hslots⟩ := hslots.settle hcoherent hsettle
  obtain ⟨rfl, -, hends⟩ := finish_eq_ok_iff.mp hfinish
  rw [← hslots.partitions_eq] at hends ⊢
  -- at the end of the edit all partitions lie within the word
  have hword : ∀ s ∈ slots, s.2.stop < UInt64.size := fun s hs =>
    Nat.lt_of_le_of_lt (hends s.2 (List.mem_map_of_mem hs)) capacity.toNat_lt
  have hslot : ∀ {i : Nat} {x : Partition},
      (Table.ofPartitions (slots.map Prod.snd)).partitions[i]? = some x →
        ∃ o, slots[i]? = some (o, x) := by
    intro i x hx
    change (slots.map Prod.snd)[i]? = some x at hx
    simpa using hx
  refine ⟨slots.map Prod.fst, hslots.distinct, ?_, ?_⟩
  · show List.Forall₂ _ _ (slots.map Prod.snd)
    rw [List.forall₂_map_left_iff, List.forall₂_map_right_iff, List.forall₂_same]
    exact hslots.explained
  · intro i j x y address hij hx hy hcoverX hcoverY
    obtain ⟨o, hs⟩ := hslot hx
    obtain ⟨o', ht⟩ := hslot hy
    obtain ⟨⟨a, rfl⟩, b, rfl⟩ := (apart_of_ne hslots.apart hij hs ht).kept_of_covers
      (hword _ (List.mem_of_getElem? hs)) (hword _ (List.mem_of_getElem? ht)) hcoverX hcoverY
    exact ⟨a, b, by simp [hs], by simp [ht]⟩

/-- A base of which the first two partitions overlap. -/
def overlappingBase : Table :=
  Table.ofPartitions [Table.namedSlot "boot" 0x2000,
    { Table.namedSlot "logo" 0x2000 with offset := 0x1000 },
    { Table.namedSlot "misc" 0x1000 with offset := 0x4000 }]

/-- An edit that deletes what was placed behind the partition that takes the rest, moves a slot of
the base to the end, and places another partition in the space that became free. -/
def rearrangingEditors : List Editor :=
  [.definer ⟨"env", none, some (.absolute 0x1001), none⟩, .definer ⟨"data", none, none, none⟩,
    .definer ⟨"tail", none, some (.absolute 0x3000), none⟩, .modifier ⟨.byName "tail", .delete⟩,
    .modifier ⟨.byIndex 0, .place (.absolute 4)⟩,
    .definer ⟨"system", none, some (.absolute 0x2000), none⟩]

theorem editTable_keeps_apart_of_rearrangingEditors :
    (∀ e ∈ rearrangingEditors, Rearranges e) ∧
      ∃ t, (editTable overlappingBase rearrangingEditors 0x100000 {}).result = .ok t ∧
        ∃ origins, AccountFor {} overlappingBase rearrangingEditors t origins := by
  have hes : ∀ e ∈ rearrangingEditors, Rearranges e := by
    simp [rearrangingEditors, Rearranges]
  obtain ⟨t, ht⟩ :
      ∃ t, (editTable overlappingBase rearrangingEditors 0x100000 {}).result = .ok t := by
    apply Outcome.exists_ok_of_isOk
    rw [editTable_result, resume]
    simp only [finish_result]
    decide +kernel
  exact ⟨hes, t, ht, editTable_keeps_apart hes ht⟩

end Layout

end EmmcLayout
