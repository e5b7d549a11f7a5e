import EmmcLayout.Proofs.DeviceTree.CarriedOver
import EmmcLayout.Proofs.Ranges

/-!
# Ranges of a device tree

No bytes make a walk over a device tree cut out a range that is not there.  The tokens of a run lie
within the block (`Cursor.start_add_four_le`), so that every node that is found starts there and
ends there, and the checks on the header cover the blocks and the reservations.  `Walkable` gathers
what this means for a tree that was opened, and `failsOnly_replacePartitions` is about the tree that
is put together anew.
-/

namespace EmmcLayout.DeviceTree

/-! ## Tokens -/

namespace Cursor

variable {c c' : Cursor} {t : Token}

theorem guarded_word (c : Cursor) : Guarded c.word := by
  unfold word
  split
  · exact .ok _
  · exact Guarded.error_iff.mpr trivial

theorem guarded_nodeName (c : Cursor) : Guarded c.nodeName.1 := by
  unfold nodeName
  split
  · exact .ok _
  · exact Guarded.error_iff.mpr trivial

theorem guarded_propertyBody (offset : Nat) (c : Cursor) :
    Guarded (c.propertyBody offset).1 := by
  unfold propertyBody
  split
  · rename_i e hword
    exact Guarded.error_iff.mpr (guarded_word c e hword)
  · rename_i e _ hword
    exact Guarded.error_iff.mpr (guarded_word _ e hword)
  · dsimp only
    split
    · exact .ok _
    · exact Guarded.error_iff.mpr trivial

theorem guarded_next (c : Cursor) : Guarded c.next.1 := by
  unfold next
  split
  · rename_i e hword
    exact Guarded.error_iff.mpr (guarded_word c e hword)
  · dsimp only
    split
    · exact guarded_nodeName _
    · exact guarded_propertyBody _ _
    · exact .ok _
    · exact .ok _
    · exact .ok _
    · exact Guarded.error_iff.mpr trivial

/-- What ends a run is in the block. -/
theorem blamesInput_failure (c : Cursor) : c.run.failure.BlamesInput := by
  induction c using next_induction with
  | failed c e c' hnext =>
      rw [run_of_error hnext]
      apply guarded_next c
      rw [hnext]
  | read c t c' hnext ih =>
      rw [run_of_ok hnext]
      exact ih

/-- **Every token lies in the block**, its tag at least. -/
theorem start_add_four_le (block : Bytes) (pos : Nat) :
    ∀ s ∈ (ofBlock block pos).run.steps, s.start + 4 ≤ block.length := by
  generalize hc : ofBlock block pos = c
  induction c using next_induction generalizing pos with
  | failed c e c' hnext =>
      rw [run_of_error hnext]
      simp
  | read c t c' hnext ih =>
      subst hc
      have hfour := length_next_add_four_le hnext
      rw [run_of_ok hnext]
      refine List.forall_mem_cons.mpr ⟨?_, ih _ (next_ofBlock hnext).symm⟩
      show pos + 4 ≤ block.length
      simp only [ofBlock, List.length_drop] at hfour
      omega

end Cursor

/-! ## Walks -/

namespace Walk

variable {stop : FormatError} {steps : List Step} {s : Step}

/-- The token that a skip ends with is one that it has read. -/
theorem mem_of_skip {halt : Halt} {start depth : Nat} (h : skip halt start depth steps = .ok s) :
    s ∈ steps := by
  fun_induction skip halt start depth steps with
  | case1 => exact absurd h (by simp)
  | case2 depth s' rest name htoken ih => exact List.mem_cons_of_mem _ (ih h)
  | case3 s' rest htoken =>
      rw [Except.ok.inj h]
      exact List.mem_cons_self
  | case4 s' rest htoken depth ih => exact List.mem_cons_of_mem _ (ih h)
  | case5 => exact absurd h (by simp)
  | case6 depth s' rest p htoken ih => exact List.mem_cons_of_mem _ (ih h)
  | case7 depth s' rest htoken ih => exact List.mem_cons_of_mem _ (ih h)

theorem guarded_skip {halt : Halt} (hhalt : halt.failure.BlamesInput) (start depth : Nat)
    (steps : List Step) : Guarded ((skip halt start depth steps).mapError Halt.failure) := by
  fun_induction skip halt start depth steps
  all_goals first
    | assumption
    | exact .ok _
    | exact Guarded.error_iff.mpr hhalt
    | exact Guarded.error_iff.mpr trivial

variable (hstop : stop.BlamesInput)
include hstop

theorem guarded_root (steps : List Step) : Guarded (root stop steps) := by
  fun_induction root stop steps
  all_goals first
    | assumption
    | exact .ok _
    | exact Guarded.error_iff.mpr hstop
    | exact Guarded.error_iff.mpr trivial

/-- A search goes on, ends with an answer, or fails as the block does. -/
theorem guarded_findChild (parent : Nat) (name : Bytes) (place : Place) (steps : List Step) :
    Guarded (findChild stop parent name place steps) := by
  fun_induction findChild stop parent name place steps
  all_goals first
    | assumption
    | exact .ok _
    | exact Guarded.error_iff.mpr hstop
    | exact Guarded.error_iff.mpr trivial

theorem blamesInput_of_properties {ps : List Property} {e : FormatError}
    (h : properties stop steps = (ps, some e)) : e.BlamesInput := by
  induction steps generalizing ps with
  | nil =>
      obtain ⟨-, he⟩ := Prod.mk.inj h
      rw [← Option.some.inj he]
      exact hstop
  | cons s steps ih =>
      rw [properties] at h
      cases htoken : s.token with
      | property p =>
          simp only [htoken] at h
          obtain ⟨-, hfailure⟩ := Prod.mk.inj h
          exact ih (Prod.ext rfl hfailure)
      | nop =>
          simp only [htoken] at h
          exact ih h
      | beginNode name => simp [htoken] at h
      | endNode => simp [htoken] at h
      | endTree => simp [htoken] at h

theorem guarded_findProperty (nameOffset : UInt32) (steps : List Step) :
    Guarded (findProperty stop nameOffset steps) := by
  fun_induction findProperty stop nameOffset steps
  all_goals first
    | assumption
    | exact .ok _
    | exact Guarded.error_iff.mpr hstop

end Walk

/-! ## Opening -/

theorem guarded_recordedSize (b : Bytes) : Guarded (recordedSize b) := by
  simp [recordedSize, checkMagic, FormatError.BlamesInput]

theorem Header.guarded_ofBytes (b : Bytes) : Guarded (Header.ofBytes b) := by
  simp [Header.ofBytes]

theorem guarded_checkHeader (size : Nat) (h : Header) : Guarded (checkHeader size h) := by
  simp [checkHeader, FormatError.BlamesInput]

/-- The blocks of a header that was checked lie in the tree. -/
theorem fits_of_checkHeader {size : Nat} {h : Header} (hcheck : checkHeader size h = .ok ()) :
    h.structOffset.toNat + h.structSize.toNat ≤ size ∧
      h.stringsOffset.toNat + h.stringsSize.toNat ≤ size ∧ h.reservationOffset.toNat ≤ size := by
  unfold checkHeader at hcheck
  split at hcheck
  · exact absurd hcheck (by simp)
  rename_i hstruct
  split at hcheck
  · exact absurd hcheck (by simp)
  rename_i hstrings
  split at hcheck
  · exact absurd hcheck (by simp)
  rename_i hreserved
  simp only [not_or, Bool.not_eq_true', Bool.not_eq_false, blockFits, Bool.and_eq_true,
    decide_eq_true_eq] at hstruct hstrings hreserved
  exact ⟨hstruct.2.1, hstrings.1, by simpa using hreserved.2.1⟩

theorem guarded_block {b : Bytes} {offset size : UInt32}
    (h : offset.toNat + size.toNat ≤ b.length) : Guarded (block b offset size) :=
  Bytes.guarded_cut (Nat.le_add_right _ _) h

/-- Opening a tree cuts out what its header says, after it was checked. -/
theorem guarded_ofBytes (b : Bytes) : Guarded (DeviceTree.ofBytes b) := by
  unfold DeviceTree.ofBytes
  refine Guarded.bind_iff.mpr ⟨guarded_recordedSize b, fun size hsize => ?_⟩
  by_cases hshort : b.length < size
  · rw [if_pos hshort]
    exact Guarded.error_iff.mpr trivial
  rw [if_neg hshort]
  refine Guarded.bind_iff.mpr
    ⟨Bytes.guarded_cut (Nat.zero_le _) (Nat.le_of_not_lt hshort), fun bytes hbytes => ?_⟩
  obtain ⟨hlen, -⟩ := Bytes.cut_zero_eq_ok_iff.mp hbytes
  refine Guarded.bind_iff.mpr ⟨Header.guarded_ofBytes bytes, fun header hheader => ?_⟩
  refine Guarded.bind_iff.mpr ⟨guarded_checkHeader size header, fun _ hcheck => ?_⟩
  obtain ⟨hstruct, hstrings, -⟩ := fits_of_checkHeader hcheck
  refine Guarded.bind_iff.mpr ⟨guarded_block (by rw [hlen]; exact hstruct), fun _ _ => ?_⟩
  exact Guarded.bind_iff.mpr
    ⟨guarded_block (by rw [hlen]; exact hstrings), fun _ _ => Guarded.ok _⟩

/-! ## Nodes -/

variable {t : DeviceTree} {node : Node} {names : List Bytes} {path : String}

theorem blamesInput_runAt (t : DeviceTree) (offset : Nat) : (t.runAt offset).failure.BlamesInput :=
  Cursor.blamesInput_failure _

theorem guarded_root (t : DeviceTree) : Guarded t.root :=
  Walk.guarded_root (blamesInput_runAt t 0) _

theorem guarded_findChild (t : DeviceTree) (parent : Node) (name : Bytes) :
    Guarded (t.findChild parent name) :=
  Walk.guarded_findChild (blamesInput_runAt t parent.body) _ _ _ _

theorem guarded_descend (t : DeviceTree) (node : Node) (names : List Bytes) :
    Guarded (t.descend node names) := by
  fun_induction descend t node names with
  | case1 => exact .ok _
  | case2 node name names e hchild =>
      exact Guarded.error_iff.mpr (guarded_findChild t node name e hchild)
  | case3 => exact .ok _
  | case4 node name names child hchild ih => exact ih

theorem guarded_findNode (t : DeviceTree) (path : String) : Guarded (t.findNode path) := by
  unfold findNode
  split
  · exact Guarded.bind_iff.mpr ⟨guarded_root t, fun _ _ => guarded_descend t _ _⟩
  · exact Guarded.error_iff.mpr trivial

theorem nodeStop_eq (t : DeviceTree) (node : Node) :
    t.nodeStop node = ((Walk.skip
      ⟨(t.runAt node.body).failure, (t.runAt node.body).position⟩ node.body 0
        (t.runAt node.body).steps).mapError Halt.failure).map (·.start + 4) := by
  have hrun : (Cursor.ofBlock t.structBlock node.body).run = t.runAt node.body := rfl
  have hposition : (Cursor.ofBlock t.structBlock node.body).position = node.body := rfl
  simp only [nodeStop, Cursor.skipNode, hrun, hposition]
  cases Walk.skip ⟨(t.runAt node.body).failure, (t.runAt node.body).position⟩ node.body 0
    (t.runAt node.body).steps with
  | ok s => rfl
  | error halt => rfl

theorem guarded_nodeStop (t : DeviceTree) (node : Node) : Guarded (t.nodeStop node) := by
  rw [nodeStop_eq, Guarded.map_iff]
  exact Walk.guarded_skip (blamesInput_runAt t node.body) _ _ _

theorem guarded_propertyValue (t : DeviceTree) (node : Node) (nameOffset : UInt32) :
    Guarded (t.propertyValue node nameOffset) :=
  Guarded.map_iff.mpr (Walk.guarded_findProperty (blamesInput_runAt t node.body) _ _)

/-- The node starts in the block, in front of its content. -/
structure Starts (t : DeviceTree) (node : Node) : Prop where
  start_lt_body : node.start < node.body
  start_le : node.start + 4 ≤ t.structBlock.length

theorem starts_of_mem {offset : Nat} {s : Step} (hs : s ∈ (t.runAt offset).steps) (name : Bytes) :
    Starts t ⟨name, s.start, s.stop⟩ :=
  ⟨Cursor.start_lt_stop _ s hs, Cursor.start_add_four_le _ _ s hs⟩

theorem starts_of_root (h : t.root = .ok node) : Starts t node := by
  obtain ⟨nops, s, after, hsteps, -, hstart, hstop, -⟩ := Walk.root_split h
  have hs : s ∈ (t.runAt 0).steps := by
    rw [hsteps]
    simp
  obtain ⟨hlt, hle⟩ := starts_of_mem hs node.name
  rw [hstart] at hle
  rw [hstart, hstop] at hlt
  exact ⟨hlt, hle⟩

theorem starts_of_findChild {parent : Node} {name : Bytes}
    (h : t.findChild parent name = .ok (some node)) : Starts t node := by
  obtain ⟨before, s, after, hsteps, -, rfl, -⟩ := Walk.findChild_split h
  have hs : s ∈ (t.runAt parent.body).steps := by
    rw [hsteps]
    simp
  exact starts_of_mem hs name

theorem starts_of_descend {node' : Node} (hnode : Starts t node)
    (h : t.descend node names = .ok (some node')) : Starts t node' := by
  fun_induction descend t node names with
  | case1 =>
      obtain rfl := Option.some.inj (Except.ok.inj h)
      exact hnode
  | case2 => exact absurd h (by simp)
  | case3 => exact absurd h (by simp)
  | case4 node name names child hchild ih => exact ih (starts_of_findChild hchild) h

/-- **Every node that is found starts in the block.** -/
theorem starts_of_findNode (h : t.findNode path = .ok (some node)) : Starts t node := by
  unfold findNode at h
  split at h
  · obtain ⟨root, hroot, hdescend⟩ := Outcome.bind_eq_ok_iff.mp h
    exact starts_of_descend (starts_of_root hroot) hdescend
  · exact absurd h (by simp)

/-- **Where a node ends is in the block**, and behind the start of its content. -/
theorem stop_of_nodeStop {stop : Nat} (h : t.nodeStop node = .ok stop) :
    node.body < stop ∧ stop ≤ t.structBlock.length := by
  rw [nodeStop_eq, Outcome.map_eq_ok_iff] at h
  obtain ⟨s, hskip, rfl⟩ := h
  have hs := Walk.mem_of_skip (Outcome.mapError_eq_ok_iff.mp hskip)
  have hstart : node.body ≤ s.start := Cursor.position_le_start _ s hs
  exact ⟨by omega, Cursor.start_add_four_le _ _ s hs⟩

/-! ## Reservations -/

theorem guarded_reservationStop (position : Nat) (b : Bytes) :
    Guarded (reservationStop position b) := by
  fun_induction reservationStop position b
  all_goals first
    | assumption
    | exact .ok _
    | exact Guarded.error_iff.mpr trivial

/-- The reservations start in the tree, as was checked, and end where reading them ended. -/
theorem guarded_reservationBlock (h : t.Whole) : Guarded t.reservationBlock := by
  refine Guarded.bind_iff.mpr ⟨guarded_reservationStop _ _, fun stop hstop => ?_⟩
  obtain ⟨entries, -, hprefix, rfl⟩ := reservationStop_eq_ok_iff.mp hstop
  obtain ⟨-, -, hstart⟩ := fits_of_checkHeader h.checked
  have hlen := hprefix.length_le
  rw [List.length_drop] at hlen
  exact Bytes.guarded_cut (Nat.le_add_right _ _) (by omega)

/-! ## Phandles -/

namespace PhandleCensus

open Outcome (FailsOnly)

theorem guarded_sweep {stop : FormatError} (hstop : stop.BlamesInput) (names : Names)
    (c : PhandleCensus) (opened : List Nat) (steps : List Step) :
    Guarded (sweep stop names c opened steps) := by
  fun_induction sweep stop names c opened steps
  all_goals first
    | assumption
    | exact .ok _
    | exact Guarded.error_iff.mpr hstop
    | exact Guarded.error_iff.mpr trivial

theorem guarded_entry (t : DeviceTree) : Guarded (entry t) := by
  unfold entry
  split
  · exact Guarded.error_iff.mpr trivial
  · exact Guarded.bind_iff.mpr ⟨guarded_root t, fun root _ => .pure _⟩

theorem guarded_tally (t : DeviceTree) : Guarded (tally t) := by
  rw [tally_eq_sweep]
  refine Guarded.bind_iff.mpr ⟨guarded_entry t, fun ⟨names, root⟩ _ => ?_⟩
  exact guarded_sweep (blamesInput_runAt t root.body) _ _ _ _

theorem guarded_settle (c : PhandleCensus) : Guarded c.settle := by
  unfold settle
  split
  · exact Guarded.error_iff.mpr trivial
  · simp [FormatError.BlamesInput]

theorem failsOnly_ofTree (t : DeviceTree) : FailsOnly FormatError.BlamesInput (ofTree t) := by
  simp only [ofTree, conclude, Outcome.failsOnly_bind, Guarded.failsOnly_lift_iff]
  exact ⟨guarded_tally t, fun c _ => ⟨guarded_settle c, by simp⟩⟩

theorem guarded_allocate (c : PhandleCensus) : Guarded c.allocate := by
  simp [allocate, FormatError.BlamesInput]

end PhandleCensus

/-! ## The partitions node -/

namespace PartitionsNode

open Outcome (FailsOnly)

theorem guarded_ofStrings (s : StringsBlock) : Guarded (Names.ofStrings s) := by
  have hessential : ∀ n, Guarded (essential s n) := by
    intro n
    unfold essential
    split
    · exact .ok _
    · exact Guarded.error_iff.mpr trivial
  simp [Names.ofStrings, hessential]

theorem guarded_fixedValue (s : StringsBlock) (p : Property) (length : Nat) :
    Guarded (fixedValue s p length) := by
  simp [fixedValue, FormatError.BlamesInput]

theorem guarded_readOwn (s : StringsBlock) (names : Names) (node : PartitionsNode)
    (p : Property) : Guarded (readOwn s names node p) := by
  unfold readOwn wordValue
  simp only [Guarded.bind_iff, Guarded.map_iff, Guarded.ite_iff, Guarded.pure, implies_true,
    true_and]
  refine ⟨guarded_fixedValue s p 4, ?_⟩
  intro value _ _ _ _
  split
  · split
    · exact .pure _
    · exact Guarded.throw_iff.mpr trivial
  · exact Guarded.throw_iff.mpr trivial

theorem guarded_readChild (s : StringsBlock) (names : Names) (child : Child) (p : Property) :
    Guarded (readChild s names child p) := by
  simp [readChild, checkPname, wordValue, longWordValue, guarded_fixedValue,
    FormatError.BlamesInput]

theorem guarded_openChild (name : Bytes) (start : Nat) : Guarded (openChild name start) := by
  simp [openChild, FormatError.BlamesInput]

theorem guarded_closeChild (child : Child) : Guarded (closeChild child) := by
  simp [closeChild, FormatError.BlamesInput]

theorem guarded_readTokens {stop : FormatError} (hstop : stop.BlamesInput) (start : Nat)
    (s : StringsBlock) (names : Names) (node : PartitionsNode) (child : Option Child)
    (steps : List Step) : Guarded (readTokens stop start s names node child steps) := by
  fun_induction readTokens stop start s names node child steps
  all_goals first
    | assumption
    | exact .ok _
    | exact Guarded.error_iff.mpr hstop
    | exact Guarded.error_iff.mpr trivial
    -- a property that is refused, or a child
    | exact .of_error (guarded_readOwn s names _ _) (by assumption)
    | exact .of_error (guarded_readChild s names _ _) (by assumption)
    | exact .of_error (guarded_openChild _ _) (by assumption)
    | exact .of_error (guarded_closeChild _) (by assumption)

theorem guarded_locate (t : DeviceTree) : Guarded (locate t) := by
  refine Guarded.bind_iff.mpr ⟨guarded_findNode t _, fun found _ => ?_⟩
  cases found with
  | none => exact Guarded.throw_iff.mpr trivial
  | some node => exact .pure node

theorem failsOnly_read (t : DeviceTree) (node : Node) :
    FailsOnly FormatError.BlamesInput (read t node) := by
  simp only [read, Outcome.throw_bind, Outcome.failsOnly_ite, Outcome.failsOnly_throw,
    Outcome.failsOnly_bind, Outcome.failsOnly_debug, Outcome.failsOnly_pure,
    Guarded.failsOnly_lift_iff]
  refine ⟨fun _ => trivial, fun _ => ⟨guarded_ofStrings _, fun names _ => ⟨?_, fun _ _ => ?_⟩⟩⟩
  · exact guarded_readTokens (blamesInput_runAt t node.body) _ _ _ _ _ _
  · exact ⟨fun _ => trivial, fun _ => ⟨trivial, fun _ _ => trivial⟩⟩

theorem failsOnly_ofTree (t : DeviceTree) : FailsOnly FormatError.BlamesInput (ofTree t) := by
  simp only [ofTree, sort, Outcome.failsOnly_bind, Guarded.failsOnly_lift_iff]
  exact ⟨guarded_locate t, fun place _ => ⟨failsOnly_read t place, fun node _ => by simp⟩⟩

/-! ## Replacement -/

theorem guarded_assign (paired : Bool) (census : PhandleCensus) (records : List Record) :
    Guarded (assign paired census records).1 := by
  induction records generalizing census with
  | nil => exact .ok _
  | cons r rest ih =>
      unfold assign
      split
      · exact Guarded.error_iff.mpr trivial
      · split
        · rename_i e hallocate
          exact .of_error (PhandleCensus.guarded_allocate census) hallocate
        · exact Guarded.map_iff.mpr (ih _)

theorem guarded_compose (previous : PartitionsNode) (records : List Record)
    (census : PhandleCensus) (strings : StringsBlock) :
    Guarded (compose previous records census strings).1 := by
  have hassign := guarded_assign census.paired census records
  unfold compose
  split
  · exact Guarded.error_iff.mpr trivial
  · split
    · rename_i hresult
      rw [hresult] at hassign
      exact .of_error hassign rfl
    · exact .ok _

end PartitionsNode

namespace Located

open PartitionsNode

variable {b : Bytes} {old : Located}

theorem failsOnly_ofBytes (b : Bytes) : Outcome.FailsOnly FormatError.BlamesInput (ofBytes b) := by
  simp only [ofBytes, Outcome.failsOnly_bind, Guarded.failsOnly_lift_iff]
  exact ⟨guarded_ofBytes b, fun t _ => ⟨guarded_locate t, fun place _ =>
    ⟨failsOnly_read t place, fun previous _ => ⟨guarded_nodeStop t place, fun _ _ => by simp⟩⟩⟩⟩

/-- **The splice cuts the block where the old node starts and where it ends.** -/
theorem failsOnly_replace (h : (ofBytes b).result = .ok old) (records : List Record)
    (census : PhandleCensus) :
    Outcome.FailsOnly FormatError.BlamesInput (old.replace records census) := by
  obtain ⟨hopened, hlocated, -, hstop⟩ := ofBytes_eq_ok_iff.mp h
  simp only [replace, Outcome.failsOnly_bind, Guarded.failsOnly_lift_iff, Outcome.result_lift]
  refine ⟨guarded_compose _ _ _ _, fun composed _ => ?_⟩
  obtain ⟨root, -, hchild⟩ := locate_eq_ok_iff.mp hlocated
  have hstart := (starts_of_findChild hchild).start_le
  obtain ⟨-, hend⟩ := stop_of_nodeStop hstop
  refine ⟨Bytes.guarded_cut (Nat.zero_le _) (by omega), fun _ _ =>
    ⟨Bytes.guarded_cut hend (Nat.le_refl _), fun _ _ =>
      ⟨guarded_reservationBlock (DeviceTree.ofBytes_eq_ok_iff.mp hopened).1, fun _ _ => by simp⟩⟩⟩

end Located

theorem failsOnly_replacePartitions (b : Bytes) (records : List Record) :
    Outcome.FailsOnly FormatError.BlamesInput (replacePartitions b records) := by
  simp only [replacePartitions, Outcome.failsOnly_bind]
  exact ⟨Located.failsOnly_ofBytes b, fun old hold => ⟨PhandleCensus.failsOnly_ofTree old.tree,
    fun census _ => Located.failsOnly_replace hold records census⟩⟩

/-- A tree whose partitions are replaced lies no deeper than there are tags in it. -/
theorem four_mul_replacementNesting_le (b : Bytes) : 4 * replacementNesting b ≤ b.length := by
  unfold replacementNesting
  split
  · exact Nat.zero_le _
  · rename_i old hold
    obtain ⟨hopened, -⟩ := Located.ofBytes_eq_ok_iff.mp hold
    obtain ⟨hwhole, hprefix⟩ := ofBytes_eq_ok_iff.mp hopened
    obtain ⟨-, hstop, hcut⟩ := Bytes.cut_eq_ok_iff.mp hwhole.struct_eq
    have hnesting := four_mul_nesting_le old.tree
    have hblock : old.tree.structBlock.length ≤ old.tree.bytes.length := by
      rw [hcut, List.length_take, List.length_drop]
      omega
    exact Nat.le_trans hnesting (Nat.le_trans hblock hprefix.length_le)

/-! ## Opened trees -/

/-- Walks over the tree are guarded, and end, the census where the stack has room for the nesting of
the tree. -/
structure Walkable (t : DeviceTree) : Prop where
  root : Guarded t.root
  findNode : ∀ path, Guarded (t.findNode path)
  nodeStop : ∀ node, Guarded (t.nodeStop node)
  properties : ∀ node e, (t.properties node).2 = some e → e.BlamesInput
  propertyValue : ∀ node nameOffset, Guarded (t.propertyValue node nameOffset)
  reservations : Guarded t.reservationBlock
  phandles : Guarded (PhandleCensus.ofTree t).result
  /-- A census ends exactly where the stack has room for the nesting of the tree. -/
  phandlesWithin : ∀ room, PhandleCensus.ofTreeWithin room t =
    if room < t.nesting then none else some (PhandleCensus.ofTree t)
  partitions : Guarded (PartitionsNode.ofTree t).result
  /-- A node that is found lies in the structure block. -/
  within : ∀ path node stop, t.findNode path = .ok (some node) → t.nodeStop node = .ok stop →
    node.start < stop ∧ stop ≤ t.structBlock.length
  /-- A walk reads no more tokens than there are tags in the structure block. -/
  progress : ∀ offset, 4 * (t.runAt offset).steps.length ≤ t.structBlock.length
  /-- Nodes lie no deeper than there are tags in the structure block. -/
  nesting_le : 4 * t.nesting ≤ t.structBlock.length

/-- **A tree that was opened can be walked**, whatever its bytes are. -/
theorem walkable_of_ofBytes {b : Bytes} (h : DeviceTree.ofBytes b = .ok t) : t.Walkable where
  root := guarded_root t
  findNode := guarded_findNode t
  nodeStop := guarded_nodeStop t
  properties node _ he := Walk.blamesInput_of_properties (blamesInput_runAt t node.body)
    (Prod.ext rfl he)
  propertyValue := guarded_propertyValue t
  reservations := guarded_reservationBlock (ofBytes_eq_ok_iff.mp h).1
  phandles := PhandleCensus.failsOnly_ofTree t
  phandlesWithin room := PhandleCensus.ofTreeWithin_eq room t
  nesting_le := four_mul_nesting_le t
  partitions := PartitionsNode.failsOnly_ofTree t
  within path node stop hfind hstop := by
    have hbody := (starts_of_findNode hfind).start_lt_body
    obtain ⟨hlt, hle⟩ := stop_of_nodeStop hstop
    exact ⟨Nat.lt_trans hbody hlt, hle⟩
  progress offset := by
    have htokens := Cursor.four_mul_length_le (Cursor.ofBlock t.structBlock offset)
    have hdrop : (t.structBlock.drop offset).length ≤ t.structBlock.length := by
      rw [List.length_drop]
      omega
    exact Nat.le_trans htokens hdrop

end EmmcLayout.DeviceTree
