import EmmcLayout.DeviceTree.Replacement
import EmmcLayout.Proofs.DeviceTree.ReadBack

/-!
# The nesting of a census

The walk of the census has one call open for each node that it is inside of, and a stack has room
for so many of them only.  `DeviceTree.nesting` says how many nodes inside the root the walk is
inside of at once.  On a stack with less room the program ends without an answer, and on every other
one the answer is the same: `PhandleCensus.ofTreeWithin_eq` for the census,
`replacePartitionsWithin_eq` for the replacement that takes one.

For proofs about the answer there is the walk that keeps the open nodes in a list (`sweep`); it
agrees with the calls wherever these have an answer (`sweep_of_visit`).

A node takes twelve bytes, its end included, so a tree of a few megabytes can need more stack than
there is: `nestedTree_overflows`.
-/

namespace EmmcLayout.DeviceTree

namespace PhandleCensus

variable {stop : FormatError} {names : Names} {room start n depth : Nat} {c : PhandleCensus}
  {steps : List Step} {hlen : steps.length ≤ n} {t : DeviceTree}

/-! ## The walk with a list -/

/-- Counts the declarations in a node and the nodes below it.  `opened` holds the offsets of the
nodes that the walk is inside of, the innermost first. -/
def sweep (stop : FormatError) (names : Names) (c : PhandleCensus) :
    List Nat → List Step → Except FormatError PhandleCensus
  | [], _ => .ok c
  | _ :: _, [] => .error stop
  | start :: outer, s :: rest =>
    match s.token with
    | .property p =>
      if names.declares p.nameOffset then
        if p.value.length = 4 then
          sweep stop names (c.add (UInt32.ofNat (Bytes.ofBE p.value))) (start :: outer) rest
        else .error (.propertyLength PropertyName.phandle.text 4 p.value.length)
      else sweep stop names c (start :: outer) rest
    | .beginNode _ => sweep stop names c (s.stop :: start :: outer) rest
    | .endNode => sweep stop names c outer rest
    | .endTree => .error (.unterminatedNode start)
    | .nop => sweep stop names c (start :: outer) rest

/-- **The calls and the list agree**: behind the node that a call has walked through, the list goes
on with the nodes around it. -/
theorem sweep_of_visit {result : Except FormatError (Visited n)}
    (h : visit stop names room start c steps hlen = some result) (outer : List Nat) :
    sweep stop names c (start :: outer) steps =
      result >>= fun v => sweep stop names v.census outer v.rest := by
  fun_induction visit stop names room start c steps hlen generalizing outer with
  | case1 =>
      obtain rfl := Option.some.inj h
      rfl
  | case2 room start c n s rest _ _ p htoken hdeclares hsize _ ih =>
      rw [sweep, htoken]
      simp only [hdeclares, hsize, if_true]
      exact ih h outer
  | case3 room start c n s rest _ _ p htoken hdeclares hsize =>
      obtain rfl := Option.some.inj h
      rw [sweep, htoken]
      simp only [hdeclares, hsize, if_true, if_false]
      rfl
  | case4 room start c n s rest _ _ p htoken hdeclares _ ih =>
      rw [sweep, htoken]
      simp only [hdeclares, Bool.false_eq_true, if_false]
      exact ih h outer
  | case5 | case6 => exact absurd h (by simp)
  | case7 start c n s rest _ _ name htoken room e hbelow _ ih =>
      obtain rfl := Option.some.inj h
      rw [sweep, htoken]
      exact ih hbelow (start :: outer)
  | case8 start c n s rest _ _ name htoken room below hbelow _ ihBelow ih =>
      -- the call for the child has left off where this node goes on
      rw [sweep, htoken]
      exact (ihBelow hbelow (start :: outer)).trans (ih h outer)
  | case9 room start c n s rest _ _ htoken
  | case10 room start c n s rest _ _ htoken =>
      obtain rfl := Option.some.inj h
      rw [sweep, htoken]
      rfl
  | case11 room start c n s rest _ _ htoken _ ih =>
      rw [sweep, htoken]
      exact ih h outer

/-! ## How deep it goes -/

/-- The most nodes inside the root that the walk is inside of at once, from where it is inside of
`depth` of them up to where it ends. -/
def nesting (names : Names) (depth : Nat) : List Step → Nat
  | [] => depth
  | s :: rest =>
    match s.token with
    | .property p =>
      if names.declares p.nameOffset ∧ p.value.length ≠ 4 then depth else nesting names depth rest
    | .beginNode _ => nesting names (depth + 1) rest
    | .endNode =>
      match depth with
      | 0 => 0
      | outer + 1 => max depth (nesting names outer rest)
    | .endTree => depth
    | .nop => nesting names depth rest

theorem le_nesting (names : Names) (depth : Nat) (steps : List Step) :
    depth ≤ nesting names depth steps := by
  fun_induction nesting names depth steps
  all_goals omega

/-- Every node that is opened takes a token. -/
theorem nesting_le (names : Names) (depth : Nat) (steps : List Step) :
    nesting names depth steps ≤ depth + steps.length := by
  fun_induction nesting names depth steps
  all_goals
    simp only [List.length_cons, List.length_nil]
    omega

theorem nesting_beginNode {s : Step} {name : Bytes} (h : s.token = .beginNode name)
    (names : Names) (depth : Nat) (rest : List Step) :
    nesting names depth (s :: rest) = nesting names (depth + 1) rest := by
  simp [nesting, h]

/-- A property of the right length, or one that declares nothing, opens and closes no node. -/
theorem nesting_property {s : Step} {p : Property} (h : s.token = .property p) (names : Names)
    (depth : Nat) (hsize : names.declares p.nameOffset → p.value.length = 4) (rest : List Step) :
    nesting names depth (s :: rest) = nesting names depth rest := by
  simp only [nesting, h]
  exact if_neg fun hbad => hbad.2 (hsize hbad.1)

/-- **The stack overflows where the nodes lie deeper than it has room for.**  A walk that leaves its
node goes on inside of one node less, if that was not the root. -/
theorem nesting_visit (stop : FormatError) (names : Names) (room start : Nat) (c : PhandleCensus)
    (steps : List Step) (hlen : steps.length ≤ n) (depth : Nat) :
    match visit stop names room start c steps hlen with
    | none => room + depth < nesting names depth steps
    | some (.error _) => ¬ room + depth < nesting names depth steps
    | some (.ok v) => room + depth < nesting names depth steps ↔
        ∃ outer, depth = outer + 1 ∧ room + depth < nesting names outer v.rest := by
  fun_induction visit stop names room start c steps hlen generalizing depth with
  | case1 => exact Nat.not_lt.mpr (Nat.le_add_left _ _)
  | case2 room start c n s rest _ _ p htoken hdeclares hsize _ ih =>
      rw [nesting_property htoken names depth fun _ => hsize]
      exact ih depth
  | case3 room start c n s rest _ _ p htoken hdeclares hsize =>
      have hends : nesting names depth (s :: rest) = depth := by
        simp [nesting, htoken, hdeclares, hsize]
      rw [hends]
      exact Nat.not_lt.mpr (Nat.le_add_left _ _)
  | case4 room start c n s rest _ _ p htoken hdeclares _ ih =>
      rw [nesting_property htoken names depth fun h => absurd h hdeclares]
      exact ih depth
  | case5 start c n s rest _ _ name htoken =>
      have hinside := le_nesting names (depth + 1) rest
      rw [nesting_beginNode htoken]
      dsimp only
      omega
  | case6 start c n s rest _ _ name htoken room hbelow _ ih
  | case7 start c n s rest _ _ name htoken room _ hbelow _ ih =>
      have hdeep := ih (depth + 1)
      rw [hbelow] at hdeep
      rw [nesting_beginNode htoken]
      dsimp only at hdeep ⊢
      omega
  | case8 start c n s rest _ _ name htoken room below hbelow _ ihBelow ih =>
      -- behind the child the walk is inside of as many nodes as in front of it
      have hchild := ihBelow (depth + 1)
      rw [hbelow] at hchild
      have hsame : room + 1 + depth < nesting names depth (s :: rest) ↔
          room + 1 + depth < nesting names depth below.rest := by
        rw [nesting_beginNode htoken, Nat.add_right_comm room 1 depth]
        simpa [Nat.add_assoc] using hchild
      simp only [Nat.succ_eq_add_one, hsame]
      exact ih depth
  | case9 room start c n s rest _ _ htoken =>
      cases depth with
      | zero => simp [nesting, htoken]
      | succ outer =>
          simp only [nesting, htoken, Nat.add_right_cancel_iff, exists_eq_left']
          omega
  | case10 room start c n s rest _ _ htoken =>
      have hends : nesting names depth (s :: rest) = depth := by simp [nesting, htoken]
      rw [hends]
      exact Nat.not_lt.mpr (Nat.le_add_left _ _)
  | case11 room start c n s rest _ _ htoken _ ih =>
      have hnext : nesting names depth (s :: rest) = nesting names depth rest := by
        simp [nesting, htoken]
      rw [hnext]
      exact ih depth

/-- The walk through the whole tree overflows where it has nodes that lie deeper than the stack has
room for. -/
theorem visit_eq_none_iff :
    visit stop names room start c steps hlen = none ↔ room < nesting names 0 steps := by
  have hdeep := nesting_visit stop names room start c steps hlen 0
  split at hdeep
  · rename_i hnone
    simpa [hnone] using hdeep
  · rename_i e herror
    simpa [herror] using hdeep
  · rename_i v hok
    simpa [hok] using hdeep

end PhandleCensus

/-- The most nodes inside the root that a census of the tree is inside of at once.  A census that
does not get to the root is inside of none. -/
def nesting (t : DeviceTree) : Nat :=
  match PhandleCensus.entry t with
  | .error _ => 0
  | .ok (names, root) => PhandleCensus.nesting names 0 (t.runAt root.body).steps

/-- A tree with nodes inside each other takes the more bytes. -/
theorem four_mul_nesting_le (t : DeviceTree) : 4 * t.nesting ≤ t.structBlock.length := by
  unfold nesting
  split
  · exact Nat.zero_le _
  · rename_i names root _
    have hle := PhandleCensus.nesting_le names 0 (t.runAt root.body).steps
    have htokens := Cursor.four_mul_length_le (Cursor.ofBlock t.structBlock root.body)
    have hdrop : (t.structBlock.drop root.body).length ≤ t.structBlock.length := by
      rw [List.length_drop]
      omega
    have hrun : 4 * (t.runAt root.body).steps.length ≤ (t.structBlock.drop root.body).length :=
      htokens
    omega

namespace PhandleCensus

variable {t : DeviceTree} {room : Nat} {counting : Except FormatError PhandleCensus}

theorem tallyWithin_eq_none_iff : tallyWithin room t = none ↔ room < t.nesting := by
  unfold tallyWithin DeviceTree.nesting
  cases entry t with
  | error e => simp
  | ok found =>
      dsimp only
      rw [Option.map_eq_none_iff, visit_eq_none_iff]

/-- Whatever the stack, the answer is the one of the walk with a list. -/
theorem eq_sweep_of_tallyWithin (h : tallyWithin room t = some counting) :
    counting = entry t >>= fun (names, root) =>
      sweep (t.runAt root.body).failure names empty [root.start] (t.runAt root.body).steps := by
  unfold tallyWithin at h
  split at h
  · rename_i e hentry
    rw [hentry]
    exact (Option.some.inj h).symm
  · rename_i names root hentry
    obtain ⟨result, hvisit, rfl⟩ := Option.map_eq_some_iff.mp h
    rw [hentry, Outcome.ok_bind]
    refine Eq.trans ?_ (sweep_of_visit hvisit []).symm
    cases result with
    | error e => rfl
    | ok v =>
        rw [Outcome.ok_bind, sweep]
        rfl

theorem tally_eq_sweep (t : DeviceTree) :
    tally t = entry t >>= fun (names, root) =>
      sweep (t.runAt root.body).failure names empty [root.start] (t.runAt root.body).steps :=
  eq_sweep_of_tallyWithin (Option.some_get _).symm

/-- **The stack decides whether there is a census, and nothing else about it.** -/
theorem ofTreeWithin_eq (room : Nat) (t : DeviceTree) :
    ofTreeWithin room t = if room < t.nesting then none else some (ofTree t) := by
  rw [ofTreeWithin, ofTree]
  split
  · rename_i hdeep
    rw [tallyWithin_eq_none_iff.mpr hdeep]
    rfl
  · rename_i hfits
    obtain ⟨counting, hcounting⟩ := Option.ne_none_iff_exists'.mp
      (mt tallyWithin_eq_none_iff.mp hfits)
    rw [hcounting, tally_eq_sweep, ← eq_sweep_of_tallyWithin hcounting]
    rfl

end PhandleCensus

/-! ## Replacing -/

/-- How deep the census goes that a replacement takes.  It takes none when the tree or its
partitions cannot be read. -/
def replacementNesting (b : Bytes) : Nat :=
  match (Located.ofBytes b).result with
  | .error _ => 0
  | .ok old => old.tree.nesting

/-- **The stack decides whether a replacement ends, and nothing else about it.** -/
theorem replacePartitionsWithin_eq (room : Nat) (b : Bytes) (records : List Record) :
    replacePartitionsWithin room b records =
      if room < replacementNesting b then none else some (replacePartitions b records) := by
  unfold replacePartitionsWithin replacementNesting
  cases hlocate : (Located.ofBytes b).result with
  | error e =>
      have hfails : replacePartitions b records = ⟨(Located.ofBytes b).notes, .error e⟩ := by
        show Logged.andThen _ _ = _
        rw [Logged.andThen, hlocate]
      simp only [hlocate, hfails, Nat.not_lt_zero, if_false]
  | ok old =>
      simp only [hlocate, PhandleCensus.ofTreeWithin_eq]
      split
      · rfl
      · refine congrArg some ?_
        show Logged.andThen _ _ = Logged.andThen _ _
        rw [Logged.andThen, Logged.andThen, hlocate]

/-! ## A tree that lies deep -/

/-- The tokens of a root that declares the phandle 1, with `n` nodes below it, each inside the one
before. -/
def nestedEmissions (n : Nat) : List Emission :=
  .beginNode [] :: .word PropertyName.phandle.bytes 1 ::
    (List.replicate n (.beginNode []) ++ (List.replicate n .endNode ++ [.endNode, .endTree]))

/-- The tree of these tokens. -/
def nestedTree (n : Nat) : Bytes :=
  let written := emitAll ⟨[]⟩ (nestedEmissions n)
  assemble {} emptyReservations written.1 written.2.bytes

/-- What follows the declaration in the root: the nodes below it, and the end. -/
theorem emitAll_nested (s : StringsBlock) (n : Nat) :
    ∃ b, emitAll s (List.replicate n (.beginNode []) ++
        (List.replicate n .endNode ++ [.endNode, .endTree])) = (b, s) ∧ b.length = 8 + 12 * n := by
  have hbegin : (emit s (.beginNode [])).1.length = 8 := rfl
  have hend : (emit s .endNode).1.length = 4 := rfl
  have hlast : (s.render [.endNode, .endTree]).length = 8 := rfl
  refine ⟨_, StringsBlock.emitAll_of_knows ?_, ?_⟩
  · -- none of these tokens has a name that goes into the strings block
    simp [StringsBlock.Knows, or_imp, forall_and, emit]
  · rw [StringsBlock.render_append, StringsBlock.render_append, List.length_append,
      List.length_append, hlast]
    simp only [StringsBlock.render, List.length_flatMap, List.map_replicate, List.sum_replicate_nat,
      hbegin, hend]
    omega

/-- A node takes twelve bytes, its end included, and all the rest of the tree 96. -/
theorem length_nestedTree (n : Nat) : (nestedTree n).length = 96 + 12 * n := by
  have hbegin : (emit ⟨[]⟩ (.beginNode [])).1.length = 8 := rfl
  have hreserved : (padded emptyReservations).length = 16 := rfl
  obtain ⟨hword, hstrings⟩ : (emit ⟨[]⟩ (.word PropertyName.phandle.bytes 1)).1.length = 16 ∧
      (emit ⟨[]⟩ (.word PropertyName.phandle.bytes 1)).2.bytes.length = 8 := by
    decide +kernel
  obtain ⟨b, hbelow, hlen⟩ := emitAll_nested (emit ⟨[]⟩ (.word PropertyName.phandle.bytes 1)).2 n
  have hroot : emitAll ⟨[]⟩ (nestedEmissions n) = ((emit ⟨[]⟩ (.beginNode [])).1 ++
      ((emit ⟨[]⟩ (.word PropertyName.phandle.bytes 1)).1 ++ b),
      (emit ⟨[]⟩ (.word PropertyName.phandle.bytes 1)).2) := by
    have hopened : (emit ⟨[]⟩ (.beginNode [])).2 = ⟨[]⟩ := rfl
    rw [nestedEmissions, emitAll_cons, emitAll_cons, hopened, hbelow]
  rw [nestedTree, hroot, length_assemble, hreserved, List.length_append, List.length_append,
    hbegin, hword, hlen, hstrings, headerLength]
  omega

/-- Nodes that open one inside the other lie as deep as there are of them. -/
theorem PhandleCensus.le_nesting_of_readsAs {s : StringsBlock} {es : List Emission}
    {steps : List Step} (names : Names) (n depth : Nat) (more : List Step)
    (h : List.Forall₂ (fun (e : Emission) (step : Step) => e.ReadsAs s step.token)
      (List.replicate n (.beginNode []) ++ es) steps) :
    n + depth ≤ nesting names depth (steps ++ more) := by
  induction n generalizing depth steps with
  | zero =>
      rw [Nat.zero_add]
      exact le_nesting names depth _
  | succ n ih =>
      rw [List.replicate_succ, List.cons_append] at h
      cases h with
      | @cons _ step _ rest hreads hrest =>
          generalize htoken : step.token = token at hreads
          cases hreads
          have hdeep := ih (depth + 1) hrest
          rw [List.cons_append, nesting_beginNode htoken]
          omega

/-- The census goes through the tokens behind the root. -/
theorem nesting_of_spelling {t : DeviceTree} {name : Bytes} {s : Step} {steps : List Step}
    {phandle : UInt32} (hphandle : t.stringsBlock.find? PropertyName.phandle.bytes = some phandle)
    (htoken : s.token = .beginNode name) (hspelling : Spelling 0 (s :: steps) t.structBlock) :
    ∃ more, t.nesting = PhandleCensus.nesting
      ⟨phandle, t.stringsBlock.find? PropertyName.linuxPhandle.bytes⟩ 0 (steps ++ more) := by
  obtain ⟨a, b, hblock, rfl, htail⟩ : ∃ a b, t.structBlock = a ++ b ∧
      s = ⟨0, .beginNode name, a.length⟩ ∧ Spelling a.length steps b := by
    generalize t.structBlock = block at hspelling
    cases hspelling with
    | @cons _ token _ a b _ htail =>
        obtain rfl : token = .beginNode name := htoken
        rw [Nat.zero_add] at htail
        exact ⟨a, b, rfl, by rw [Nat.zero_add], htail⟩
  have hrun := Cursor.run_of_spelling hspelling []
  have hbehind := Cursor.run_of_spelling htail []
  rw [List.append_nil] at hrun hbehind
  have hroot : t.root = .ok ⟨name, 0, a.length⟩ := by
    rw [root, runAt, Cursor.ofBlock, List.drop_zero, hrun]
    rfl
  refine ⟨(⟨[], a.length + b.length⟩ : Cursor).run.steps, ?_⟩
  rw [nesting, PhandleCensus.entry, hphandle, hroot]
  show PhandleCensus.nesting _ 0 (t.runAt a.length).steps = _
  rw [runAt, Cursor.ofBlock, hblock, List.drop_left, hbehind]

/-- The tree opens, its root is found, and the census goes as deep as the tree was made. -/
theorem le_nesting_nestedTree {n : Nat} (hlen : 96 + 12 * n < UInt32.size) :
    ∃ t, DeviceTree.ofBytes (nestedTree n) = .ok t ∧ n ≤ t.nesting := by
  rw [← length_nestedTree] at hlen
  have hopened := ofBytes_assemble hlen []
  rw [List.append_nil] at hopened
  refine ⟨_, hopened, ?_⟩
  have hlegal : ∀ e ∈ nestedEmissions n, e.Legal := by
    intro e he
    simp only [nestedEmissions, List.mem_cons, List.mem_append, List.mem_replicate] at he
    rcases he with rfl | rfl | ⟨-, rfl⟩ | ⟨-, rfl⟩ | rfl | rfl | ⟨⟨⟩⟩
    all_goals decide
  have hstrings : (emitAll ⟨[]⟩ (nestedEmissions n)).2.bytes.length < UInt32.size := by
    rw [nestedTree, length_assemble] at hlen
    omega
  have hpos : 0 % 4 = 0 := rfl
  obtain ⟨steps, hspelling, hreads⟩ := spelling_emitAll hlegal hpos hstrings (.refl _)
  cases hreads with
  | @cons _ root _ _ hroot hreads =>
      cases hreads with
      | @cons _ word _ rest hword hrest =>
          generalize htoken : root.token = token at hroot
          generalize hproperty : word.token = property at hword
          cases hroot
          cases hword with
          | @property _ _ offset phandle hphandle =>
              obtain ⟨more, hnesting⟩ :=
                nesting_of_spelling (t := ⟨_, _, _, _⟩) hphandle htoken hspelling
              rw [hnesting, List.cons_append,
                PhandleCensus.nesting_property hproperty _ _ fun _ => rfl]
              exact PhandleCensus.le_nesting_of_readsAs _ n 0 more hrest

/-- **A tree that lies deeper than the stack has room for is not counted.** -/
theorem nestedTree_overflows {n room : Nat} (hlen : 96 + 12 * n < UInt32.size) (hroom : room < n) :
    ∃ t, DeviceTree.ofBytes (nestedTree n) = .ok t ∧ PhandleCensus.ofTreeWithin room t = none := by
  obtain ⟨t, hopened, hnesting⟩ := le_nesting_nestedTree hlen
  refine ⟨t, hopened, ?_⟩
  rw [PhandleCensus.ofTreeWithin_eq, if_pos (Nat.lt_of_lt_of_le hroom hnesting)]

end EmmcLayout.DeviceTree
