import EmmcLayout.Proofs.DeviceTree.Declarations
import EmmcLayout.Proofs.DeviceTree.Replacement
import EmmcLayout.Proofs.DeviceTree.Run

/-!
# How a new node is spliced in

A `Cut` is the content of a node taken apart around one of its children.  `exists_splice` says what
a replacement does to the tokens of the root: those in front of `/partitions` are the same in the
new tree, those behind it are alike, and those in between read as the emissions of the new node.
-/

namespace EmmcLayout.DeviceTree

variable {t : DeviceTree} {offset : Nat} {s : Step} {name : Bytes}

/-! ## Alignment -/

/-- Tokens start at multiples of four. -/
theorem start_mod_of_runAt {front back : List Step} (hmod : offset % 4 = 0)
    (h : (t.runAt offset).steps = front ++ s :: back) : s.start % 4 = 0 := by
  rw [runAt_eq] at h
  obtain ⟨a, b, -, hspelled, hrun⟩ := Cursor.spelling_of_run h
  obtain ⟨c', -, hat, -, -⟩ := Cursor.next_of_run hrun
  have hlen := hspelled.mod_length hmod
  change s.start = offset + a.length at hat
  omega

theorem stop_mod_of_runAt {front back : List Step} (hmod : offset % 4 = 0)
    (h : (t.runAt offset).steps = front ++ s :: back) (hback : back ≠ []) : s.stop % 4 = 0 := by
  have hstart := start_mod_of_runAt hmod h
  obtain ⟨a, hspelled, hstop, -, -⟩ := spelled_of_runAt h hback
  have hlen := hspelled.mod_length hstart
  omega

theorem body_mod_of_root {root : Node} (hroot : t.root = .ok root)
    (h : (t.runAt root.body).steps ≠ []) : root.body % 4 = 0 := by
  obtain ⟨nops, s, after, hsteps, -, -, hstop, -⟩ := Walk.root_split hroot
  have hafter := runAt_behind hsteps
  rw [hstop] at hafter
  rw [← hstop]
  exact stop_mod_of_runAt rfl hsteps (hafter ▸ h)

/-- A run up to some token is known from the bytes in front of that token. -/
theorem runAt_of_take {t' : DeviceTree} {front back : List Step} {rest : Bytes}
    (h : (t.runAt offset).steps = front ++ s :: back)
    (hblock : t'.structBlock = t.structBlock.take s.start ++ rest) :
    (t'.runAt offset).steps = front ++ (⟨rest, s.start⟩ : Cursor).run.steps := by
  rw [runAt_eq] at h
  obtain ⟨a, b, hdrop, hspelling, hrun⟩ := Cursor.spelling_of_run h
  obtain ⟨c', -, hat, -, -⟩ := Cursor.next_of_run hrun
  change s.start = offset + a.length at hat
  have hle : offset ≤ t.structBlock.length := by
    have hne := Cursor.rest_ne_nil_of_run (c := ⟨t.structBlock.drop offset, offset⟩) (by simp [h])
    rw [ne_eq, List.drop_eq_nil_iff] at hne
    omega
  have hfront : t.structBlock.take s.start = t.structBlock.take offset ++ a := by
    rw [hat, List.take_add, hdrop, List.take_left]
  have hdrop' : t'.structBlock.drop offset = a ++ rest := by
    rw [hblock, hfront, List.append_assoc, List.drop_left' (List.length_take_of_le hle)]
  rw [runAt_eq, hdrop', Cursor.run_of_spelling hspelling, hat]

/-- The root is known from the bytes in front of any token of its content. -/
theorem root_of_take {t' : DeviceTree} {root : Node} {front back : List Step} {rest : Bytes}
    (hroot : t.root = .ok root) (h : (t.runAt root.body).steps = front ++ s :: back)
    (hblock : t'.structBlock = t.structBlock.take s.start ++ rest) : t'.root = .ok root := by
  obtain ⟨nops, s₀, after, hsteps, -, -, hstop, hroots⟩ := Walk.root_split hroot
  obtain rfl : after = front ++ s :: back := by
    rw [← h, ← hstop]
    exact (runAt_behind hsteps).symm
  have hsteps' : (t.runAt 0).steps = (nops ++ s₀ :: front) ++ s :: back := by
    rw [List.append_assoc, List.cons_append]
    exact hsteps
  rw [DeviceTree.root, runAt_of_take hsteps' hblock, List.append_assoc, List.cons_append]
  exact hroots _ _

theorem nodeStop_of_skip {node : Node} {e : Step}
    (h : ∀ halt, Walk.skip halt node.body 0 (t.runAt node.body).steps = .ok e) :
    t.nodeStop node = .ok (e.start + 4) := by
  have hrun : (Cursor.ofBlock t.structBlock node.body).run = t.runAt node.body := rfl
  have hposition : (Cursor.ofBlock t.structBlock node.body).position = node.body := rfl
  simp only [nodeStop, Cursor.skipNode, hrun, hposition, h]
  rfl

/-! ## Cuts -/

/-- The tokens behind the name of a node, taken apart around one of its children. -/
structure Cut where
  front : List Step
  /-- The token that opens the child. -/
  opens : Step
  inner : List Step
  /-- The token that closes the child. -/
  closes : Step
  back : List Step
  /-- The token that closes the node. -/
  last : Step
  more : List Step

namespace Cut

variable {cut : Cut}

/-- The content of the node. -/
def content (cut : Cut) : List Step :=
  cut.front ++ cut.opens :: (cut.inner ++ cut.closes :: cut.back)

/-- The tokens behind the name of the node. -/
def steps (cut : Cut) : List Step :=
  cut.front ++ cut.opens :: (cut.inner ++ cut.closes :: (cut.back ++ cut.last :: cut.more))

/-- The child is the first one of this name. -/
structure Around (cut : Cut) (name : Bytes) : Prop where
  front : Without name cut.front
  opens : cut.opens.token = .beginNode name
  inner : Content cut.inner
  closes : cut.closes.token = .endNode
  back : Content cut.back
  last : cut.last.token = .endNode

theorem steps_eq (cut : Cut) : cut.steps = cut.content ++ cut.last :: cut.more := by
  simp only [steps, content, List.append_assoc, List.cons_append]

theorem Around.content (h : cut.Around name) : Content cut.content :=
  h.front.content.append (.child h.opens h.inner h.closes h.back)

/-- The tokens behind the name of the child. -/
theorem runAt_opens (h : (t.runAt offset).steps = cut.steps) :
    (t.runAt cut.opens.stop).steps =
      cut.inner ++ cut.closes :: (cut.back ++ cut.last :: cut.more) :=
  runAt_behind h

/-- The tokens behind the child. -/
theorem runAt_closes (h : (t.runAt offset).steps = cut.steps) :
    (t.runAt cut.closes.stop).steps = cut.back ++ cut.last :: cut.more :=
  runAt_behind (runAt_opens h)

theorem Around.nodeStop_eq (haround : cut.Around name)
    (h : (t.runAt offset).steps = cut.steps) :
    t.nodeStop ⟨name, cut.opens.start, cut.opens.stop⟩ = .ok cut.closes.stop := by
  have hbody := runAt_opens h
  have hskip : ∀ halt, Walk.skip halt cut.opens.stop 0 (t.runAt cut.opens.stop).steps =
      .ok cut.closes := by
    intro halt
    rw [hbody, Walk.skip_content haround.inner, Walk.skip, haround.closes]
  rw [nodeStop_of_skip hskip]
  -- the tag that closes the child is four bytes long
  obtain ⟨a, hspelled, hstop, -, -⟩ := spelled_of_runAt hbody (by simp)
  rw [haround.closes] at hspelled
  rw [hstop]
  cases hspelled with
  | endNode => rfl

/-- The content of the root around the partitions node. -/
theorem exists_of_survey {names : PhandleCensus.Names} {root place : Node} {inner : List Step}
    (h : PhandleCensus.Survey t names root inner)
    (hplace : t.findChild root name = .ok (some place)) :
    ∃ cut : Cut, inner = cut.content ∧ (t.runAt root.body).steps = cut.steps ∧
      cut.Around name ∧ place = ⟨name, cut.opens.start, cut.opens.stop⟩ := by
  obtain ⟨last, more, hsteps, hlast⟩ := h.steps_eq
  rw [findChild, hsteps] at hplace
  rcases h.content.without_or_split name with hwithout |
    ⟨front, opens, inner', closes, back, rfl, hfront, hopens, hinner, hcloses, hback⟩
  · rw [Walk.findChild_without hwithout, Walk.findChild_closed hlast] at hplace
    exact absurd hplace (by simp)
  · rw [List.append_assoc, Walk.findChild_without hfront, List.cons_append,
      Walk.findChild_opened hopens] at hplace
    obtain rfl := Option.some.inj (Except.ok.inj hplace)
    refine ⟨⟨front, opens, inner', closes, back, last, more⟩, rfl, ?_,
      ⟨hfront, hopens, hinner, hcloses, hback, hlast⟩, rfl⟩
    rw [hsteps, steps_eq]
    rfl

end Cut

/-! ## The new node -/

open PartitionsNode

section Emissions

variable {strings strings' : StringsBlock} {es es' : List Emission} {previous : PartitionsNode}
  {paired : Bool} {assigned : List Record}

/-- The tokens of these emissions are a content. -/
def Emission.Renders (strings : StringsBlock) (es : List Emission) : Prop :=
  ∀ steps : List Step, List.Forall₂ (fun e step => e.ReadsAs strings step.token) es steps →
    Content steps

namespace Emission

theorem Renders.nil : Renders strings [] := by
  intro steps h
  cases h
  exact .nil

theorem Renders.append (h : Renders strings es) (h' : Renders strings es') :
    Renders strings (es ++ es') := by
  intro steps hreads
  obtain ⟨steps₁, steps₂, rfl, h₁, h₂⟩ := forall₂_split hreads
  exact (h steps₁ h₁).append (h' steps₂ h₂)

/-- Properties one after the other are a content. -/
theorem renders_properties (h : ∀ e ∈ es, ∃ name value, e = .property name value) :
    Renders strings es := by
  intro steps hreads
  induction hreads with
  | nil => exact .nil
  | @cons e step _ _ hstep hrest ih =>
      obtain ⟨⟨name, value, rfl⟩, hes⟩ := List.forall_mem_cons.mp h
      generalize htoken : step.token = t at hstep
      cases hstep with
      | property => exact .property htoken (ih hes)

theorem Renders.child (h : Renders strings es) (name : Bytes) :
    Renders strings (.beginNode name :: (es ++ [.endNode])) := by
  intro steps hreads
  cases hreads with
  | @cons _ opens _ _ hopens hreads =>
      obtain ⟨inner, ends, rfl, hinner, hends⟩ := forall₂_split hreads
      cases hends with
      | @cons _ closes _ _ hcloses hnil =>
          cases hnil
          generalize hopened : opens.token = t at hopens
          generalize hclosed : closes.token = t' at hcloses
          cases hopens
          cases hcloses
          exact .child hopened (h inner hinner) hclosed .nil

theorem renders_flatMap {α : Type} {f : α → List Emission} (as : List α)
    (h : ∀ a ∈ as, Renders strings (f a)) : Renders strings (as.flatMap f) := by
  induction as with
  | nil => exact .nil
  | cons a as ih =>
      obtain ⟨ha, has⟩ := List.forall_mem_cons.mp h
      rw [List.flatMap_cons]
      exact ha.append (ih has)

end Emission

namespace PartitionsNode

open Emission

theorem renders_childEmissions (strings : StringsBlock) (paired : Bool) (r : Record) :
    Renders strings (childEmissions paired r) := by
  have hbody : Renders strings
      ([Emission.text PropertyName.pname.bytes (Utf8.encode r.name),
        Emission.longWord PropertyName.size.bytes r.size,
        Emission.word PropertyName.mask.bytes r.mask,
        Emission.word PropertyName.phandle.bytes r.phandle] ++
        if paired then [Emission.word PropertyName.linuxPhandle.bytes r.linuxPhandle] else []) := by
    refine renders_properties ?_
    intro e he
    cases paired with
    | true =>
        simp only [if_true, List.mem_append, List.mem_cons, List.not_mem_nil, or_false] at he
        rcases he with (rfl | rfl | rfl | rfl) | rfl
        all_goals exact ⟨_, _, rfl⟩
    | false =>
        simp only [Bool.false_eq_true, if_false, List.append_nil, List.mem_cons,
          List.not_mem_nil, or_false] at he
        rcases he with rfl | rfl | rfl | rfl
        all_goals exact ⟨_, _, rfl⟩
  exact hbody.child (Utf8.encode r.name)

/-- The emissions of a composed node are a content. -/
theorem renders_content (strings : StringsBlock) (previous : PartitionsNode) (paired : Bool)
    (rs : List Record) : Renders strings (content previous paired rs) := by
  refine Renders.append (renders_properties ?_)
    (renders_flatMap rs fun r _ => renders_childEmissions strings paired r)
  have hown : ∀ (value : UInt32) (name : Bytes), ∀ e ∈ (if value = 0 then []
      else [Emission.word name value]), ∃ name value, e = .property name value := by
    intro value name e he
    split at he
    · exact absurd he List.not_mem_nil
    · exact ⟨_, _, List.mem_singleton.mp he⟩
  intro e he
  simp only [List.mem_append, List.mem_singleton, List.mem_map] at he
  rcases he with ((rfl | ⟨x, -, rfl⟩) | he) | he
  · exact ⟨_, _, rfl⟩
  · exact ⟨_, _, rfl⟩
  · exact hown _ _ e he
  · exact hown _ _ e he

end PartitionsNode

/-- The bytes of a composed node are read as its name, its content and its end, and then the run
goes on behind it. -/
theorem run_of_emissions {pos : Nat} {bytes : Bytes} (behind : Bytes)
    (hwritable : ∀ a ∈ assigned, Writable paired a) (hpos : pos % 4 = 0)
    (hlen : strings'.bytes.length < UInt32.size)
    (h : emitAll strings (emissions previous paired assigned) = (bytes, strings')) :
    bytes.length % 4 = 0 ∧ ∃ opens inner closes,
      (⟨bytes ++ behind, pos⟩ : Cursor).run.steps =
        opens :: (inner ++ closes :: (⟨behind, pos + bytes.length⟩ : Cursor).run.steps) ∧
      opens.token = .beginNode nodeName ∧ closes.token = .endNode ∧
      List.Forall₂ (fun e step => e.ReadsAs strings' step.token)
        (content previous paired assigned) inner := by
  obtain ⟨a, a', steps, rfl, hspelled, hspelling, hreads⟩ :=
    spelling_of_emissions hwritable hpos hlen h
  obtain ⟨inner, ends, rfl, hinner, hends⟩ := forall₂_split hreads
  cases hends with
  | @cons _ closes _ _ hcloses hnil =>
      cases hnil
      have hwhole := Spelling.cons hspelled hspelling
      refine ⟨hwhole.mod_length hpos, ⟨pos, .beginNode nodeName, pos + a.length⟩, inner, closes,
        ?_, rfl, ?_, hinner⟩
      · rw [Cursor.run_of_spelling hwhole]
        simp only [List.cons_append, List.append_assoc, List.nil_append]
      · generalize htoken : closes.token = t at hcloses
        cases hcloses with
        | endNode => rfl

end Emissions

/-! ## The splice -/

variable {b : Bytes} {records : List Record} {w : Rewrite}

/-- The tree that a replacement writes, opened. -/
def Rewrite.newTree (w : Rewrite) : DeviceTree where
  bytes := w.bytes
  header := assembledHeader w.tree.header.base w.reservations
    (w.before ++ w.composed.bytes ++ w.behind) w.strings.bytes
  structBlock := w.before ++ w.composed.bytes ++ w.behind
  stringsBlock := w.strings

theorem Rewrite.ofBytes_bytes (hlen : w.bytes.length < UInt32.size) :
    DeviceTree.ofBytes w.bytes = .ok w.newTree := by
  have hopen := ofBytes_assemble hlen []
  rw [List.append_nil] at hopen
  exact hopen

theorem Rewrite.Of.extends_strings (hw : w.Of b records) :
    w.tree.stringsBlock.Extends w.strings := by
  obtain ⟨-, -, hemit⟩ := compose_eq_ok_iff.mp hw.composed
  have hextends := extends_emitAll w.tree.stringsBlock
    (emissions w.previous (releaseAll w.census w.previous.records).paired w.composed.assigned)
  rw [hemit] at hextends
  exact hextends

theorem Rewrite.Of.before_eq_take (hw : w.Of b records) :
    w.before = w.tree.structBlock.take w.place.start := by
  obtain ⟨-, -, hcut⟩ := Bytes.cut_eq_ok_iff.mp hw.before_eq
  rw [hcut, List.drop_zero, Nat.sub_zero]

theorem Rewrite.Of.behind_eq_drop (hw : w.Of b records) :
    w.behind = w.tree.structBlock.drop w.stop := by
  obtain ⟨-, -, hcut⟩ := Bytes.cut_eq_ok_iff.mp hw.behind_eq
  rw [hcut, List.take_of_length_le (by rw [List.length_drop])]

/-- What a replacement does to the tokens of the root. -/
structure Rewrite.Splice (w : Rewrite) (names : PhandleCensus.Names) (root : Node)
    (old new : Cut) : Prop where
  survey : PhandleCensus.Survey w.tree names root old.content
  settled : PhandleCensus.Settled w.census (names.values old.content)
  root_eq : w.newTree.root = .ok root
  steps_old : (w.tree.runAt root.body).steps = old.steps
  steps_new : (w.newTree.runAt root.body).steps = new.steps
  around_old : old.Around nodeName
  around_new : new.Around nodeName
  place_eq : w.place = ⟨nodeName, old.opens.start, old.opens.stop⟩
  front : new.front = old.front
  inner : List.Forall₂ (fun e step => e.ReadsAs w.strings step.token)
    (content w.previous w.census.paired w.composed.assigned) new.inner
  back : Alike old.back new.back

theorem PartitionsNode.paired_releaseAll (census : PhandleCensus) (records : List Record) :
    (releaseAll census records).paired = census.paired := by
  rw [releaseAll]
  induction records generalizing census with
  | nil => rfl
  | cons r rest ih =>
      rw [List.foldl_cons, ih, PhandleCensus.paired_release, PhandleCensus.paired_release]

/-- **What is carried over, and what is put in its place.** -/
theorem Rewrite.Of.exists_splice (hw : w.Of b records)
    (hnames : ∀ x ∈ records, 0 ∉ Utf8.encode x.name) (hlen : w.bytes.length < UInt32.size) :
    ∃ names root old new, w.Splice names root old new := by
  obtain ⟨root, hroot, hchild⟩ := locate_eq_ok_iff.mp hw.located
  obtain ⟨names, root', content', hsurvey, hsettled⟩ := PhandleCensus.survey_of_census hw.counted
  obtain rfl : root = root' := Except.ok.inj (hroot.symm.trans hsurvey.root_eq)
  obtain ⟨old, rfl, hsteps, haround, hplace⟩ := Cut.exists_of_survey hsurvey hchild
  -- the node ends where it is closed, so the bytes behind it are those of the run behind it
  have hstop : w.stop = old.closes.stop := by
    have hstop := hw.stop_eq
    rw [hplace, haround.nodeStop_eq hsteps] at hstop
    exact (Except.ok.inj hstop).symm
  have hback := Cut.runAt_closes hsteps
  have hblock : w.newTree.structBlock =
      w.tree.structBlock.take old.opens.start ++ (w.composed.bytes ++ w.behind) := by
    rw [Rewrite.newTree, hw.before_eq_take, hplace, List.append_assoc]
  -- every token stands at a multiple of four
  have hbody : root.body % 4 = 0 := body_mod_of_root hroot (by rw [hsteps, Cut.steps]; simp)
  have hopens : old.opens.start % 4 = 0 := start_mod_of_runAt hbody hsteps
  have hcloses : old.closes.stop % 4 = 0 := stop_mod_of_runAt
    (stop_mod_of_runAt hbody hsteps (by simp)) (Cut.runAt_opens hsteps) (by simp)
  -- the new tokens are those in front, the emissions, and the old ones behind at another place
  obtain ⟨-, hassign, hemit⟩ := compose_eq_ok_iff.mp hw.composed
  rw [paired_releaseAll] at hassign hemit
  obtain ⟨-, hwritable⟩ := writable_of_assign hnames hassign
  have hstrings : w.strings.bytes.length < UInt32.size := by
    rw [Rewrite.bytes, length_assemble] at hlen
    omega
  have hfront := runAt_of_take hsteps hblock
  obtain ⟨hmod, opens, inner, closes, hrun, hopened, hclosed, hinner⟩ :=
    run_of_emissions w.behind hwritable hopens hstrings hemit
  have halike : Alike (old.back ++ old.last :: old.more)
      (⟨w.behind, old.opens.start + w.composed.bytes.length⟩ : Cursor).run.steps := by
    rw [hw.behind_eq_drop, hstop, ← hback, runAt_eq]
    exact Cursor.run_alike (by omega)
  obtain ⟨back, ends, hbackNew, hbackAlike, hends⟩ := halike.split
  cases hends with
  | @cons _ last _ more hlast hmore =>
      rw [haround.last] at hlast
      refine ⟨names, root, old, ⟨old.front, opens, inner, closes, back, last, more⟩, hsurvey,
        hsettled, ?_, hsteps, ?_, haround, ⟨haround.front, hopened, ?_, hclosed,
          haround.back.alike hbackAlike, hlast.eq_endNode⟩, hplace, rfl, hinner, hbackAlike⟩
      · exact root_of_take hroot hsteps hblock
      · rw [hfront, hrun, hbackNew]
        rfl
      · exact renders_content _ _ _ _ inner hinner

end EmmcLayout.DeviceTree
