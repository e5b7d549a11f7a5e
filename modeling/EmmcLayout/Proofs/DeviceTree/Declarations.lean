import EmmcLayout.Proofs.DeviceTree.Content
import EmmcLayout.Proofs.DeviceTree.Nesting
import EmmcLayout.Proofs.DeviceTree.Phandles

/-!
# Declarations of phandles

A property of four bytes that is named `phandle` or `linux,phandle` declares a phandle of the node
it stands in.  `DeviceTree.declarations` lists the declarations of a tree, each with the nodes that
it lies in.

The census of a tree reads the content of the root (`sweep_split`), and counts the declarations in
it whose names are the copies that a search in the strings block finds (`map_value_counted`).
Declarations under another copy of a name are not counted.
-/

namespace EmmcLayout.DeviceTree

/-! ## Declarations -/

/-- A declaration of a phandle. -/
structure Declaration where
  /-- The offsets of the nodes that it lies in, the innermost first. -/
  opened : List Nat
  nameOffset : UInt32
  value : UInt32
  deriving DecidableEq

/-- It lies in a node below the one that starts at this offset. -/
def Declaration.Below (d : Declaration) (start : Nat) : Prop :=
  start ∈ d.opened.tail

instance (d : Declaration) (start : Nat) : Decidable (d.Below start) :=
  inferInstanceAs (Decidable (start ∈ d.opened.tail))

/-- Whether the name at an offset is one that declares phandles. -/
def StringsBlock.namesPhandle (s : StringsBlock) (offset : UInt32) : Bool :=
  s.get? offset = some PropertyName.phandle.bytes ||
    s.get? offset = some PropertyName.linuxPhandle.bytes

/-- Whether the name at an offset is the copy that a search for one of the two names finds. -/
def StringsBlock.findsPhandle (s : StringsBlock) (offset : UInt32) : Bool :=
  s.find? PropertyName.phandle.bytes = some offset ||
    s.find? PropertyName.linuxPhandle.bytes = some offset

/-- The declarations in a node and the nodes below it, in order.  `opened` holds the offsets of the
nodes that the walk is inside of, the innermost first. -/
def Walk.declarations (s : StringsBlock) : List Nat → List Step → List Declaration
  | [], _ => []
  | _ :: _, [] => []
  | start :: outer, step :: rest =>
    match step.token with
    | .property p =>
      if s.namesPhandle p.nameOffset ∧ p.value.length = 4 then
        ⟨start :: outer, p.nameOffset, UInt32.ofNat (Bytes.ofBE p.value)⟩ ::
          declarations s (start :: outer) rest
      else declarations s (start :: outer) rest
    | .beginNode _ => declarations s (step.start :: start :: outer) rest
    | .endNode => declarations s outer rest
    | .endTree => []
    | .nop => declarations s (start :: outer) rest

/-- The declarations of a tree. -/
def declarations (t : DeviceTree) : List Declaration :=
  match t.root with
  | .ok root => Walk.declarations t.stringsBlock [root.start] (t.runAt root.body).steps
  | .error _ => []

/-- The declarations of a tree whose names are the copies that a search finds. -/
def foundDeclarations (t : DeviceTree) : List Declaration :=
  t.declarations.filter fun d => t.stringsBlock.findsPhandle d.nameOffset

variable {s : StringsBlock} {steps inner rest : List Step} {d : Declaration}

namespace Walk

theorem declarations_property {step : Step} {p : Property} (htoken : step.token = .property p)
    (s : StringsBlock) (start : Nat) (outer : List Nat) (rest : List Step) :
    declarations s (start :: outer) (step :: rest) =
      (if s.namesPhandle p.nameOffset ∧ p.value.length = 4 then
        [⟨start :: outer, p.nameOffset, UInt32.ofNat (Bytes.ofBE p.value)⟩] else []) ++
        declarations s (start :: outer) rest := by
  rw [declarations, htoken]
  dsimp only
  split
  · rfl
  · rfl

theorem declarations_nop {step : Step} (htoken : step.token = .nop) (s : StringsBlock)
    (start : Nat) (outer : List Nat) (rest : List Step) :
    declarations s (start :: outer) (step :: rest) = declarations s (start :: outer) rest := by
  rw [declarations, htoken]

theorem declarations_append (h : Content steps) (start : Nat) (outer : List Nat)
    (rest : List Step) :
    declarations s (start :: outer) (steps ++ rest) =
      declarations s (start :: outer) steps ++ declarations s (start :: outer) rest := by
  induction h generalizing start outer rest with
  | nil => rfl
  | property token tail ih =>
      rw [List.cons_append, declarations_property token, declarations_property token, ih,
        List.append_assoc]
  | nop token tail ih =>
      rw [List.cons_append, declarations_nop token, declarations_nop token, ih]
  | child token body close tail ihBody ih =>
      simp only [List.cons_append, List.append_assoc, declarations, token, ihBody, close, ih]

/-- What a child declares stands in front of what is declared behind it. -/
theorem declarations_child {opens closes : Step} {name : Bytes}
    (token : opens.token = .beginNode name) (body : Content inner)
    (close : closes.token = .endNode) (s : StringsBlock) (start : Nat) (outer : List Nat)
    (rest : List Step) :
    declarations s (start :: outer) (opens :: (inner ++ closes :: rest)) =
      declarations s (opens.start :: start :: outer) inner ++
        declarations s (start :: outer) rest := by
  simp only [declarations, token, declarations_append body, close]

/-- A declaration in a content lies in all the nodes that are open around it. -/
theorem suffix_opened_of_mem {start : Nat} {outer : List Nat} (h : Content steps)
    (hd : d ∈ declarations s (start :: outer) steps) : start :: outer <:+ d.opened := by
  induction h generalizing start outer with
  | nil => exact absurd hd List.not_mem_nil
  | property token tail ih =>
      rw [declarations_property token] at hd
      rcases List.mem_append.mp hd with hd | hd
      · split at hd
        · obtain rfl := List.mem_singleton.mp hd
          exact List.suffix_rfl
        · exact absurd hd List.not_mem_nil
      · exact ih hd
  | nop token tail ih =>
      rw [declarations_nop token] at hd
      exact ih hd
  | child token body close tail ihBody ih =>
      rw [declarations_child token body close] at hd
      rcases List.mem_append.mp hd with hd | hd
      · exact (List.suffix_cons _ _).trans (ihBody hd)
      · exact ih hd

/-- Every node that a declaration lies in was open before, or is opened by one of the tokens. -/
theorem mem_opened {opened : List Nat} (hd : d ∈ declarations s opened steps) :
    ∀ o ∈ d.opened, o ∈ opened ∨ ∃ step ∈ steps, step.start = o := by
  induction steps generalizing opened with
  | nil =>
      cases opened with
      | nil => exact absurd hd List.not_mem_nil
      | cons start outer => exact absurd hd List.not_mem_nil
  | cons step steps ih =>
      cases opened with
      | nil => exact absurd hd List.not_mem_nil
      | cons start outer =>
          have hlater : ∀ opened', d ∈ declarations s opened' steps →
              (∀ o ∈ opened', o ∈ start :: outer ∨ step.start = o) →
              ∀ o ∈ d.opened, o ∈ start :: outer ∨ ∃ step' ∈ step :: steps, step'.start = o := by
            intro opened' hd' hopened o ho
            rcases ih hd' o ho with hold | ⟨step', hmem, hstart⟩
            · rcases hopened o hold with hold | hstart
              · exact .inl hold
              · exact .inr ⟨step, List.mem_cons_self, hstart⟩
            · exact .inr ⟨step', .tail _ hmem, hstart⟩
          rw [declarations] at hd
          split at hd
          · split at hd
            · rcases List.mem_cons.mp hd with rfl | hd
              · exact fun o ho => .inl ho
              · exact hlater _ hd fun o ho => .inl ho
            · exact hlater _ hd fun o ho => .inl ho
          · refine hlater _ hd fun o ho => ?_
            rcases List.mem_cons.mp ho with rfl | ho
            · exact .inr rfl
            · exact .inl ho
          · exact hlater _ hd fun o ho => .inl (.tail _ ho)
          · exact absurd hd List.not_mem_nil
          · exact hlater _ hd fun o ho => .inl ho

end Walk

/-! ## What the census counts -/

namespace PhandleCensus

variable {stop : FormatError} {names : Names} {c c' : PhandleCensus} {outer : List Nat}
  {start : Nat}

/-- The value that a token declares. -/
def Names.value? (names : Names) : Token → Option UInt32
  | .property p =>
    if names.declares p.nameOffset then some (UInt32.ofNat (Bytes.ofBE p.value)) else none
  | _ => none

/-- The values that tokens declare, in order. -/
def Names.values (names : Names) (steps : List Step) : List UInt32 :=
  steps.filterMap fun step => names.value? step.token

/-- Every value that is declared is one word. -/
def Names.Sized (names : Names) (steps : List Step) : Prop :=
  ∀ step ∈ steps, ∀ p, step.token = .property p → names.declares p.nameOffset →
    p.value.length = 4

theorem Names.values_append (names : Names) (steps steps' : List Step) :
    names.values (steps ++ steps') = names.values steps ++ names.values steps' :=
  List.filterMap_append

theorem Names.values_cons (names : Names) (step : Step) (steps : List Step) :
    names.values (step :: steps) = (names.value? step.token).toList ++ names.values steps := by
  rw [values, List.filterMap_cons]
  cases names.value? step.token with
  | none => rfl
  | some v => rfl

theorem Names.sized_append {steps' : List Step} :
    names.Sized (steps ++ steps') ↔ names.Sized steps ∧ names.Sized steps' :=
  List.forall_mem_append

theorem Names.sized_cons {step : Step} :
    names.Sized (step :: steps) ↔
      (∀ p, step.token = .property p → names.declares p.nameOffset → p.value.length = 4) ∧
        names.Sized steps :=
  List.forall_mem_cons

theorem sweep_property {step : Step} {p : Property} (htoken : step.token = .property p)
    (hsize : names.declares p.nameOffset → p.value.length = 4) (stop : FormatError)
    (c : PhandleCensus) (start : Nat) (outer : List Nat) (rest : List Step) :
    sweep stop names c (start :: outer) (step :: rest) =
      sweep stop names ((names.value? step.token).toList.foldl add c) (start :: outer) rest := by
  rw [sweep, htoken, Names.value?]
  by_cases hdeclares : names.declares p.nameOffset = true
  · simp only [hdeclares, if_true, hsize hdeclares, Option.toList_some, List.foldl_cons,
      List.foldl_nil]
  · simp only [hdeclares, Bool.false_eq_true, if_false, Option.toList_none, List.foldl_nil]

/-- A content is counted as a whole. -/
theorem sweep_content (h : Content steps) (hsize : names.Sized steps) (stop : FormatError)
    (c : PhandleCensus) (start : Nat) (outer : List Nat) (rest : List Step) :
    sweep stop names c (start :: outer) (steps ++ rest) =
      sweep stop names ((names.values steps).foldl add c) (start :: outer) rest := by
  induction h generalizing c start outer rest with
  | nil => rfl
  | property token tail ih =>
      obtain ⟨hfirst, hrest⟩ := Names.sized_cons.mp hsize
      rw [List.cons_append, sweep_property token (hfirst _ token), ih hrest, Names.values_cons,
        List.foldl_append]
  | nop token tail ih =>
      simp only [List.cons_append, sweep, token, Names.values_cons, Names.value?,
        Option.toList_none, List.nil_append]
      exact ih (Names.sized_cons.mp hsize).2 _ _ _ _
  | child opens body closes tail ihBody ih =>
      obtain ⟨hinner, hrest⟩ := Names.sized_append.mp (Names.sized_cons.mp hsize).2
      simp only [List.cons_append, List.append_assoc, sweep, opens, closes, Names.values_cons,
        Names.values_append, Names.value?, Option.toList_none, List.nil_append, ihBody hinner,
        ih (Names.sized_cons.mp hrest).2, List.foldl_append]

/-- **A sweep that succeeds has read the content of the innermost node**, counted the values that
are declared there, and gone on behind its end. -/
theorem sweep_split (h : sweep stop names c (start :: outer) steps = .ok c') :
    ∃ inner e rest, steps = inner ++ e :: rest ∧ Content inner ∧ e.token = .endNode ∧
      names.Sized inner ∧
      sweep stop names ((names.values inner).foldl add c) outer rest = .ok c' := by
  -- on the tokens, since behind a child the walk goes on with what the child has left
  induction hn : steps.length using Nat.strong_induction_on generalizing c start outer steps with
  | _ n ih =>
      subst hn
      cases steps with
      | nil => exact absurd h (by simp [sweep])
      | cons s rest =>
          cases htoken : s.token with
          | property p =>
              have hsize : names.declares p.nameOffset → p.value.length = 4 := by
                intro hdeclares
                by_contra hlen
                simp [sweep, htoken, hdeclares, hlen] at h
              rw [sweep_property htoken hsize] at h
              obtain ⟨inner, e, rest', rfl, hinner, he, hsized, hsweep⟩ :=
                ih _ (Nat.lt_succ_self _) h rfl
              refine ⟨s :: inner, e, rest', rfl, .property htoken hinner, he,
                Names.sized_cons.mpr ⟨?_, hsized⟩, ?_⟩
              · intro p' hp'
                rw [htoken] at hp'
                obtain rfl := Token.property.inj hp'
                exact hsize
              · rw [Names.values_cons, List.foldl_append]
                exact hsweep
          | nop =>
              simp only [sweep, htoken] at h
              obtain ⟨inner, e, rest', rfl, hinner, he, hsized, hsweep⟩ :=
                ih _ (Nat.lt_succ_self _) h rfl
              refine ⟨s :: inner, e, rest', rfl, .nop htoken hinner, he,
                Names.sized_cons.mpr ⟨by simp [htoken], hsized⟩, ?_⟩
              rw [Names.values_cons, htoken]
              exact hsweep
          | beginNode name =>
              simp only [sweep, htoken] at h
              obtain ⟨inner, e, rest₁, rfl, hinner, he, hsized, hsweep⟩ :=
                ih _ (Nat.lt_succ_self _) h rfl
              obtain ⟨inner', e', rest₂, rfl, hinner', he', hsized', hsweep'⟩ :=
                ih rest₁.length (by simp only [List.length_cons, List.length_append]; omega)
                  hsweep rfl
              refine ⟨s :: (inner ++ e :: inner'), e', rest₂, by simp,
                .child htoken hinner he hinner', he', ?_, ?_⟩
              · exact Names.sized_cons.mpr ⟨by simp [htoken], Names.sized_append.mpr
                  ⟨hsized, Names.sized_cons.mpr ⟨by simp [he], hsized'⟩⟩⟩
              · rw [← List.foldl_append] at hsweep'
                rw [Names.values_cons, Names.values_append, Names.values_cons, htoken, he]
                exact hsweep'
          | endNode =>
              simp only [sweep, htoken] at h
              exact ⟨[], s, rest, rfl, .nil, htoken, by simp [Names.Sized], h⟩
          | endTree => exact absurd h (by simp [sweep, htoken])

theorem Names.value?_alike {t t' : Token} (names : Names) (h : t.Alike t') :
    names.value? t' = names.value? t := by
  cases h with
  | property => rfl
  | _ => rfl

/-- Tokens that say the same declare the same. -/
theorem Names.values_alike {steps' : List Step} (names : Names) (h : Alike steps steps') :
    names.values steps' = names.values steps := by
  induction h with
  | nil => rfl
  | cons hs hrest ih => rw [values_cons, values_cons, ih, value?_alike names hs]

theorem Names.Sized.alike {steps' : List Step} (h : names.Sized steps)
    (halike : Alike steps steps') : names.Sized steps' := by
  induction halike with
  | nil => exact h
  | cons hs hrest ih =>
      obtain ⟨hfirst, htail⟩ := sized_cons.mp h
      refine sized_cons.mpr ⟨?_, ih htail⟩
      intro p' hp' hdeclares
      rw [hp'] at hs
      obtain ⟨p, hp, hoffset, hvalue⟩ := hs.symm.exists_property
      rw [← hoffset] at hdeclares
      rw [← hvalue]
      exact hfirst p hp hdeclares

/-! ## The census of a tree -/

/-- The names that declare phandles are found where a search finds them. -/
structure Names.Of (s : StringsBlock) (names : Names) : Prop where
  phandle : s.find? PropertyName.phandle.bytes = some names.phandle
  linuxPhandle : s.find? PropertyName.linuxPhandle.bytes = names.linuxPhandle

/-- The two names are found at two places. -/
theorem Names.Of.phandle_ne (h : Names.Of s names) : some names.phandle ≠ names.linuxPhandle := by
  intro hsame
  have hlinux := h.linuxPhandle
  rw [← hsame] at hlinux
  exact absurd (StringsBlock.eq_of_find? (PropertyName.zero_notMem _) (PropertyName.zero_notMem _)
    h.phandle hlinux) (by decide)

theorem Names.Of.declares_eq (h : Names.Of s names) (offset : UInt32) :
    names.declares offset = s.findsPhandle offset := by
  rw [declares, StringsBlock.findsPhandle, h.phandle, h.linuxPhandle]
  simp only [Option.some.injEq, eq_comm]

theorem Names.Of.namesPhandle (h : Names.Of s names) {offset : UInt32}
    (hoffset : names.declares offset) : s.namesPhandle offset := by
  rw [StringsBlock.namesPhandle, Bool.or_eq_true, decide_eq_true_eq, decide_eq_true_eq]
  rw [declares, Bool.or_eq_true, decide_eq_true_eq, decide_eq_true_eq] at hoffset
  refine hoffset.imp ?_ ?_
  · rintro rfl
    exact StringsBlock.get?_of_find? (PropertyName.zero_notMem _) h.phandle
  · intro hlinux
    exact StringsBlock.get?_of_find? (PropertyName.zero_notMem _) (h.linuxPhandle.trans hlinux)

/-- The declarations that are counted: those whose names a search finds. -/
def Names.counted (names : Names) (ds : List Declaration) : List Declaration :=
  ds.filter fun d => names.declares d.nameOffset

theorem Names.mem_counted {ds : List Declaration} :
    d ∈ names.counted ds ↔ d ∈ ds ∧ names.declares d.nameOffset :=
  List.mem_filter

theorem Names.counted_cons (names : Names) (d : Declaration) (ds : List Declaration) :
    names.counted (d :: ds) =
      if names.declares d.nameOffset then d :: names.counted ds else names.counted ds :=
  List.filter_cons

theorem Names.counted_append (names : Names) (ds ds' : List Declaration) :
    names.counted (ds ++ ds') = names.counted ds ++ names.counted ds' :=
  List.filter_append ds ds'

theorem map_value_counted (hnames : Names.Of s names) (h : Content steps)
    (hsize : names.Sized steps) (start : Nat) (outer : List Nat) :
    (names.counted (Walk.declarations s (start :: outer) steps)).map Declaration.value =
      names.values steps := by
  induction h generalizing start outer with
  | nil => rfl
  | @property step p rest token tail ih =>
      obtain ⟨hfirst, hrest⟩ := Names.sized_cons.mp hsize
      have htail := ih hrest start outer
      rw [Names.values_cons, token, Names.value?, Walk.declarations_property token,
        Names.counted_append, List.map_append, htail]
      by_cases hdeclares : names.declares p.nameOffset = true
      · have hnamed := hnames.namesPhandle hdeclares
        rw [if_pos ⟨hnamed, hfirst p token hdeclares⟩, if_pos hdeclares,
          Names.counted_cons, if_pos hdeclares]
        rfl
      · rw [if_neg hdeclares, Option.toList_none, List.nil_append]
        split
        · rw [Names.counted_cons, if_neg hdeclares]
          rfl
        · rfl
  | nop token tail ih =>
      rw [Names.values_cons, token, Walk.declarations_nop token]
      exact ih (Names.sized_cons.mp hsize).2 start outer
  | child token body close tail ihBody ih =>
      obtain ⟨hinner, hrest⟩ := Names.sized_append.mp (Names.sized_cons.mp hsize).2
      simp only [Walk.declarations_child token body close, token, close, Names.counted_append,
        List.map_append, ihBody hinner, ih (Names.sized_cons.mp hrest).2, Names.values_cons,
        Names.values_append, Names.value?, Option.toList_none, List.nil_append]

theorem ofTree_eq_ok_iff {t : DeviceTree} :
    (ofTree t).result = .ok c ↔
      ∃ names root counted, Names.Of t.stringsBlock names ∧ t.root = .ok root ∧
        sweep (t.runAt root.body).failure names empty [root.start] (t.runAt root.body).steps =
          .ok counted ∧ counted.settle = .ok c := by
  unfold ofTree conclude
  rw [tally_eq_sweep]
  unfold entry
  simp only [Outcome.result_bind_eq_ok_iff, Outcome.result_lift]
  constructor
  · rintro ⟨counted, htally, settled, hsettle, -, -, h⟩
    obtain rfl := Except.ok.inj h
    obtain ⟨⟨names, root⟩, hentry, hsweep⟩ := Outcome.bind_eq_ok_iff.mp htally
    split at hentry
    · exact absurd hentry (by simp)
    · rename_i phandle hphandle
      obtain ⟨root, hroot, hfound⟩ := Outcome.bind_eq_ok_iff.mp hentry
      obtain ⟨rfl, rfl⟩ := Prod.mk.inj (Except.ok.inj hfound)
      exact ⟨_, root, counted, ⟨hphandle, rfl⟩, hroot, hsweep, hsettle⟩
  · rintro ⟨names, root, counted, hnames, hroot, hsweep, hsettle⟩
    refine ⟨counted, ?_, c, hsettle, (), rfl, rfl⟩
    rw [hnames.phandle, hroot, hnames.linuxPhandle]
    exact hsweep

/-- What a census has read: the content of the root, in which every value that is counted is one
word. -/
structure Survey (t : DeviceTree) (names : Names) (root : Node) (inner : List Step) : Prop where
  names_of : Names.Of t.stringsBlock names
  root_eq : t.root = .ok root
  content : Content inner
  sized : names.Sized inner
  steps_eq : ∃ last more, (t.runAt root.body).steps = inner ++ last :: more ∧
    last.token = .endNode

variable {t : DeviceTree} {names : Names} {root : Node}

/-- The declarations of a tree lie in the content of its root. -/
theorem Survey.declarations_eq (h : Survey t names root inner) :
    t.declarations = Walk.declarations t.stringsBlock [root.start] inner := by
  obtain ⟨last, more, hsteps, hlast⟩ := h.steps_eq
  rw [declarations, h.root_eq]
  dsimp only
  rw [hsteps, Walk.declarations_append h.content]
  simp only [Walk.declarations, hlast, List.append_nil]

theorem Survey.counted_eq (h : Survey t names root inner) :
    names.counted (Walk.declarations t.stringsBlock [root.start] inner) = t.foundDeclarations := by
  rw [foundDeclarations, h.declarations_eq, Names.counted]
  simp only [h.names_of.declares_eq]

theorem Survey.map_value_found (h : Survey t names root inner) :
    t.foundDeclarations.map Declaration.value = names.values inner := by
  rw [← h.counted_eq]
  exact map_value_counted h.names_of h.content h.sized _ _

/-- A census has counted the values that are declared in the content of the root. -/
theorem survey_and_tallies (h : (ofTree t).result = .ok c) :
    ∃ names root inner counted, Survey t names root inner ∧ Tallies counted (names.values inner) ∧
      counted.settle = .ok c := by
  obtain ⟨names, root, counted, hnames, hroot, hsweep, hsettle⟩ := ofTree_eq_ok_iff.mp h
  obtain ⟨inner, last, more, hsteps, hinner, hlast, hsized, hdone⟩ := sweep_split hsweep
  rw [sweep] at hdone
  obtain rfl := Except.ok.inj hdone
  exact ⟨names, root, inner, _, ⟨hnames, hroot, hinner, hsized, last, more, hsteps, hlast⟩,
    tallies_foldl _, hsettle⟩

/-- **What a census holds**: the values that are declared in the content of the root, every one of
them as often as one scheme has it. -/
theorem survey_of_census (h : (ofTree t).result = .ok c) :
    ∃ names root inner, Survey t names root inner ∧ Settled c (names.values inner) := by
  obtain ⟨names, root, inner, counted, hsurvey, htallies, hsettle⟩ := survey_and_tallies h
  exact ⟨names, root, inner, hsurvey, htallies.settle hsettle⟩

/-- **A tree has a census when one scheme has all its declarations**, and it has that scheme. -/
theorem Survey.exists_census (h : Survey t names root inner) (hne : names.values inner ≠ [])
    (paired : Bool)
    (hcount : ∀ v ∈ names.values inner,
      (names.values inner).count v = if paired then 2 else 1) :
    ∃ c, (ofTree t).result = .ok c ∧ c.paired = paired := by
  obtain ⟨c, hsettle, hpaired⟩ := (tallies_foldl _).exists_settle hne paired hcount
  obtain ⟨last, more, hsteps, hlast⟩ := h.steps_eq
  refine ⟨c, ofTree_eq_ok_iff.mpr ⟨names, root, _, h.names_of, h.root_eq, ?_, hsettle⟩, hpaired⟩
  rw [hsteps, sweep_content h.content h.sized]
  simp only [sweep, hlast]

end PhandleCensus

end EmmcLayout.DeviceTree
