import EmmcLayout.Proofs.DeviceTree.Declarations

/-!
# Where the handles of a partitions node are declared

The reader of a partitions node and the census of a tree walk over the same tokens.  What the reader
takes for a handle of a partition is declared in a child of the node (`readTokens_handles`), and
what it takes for a handle of the node is the last declaration of that name in the node itself.
-/

namespace EmmcLayout.DeviceTree

variable {s : StringsBlock} {steps inner rest : List Step}

/-- The values that the node with these nodes open declares under one name. -/
def ownValues (opened : List Nat) (offset? : Option UInt32) (ds : List Declaration) :
    List UInt32 :=
  (ds.filter fun d => d.opened = opened ∧ some d.nameOffset = offset?).map Declaration.value

section OwnValues

variable {opened : List Nat} {offset? : Option UInt32} {d : Declaration} {ds ds' : List Declaration}

theorem ownValues_cons (opened : List Nat) (offset? : Option UInt32) (d : Declaration)
    (ds : List Declaration) :
    ownValues opened offset? (d :: ds) =
      if d.opened = opened ∧ some d.nameOffset = offset? then
        d.value :: ownValues opened offset? ds
      else ownValues opened offset? ds := by
  by_cases hd : d.opened = opened ∧ some d.nameOffset = offset?
  · simp only [ownValues, List.filter_cons, hd, and_self, decide_true, if_true, List.map_cons]
  · simp only [ownValues, List.filter_cons, hd, decide_false, Bool.false_eq_true, if_false]

theorem ownValues_append (opened : List Nat) (offset? : Option UInt32)
    (ds ds' : List Declaration) :
    ownValues opened offset? (ds ++ ds') =
      ownValues opened offset? ds ++ ownValues opened offset? ds' := by
  rw [ownValues, List.filter_append, List.map_append]
  rfl

theorem mem_ownValues {v : UInt32} :
    v ∈ ownValues opened offset? ds ↔
      ∃ d ∈ ds, d.opened = opened ∧ some d.nameOffset = offset? ∧ d.value = v := by
  simp only [ownValues, List.mem_map, List.mem_filter, decide_eq_true_eq, and_assoc]

/-- What is declared in a child is not declared by the node itself. -/
theorem ownValues_child (h : Content inner) {child start : Nat} {outer : List Nat} :
    ownValues (start :: outer) offset? (Walk.declarations s (child :: start :: outer) inner) =
      [] := by
  rw [ownValues, List.map_eq_nil_iff, List.filter_eq_nil_iff]
  intro d hd hown
  have hlen := (Walk.suffix_opened_of_mem h hd).length_le
  rw [(of_decide_eq_true hown).1] at hlen
  simp at hlen

/-- The last of these values is one of them. -/
theorem getLastD_mem (h : (ownValues opened offset? ds).getLastD 0 ≠ 0) :
    ∃ d ∈ ds, d.opened = opened ∧ some d.nameOffset = offset? ∧
      d.value = (ownValues opened offset? ds).getLastD 0 := by
  have hmem := List.getLastD_mem_cons (l := ownValues opened offset? ds) (a := 0)
  rcases List.mem_cons.mp hmem with hzero | hmem
  · exact absurd hzero h
  · exact mem_ownValues.mp hmem

/-- A value that is the only one under its name is the last one. -/
theorem getLastD_of_once (hd : d ∈ ds) (hopened : d.opened = opened)
    (hoffset : some d.nameOffset = offset?)
    (honly : ∀ d' ∈ ds, d'.opened = opened → some d'.nameOffset = offset? → d'.value = d.value) :
    (ownValues opened offset? ds).getLastD 0 = d.value := by
  have hmem : d.value ∈ ownValues opened offset? ds :=
    mem_ownValues.mpr ⟨d, hd, hopened, hoffset, rfl⟩
  have hlast : (ownValues opened offset? ds).getLastD 0 ∈ ownValues opened offset? ds := by
    rw [List.getLastD_eq_getLast?, List.getLast?_eq_some_getLast (List.ne_nil_of_mem hmem),
      Option.getD_some]
    exact List.getLast_mem _
  obtain ⟨d', hd', hopened', hoffset', hvalue⟩ := mem_ownValues.mp hlast
  rw [← hvalue]
  exact honly d' hd' hopened' hoffset'

end OwnValues

theorem PropertyName.bytes_injective : Function.Injective PropertyName.bytes := by
  intro n n' h
  have htext := congrArg Utf8.decodeLossy h
  rw [bytes, bytes, Utf8.decodeLossy_encode, Utf8.decodeLossy_encode] at htext
  cases n <;> cases n' <;> first | rfl | exact absurd htext (by decide)

namespace PartitionsNode

variable {names : Names} {node node' : PartitionsNode} {child child' : Child} {p : Property}
  {step : Step} {stop : FormatError} {pos start : Nat} {outer : List Nat}

/-! ## One property -/

/-- The names that declare phandles, among those of a partitions node. -/
def Names.handles (names : Names) : PhandleCensus.Names :=
  ⟨names.phandle, names.linuxPhandle⟩

theorem Names.Of.handles (h : Names.Of s names) : PhandleCensus.Names.Of s names.handles :=
  ⟨h.phandle, h.linuxPhandle⟩

theorem wordValue_eq_ok_iff {value : UInt32} :
    wordValue s p = .ok value ↔
      p.value.length = 4 ∧ UInt32.ofNat (Bytes.ofBE p.value) = value := by
  rw [wordValue, fixedValue]
  split
  · rename_i hlen
    simp [hlen]
  · rename_i hlen
    simp [hlen, Except.map]

/-- A property under another name stands under neither of the two. -/
theorem Names.Of.ne_of_other (hnames : Names.Of s names) {n : PropertyName}
    (hn : n ≠ .phandle ∧ n ≠ .linuxPhandle) {offset : UInt32}
    (hoffset : s.find? n.bytes = some offset) :
    offset ≠ names.phandle ∧ some offset ≠ names.linuxPhandle := by
  have hbytes : ∀ {n' : PropertyName}, n ≠ n' → n.bytes ≠ n'.bytes :=
    fun hne h => hne (PropertyName.bytes_injective h)
  constructor
  · exact ne_of_find? n.zero_notMem (hbytes hn.1) hoffset hnames.phandle
  · intro hsame
    rw [← hnames.linuxPhandle] at hsame
    exact ne_of_find? n.zero_notMem (hbytes hn.2) hoffset hsame.symm rfl

/-- What a property of the node does to its handles. -/
theorem readOwn_handles (hnames : Names.Of s names) (h : readOwn s names node p = .ok node') :
    p.value.length = 4 ∧ node'.records = node.records ∧
      node'.phandle = (if p.nameOffset = names.phandle then UInt32.ofNat (Bytes.ofBE p.value)
        else node.phandle) ∧
      node'.linuxPhandle = (if some p.nameOffset = names.linuxPhandle then
        UInt32.ofNat (Bytes.ofBE p.value) else node.linuxPhandle) := by
  rw [readOwn] at h
  obtain ⟨value, hvalue, h⟩ := Outcome.bind_eq_ok_iff.mp h
  obtain ⟨hlen, rfl⟩ := wordValue_eq_ok_iff.mp hvalue
  refine ⟨hlen, ?_⟩
  obtain ⟨hphandle, hlinux⟩ := hnames.ne_of_other (by decide) hnames.parts
  split at h
  · rename_i hoffset
    obtain rfl := Except.ok.inj h
    rw [hoffset, if_neg hphandle, if_neg hlinux]
    exact ⟨rfl, rfl, rfl⟩
  · split at h
    · rename_i hoffset
      obtain rfl := Except.ok.inj h
      have hsingle : some p.nameOffset ≠ names.linuxPhandle :=
        hoffset ▸ hnames.handles.phandle_ne
      rw [if_pos hoffset, if_neg hsingle]
      exact ⟨rfl, rfl, rfl⟩
    · rename_i hne
      rw [if_neg hne]
      split at h
      · rename_i hoffset
        obtain rfl := Except.ok.inj h
        rw [if_pos hoffset]
        exact ⟨rfl, rfl, rfl⟩
      · rename_i hne'
        rw [if_neg hne']
        -- the others are references
        dsimp only at h
        split at h
        · split at h
          · obtain rfl := Except.ok.inj h
            exact ⟨rfl, rfl, rfl⟩
          · exact absurd h (by simp [throw, throwThe, MonadExceptOf.throw])
        · exact absurd h (by simp [throw, throwThe, MonadExceptOf.throw])

/-- What a property of a child does to its handles. -/
theorem readChild_handles (hnames : Names.Of s names) (h : readChild s names child p = .ok child') :
    (p.nameOffset = names.phandle ∨ some p.nameOffset = names.linuxPhandle →
      p.value.length = 4) ∧
      child'.record.phandle = (if p.nameOffset = names.phandle then
        UInt32.ofNat (Bytes.ofBE p.value) else child.record.phandle) ∧
      child'.record.linuxPhandle = (if some p.nameOffset = names.linuxPhandle then
        UInt32.ofNat (Bytes.ofBE p.value) else child.record.linuxPhandle) := by
  rw [readChild] at h
  split at h
  · rename_i hoffset
    obtain ⟨-, -, h⟩ := Outcome.bind_eq_ok_iff.mp h
    obtain rfl := Except.ok.inj h
    obtain ⟨hphandle, hlinux⟩ := hnames.ne_of_other (by decide) (hoffset ▸ hnames.pname)
    rw [if_neg hphandle, if_neg hlinux]
    exact ⟨fun h => absurd h (not_or.mpr ⟨hphandle, hlinux⟩), rfl, rfl⟩
  · split at h
    · rename_i hoffset
      obtain ⟨value, -, h⟩ := Outcome.bind_eq_ok_iff.mp h
      obtain rfl := Except.ok.inj h
      obtain ⟨hphandle, hlinux⟩ := hnames.ne_of_other (by decide) (hoffset ▸ hnames.size)
      rw [if_neg hphandle, if_neg hlinux]
      exact ⟨fun h => absurd h (not_or.mpr ⟨hphandle, hlinux⟩), rfl, rfl⟩
    · split at h
      · rename_i hoffset
        obtain ⟨value, -, h⟩ := Outcome.bind_eq_ok_iff.mp h
        obtain rfl := Except.ok.inj h
        obtain ⟨hphandle, hlinux⟩ := hnames.ne_of_other (by decide) (hoffset ▸ hnames.mask)
        rw [if_neg hphandle, if_neg hlinux]
        exact ⟨fun h => absurd h (not_or.mpr ⟨hphandle, hlinux⟩), rfl, rfl⟩
      · split at h
        · rename_i hoffset
          obtain ⟨value, hvalue, h⟩ := Outcome.bind_eq_ok_iff.mp h
          obtain ⟨hlen, rfl⟩ := wordValue_eq_ok_iff.mp hvalue
          obtain rfl := Except.ok.inj h
          have hlinux : some p.nameOffset ≠ names.linuxPhandle :=
            hoffset ▸ hnames.handles.phandle_ne
          rw [if_pos hoffset, if_neg hlinux]
          exact ⟨fun _ => hlen, rfl, rfl⟩
        · rename_i hphandle
          split at h
          · rename_i hoffset
            obtain ⟨value, hvalue, h⟩ := Outcome.bind_eq_ok_iff.mp h
            obtain ⟨hlen, rfl⟩ := wordValue_eq_ok_iff.mp hvalue
            obtain rfl := Except.ok.inj h
            rw [if_neg hphandle, if_pos hoffset]
            exact ⟨fun _ => hlen, rfl, rfl⟩
          · exact absurd h (by simp [throw, throwThe, MonadExceptOf.throw])

/-! ## Contents -/

theorem Names.declares_handles {offset : UInt32} :
    names.handles.declares offset ↔ offset = names.phandle ∨ some offset = names.linuxPhandle := by
  rw [PhandleCensus.Names.declares, Bool.or_eq_true, decide_eq_true_eq, decide_eq_true_eq]
  exact or_congr_right eq_comm

theorem findsPhandle_of_handle (hnames : Names.Of s names) {offset : UInt32}
    (hoffset : offset = names.phandle ∨ some offset = names.linuxPhandle) :
    s.findsPhandle offset := by
  rw [← hnames.handles.declares_eq]
  exact Names.declares_handles.mpr hoffset

/-- A property under one of the two names, as long as a word, is a declaration. -/
theorem declarations_of_handle (hnames : Names.Of s names) (htoken : step.token = .property p)
    (hoffset : p.nameOffset = names.phandle ∨ some p.nameOffset = names.linuxPhandle)
    (hlen : p.value.length = 4) (start : Nat) (outer : List Nat) (rest : List Step) :
    Walk.declarations s (start :: outer) (step :: rest) =
      ⟨start :: outer, p.nameOffset, UInt32.ofNat (Bytes.ofBE p.value)⟩ ::
        Walk.declarations s (start :: outer) rest := by
  have hnamed := hnames.handles.namesPhandle (Names.declares_handles.mpr hoffset)
  rw [Walk.declarations_property htoken, if_pos ⟨hnamed, hlen⟩]
  rfl

theorem getLastD_ownValues {offset? : Option UInt32} {value : UInt32}
    (hnames : Names.Of s names) (htoken : step.token = .property p)
    (hlen : some p.nameOffset = offset? → p.value.length = 4)
    (hoffset : offset? = some names.phandle ∨ offset? = names.linuxPhandle) (start : Nat)
    (outer : List Nat) (rest : List Step) :
    (ownValues (start :: outer) offset?
      (Walk.declarations s (start :: outer) (step :: rest))).getLastD value =
      (ownValues (start :: outer) offset? (Walk.declarations s (start :: outer) rest)).getLastD
        (if some p.nameOffset = offset? then UInt32.ofNat (Bytes.ofBE p.value) else value) := by
  by_cases hsame : some p.nameOffset = offset?
  · have hhandle : p.nameOffset = names.phandle ∨ some p.nameOffset = names.linuxPhandle := by
      rw [← hsame, Option.some.injEq] at hoffset
      exact hoffset
    rw [declarations_of_handle hnames htoken hhandle (hlen hsame), ownValues_cons,
      if_pos ⟨rfl, hsame⟩, if_pos hsame, List.getLastD_cons]
  · rw [Walk.declarations_property htoken, if_neg hsame]
    split
    · rw [List.singleton_append, ownValues_cons, if_neg fun h => hsame h.2]
    · rfl

/-- Inside a child the reader takes its handles from the child itself: the last one that it declares
under each of the two names. -/
theorem readTokens_inside {e : Step} (hnames : Names.Of s names) (h : Content inner)
    (hclose : e.token = .endNode) (start : Nat) (outer : List Nat)
    (hread : readTokens stop pos s names node (some child) (inner ++ e :: rest) = .ok node') :
    ∃ r, readTokens stop pos s names
        { node with records := node.records ++ [r] } none rest = .ok node' ∧
      (∀ d ∈ Walk.declarations s (start :: outer) inner, d.opened = start :: outer) ∧
      r.phandle = (ownValues (start :: outer) (some names.phandle)
        (Walk.declarations s (start :: outer) inner)).getLastD child.record.phandle ∧
      r.linuxPhandle = (ownValues (start :: outer) names.linuxPhandle
        (Walk.declarations s (start :: outer) inner)).getLastD child.record.linuxPhandle := by
  induction h generalizing child with
  | nil =>
      obtain ⟨r, hr, hread⟩ := (readTokens_endNode_inside hclose).mp hread
      obtain ⟨-, rfl⟩ := closeChild_eq_ok_iff.mp hr
      exact ⟨child.record, hread, fun d hd => absurd hd List.not_mem_nil, rfl, rfl⟩
  | @property step p tail htoken htail ih =>
      obtain ⟨child', hchild', hread⟩ := (readTokens_property_inside htoken).mp hread
      obtain ⟨hlen, hphandle, hlinux⟩ := readChild_handles hnames hchild'
      obtain ⟨r, hrest, hopened, hrphandle, hrlinux⟩ := ih hread
      refine ⟨r, hrest, ?_, ?_, ?_⟩
      · intro d hd
        rw [Walk.declarations_property htoken] at hd
        rcases List.mem_append.mp hd with hd | hd
        · split at hd
          · obtain rfl := List.mem_singleton.mp hd
            rfl
          · exact absurd hd List.not_mem_nil
        · exact hopened d hd
      · rw [hrphandle, hphandle, getLastD_ownValues hnames htoken
          (fun h => hlen (.inl (Option.some.inj h))) (.inl rfl)]
        simp only [Option.some.injEq]
      · rw [hrlinux, hlinux, getLastD_ownValues hnames htoken (fun h => hlen (.inr h)) (.inr rfl)]
  | nop htoken htail ih =>
      simp only [List.cons_append, readTokens, htoken] at hread
      rw [Walk.declarations_nop htoken]
      exact ih hread
  | child hopens body hcloses htail ihBody ih =>
      simp only [List.cons_append, readTokens, hopens] at hread
      exact absurd hread (by simp)

/-- The handles of a record that are not zero. -/
structure Handled (Q : UInt32 → Prop) (r : Record) : Prop where
  phandle : r.phandle ≠ 0 → Q r.phandle
  linuxPhandle : r.linuxPhandle ≠ 0 → Q r.linuxPhandle

theorem Handled.imp {Q Q' : UInt32 → Prop} {r : Record} (h : Handled Q r)
    (himp : ∀ v, Q v → Q' v) : Handled Q' r :=
  ⟨fun hne => himp _ (h.phandle hne), fun hne => himp _ (h.linuxPhandle hne)⟩

/-- What a node declares under one name that a search finds has one value. -/
def OncePerName (s : StringsBlock) (ds : List Declaration) : Prop :=
  ∀ d ∈ ds, ∀ d' ∈ ds, s.findsPhandle d.nameOffset → d.opened = d'.opened →
    d.nameOffset = d'.nameOffset → d.value = d'.value

/-- The handles of these records are those that are declared below a node: each handle is declared
there, and each declaration has a handle, unless another one of the same name has hidden it. -/
structure Gathered (s : StringsBlock) (start : Nat) (ds : List Declaration) (rs : List Record) :
    Prop where
  handled : ∀ r ∈ rs, Handled (fun v => ∃ d ∈ ds, s.findsPhandle d.nameOffset ∧ d.Below start ∧
    d.value = v) r
  covered : OncePerName s ds → ∀ d ∈ ds, s.findsPhandle d.nameOffset → d.Below start →
    ∃ r ∈ rs, d.value = r.phandle ∨ d.value = r.linuxPhandle

section Gathered

variable {ds ds' : List Declaration} {rs rs' : List Record}

/-- What the node declares itself is not below it. -/
theorem Gathered.of_own (h : ∀ d ∈ ds, ¬ d.Below start) : Gathered s start ds [] :=
  ⟨fun _ hr => absurd hr List.not_mem_nil, fun _ d hd _ hbelow => absurd hbelow (h d hd)⟩

theorem Gathered.append (h : Gathered s start ds rs) (h' : Gathered s start ds' rs') :
    Gathered s start (ds ++ ds') (rs ++ rs') where
  handled := by
    intro r hr
    rcases List.mem_append.mp hr with hr | hr
    · refine (h.handled r hr).imp ?_
      rintro v ⟨d, hd, hrest⟩
      exact ⟨d, List.mem_append_left _ hd, hrest⟩
    · refine (h'.handled r hr).imp ?_
      rintro v ⟨d, hd, hrest⟩
      exact ⟨d, List.mem_append_right _ hd, hrest⟩
  covered := by
    intro honce d hd hfound hbelow
    rcases List.mem_append.mp hd with hd | hd
    · obtain ⟨r, hr, hvalue⟩ := h.covered (fun d hd d' hd' =>
        honce d (List.mem_append_left _ hd) d' (List.mem_append_left _ hd')) d hd hfound hbelow
      exact ⟨r, List.mem_append_left _ hr, hvalue⟩
    · obtain ⟨r, hr, hvalue⟩ := h'.covered (fun d hd d' hd' =>
        honce d (List.mem_append_right _ hd) d' (List.mem_append_right _ hd')) d hd hfound hbelow
      exact ⟨r, List.mem_append_right _ hr, hvalue⟩

/-- A child that the reader has gone through gives one record. -/
theorem Gathered.of_child {child : Nat} {r : Record} (hnames : Names.Of s names)
    (hopened : ∀ d ∈ ds, d.opened = child :: start :: outer)
    (hphandle : r.phandle =
      (ownValues (child :: start :: outer) (some names.phandle) ds).getLastD 0)
    (hlinux : r.linuxPhandle =
      (ownValues (child :: start :: outer) names.linuxPhandle ds).getLastD 0) :
    Gathered s start ds [r] := by
  have hbelow : ∀ d ∈ ds, d.Below start := by
    intro d hd
    rw [Declaration.Below, hopened d hd]
    exact List.mem_cons_self
  refine ⟨List.forall_mem_singleton.mpr ⟨?_, ?_⟩, ?_⟩
  · intro hne
    rw [hphandle] at hne ⊢
    obtain ⟨d, hd, -, hoffset, hvalue⟩ := getLastD_mem hne
    exact ⟨d, hd, findsPhandle_of_handle hnames (.inl (Option.some.inj hoffset)), hbelow d hd,
      hvalue⟩
  · intro hne
    rw [hlinux] at hne ⊢
    obtain ⟨d, hd, -, hoffset, hvalue⟩ := getLastD_mem hne
    exact ⟨d, hd, findsPhandle_of_handle hnames (.inr hoffset), hbelow d hd, hvalue⟩
  · intro honce d hd hfound _
    refine ⟨r, List.mem_singleton_self r, ?_⟩
    have honly : ∀ offset?, some d.nameOffset = offset? → ∀ d' ∈ ds,
        d'.opened = child :: start :: outer → some d'.nameOffset = offset? →
        d'.value = d.value := by
      intro offset? hoffset d' hd' hopened' hoffset'
      have hsame : d.nameOffset = d'.nameOffset := Option.some.inj (hoffset.trans hoffset'.symm)
      exact (honce d hd d' hd' hfound ((hopened d hd).trans hopened'.symm) hsame).symm
    rw [← hnames.handles.declares_eq] at hfound
    rcases Names.declares_handles.mp hfound with hoffset | hoffset
    · left
      rw [hphandle, getLastD_of_once hd (hopened d hd) (congrArg some hoffset)
        (honly _ (congrArg some hoffset))]
    · right
      rw [hlinux, getLastD_of_once hd (hopened d hd) hoffset (honly _ hoffset)]

end Gathered

/-- **What the reader knows of the handles behind a content.**  Its own handles are the last ones
that the node has declared, and those of its records are declared in its children. -/
theorem readTokens_handles (hnames : Names.Of s names) (houter : start ∉ outer)
    (h : Content steps)
    (hread : readTokens stop pos s names node none (steps ++ rest) = .ok node') :
    ∃ mid rs, readTokens stop pos s names mid none rest = .ok node' ∧
      mid.phandle = (ownValues (start :: outer) (some names.phandle)
        (Walk.declarations s (start :: outer) steps)).getLastD node.phandle ∧
      mid.linuxPhandle = (ownValues (start :: outer) names.linuxPhandle
        (Walk.declarations s (start :: outer) steps)).getLastD node.linuxPhandle ∧
      mid.records = node.records ++ rs ∧
      Gathered s start (Walk.declarations s (start :: outer) steps) rs := by
  induction h generalizing node with
  | nil =>
      exact ⟨node, [], hread, rfl, rfl, (List.append_nil _).symm,
        .of_own fun d hd => absurd hd List.not_mem_nil⟩
  | @property step p tail htoken htail ih =>
      obtain ⟨node₁, hown, hread⟩ := (readTokens_property_own htoken).mp hread
      obtain ⟨hlen, hrecords, hphandle, hlinux⟩ := readOwn_handles hnames hown
      obtain ⟨mid, rs, hmid, hmidPhandle, hmidLinux, hmidRecords, hgathered⟩ := ih hread
      refine ⟨mid, rs, hmid, ?_, ?_, hrecords ▸ hmidRecords, ?_⟩
      · rw [hmidPhandle, hphandle, getLastD_ownValues hnames htoken (fun _ => hlen) (.inl rfl)]
        simp only [Option.some.injEq]
      · rw [hmidLinux, hlinux, getLastD_ownValues hnames htoken (fun _ => hlen) (.inr rfl)]
      · rw [Walk.declarations_property htoken, ← List.nil_append rs]
        refine Gathered.append (.of_own ?_) hgathered
        intro d hd
        split at hd
        · obtain rfl := List.mem_singleton.mp hd
          exact houter
        · exact absurd hd List.not_mem_nil
  | nop htoken htail ih =>
      simp only [List.cons_append, readTokens, htoken] at hread
      rw [Walk.declarations_nop htoken]
      exact ih hread
  | @child opens closes name inner tail hopens body hcloses htail ihBody ih =>
      rw [Walk.declarations_child hopens body hcloses]
      rw [List.cons_append, List.append_assoc, readTokens_beginNode_own hopens] at hread
      obtain ⟨-, child, hchild, hread⟩ := hread
      obtain ⟨-, rfl⟩ := openChild_eq_ok_iff.mp hchild
      obtain ⟨r, hread, hopened, hphandle, hlinux⟩ :=
        readTokens_inside hnames body hcloses opens.start (start :: outer) hread
      obtain ⟨mid, rs, hmid, hmidPhandle, hmidLinux, hmidRecords, hgathered⟩ := ih hread
      refine ⟨mid, r :: rs, hmid, ?_, ?_, ?_,
        (Gathered.of_child hnames hopened hphandle hlinux).append hgathered⟩
      · rw [hmidPhandle, ownValues_append, ownValues_child body, List.nil_append]
      · rw [hmidLinux, ownValues_append, ownValues_child body, List.nil_append]
      · rw [hmidRecords, List.append_assoc, List.singleton_append]

end PartitionsNode

/-! ## What emissions declare -/

/-- Whether a name is one of the two that declare phandles. -/
def IsHandleName (name : Bytes) : Prop :=
  name = PropertyName.phandle.bytes ∨ name = PropertyName.linuxPhandle.bytes

instance (name : Bytes) : Decidable (IsHandleName name) :=
  inferInstanceAs (Decidable (_ ∨ _))

theorem isHandleName_bytes (n : PropertyName) :
    IsHandleName n.bytes ↔ n = .phandle ∨ n = .linuxPhandle :=
  or_congr PropertyName.bytes_injective.eq_iff PropertyName.bytes_injective.eq_iff

namespace Emission

/-- The value that an emission declares. -/
def declared? : Emission → Option UInt32
  | .property name value =>
    if IsHandleName name then some (UInt32.ofNat (Bytes.ofBE value)) else none
  | _ => none

/-- What declares a phandle is one word. -/
def Sized : Emission → Prop
  | .property name value => IsHandleName name → value.length = 4
  | _ => True

variable {m : PhandleCensus.Names} {es : List Emission}

/-- The census counts a name that was looked up exactly when it is one of the two. -/
theorem declares_iff {name : Bytes} {offset : UInt32} (hm : PhandleCensus.Names.Of s m)
    (hname : 0 ∉ name) (h : s.find? name = some offset) :
    m.declares offset ↔ IsHandleName name := by
  rw [hm.declares_eq, StringsBlock.findsPhandle, Bool.or_eq_true, decide_eq_true_eq,
    decide_eq_true_eq]
  refine or_congr ⟨?_, ?_⟩ ⟨?_, ?_⟩
  · exact fun hfound => StringsBlock.eq_of_find? hname (PropertyName.zero_notMem _) h hfound
  · rintro rfl
    exact h
  · exact fun hfound => StringsBlock.eq_of_find? hname (PropertyName.zero_notMem _) h hfound
  · rintro rfl
    exact h

/-- **What is declared by tokens that read as emissions.** -/
theorem values_of_reads (hm : PhandleCensus.Names.Of s m) (hlegal : ∀ e ∈ es, e.Legal)
    (h : List.Forall₂ (fun e step => e.ReadsAs s step.token) es steps) :
    m.values steps = es.filterMap declared? := by
  induction h with
  | nil => rfl
  | @cons e step _ _ hstep hrest ih =>
      obtain ⟨he, hes⟩ := List.forall_mem_cons.mp hlegal
      have hvalue : m.value? step.token = e.declared? := by
        generalize step.token = t at hstep
        cases hstep with
        | property hname =>
            rw [PhandleCensus.Names.value?, declared?]
            exact if_congr (declares_iff hm he.1 hname) rfl rfl
        | _ => rfl
      rw [PhandleCensus.Names.values_cons, ih hes, hvalue, List.filterMap_cons]
      cases e.declared? with
      | none => rfl
      | some v => rfl

theorem sized_of_reads (hm : PhandleCensus.Names.Of s m) (hlegal : ∀ e ∈ es, e.Legal)
    (hsized : ∀ e ∈ es, e.Sized)
    (h : List.Forall₂ (fun e step => e.ReadsAs s step.token) es steps) : m.Sized steps := by
  induction h with
  | nil => exact fun _ hstep => absurd hstep List.not_mem_nil
  | @cons e step _ _ hstep hrest ih =>
      obtain ⟨he, hes⟩ := List.forall_mem_cons.mp hlegal
      obtain ⟨hsize, hsizes⟩ := List.forall_mem_cons.mp hsized
      refine PhandleCensus.Names.sized_cons.mpr ⟨?_, ih hes hsizes⟩
      intro p hp hdeclares
      rw [hp] at hstep
      cases hstep with
      | property hname => exact hsize ((declares_iff hm he.1 hname).mp hdeclares)

end Emission

namespace PartitionsNode

variable {paired : Bool} {r : Record} {rs : List Record}

/-- The handles that a node keeps. -/
def keptHandles (previous : PartitionsNode) : List UInt32 :=
  (if previous.phandle = 0 then [] else [previous.phandle]) ++
    (if previous.linuxPhandle = 0 then [] else [previous.linuxPhandle])

theorem mem_keptHandles {previous : PartitionsNode} {v : UInt32} :
    v ∈ keptHandles previous ↔
      v ≠ 0 ∧ (v = previous.phandle ∨ v = previous.linuxPhandle) := by
  have hkept : ∀ handle : UInt32, v ∈ (if handle = 0 then [] else [handle]) ↔
      v ≠ 0 ∧ v = handle := by
    intro handle
    split
    · rename_i hzero
      simp [hzero]
    · rename_i hne
      rw [List.mem_singleton, iff_and_self]
      rintro rfl
      exact hne
  rw [keptHandles, List.mem_append, hkept, hkept, and_or_left]

/-- The handles that the children of a composed node declare. -/
def childHandles (paired : Bool) (rs : List Record) : List UInt32 :=
  rs.flatMap fun r => if paired then [r.phandle, r.phandle] else [r.phandle]

theorem declared?_word (n : PropertyName) (value : UInt32) :
    (Emission.word n.bytes value).declared? =
      if n = .phandle ∨ n = .linuxPhandle then some value else none := by
  rw [Emission.word, Emission.declared?, Bytes.ofNat_ofBE_be32]
  exact if_congr (isHandleName_bytes n) rfl rfl

theorem declared?_other {n : PropertyName} (hn : ¬ (n = .phandle ∨ n = .linuxPhandle))
    (value : Bytes) : (Emission.property n.bytes value).declared? = none :=
  if_neg fun h => hn ((isHandleName_bytes n).mp h)

theorem declared?_referenceName (i : Nat) (value : Bytes) :
    (Emission.property (referenceName i) value).declared? = none :=
  if_neg fun h => h.elim (referenceName_ne i _) (referenceName_ne i _)

theorem filterMap_childEmissions (hr : Writable paired r) :
    (childEmissions paired r).filterMap Emission.declared? =
      if paired then [r.phandle, r.phandle] else [r.phandle] := by
  have hpname : (Emission.text PropertyName.pname.bytes (Utf8.encode r.name)).declared? = none :=
    declared?_other (by decide) _
  have hsize : (Emission.longWord PropertyName.size.bytes r.size).declared? = none :=
    declared?_other (by decide) _
  have hmask : (Emission.word PropertyName.mask.bytes r.mask).declared? = none :=
    declared?_other (by decide) _
  have hphandle : (Emission.word PropertyName.phandle.bytes r.phandle).declared? =
      some r.phandle := declared?_word .phandle _
  have hlinux : (Emission.word PropertyName.linuxPhandle.bytes r.linuxPhandle).declared? =
      some r.linuxPhandle := declared?_word .linuxPhandle _
  have hopen : (Emission.beginNode (Utf8.encode r.name)).declared? = none := rfl
  have hclose : Emission.endNode.declared? = none := rfl
  have hsame := hr.linuxPhandle_eq
  cases paired with
  | true =>
      simp only [childEmissions, if_true, List.cons_append, List.nil_append,
        List.filterMap_cons, List.filterMap_nil, hopen, hpname, hsize, hmask, hphandle, hlinux,
        hclose]
      rw [hsame, if_pos rfl]
  | false =>
      simp only [childEmissions, Bool.false_eq_true, if_false, List.cons_append, List.nil_append,
        List.append_nil, List.filterMap_cons, List.filterMap_nil, hopen, hpname, hsize, hmask,
        hphandle, hclose]

/-- The references declare no handle of their own. -/
theorem filterMap_references (rs : List Record) :
    (rs.zipIdx.map fun (r, i) => Emission.word (referenceName i) r.phandle).filterMap
      Emission.declared? = [] := by
  rw [List.filterMap_eq_nil_iff]
  intro e he
  obtain ⟨x, -, rfl⟩ := List.mem_map.mp he
  exact declared?_referenceName _ _

/-- **What a composed node declares**: the handles that it keeps, and those of its children. -/
theorem filterMap_content (previous : PartitionsNode) (hrs : ∀ r ∈ rs, Writable paired r) :
    (content previous paired rs).filterMap Emission.declared? =
      keptHandles previous ++ childHandles paired rs := by
  have hparts : (Emission.word PropertyName.parts.bytes (UInt32.ofNat rs.length)).declared? =
      none := declared?_other (by decide) _
  have hown : ∀ (n : PropertyName) (value : UInt32), n = .phandle ∨ n = .linuxPhandle →
      (if value = 0 then [] else [Emission.word n.bytes value]).filterMap Emission.declared? =
        if value = 0 then [] else [value] := by
    intro n value hn
    split
    · rfl
    · rw [List.filterMap_cons, declared?_word, if_pos hn]
      rfl
  have hchildren : (rs.flatMap (childEmissions paired)).filterMap Emission.declared? =
      childHandles paired rs := by
    rw [List.filterMap_flatMap]
    exact List.flatMap_congr fun r hr => filterMap_childEmissions (hrs r hr)
  rw [content, List.filterMap_append, List.filterMap_append, List.filterMap_append,
    List.filterMap_append, List.filterMap_cons, hparts, filterMap_references, hown _ _ (.inl rfl),
    hown _ _ (.inr rfl), hchildren]
  rfl

theorem sized_word (name : Bytes) (value : UInt32) : (Emission.word name value).Sized :=
  fun _ => Bytes.length_be32 value

theorem sized_childEmissions (paired : Bool) (r : Record) :
    ∀ e ∈ childEmissions paired r, e.Sized := by
  have hother : ∀ (n : PropertyName) (value : Bytes), ¬ (n = .phandle ∨ n = .linuxPhandle) →
      (Emission.property n.bytes value).Sized :=
    fun n _ hn hname => absurd ((isHandleName_bytes n).mp hname) hn
  intro e he
  simp only [childEmissions, List.mem_append, List.mem_cons, List.not_mem_nil, or_false] at he
  rcases he with ((rfl | rfl | rfl | rfl | rfl) | he) | rfl
  · trivial
  · exact hother .pname _ (by decide)
  · exact hother .size _ (by decide)
  · exact sized_word _ _
  · exact sized_word _ _
  · split at he
    · rw [List.mem_singleton] at he
      subst he
      exact sized_word _ _
    · exact absurd he List.not_mem_nil
  · trivial

theorem sized_content (previous : PartitionsNode) (paired : Bool) (rs : List Record) :
    ∀ e ∈ content previous paired rs, e.Sized := by
  have hown : ∀ (value : UInt32) (name : Bytes), ∀ e ∈ (if value = 0 then []
      else [Emission.word name value]), e.Sized := by
    intro value name e he
    split at he
    · exact absurd he List.not_mem_nil
    · rw [List.mem_singleton] at he
      subst he
      exact sized_word _ _
  intro e he
  simp only [content, List.mem_append, List.mem_singleton, List.mem_map, List.mem_flatMap] at he
  rcases he with (((rfl | ⟨x, -, rfl⟩) | he) | he) | ⟨r, -, he⟩
  · exact sized_word _ _
  · exact sized_word _ _
  · exact hown _ _ e he
  · exact hown _ _ e he
  · exact sized_childEmissions paired r e he

end PartitionsNode

end EmmcLayout.DeviceTree
