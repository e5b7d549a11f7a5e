import EmmcLayout.Proofs.Grammar.Definer

/-!
# The definers of a mode

`Definer.Legal` lists, mode by mode, what a definer consists of.  The reader knows nothing of that
list: it goes by an allowance for each field, by presence first and by form later, and fills in a
mask where none is given.  `parseDefiner_eq_ok_iff` says when all of that succeeds under any rules,
`DefinerRules.Admits` says what then holds of the definer, and the two meet the list in
`legal_iff_admits`.

The main statement, `parseDefiner_legal`, is exact: a mode reads legal definers only, and reads each
of them back from its text.
-/

namespace EmmcLayout

/-! ## Definers as arguments -/

/-- An amount as an argument: in decimal, with a `+` in front when it is relative. -/
def Amount.text : Amount → String
  | .absolute value => Snapshot.decimalLiteral value
  | .relative value => "+" ++ Snapshot.decimalLiteral value

/-- An amount that may be left out, as a field of an argument. -/
def Amount.fieldText (amount : Option Amount) : String :=
  (amount.map Amount.text).getD ""

/-- A mask that may be left out, as a field of an argument. -/
def maskFieldText (mask : Option UInt32) : String :=
  (mask.map fun mask => toString mask.toNat).getD ""

/-- A definer as an argument. -/
def Definer.text (d : Definer) : String :=
  d.name ++ ":" ++ Amount.fieldText d.offset ++ ":" ++ Amount.fieldText d.size ++ ":" ++
    maskFieldText d.mask

/-! ## What the modes take -/

/-- The definer is one of those that the mode takes. -/
def Definer.Legal (d : Definer) : Mode → Prop
  | .createTable | .editTable =>
    Name.check d.name = .ok () ∧ (d.size = none ∨ ∃ size, d.size = some (.absolute size)) ∧
      ∃ mask, d.mask = some mask ∧ (mask = 1 ∨ mask = 2 ∨ mask = 4)
  | .cloneTable =>
    Name.check d.name = .ok () ∧ (∃ offset, d.offset = some (.absolute offset)) ∧
      (∃ size, d.size = some (.absolute size)) ∧ ∃ mask, d.mask = some mask ∧ Grammar.IsMask mask
  | .cloneRecords | .editRecords =>
    Name.check d.name = .ok () ∧ d.offset = none ∧
      (∃ size, d.size = some (.absolute size)) ∧ ∃ mask, d.mask = some mask ∧ Grammar.IsMask mask

/-- The amount has a form that the allowance knows. -/
def Allowance.Knows (a : Allowance) : Amount → Prop
  | .absolute _ => a.absolute = true
  | .relative _ => a.relative = true

/-- The allowance lets the field hold this amount, or be empty. -/
def Allowance.Admits (a : Allowance) : Option Amount → Prop
  | none => a.required = false
  | some amount => a.disallowed = false ∧ a.Knows amount

/-- The mask is one that is read, where 0 is allowed or is not. -/
def Grammar.MaskAllowed (allowZero : Bool) (mask : UInt32) : Prop :=
  mask = 1 ∨ mask = 2 ∨ mask = 4 ∨ (mask = 0 ∧ allowZero = true)

/-- The definer has all that the rules ask for, and nothing that they forbid. -/
structure DefinerRules.Admits (rules : DefinerRules) (d : Definer) : Prop where
  name : Name.check d.name = .ok ()
  offset : rules.offset.Admits d.offset
  size : rules.size.Admits d.size
  mask : ∃ mask, d.mask = some mask ∧ Grammar.MaskAllowed rules.allowZeroMask mask

section

variable {amount : Option Amount} {mask : UInt32} {rules : DefinerRules} {mode : Mode} {d : Definer}

theorem Allowance.admits_free :
    ({ absolute := true, relative := true } : Allowance).Admits amount := by
  rcases amount with _ | _ | _ <;> simp [Admits, Knows]

theorem Allowance.admits_optional_iff : ({ absolute := true } : Allowance).Admits amount ↔
    amount = none ∨ ∃ value, amount = some (.absolute value) := by
  rcases amount with _ | _ | _ <;> simp [Admits, Knows]

theorem Allowance.admits_required_iff :
    ({ required := true, absolute := true } : Allowance).Admits amount ↔
      ∃ value, amount = some (.absolute value) := by
  rcases amount with _ | _ | _ <;> simp [Admits, Knows]

theorem Allowance.admits_disallowed_iff :
    ({ disallowed := true } : Allowance).Admits amount ↔ amount = none := by
  rcases amount with _ | _ | _ <;> simp [Admits]

theorem Grammar.maskAllowed_false_iff :
    MaskAllowed false mask ↔ mask = 1 ∨ mask = 2 ∨ mask = 4 := by
  simp [MaskAllowed]

theorem Grammar.isMask_iff : IsMask mask ↔ MaskAllowed true mask := by
  unfold IsMask MaskAllowed
  tauto

theorem DefinerRules.admits_iff : rules.Admits d ↔
    Name.check d.name = .ok () ∧ rules.offset.Admits d.offset ∧ rules.size.Admits d.size ∧
      ∃ mask, d.mask = some mask ∧ Grammar.MaskAllowed rules.allowZeroMask mask :=
  ⟨fun h => ⟨h.name, h.offset, h.size, h.mask⟩, fun ⟨hname, hoffset, hsize, hmask⟩ =>
    ⟨hname, hoffset, hsize, hmask⟩⟩

/-- Under the rules of a mode the legal definers are the admitted ones. -/
theorem legal_iff_admits : d.Legal mode ↔ mode.rules.Admits d := by
  rw [DefinerRules.admits_iff]
  cases mode
  case createTable | editTable =>
    simp only [Definer.Legal, Mode.rules, DefinerRules.create, Allowance.admits_free,
      Allowance.admits_optional_iff, Grammar.maskAllowed_false_iff, true_and]
  case cloneTable =>
    simp only [Definer.Legal, Mode.rules, DefinerRules.cloneTable, Allowance.admits_required_iff,
      Grammar.isMask_iff]
  case cloneRecords | editRecords =>
    simp only [Definer.Legal, Mode.rules, DefinerRules.cloneRecords,
      Allowance.admits_disallowed_iff, Allowance.admits_required_iff, Grammar.isMask_iff]

end

namespace Grammar

variable {rules : DefinerRules} {mode : Mode} {arg text : String} {d : Definer}
  {field : Field} {allowance : Allowance} {allowZero : Bool} {amount : Option Amount}

/-! ## The reader, field by field -/

/-- Reads the amount of a field, which may be empty. -/
def readAmount (field : Field) (text : String) (allowance : Allowance) (arg : String) :
    Except GrammarError (Option Amount) :=
  if text = "" then pure none else some <$> parseAmount field text allowance arg

/-- Reads the mask of a field, which may be empty and then stands for another one. -/
def readMask (ifEmpty : Option UInt32) (allowZero : Bool) (text arg : String) :
    Except GrammarError (Option UInt32) :=
  if text = "" then pure ifEmpty else some <$> parseMask text allowZero arg

/-- All four fields are present as the rules want it. -/
def Present (rules : DefinerRules) (arg : String) (f : Fields) : Prop :=
  checkPresence .name f.name rules.name arg = .ok () ∧
    checkPresence .offset f.offset rules.offset arg = .ok () ∧
      checkPresence .size f.size rules.size arg = .ok () ∧
        checkPresence .mask f.mask rules.mask arg = .ok ()

theorem parseDefiner_eq_ok_iff :
    parseDefiner rules arg = .ok d ↔
      ∃ f, fields arg = .ok f ∧ Present rules arg f ∧
        (f.name ≠ "" → checkName f.name = .ok ()) ∧ f.name = d.name ∧
          readAmount .offset f.offset rules.offset arg = .ok d.offset ∧
            readAmount .size f.size rules.size arg = .ok d.size ∧
              readMask rules.defaultMask rules.allowZeroMask f.mask arg = .ok d.mask := by
  have hread : parseDefiner rules arg = (do
      let f ← fields arg
      checkPresence .name f.name rules.name arg
      checkPresence .offset f.offset rules.offset arg
      checkPresence .size f.size rules.size arg
      checkPresence .mask f.mask rules.mask arg
      (if f.name ≠ "" then checkName f.name else pure ())
      let offset ← readAmount .offset f.offset rules.offset arg
      let size ← readAmount .size f.size rules.size arg
      let mask ← readMask rules.defaultMask rules.allowZeroMask f.mask arg
      return ⟨f.name, offset, size, mask⟩) := by
    unfold parseDefiner readAmount readMask
    refine bind_congr fun f => ?_
    split_ifs <;> rfl
  simp only [hread, Outcome.bind_eq_ok_iff, Present]
  constructor
  · rintro ⟨f, hf, ⟨⟩, hname, ⟨⟩, hoffset, ⟨⟩, hsize, ⟨⟩, hmask, ⟨⟩, hchecked, offset, ho, size, hs,
      mask, hm, hd⟩
    obtain rfl := Except.ok.inj hd
    refine ⟨f, hf, ⟨hname, hoffset, hsize, hmask⟩, fun hne => ?_, rfl, ho, hs, hm⟩
    rwa [if_pos hne] at hchecked
  · rintro ⟨f, hf, ⟨hname, hoffset, hsize, hmask⟩, hchecked, hd, ho, hs, hm⟩
    refine ⟨f, hf, (), hname, (), hoffset, (), hsize, (), hmask, (), ?_, d.offset, ho, d.size, hs,
      d.mask, hm, by rw [hd]; rfl⟩
    by_cases hne : f.name ≠ ""
    · rw [if_pos hne]
      exact hchecked hne
    · rw [if_neg hne]
      rfl

theorem checkPresence_eq_ok_iff :
    checkPresence field text allowance arg = .ok () ↔
      (text ≠ "" → allowance.disallowed = false) ∧ (text = "" → allowance.required = false) := by
  unfold checkPresence
  split_ifs <;> simp_all

theorem knows_of_parseAmount {amount : Amount}
    (h : parseAmount field text allowance arg = .ok amount) : allowance.Knows amount := by
  unfold parseAmount at h
  split at h <;> split_ifs at h with hknown
  · obtain ⟨value, -, rfl⟩ := Outcome.map_eq_ok_iff.mp h
    exact hknown
  · obtain ⟨value, -, rfl⟩ := Outcome.map_eq_ok_iff.mp h
    exact hknown

/-- What is read from a field is what its allowance admits. -/
theorem admits_of_readAmount (hpresent : checkPresence field text allowance arg = .ok ())
    (h : readAmount field text allowance arg = .ok amount) : allowance.Admits amount := by
  obtain ⟨hdisallowed, hrequired⟩ := checkPresence_eq_ok_iff.mp hpresent
  unfold readAmount at h
  split_ifs at h with hempty
  · obtain rfl := Except.ok.inj h
    exact hrequired hempty
  · obtain ⟨x, hx, rfl⟩ := Outcome.map_eq_ok_iff.mp h
    exact ⟨hdisallowed hempty, knows_of_parseAmount hx⟩

theorem parseMask_eq_ok_iff {mask : UInt32} :
    parseMask text allowZero arg = .ok mask ↔
      parseU32 text = .ok mask ∧ MaskAllowed allowZero mask := by
  unfold parseMask
  rw [Outcome.bind_eq_ok_iff]
  constructor
  · rintro ⟨read, hread, h⟩
    split_ifs at h with hknown
    obtain rfl := Except.ok.inj h
    exact ⟨hread, hknown⟩
  · rintro ⟨hread, hknown⟩
    exact ⟨mask, hread, if_pos hknown⟩

/-- A mode asks for a mask or has one ready, and that one passes its own check. -/
theorem rules_mask (mode : Mode) :
    mode.rules.mask.required = true ∨
      ∃ mask, mode.rules.defaultMask = some mask ∧ MaskAllowed mode.rules.allowZeroMask mask := by
  cases mode
  case createTable | editTable => exact .inr ⟨4, rfl, .inr (.inr (.inl rfl))⟩
  case cloneTable | cloneRecords | editRecords => exact .inl rfl

theorem mask_of_readMask {ifEmpty mask : Option UInt32}
    (h : readMask ifEmpty allowZero text arg = .ok mask) :
    (text = "" ∧ mask = ifEmpty) ∨ ∃ m, mask = some m ∧ MaskAllowed allowZero m := by
  unfold readMask at h
  split_ifs at h with hempty
  · exact .inl ⟨hempty, (Except.ok.inj h).symm⟩
  · obtain ⟨m, hm, rfl⟩ := Outcome.map_eq_ok_iff.mp h
    exact .inr ⟨m, rfl, (parseMask_eq_ok_iff.mp hm).2⟩

/-- A mode reads only what its rules admit. -/
theorem admits_of_parseDefiner (h : parseDefiner mode.rules arg = .ok d) : mode.rules.Admits d := by
  obtain ⟨f, -, ⟨hname, hoffset, hsize, hmask⟩, hchecked, hd, ho, hs, hm⟩ :=
    parseDefiner_eq_ok_iff.mp h
  have hrequired : mode.rules.name.required = true := by cases mode <;> rfl
  have hne : f.name ≠ "" := fun hempty =>
    absurd ((checkPresence_eq_ok_iff.mp hname).2 hempty) (by simp [hrequired])
  refine ⟨hd ▸ Outcome.mapError_eq_ok_iff.mp (hchecked hne), admits_of_readAmount hoffset ho,
    admits_of_readAmount hsize hs, ?_⟩
  rcases mask_of_readMask hm with ⟨hempty, hdefault⟩ | hgiven
  · have hoptional := (checkPresence_eq_ok_iff.mp hmask).2 hempty
    obtain hrequired | ⟨mask, hmask, hknown⟩ := rules_mask mode
    · exact absurd hoptional (by simp [hrequired])
    · exact ⟨mask, hdefault.trans hmask, hknown⟩
  · exact hgiven

/-! ## Reading texts back -/

theorem parseAmount_text {amount : Amount} (h : allowance.Knows amount) :
    parseAmount field amount.text allowance arg = .ok amount := by
  cases amount with
  | absolute value => exact parseAmount_of_style style_decimalLiteral h value
  | relative value =>
    have htext : (Amount.relative value).text.toList =
        '+' :: (Snapshot.decimalLiteral value).toList := by
      simp [Amount.text]
    have hrelative : allowance.relative = true := h
    unfold parseAmount
    rw [htext]
    simp only
    rw [if_pos hrelative, parseAmountValue, String.ofList_toList,
      if_neg (style_decimalLiteral.ne_empty value), style_decimalLiteral.parseSize_eq]
    rfl

theorem text_ne_empty (amount : Amount) : amount.text ≠ "" := by
  cases amount with
  | absolute value => exact style_decimalLiteral.ne_empty value
  | relative value => simp [Amount.text]

theorem readAmount_fieldText (field : Field) (arg : String) (h : allowance.Admits amount) :
    checkPresence field (Amount.fieldText amount) allowance arg = .ok () ∧
      readAmount field (Amount.fieldText amount) allowance arg = .ok amount := by
  cases amount with
  | none => exact ⟨checkPresence_eq_ok_iff.mpr ⟨fun hne => absurd rfl hne, fun _ => h⟩, rfl⟩
  | some x =>
    have hne : Amount.fieldText (some x) ≠ "" := text_ne_empty x
    refine ⟨checkPresence_of_ne_empty hne h.1, ?_⟩
    rw [readAmount, if_neg hne]
    show some <$> parseAmount field x.text allowance arg = .ok (some x)
    rw [parseAmount_text h.2]
    rfl

theorem colon_notMem_fieldText (amount : Option Amount) :
    ':' ∉ (Amount.fieldText amount).toList := by
  have hdigits : ∀ value, ':' ∉ (Snapshot.decimalLiteral value).toList := fun value =>
    style_decimalLiteral.notMem (by decide) value
  rcases amount with _ | value | value
  · simp [Amount.fieldText]
  · exact hdigits value
  · simp [Amount.fieldText, Amount.text, hdigits value]

theorem readMask_maskFieldText (ifEmpty : Option UInt32) (arg : String) {mask : UInt32}
    (h : MaskAllowed allowZero mask) :
    maskFieldText (some mask) ≠ "" ∧
      readMask ifEmpty allowZero (maskFieldText (some mask)) arg = .ok (some mask) := by
  have hne : maskFieldText (some mask) ≠ "" := Literal.toString_ne_empty mask.toNat
  have hread : parseU32 (maskFieldText (some mask)) = .ok mask := parseU32_toString mask
  refine ⟨hne, ?_⟩
  rw [readMask, if_neg hne, parseMask_eq_ok_iff.mpr ⟨hread, h⟩]
  rfl

/-- What the rules admit is read back from its text. -/
theorem parseDefiner_text (h : mode.rules.Admits d) : parseDefiner mode.rules d.text = .ok d := by
  obtain ⟨mask, hmask, hknown⟩ := h.mask
  obtain ⟨hoffset, ho⟩ := readAmount_fieldText .offset d.text h.offset
  obtain ⟨hsize, hs⟩ := readAmount_fieldText .size d.text h.size
  obtain ⟨hmaskEmpty, hm⟩ := readMask_maskFieldText mode.rules.defaultMask d.text hknown
  have hfields : fields d.text = .ok ⟨d.name, Amount.fieldText d.offset, Amount.fieldText d.size,
      maskFieldText d.mask⟩ :=
    fields_of_parts (Name.notMem_of_check h.name ⟨0x3A, by decide, by decide⟩)
      (colon_notMem_fieldText _) (colon_notMem_fieldText _) _
  have hpermitted : mode.rules.name.disallowed = false ∧ mode.rules.mask.disallowed = false := by
    cases mode <;> exact ⟨rfl, rfl⟩
  rw [← hmask] at hmaskEmpty hm
  refine parseDefiner_eq_ok_iff.mpr ⟨_, hfields, ⟨?_, hoffset, hsize, ?_⟩, ?_, rfl, ho, hs, hm⟩
  · exact checkPresence_of_ne_empty (Name.ne_empty_of_check h.name) hpermitted.1
  · exact checkPresence_of_ne_empty hmaskEmpty hpermitted.2
  · exact fun _ => checkName_of_check h.name

/-- **The definers of a mode.**  Whatever argument a mode reads is a legal definer for it, and every
legal definer is read back from its text. -/
theorem parseDefiner_legal (mode : Mode) :
    (∀ arg d, parseDefiner mode.rules arg = .ok d → d.Legal mode) ∧
      ∀ d, d.Legal mode → parseDefiner mode.rules d.text = .ok d :=
  ⟨fun _ _ h => legal_iff_admits.mpr (admits_of_parseDefiner h),
    fun _ h => parseDefiner_text (legal_iff_admits.mp h)⟩

/-- Eight megabytes behind the used space, with the mask that the mode gives. -/
def behindGap : Definer :=
  ⟨"system", some (.relative 0x800000), some (.absolute 0x80000000), some 4⟩

theorem parseDefiner_legal_of_behindGap :
    parseDefiner Mode.createTable.rules "system:+8M:2g:" = .ok behindGap ∧
      behindGap.Legal .createTable ∧ behindGap.text = "system:+8388608:2147483648:4" ∧
        parseDefiner Mode.createTable.rules behindGap.text = .ok behindGap := by
  have hread : parseDefiner Mode.createTable.rules "system:+8M:2g:" = .ok behindGap := by
    decide +kernel
  have hlegal := (parseDefiner_legal .createTable).1 _ _ hread
  exact ⟨hread, hlegal, by decide +kernel, (parseDefiner_legal .createTable).2 _ hlegal⟩

end Grammar

end EmmcLayout
