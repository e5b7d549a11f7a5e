import EmmcLayout.Proofs.DeviceTree.Handles
import EmmcLayout.Proofs.DeviceTree.Items

/-!
# Well-formed partitions nodes

`PartitionsNode.WellFormed` says which contents a partitions node may have, and `summary` what such
a content means: a property that stands there several times has the value that it has last.  Both go
by the names of the properties and know nothing of tokens or offsets.  The references are the names
`part-N` (`IsReference`), which the reader knows by the texts that they decode to
(`isReference_iff`).
-/

namespace EmmcLayout.DeviceTree

namespace PartitionsNode

/-! ## Names of references -/

/-- Decimal digits that stand for this number; zeros may come first. -/
structure IsDecimal (digits : List Char) (n : Nat) : Prop where
  ne_nil : digits ≠ []
  isDigit : ∀ c ∈ digits, c.isDigit
  value_eq : Nat.ofDigitChars 10 digits 0 = n

/-- The name `part-N` for this number, in front of which a plus sign may stand. -/
def IsReference (name : Bytes) (i : Fin maxPartitions) : Prop :=
  ∃ sign digits : List Char, (sign = [] ∨ sign = ['+']) ∧ IsDecimal digits i ∧
    name = Utf8.encode ("part-" ++ String.ofList (sign ++ digits))

/-- The number that the reader takes from the name of a reference. -/
def referenceOf? (name : Bytes) : Option (Fin maxPartitions) :=
  match (Utf8.decodeLossy name).toList with
  | 'p' :: 'a' :: 'r' :: 't' :: '-' :: digits => referenceIndex? digits
  | _ => none

theorem toList_part (cs : List Char) :
    ("part-" ++ String.ofList cs).toList = 'p' :: 'a' :: 'r' :: 't' :: '-' :: cs := by
  rw [String.toList_append]
  exact congrArg (['p', 'a', 'r', 't', '-'] ++ ·) String.toList_ofList

theorem referenceIndex?_eq_some_iff {cs : List Char} {i : Fin maxPartitions} :
    referenceIndex? cs = some i ↔
      ∃ sign digits : List Char, (sign = [] ∨ sign = ['+']) ∧ IsDecimal digits i ∧
        cs = sign ++ digits := by
  -- what is left when a plus sign in front is taken away has to be digits
  have hdigits : ∀ digits : List Char,
      (if digits ≠ [] ∧ digits.all Char.isDigit then
        if h : Nat.ofDigitChars 10 digits 0 < maxPartitions then
          some (⟨Nat.ofDigitChars 10 digits 0, h⟩ : Fin maxPartitions)
        else none
      else none) = some i ↔ IsDecimal digits i := by
    intro digits
    by_cases hall : digits ≠ [] ∧ digits.all Char.isDigit
    · rw [if_pos hall]
      split
      · rw [Option.some.injEq, Fin.ext_iff]
        exact ⟨fun h => ⟨hall.1, List.all_eq_true.mp hall.2, h⟩, fun h => h.value_eq⟩
      · rename_i hlarge
        exact ⟨nofun, fun h => absurd (h.value_eq ▸ i.isLt) hlarge⟩
    · rw [if_neg hall]
      exact ⟨nofun, fun h => absurd ⟨h.ne_nil, List.all_eq_true.mpr h.isDigit⟩ hall⟩
  rw [referenceIndex?]
  constructor
  · intro h
    split at h
    · rename_i hplus
      exact ⟨['+'], cs.tail, .inr rfl, (hdigits _).mp h, (List.cons_head?_tail hplus).symm⟩
    · exact ⟨[], cs, .inl rfl, (hdigits _).mp h, rfl⟩
  · rintro ⟨sign, digits, hsign, hdecimal, rfl⟩
    cases hsign with
    | inl hnone =>
        subst hnone
        have hplus : digits.head? ≠ some '+' := by
          intro hplus
          exact absurd (hdecimal.isDigit _ (List.mem_of_mem_head? hplus)) (by decide)
        rw [List.nil_append, if_neg hplus]
        exact (hdigits digits).mpr hdecimal
    | inr hplus =>
        subst hplus
        exact (hdigits digits).mpr hdecimal

theorem referenceOf?_eq_some_iff {name : Bytes} {i : Fin maxPartitions} :
    referenceOf? name = some i ↔
      ∃ digits, (Utf8.decodeLossy name).toList = 'p' :: 'a' :: 'r' :: 't' :: '-' :: digits ∧
        referenceIndex? digits = some i := by
  constructor
  · intro h
    rw [referenceOf?] at h
    split at h
    · rename_i digits htext
      exact ⟨digits, htext, h⟩
    · exact absurd h (by simp)
  · rintro ⟨digits, htext, h⟩
    rw [referenceOf?, htext]
    exact h

theorem plain_of_isDigit {c : Char} (h : c.isDigit) : Utf8.Plain c := by
  rw [Char.isDigit, Bool.and_eq_true, decide_eq_true_eq, decide_eq_true_eq] at h
  have hlow : 48 ≤ c.toNat := h.1
  have hhigh : c.toNat ≤ 57 := h.2
  exact ⟨by omega, by omega⟩

/-- The text of a name says whether it is a reference: no other bytes decode to such a text. -/
theorem isReference_iff {name : Bytes} {i : Fin maxPartitions} :
    IsReference name i ↔ referenceOf? name = some i := by
  constructor
  · rintro ⟨sign, digits, hsign, hdecimal, rfl⟩
    rw [referenceOf?, Utf8.decodeLossy_encode, toList_part]
    exact referenceIndex?_eq_some_iff.mpr ⟨sign, digits, hsign, hdecimal, rfl⟩
  · intro h
    obtain ⟨cs, htext, h⟩ := referenceOf?_eq_some_iff.mp h
    obtain ⟨sign, digits, hsign, hdecimal, rfl⟩ := referenceIndex?_eq_some_iff.mp h
    refine ⟨sign, digits, hsign, hdecimal, Utf8.encode_of_decodeLossy ?_ ?_⟩
    · rw [← String.toList_inj, htext, toList_part]
    · have hpart : ∀ c ∈ ['p', 'a', 'r', 't', '-'], Utf8.Plain c := by
        intro c hc
        simp only [List.mem_cons, List.not_mem_nil, or_false] at hc
        rcases hc with rfl | rfl | rfl | rfl | rfl <;> decide
      have hplus : ∀ c ∈ sign, Utf8.Plain c := by
        rcases hsign with rfl | rfl
        · exact List.forall_mem_nil _
        · exact List.forall_mem_singleton.mpr (by decide)
      have hdigits : ∀ c ∈ digits, Utf8.Plain c :=
        fun c hc => plain_of_isDigit (hdecimal.isDigit c hc)
      rw [toList_part]
      exact List.forall_mem_append.mpr ⟨hpart, List.forall_mem_append.mpr ⟨hplus, hdigits⟩⟩

instance (name : Bytes) (i : Fin maxPartitions) : Decidable (IsReference name i) :=
  decidable_of_iff _ isReference_iff.symm

theorem referenceOf?_bytes (n : PropertyName) : referenceOf? n.bytes = none := by
  rw [referenceOf?, PropertyName.bytes, Utf8.decodeLossy_encode]
  cases n <;> rfl

theorem not_isReference_bytes (n : PropertyName) (i : Fin maxPartitions) :
    ¬ IsReference n.bytes i := by
  rw [isReference_iff, referenceOf?_bytes]
  exact nofun

/-! ## What a node says -/

/-- The value of the last property with such a name, and the default when there is none. -/
def lastOf {α : Type} (P : Bytes → Prop) [DecidablePred P] (value : Bytes → α) (default : α)
    (ps : List (Bytes × Bytes)) : α :=
  ((ps.filter fun p => P p.1).map fun p => value p.2).getLastD default

/-- The word that a value is. -/
def wordOf (value : Bytes) : UInt32 := UInt32.ofNat (Bytes.ofBE value)

/-- The long word that a value is. -/
def longWordOf (value : Bytes) : UInt64 := UInt64.ofNat (Bytes.ofBE value)

section LastOf

variable {α : Type} {P : Bytes → Prop} [DecidablePred P] {value : Bytes → α}

theorem lastOf_nil (default : α) : lastOf P value default [] = default := rfl

theorem lastOf_cons (default : α) (p : Bytes × Bytes) (ps : List (Bytes × Bytes)) :
    lastOf P value default (p :: ps) =
      lastOf P value (if P p.1 then value p.2 else default) ps := by
  by_cases hp : P p.1
  · rw [lastOf, List.filter_cons_of_pos (by simpa using hp), List.map_cons, List.getLastD_cons,
      if_pos hp, lastOf]
  · rw [lastOf, List.filter_cons_of_neg (by simpa using hp), if_neg hp, lastOf]

end LastOf

/-- The record of a child: the last value of each of its properties. -/
def recordOf (name : Bytes) (content : List Item) : Record where
  name := Utf8.decodeLossy name
  size := lastOf (· = PropertyName.size.bytes) longWordOf 0 (Item.properties content)
  mask := lastOf (· = PropertyName.mask.bytes) wordOf 0 (Item.properties content)
  phandle := lastOf (· = PropertyName.phandle.bytes) wordOf 0 (Item.properties content)
  linuxPhandle := lastOf (· = PropertyName.linuxPhandle.bytes) wordOf 0 (Item.properties content)

/-- What a node with this content says. -/
def summary (content : List Item) : PartitionsNode where
  records := (Item.children content).map fun child => recordOf child.1 child.2
  references := Vector.ofFn fun i => lastOf (IsReference · i) wordOf 0 (Item.properties content)
  phandle := lastOf (· = PropertyName.phandle.bytes) wordOf 0 (Item.properties content)
  linuxPhandle := lastOf (· = PropertyName.linuxPhandle.bytes) wordOf 0 (Item.properties content)
  declared := lastOf (· = PropertyName.parts.bytes) wordOf 0 (Item.properties content)

/-! ## Which nodes are accepted -/

/-- A property that the node itself may have. -/
def OwnAllowed (p : Bytes × Bytes) : Prop :=
  p.2.length = 4 ∧
    (p.1 = PropertyName.parts.bytes ∨ p.1 = PropertyName.phandle.bytes ∨
      p.1 = PropertyName.linuxPhandle.bytes ∨ ∃ i, IsReference p.1 i)

/-- A property that a child of this name may have. -/
def ChildAllowed (name : Bytes) (p : Bytes × Bytes) : Prop :=
  (p.1 = PropertyName.pname.bytes ∧ p.2.length ≤ nameFieldLength ∧ Bytes.untilNul p.2 = name) ∨
    (p.1 = PropertyName.size.bytes ∧ p.2.length = 8) ∨
    ((p.1 = PropertyName.mask.bytes ∨ p.1 = PropertyName.phandle.bytes ∨
      p.1 = PropertyName.linuxPhandle.bytes) ∧ p.2.length = 4)

/-- A child that is accepted.  Its two phandles are the last ones that it declares. -/
structure WellFormedChild (name : Bytes) (content : List Item) : Prop where
  length_lt : name.length < nameFieldLength
  no_children : Item.children content = []
  allowed : ∀ p ∈ Item.properties content, ChildAllowed name p
  agree : Agree (recordOf name content).phandle (recordOf name content).linuxPhandle

/-- A node with this content is accepted in a tree with this strings block. -/
structure WellFormed (s : StringsBlock) (content : List Item) : Prop where
  /-- Every name but `linux,phandle` stands in front of some NUL. -/
  named : ∀ n ∈ [PropertyName.parts, .pname, .size, .mask, .phandle], ∃ offset,
    s.get? offset = some n.bytes
  allowed : ∀ p ∈ Item.properties content, OwnAllowed p
  length_le : (Item.children content).length ≤ maxPartitions
  children : ∀ child ∈ Item.children content, WellFormedChild child.1 child.2
  /-- There are as many children as the last `parts` says. -/
  counted : (summary content).declared.toNat = (Item.children content).length

instance : DecidablePred OwnAllowed := fun p =>
  inferInstanceAs (Decidable (p.2.length = 4 ∧
    (p.1 = PropertyName.parts.bytes ∨ p.1 = PropertyName.phandle.bytes ∨
      p.1 = PropertyName.linuxPhandle.bytes ∨ ∃ i, IsReference p.1 i)))

instance (name : Bytes) : DecidablePred (ChildAllowed name) := fun p =>
  inferInstanceAs (Decidable
    ((p.1 = PropertyName.pname.bytes ∧ p.2.length ≤ nameFieldLength ∧ Bytes.untilNul p.2 = name) ∨
      (p.1 = PropertyName.size.bytes ∧ p.2.length = 8) ∨
      ((p.1 = PropertyName.mask.bytes ∨ p.1 = PropertyName.phandle.bytes ∨
        p.1 = PropertyName.linuxPhandle.bytes) ∧ p.2.length = 4)))

instance (name : Bytes) (content : List Item) : Decidable (WellFormedChild name content) :=
  decidable_of_iff
    (name.length < nameFieldLength ∧ Item.children content = [] ∧
      (∀ p ∈ Item.properties content, ChildAllowed name p) ∧
      Agree (recordOf name content).phandle (recordOf name content).linuxPhandle)
    ⟨fun h => ⟨h.1, h.2.1, h.2.2.1, h.2.2.2⟩, fun h => ⟨h.1, h.2, h.3, h.4⟩⟩

/-- A name that stands somewhere is found. -/
theorem exists_get?_iff (s : StringsBlock) (n : PropertyName) :
    (∃ offset, s.get? offset = some n.bytes) ↔ (s.find? n.bytes).isSome := by
  rw [Option.isSome_iff_exists]
  exact ⟨fun ⟨_, h⟩ => StringsBlock.exists_find? h,
    fun ⟨_, h⟩ => ⟨_, StringsBlock.get?_of_find? n.zero_notMem h⟩⟩

instance (s : StringsBlock) (n : PropertyName) :
    Decidable (∃ offset, s.get? offset = some n.bytes) :=
  decidable_of_iff _ (exists_get?_iff s n).symm

instance (s : StringsBlock) (content : List Item) : Decidable (WellFormed s content) :=
  decidable_of_iff
    ((∀ n ∈ [PropertyName.parts, .pname, .size, .mask, .phandle], ∃ offset,
        s.get? offset = some n.bytes) ∧
      (∀ p ∈ Item.properties content, OwnAllowed p) ∧
      (Item.children content).length ≤ maxPartitions ∧
      (∀ child ∈ Item.children content, WellFormedChild child.1 child.2) ∧
      (summary content).declared.toNat = (Item.children content).length)
    ⟨fun h => ⟨h.1, h.2.1, h.2.2.1, h.2.2.2.1, h.2.2.2.2⟩, fun h => ⟨h.1, h.2, h.3, h.4, h.5⟩⟩

end PartitionsNode

end EmmcLayout.DeviceTree
