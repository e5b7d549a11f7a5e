import EmmcLayout.Grammar.Definer
import EmmcLayout.Proofs.Number.Literal
import EmmcLayout.Proofs.Partition

/-!
# Reading what a printer wrote

An argument is read field by field.  Fields without a colon are taken apart where they were joined
(`fields_of_parts`), a size reads back from any style of number (`parseAmount_of_style`), and a mask
from its digits (`parseMask_toString`).  Arguments joined by blanks come apart again as long as none
holds a blank (`arguments_intercalate`), so that a snapshot reads when its items do
(`parseDefiners_of_styles`).
-/

namespace EmmcLayout

namespace Grammar

variable {name offset size text arg : String} {field : Field} {allowance : Allowance}
  {literal : UInt64 → String}

theorem splitAtFirst?_append {separator : Char} {front : List Char} (h : separator ∉ front)
    (behind : List Char) :
    splitAtFirst? separator (front ++ separator :: behind) = some (front, behind) := by
  have hfront : ∀ c ∈ front, decide (c ≠ separator) = true := by
    intro c hc
    exact decide_eq_true fun heq => h (heq ▸ hc)
  rw [splitAtFirst?, List.dropWhile_append_of_pos hfront, List.takeWhile_append_of_pos hfront]
  simp

/-- Only the last field may hold colons. -/
theorem fields_of_parts (hname : ':' ∉ name.toList) (hoffset : ':' ∉ offset.toList)
    (hsize : ':' ∉ size.toList) (mask : String) :
    fields (name ++ ":" ++ offset ++ ":" ++ size ++ ":" ++ mask) =
      .ok ⟨name, offset, size, mask⟩ := by
  have htoList : (name ++ ":" ++ offset ++ ":" ++ size ++ ":" ++ mask).toList =
      name.toList ++ ':' :: (offset.toList ++ ':' :: (size.toList ++ ':' :: mask.toList)) := by
    simp
  simp [fields, htoList, splitAtFirst?_append, hname, hoffset, hsize]

theorem checkPresence_of_ne_empty (h : text ≠ "") (hallowed : allowance.disallowed = false) :
    checkPresence field text allowance arg = .ok () := by
  simp [checkPresence, h, hallowed]

theorem checkName_of_check (h : Name.check name = .ok ()) : checkName name = .ok () := by
  rw [checkName, h]
  rfl

theorem parseAmount_of_style (hs : Style literal) (habsolute : allowance.absolute = true)
    (value : UInt64) : parseAmount field (literal value) allowance arg = .ok (.absolute value) := by
  unfold parseAmount
  split
  · rename_i digits hplus
    have hsign := hs.isAlphanum value '+' (by rw [hplus]; exact List.mem_cons_self)
    exact absurd hsign (by decide)
  · rw [if_pos habsolute, parseAmountValue, if_neg (hs.ne_empty value), hs.parseSize_eq]
    rfl

/-- The masks that are read, 0 among them where it is allowed. -/
def IsMask (mask : UInt32) : Prop :=
  mask = 0 ∨ mask = 1 ∨ mask = 2 ∨ mask = 4

theorem parseMask_toString {mask : UInt32} (h : IsMask mask) :
    parseMask (toString mask.toNat) true arg = .ok mask := by
  rw [parseMask, parseU32_toString, Outcome.ok_bind]
  have hallowed : mask = 1 ∨ mask = 2 ∨ mask = 4 ∨ (mask = 0 ∧ true = true) := by
    unfold IsMask at h
    tauto
  rw [if_pos hallowed]
  rfl

/-- Arguments that read as definers one by one read so as a list. -/
theorem mapM_parseDefiner {α : Type} {rules : DefinerRules} {argument : α → String}
    {definer : α → Definer} {items : List α}
    (h : ∀ x ∈ items, parseDefiner rules (argument x) = .ok (definer x)) :
    (items.map argument).mapM (parseDefiner rules) = .ok (items.map definer) := by
  induction items with
  | nil => rfl
  | cons x items ih =>
      obtain ⟨hx, hitems⟩ := List.forall_mem_cons.mp h
      rw [List.map_cons, List.mapM_cons, hx, Outcome.ok_bind, ih hitems, Outcome.ok_bind,
        List.map_cons]
      rfl

end Grammar

namespace Snapshot

theorem arguments_intercalate {args : List String} (hne : args ≠ [])
    (h : ∀ arg ∈ args, ' ' ∉ arg.toList) : arguments (" ".intercalate args) = args := by
  have hlists : ∀ cs ∈ args.map String.toList, ' ' ∉ cs := by
    simpa using h
  have hblank : (" " : String).toList = [' '] := rfl
  rw [arguments, String.toList_intercalate, hblank,
    List.splitOn_intercalate ' ' hlists (by simpa using hne), List.map_map]
  simp

/-- A snapshot reads as the definers of its items in all three styles, as long as each item does in
every style. -/
theorem parseDefiners_of_styles {α : Type} {mode : Mode} {items : List α}
    {argument : (UInt64 → String) → α → String} {definer : α → Definer} (hne : items ≠ [])
    (hlength : items.length ≤ maxPartitions)
    (hitem : ∀ literal, Style literal → ∀ x ∈ items, ' ' ∉ (argument literal x).toList ∧
      Grammar.parseDefiner mode.rules (argument literal x) = .ok (definer x)) :
    ∀ style ∈ (ofItems items argument).styles,
      Grammar.parseDefiners mode (arguments style) = .ok (items.map definer) := by
  have hjoined : ∀ literal, Style literal →
      Grammar.parseDefiners mode (arguments (" ".intercalate (items.map (argument literal)))) =
        .ok (items.map definer) := by
    intro literal hs
    have hblanks : ∀ arg ∈ items.map (argument literal), ' ' ∉ arg.toList := by
      intro arg harg
      obtain ⟨x, hx, rfl⟩ := List.mem_map.mp harg
      exact (hitem literal hs x hx).1
    rw [arguments_intercalate (by simpa using hne) hblanks, Grammar.parseDefiners,
      if_neg (by rw [List.length_map]; omega)]
    exact Grammar.mapM_parseDefiner fun x hx => (hitem literal hs x hx).2
  intro style hmem
  simp only [styles, ofItems, List.mem_cons, List.not_mem_nil, or_false] at hmem
  rcases hmem with rfl | rfl | rfl
  · exact hjoined _ style_decimalLiteral
  · exact hjoined _ style_hexLiteral
  · exact hjoined _ style_sizeLiteral

end Snapshot

end EmmcLayout
