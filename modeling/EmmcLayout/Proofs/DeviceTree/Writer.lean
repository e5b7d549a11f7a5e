import EmmcLayout.Proofs.DeviceTree.Blob
import EmmcLayout.Proofs.DeviceTree.Strings
import EmmcLayout.Proofs.DeviceTree.Token

/-!
# Emissions read back

`Emission.ReadsAs s e t` says that the token `t`, with names looked up in the block `s`, is what the
emission `e` was meant to say.  `spelling_emitAll`: legal emissions are spelled by the bytes that
are written for them, and read back through the strings block that is left at the end.
-/

namespace EmmcLayout.DeviceTree

namespace Emission

/-- What can be written: names without a NUL, nodes with names that fit, values with a length. -/
def Legal : Emission → Prop
  | .beginNode name => 0 ∉ name ∧ name.length < maxNodeName
  | .property name value => 0 ∉ name ∧ value.length < UInt32.size
  | .endNode => True
  | .endTree => True

instance : DecidablePred Legal
  | .beginNode name => inferInstanceAs (Decidable (0 ∉ name ∧ name.length < maxNodeName))
  | .property name value =>
      inferInstanceAs (Decidable (0 ∉ name ∧ value.length < UInt32.size))
  | .endNode => inferInstanceAs (Decidable True)
  | .endTree => inferInstanceAs (Decidable True)

/-- The token that an emission stands for, its name being in this strings block. -/
inductive ReadsAs (s : StringsBlock) : Emission → Token → Prop
  | beginNode {name : Bytes} : ReadsAs s (.beginNode name) (.beginNode name)
  | endNode : ReadsAs s .endNode .endNode
  | property {name value : Bytes} {offset : Nat} {nameOffset : UInt32}
      (hname : s.find? name = some nameOffset) :
      ReadsAs s (.property name value) (.property ⟨offset, nameOffset, value⟩)
  | endTree : ReadsAs s .endTree .endTree

end Emission

variable {s s' : StringsBlock} {e : Emission} {es : List Emission} {pos : Nat}

theorem emitAll_cons (s : StringsBlock) (e : Emission) (es : List Emission) :
    emitAll s (e :: es) =
      ((emit s e).1 ++ (emitAll (emit s e).2 es).1, (emitAll (emit s e).2 es).2) := rfl

theorem extends_emit (s : StringsBlock) (e : Emission) : s.Extends (emit s e).2 := by
  cases e with
  | beginNode name => exact .refl s
  | endNode => exact .refl s
  | property name value => exact StringsBlock.extends_intern s name
  | endTree => exact .refl s

theorem extends_emitAll (s : StringsBlock) (es : List Emission) : s.Extends (emitAll s es).2 := by
  induction es generalizing s with
  | nil => exact .refl s
  | cons e es ih => exact (extends_emit s e).trans (ih _)

/-- One emission: its bytes are a token, which any later block reads as the emission. -/
theorem spelled_emit (he : e.Legal) (hpos : pos % 4 = 0) (hlen : s.bytes.length < UInt32.size) :
    ∃ t : Token, t.Spelled pos (emit s e).1 ∧ ∀ s', (emit s e).2.Extends s' → e.ReadsAs s' t := by
  cases e with
  | beginNode name =>
      refine ⟨.beginNode name, ?_, fun _ _ => .beginNode⟩
      have hpadded := length_padded (Bytes.be32 Tag.beginNode.word ++ name ++ [0])
      simp only [emit, padded, Bytes.padTo, List.append_assoc, List.singleton_append] at hpadded ⊢
      refine .beginNode he.1 he.2 ?_
      have halign := Bytes.align4_add hpos (4 + (name.length + 1))
      simp only [List.length_append, Bytes.length_be32, List.length_cons, List.length_nil]
        at hpadded ⊢
      rw [Nat.add_assoc pos, hpadded, Nat.add_assoc pos, halign]
  | property name value =>
      have hfound : ∀ s', (s.intern name).2.Extends s' →
          s'.find? name = some (s.intern name).1 :=
        fun s' hs' => StringsBlock.find?_of_extends hs' he.1 (StringsBlock.find?_intern he.1 hlen)
      refine ⟨.property ⟨pos, (s.intern name).1, value⟩, ?_,
        fun s' hs' => .property (hfound s' hs')⟩
      have hpadded := length_padded (Bytes.be32 Tag.property.word ++
        Bytes.be32 (UInt32.ofNat value.length) ++ Bytes.be32 (s.intern name).1 ++ value)
      simp only [emit, padded, Bytes.padTo, List.append_assoc] at hpadded ⊢
      refine .property he.2 ?_
      have halign := Bytes.align4_add hpos (4 + (4 + (4 + value.length)))
      simp only [List.length_append, Bytes.length_be32] at hpadded halign ⊢
      have hsum : pos + 4 + 8 + value.length = pos + (4 + (4 + (4 + value.length))) := by omega
      rw [hsum, halign]
      omega
  | endNode => exact ⟨.endNode, .endNode, fun _ _ => .endNode⟩
  | endTree => exact ⟨.endTree, .endTree, fun _ _ => .endTree⟩

/-- **What is written reads back.**  The bytes of legal emissions are a run of tokens, and each of
these reads as its emission through the strings block that is left at the end. -/
theorem spelling_emitAll (hes : ∀ e ∈ es, e.Legal) (hpos : pos % 4 = 0)
    (hlen : (emitAll s es).2.bytes.length < UInt32.size) (hs' : (emitAll s es).2.Extends s') :
    ∃ steps, Spelling pos steps (emitAll s es).1 ∧
      List.Forall₂ (fun e step => e.ReadsAs s' step.token) es steps := by
  induction es generalizing s pos with
  | nil => exact ⟨[], .nil, .nil⟩
  | cons e es ih =>
      obtain ⟨he, hes⟩ := List.forall_mem_cons.mp hes
      rw [emitAll_cons] at hlen hs' ⊢
      have hfirst := extends_emit s e
      have hrest := extends_emitAll (emit s e).2 es
      have hlen₀ : s.bytes.length < UInt32.size :=
        Nat.lt_of_le_of_lt (hfirst.trans hrest).length_le hlen
      obtain ⟨t, hspelled, hreads⟩ := spelled_emit he hpos hlen₀
      have hmod := hspelled.mod_length hpos
      have hnext : (pos + (emit s e).1.length) % 4 = 0 := by omega
      obtain ⟨steps, hspelling, hall⟩ := ih hes hnext hlen hs'
      exact ⟨_, .cons hspelled hspelling, .cons (hreads s' (hrest.trans hs')) hall⟩

/-- A name that cannot be found is not found after emissions whose names can be found, or do not end
as it does. -/
theorem find?_emitAll_eq_none {name : Bytes} (hname : 0 ∉ name) (hne : name ≠ [])
    (h : s.find? name = none)
    (hes : ∀ e ∈ es, ∀ other value, e = .property other value → 0 ∉ other ∧
      ((∃ offset, s.find? other = some offset) ∨
        (other ≠ [] ∧ other.getLast? ≠ name.getLast?))) :
    (emitAll s es).2.find? name = none := by
  induction es generalizing s with
  | nil => exact h
  | cons e es ih =>
      obtain ⟨he, hes⟩ := List.forall_mem_cons.mp hes
      rw [emitAll_cons]
      refine ih ?_ ?_
      · cases e with
        | property other value =>
            obtain ⟨hother, ⟨offset, hfound⟩ | ⟨hne', hlast⟩⟩ := he other value rfl
            · show (s.intern other).2.find? name = none
              rw [StringsBlock.intern, hfound]
              exact h
            · exact StringsBlock.find?_intern_of_getLast?_ne hname hne hother hne' hlast h
        | _ => exact h
      · intro e' he' other value heq
        obtain ⟨hother, hfound | hlast⟩ := hes e' he' other value heq
        · obtain ⟨offset, hfound⟩ := hfound
          exact ⟨hother, .inl ⟨offset,
            StringsBlock.find?_of_extends (extends_emit s e) hother hfound⟩⟩
        · exact ⟨hother, .inr hlast⟩

end EmmcLayout.DeviceTree
