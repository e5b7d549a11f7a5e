import EmmcLayout.Proofs.DeviceTree.Writer

/-!
# Written blocks read back

`Token.emission?` is the way back from a token to what was written: a property goes back to the name
that stands at its offset in the strings block.  `Cursor.Reads` reads tokens one after the other.  A
block of legal emissions reads back as these emissions, one token each, and the cursor is left at
its end: `reads_emitAll`.
-/

namespace EmmcLayout.DeviceTree

variable {s : StringsBlock} {e : Emission} {es : List Emission} {t : Token}
  {steps : List Step} {pos : Nat} {a : Bytes}

/-! ## Tokens -/

/-- What a token says, its name being looked up in this strings block.  A padding says nothing. -/
def Token.emission? (s : StringsBlock) : Token → Option Emission
  | .beginNode name => some (.beginNode name)
  | .endNode => some .endNode
  | .property p => (s.get? p.nameOffset).map fun name => .property name p.value
  | .nop => none
  | .endTree => some .endTree

theorem Emission.ReadsAs.emission?_eq (h : e.ReadsAs s t) (he : e.Legal) :
    t.emission? s = some e := by
  cases h with
  | beginNode => rfl
  | endNode => rfl
  | property hname =>
      show Option.map _ (s.get? _) = _
      rw [StringsBlock.get?_of_find? he.1 hname]
      rfl
  | endTree => rfl

theorem Emission.map_emission?_eq (hes : ∀ e ∈ es, e.Legal)
    (h : List.Forall₂ (fun e step => e.ReadsAs s step.token) es steps) :
    (steps.map Step.token).map (Token.emission? s) = es.map some := by
  induction h with
  | nil => rfl
  | cons hread _ ih =>
      obtain ⟨he, hes⟩ := List.forall_mem_cons.mp hes
      simp only [List.map_cons, hread.emission?_eq he, ih hes]

/-! ## Reading one token after the other -/

/-- Reading again and again yields these tokens, and leaves the cursor there. -/
inductive Cursor.Reads : Cursor → List Token → Cursor → Prop
  | nil {c : Cursor} : Reads c [] c
  | cons {c c' c'' : Cursor} {t : Token} {ts : List Token} (head : c.next = (.ok t, c'))
      (tail : Reads c' ts c'') : Reads c (t :: ts) c''

/-- **A spelled run is read token by token**, whatever stands behind it. -/
theorem Cursor.reads_of_spelling (h : Spelling pos steps a) (b : Bytes) :
    (⟨a ++ b, pos⟩ : Cursor).Reads (steps.map Step.token) ⟨b, pos + a.length⟩ := by
  induction h with
  | nil => exact .nil
  | @cons pos t steps front back head tail ih =>
      rw [List.append_assoc, List.length_append, ← Nat.add_assoc]
      exact .cons (next_of_spelled head (back ++ b)) ih

/-! ## What was written -/

/-- **What is written reads back.**  Reading a block from its start yields what was written into it,
with the names and the values that it was written with, and leaves the cursor at its end. -/
theorem reads_emitAll (s : StringsBlock) {es : List Emission} (hes : ∀ e ∈ es, e.Legal)
    (hlen : (emitAll s es).2.bytes.length < UInt32.size) :
    ∃ ts, (Cursor.ofBlock (emitAll s es).1 0).Reads ts
        (Cursor.ofBlock (emitAll s es).1 (emitAll s es).1.length) ∧
      ts.map (Token.emission? (emitAll s es).2) = es.map some := by
  have hpos : 0 % 4 = 0 := rfl
  obtain ⟨steps, hspelling, hreads⟩ := spelling_emitAll hes hpos hlen (.refl _)
  have hblock := Cursor.reads_of_spelling hspelling []
  rw [List.append_nil, Nat.zero_add] at hblock
  refine ⟨steps.map Step.token, ?_, Emission.map_emission?_eq hes hreads⟩
  rw [Cursor.ofBlock, Cursor.ofBlock, List.drop_zero, List.drop_length]
  exact hblock

/-- A node with a property whose name is the tail of another one's, and values of lengths that need
padding and that need none. -/
def tailed : List Emission :=
  [.beginNode (Utf8.encode "soc"), .property PropertyName.linuxPhandle.bytes [1, 2, 3, 4, 5],
    .property PropertyName.phandle.bytes [6, 7, 8, 9], .property [] [], .endNode, .endTree]

/-- The strings block starts out with a name that no NUL closes. -/
theorem reads_emitAll_tailed :
    ∃ ts, (Cursor.ofBlock (emitAll ⟨PropertyName.linuxPhandle.bytes⟩ tailed).1 0).Reads ts
        (Cursor.ofBlock (emitAll ⟨PropertyName.linuxPhandle.bytes⟩ tailed).1
          (emitAll ⟨PropertyName.linuxPhandle.bytes⟩ tailed).1.length) ∧
      ts.map (Token.emission? (emitAll ⟨PropertyName.linuxPhandle.bytes⟩ tailed).2) =
        tailed.map some :=
  reads_emitAll _ (by decide) (by decide +kernel)

/-! ## Blocks that know their names -/

/-- Writing these emissions puts no name into the strings block. -/
def StringsBlock.Knows (s : StringsBlock) (es : List Emission) : Prop :=
  ∀ e ∈ es, (emit s e).2 = s

/-- The bytes of emissions whose names are in the strings block. -/
def StringsBlock.render (s : StringsBlock) (es : List Emission) : Bytes :=
  es.flatMap fun e => (emit s e).1

namespace StringsBlock

variable {s' : StringsBlock} {es' : List Emission}

theorem knows_append : s.Knows (es ++ es') ↔ s.Knows es ∧ s.Knows es' :=
  List.forall_mem_append

theorem knows_cons : s.Knows (e :: es) ↔ (emit s e).2 = s ∧ s.Knows es :=
  List.forall_mem_cons

theorem render_append (s : StringsBlock) (es es' : List Emission) :
    s.render (es ++ es') = s.render es ++ s.render es' :=
  List.flatMap_append

theorem render_cons (s : StringsBlock) (e : Emission) (es : List Emission) :
    s.render (e :: es) = (emit s e).1 ++ s.render es :=
  List.flatMap_cons

theorem emitAll_of_knows (h : s.Knows es) : emitAll s es = (s.render es, s) := by
  induction es with
  | nil => rfl
  | cons e es ih =>
      obtain ⟨he, hes⟩ := knows_cons.mp h
      rw [emitAll_cons, he, ih hes, render_cons]

/-- An emission whose name is there already is written as it was before. -/
theorem emit_of_extends (he : e.Legal) (hlen : s.bytes.length < UInt32.size)
    (hs' : (emit s e).2.Extends s') : emit s' e = ((emit s e).1, s') := by
  cases e with
  | beginNode name => rfl
  | endNode => rfl
  | endTree => rfl
  | property name value =>
      have hfound : s'.intern name = ((s.intern name).1, s') := by
        rw [intern, find?_of_extends hs' he.1 (find?_intern he.1 hlen)]
      simp only [emit, hfound]

/-- **Writing again gives the same bytes**, and puts nothing into the strings block. -/
theorem knows_of_extends (hes : ∀ e ∈ es, e.Legal)
    (hlen : (emitAll s es).2.bytes.length < UInt32.size) (hs' : (emitAll s es).2.Extends s') :
    s'.Knows es ∧ s'.render es = (emitAll s es).1 := by
  induction es generalizing s with
  | nil => exact ⟨List.forall_mem_nil _, rfl⟩
  | cons e es ih =>
      obtain ⟨he, hes⟩ := List.forall_mem_cons.mp hes
      rw [emitAll_cons] at hlen hs' ⊢
      have hrest := extends_emitAll (emit s e).2 es
      have hlen₀ : s.bytes.length < UInt32.size :=
        Nat.lt_of_le_of_lt ((extends_emit s e).trans hrest).length_le hlen
      have hemit := emit_of_extends he hlen₀ (hrest.trans hs')
      obtain ⟨hknows, hrender⟩ := ih hes hlen hs'
      rw [knows_cons, render_cons, hemit, hrender]
      exact ⟨⟨rfl, hknows⟩, rfl⟩

variable (hes : ∀ e ∈ es, e.Legal) (hknows : s.Knows es) (hlen : s.bytes.length < UInt32.size)
include hes hknows hlen

theorem exists_spelling_render (hpos : pos % 4 = 0) :
    ∃ steps, Spelling pos steps (s.render es) ∧
      List.Forall₂ (fun e step => e.ReadsAs s step.token) es steps := by
  have hspelling := spelling_emitAll hes hpos (by rw [emitAll_of_knows hknows]; exact hlen)
    (.refl (emitAll s es).2)
  rw [emitAll_of_knows hknows] at hspelling
  exact hspelling

theorem length_render_mod : (s.render es).length % 4 = 0 := by
  have hpos : 0 % 4 = 0 := rfl
  obtain ⟨steps, hspelling, -⟩ := exists_spelling_render hes hknows hlen hpos
  exact hspelling.mod_length hpos

/-- Emissions are read in a run, whatever stands behind them. -/
theorem exists_run_render (hpos : pos % 4 = 0) (rest : Bytes) :
    ∃ steps, (⟨s.render es ++ rest, pos⟩ : Cursor).run.steps =
        steps ++ (⟨rest, pos + (s.render es).length⟩ : Cursor).run.steps ∧
      List.Forall₂ (fun e step => e.ReadsAs s step.token) es steps := by
  obtain ⟨steps, hspelling, hreads⟩ := exists_spelling_render hes hknows hlen hpos
  exact ⟨steps, by rw [Cursor.run_of_spelling hspelling], hreads⟩

end StringsBlock

/-- One emission is read as one token, which ends where its bytes end. -/
theorem exists_run_emit (he : e.Legal) (hlen : s.bytes.length < UInt32.size) (hpos : pos % 4 = 0)
    (rest : Bytes) :
    ∃ t : Token, (⟨(emit s e).1 ++ rest, pos⟩ : Cursor).run.steps =
        ⟨pos, t, pos + (emit s e).1.length⟩ ::
          (⟨rest, pos + (emit s e).1.length⟩ : Cursor).run.steps ∧
      e.ReadsAs (emit s e).2 t := by
  obtain ⟨t, hspelled, hreads⟩ := spelled_emit he hpos hlen
  exact ⟨t, by rw [Cursor.run_of_ok (Cursor.next_of_spelled hspelled rest)], hreads _ (.refl _)⟩

end EmmcLayout.DeviceTree
