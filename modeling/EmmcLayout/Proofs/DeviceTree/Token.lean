import EmmcLayout.DeviceTree.Token
import EmmcLayout.Proofs.Bytes

/-!
# How tokens are spelled

`Token.Spelled pos t a` says that the bytes `a`, standing at `pos` in a block, are a token `t` with
its padding, whatever the padding holds.  `next_of_spelled` and `spelled_of_next` make it the exact
grammar of `Cursor.next`.  `Spelling` does the same for a run of tokens, so that what a run reads is
known from the bytes it has read and from nothing that stands behind them (`run_of_spelling`,
`spelling_of_run`).
-/

namespace EmmcLayout.DeviceTree

/-- The bytes of a token that stands at a position of a block. -/
inductive Token.Spelled : Nat → Token → Bytes → Prop
  | beginNode {pos : Nat} {name pad : Bytes} (hname : 0 ∉ name) (hlen : name.length < maxNodeName)
      (hpad : pos + 4 + (name ++ 0 :: pad).length = Bytes.align4 (pos + 4 + (name.length + 1))) :
      Spelled pos (.beginNode name) (Bytes.be32 Tag.beginNode.word ++ (name ++ 0 :: pad))
  | endNode {pos : Nat} : Spelled pos .endNode (Bytes.be32 Tag.endNode.word)
  | property {pos : Nat} {nameOffset : UInt32} {value pad : Bytes}
      (hlen : value.length < UInt32.size)
      (hpad : pos + 4 + 8 + (value ++ pad).length = Bytes.align4 (pos + 4 + 8 + value.length)) :
      Spelled pos (.property ⟨pos, nameOffset, value⟩)
        (Bytes.be32 Tag.property.word ++ (Bytes.be32 (UInt32.ofNat value.length) ++
          (Bytes.be32 nameOffset ++ (value ++ pad))))
  | nop {pos : Nat} : Spelled pos .nop (Bytes.be32 Tag.nop.word)
  | endTree {pos : Nat} : Spelled pos .endTree (Bytes.be32 Tag.endTree.word)

namespace Cursor

variable {c c' : Cursor} {pos : Nat} {t : Token} {a b rest : Bytes} {w : UInt32}

/-! ## Words -/

theorem word_be32 (w : UInt32) (b : Bytes) (pos : Nat) :
    (⟨Bytes.be32 w ++ b, pos⟩ : Cursor).word = .ok w := by
  have hfour : Bytes.be32 w = [_, _, _, _] := rfl
  have hread := Bytes.ofNat_ofBE_be32 w
  rw [hfour] at hread ⊢
  exact congrArg Except.ok hread

theorem word_eq_ok_iff : c.word = .ok w ↔ ∃ b, c.rest = Bytes.be32 w ++ b := by
  constructor
  · intro h
    unfold word at h
    split at h
    · rename_i x y z u b hrest
      obtain rfl := Except.ok.inj h
      refine ⟨b, ?_⟩
      rw [hrest, Bytes.be32_ofNat_ofBE (b := [x, y, z, u]) rfl]
      rfl
    · exact absurd h (by simp)
  · rintro ⟨b, hb⟩
    obtain ⟨rest, pos⟩ := c
    obtain rfl : rest = Bytes.be32 w ++ b := hb
    exact word_be32 w b pos

theorem length_be32_append (w : UInt32) (b : Bytes) :
    (Bytes.be32 w ++ b).length = 4 + b.length := by
  rw [List.length_append, Bytes.length_be32]

@[simp]
theorem skipBytes_mk (rest : Bytes) (pos n : Nat) :
    (⟨rest, pos⟩ : Cursor).skipBytes n = ⟨rest.drop n, pos + n⟩ := rfl

theorem skipBytes_be32 (w : UInt32) (b : Bytes) (pos : Nat) :
    (⟨Bytes.be32 w ++ b, pos⟩ : Cursor).skipBytes 4 = ⟨b, pos + 4⟩ := by
  rw [skipBytes_mk, List.drop_left' (Bytes.length_be32 w)]

theorem skipAligned_append (b : Bytes) {n : Nat}
    (h : pos + a.length = Bytes.align4 (pos + n)) :
    (⟨a ++ b, pos⟩ : Cursor).skipAligned n = ⟨b, pos + a.length⟩ := by
  have hlen : Bytes.align4 (pos + n) - pos = a.length := by omega
  show (⟨a ++ b, pos⟩ : Cursor).skipBytes (Bytes.align4 (pos + n) - pos) = _
  rw [hlen, skipBytes_mk, List.drop_left]

/-! ## One token -/

theorem nodeName_of_spelled {name pad : Bytes} (hname : 0 ∉ name)
    (hlen : name.length < maxNodeName)
    (hpad : pos + (name ++ 0 :: pad).length = Bytes.align4 (pos + (name.length + 1)))
    (b : Bytes) :
    (⟨name ++ 0 :: pad ++ b, pos⟩ : Cursor).nodeName =
      (.ok (.beginNode name), ⟨b, pos + (name ++ 0 :: pad).length⟩) := by
  have hread : Bytes.terminated? ((name ++ 0 :: pad ++ b).take maxNodeName) = some name := by
    refine Bytes.terminated?_eq_some_iff.mpr ⟨hname, ?_⟩
    rw [List.prefix_take_iff, List.length_append, List.length_singleton]
    exact ⟨⟨pad ++ b, by simp⟩, hlen⟩
  unfold nodeName
  simp only [hread]
  rw [skipAligned_append b hpad]

theorem propertyBody_of_spelled {nameOffset : UInt32} {value pad : Bytes} (offset : Nat)
    (hlen : value.length < UInt32.size)
    (hpad : pos + 8 + (value ++ pad).length = Bytes.align4 (pos + 8 + value.length))
    (b : Bytes) :
    (⟨Bytes.be32 (UInt32.ofNat value.length) ++ (Bytes.be32 nameOffset ++ (value ++ pad ++ b)),
        pos⟩ : Cursor).propertyBody offset =
      (.ok (.property ⟨offset, nameOffset, value⟩), ⟨b, pos + 8 + (value ++ pad).length⟩) := by
  have hword : (UInt32.ofNat value.length).toNat = value.length :=
    UInt32.toNat_ofNat_of_lt' hlen
  have hbehind : (⟨Bytes.be32 (UInt32.ofNat value.length) ++
      (Bytes.be32 nameOffset ++ (value ++ pad ++ b)), pos⟩ : Cursor).skipBytes 8 =
        ⟨value ++ pad ++ b, pos + 8⟩ := by
    rw [skipBytes_mk, ← List.append_assoc, List.drop_left' (by simp)]
  have hvalue : (value ++ pad ++ b).take value.length = value := by
    rw [List.append_assoc, List.take_left]
  unfold propertyBody
  simp only [skipBytes_be32, word_be32, hbehind, hword, hvalue, if_true]
  rw [skipAligned_append b hpad]

/-- **A spelled token is read**, and the cursor stands behind its padding. -/
theorem next_of_spelled (h : t.Spelled pos a) (b : Bytes) :
    (⟨a ++ b, pos⟩ : Cursor).next = (.ok t, ⟨b, pos + a.length⟩) := by
  have htag : ∀ (tag : Tag) (body : Bytes),
      (⟨Bytes.be32 tag.word ++ body, pos⟩ : Cursor).word = .ok tag.word :=
    fun tag body => word_be32 tag.word body pos
  cases h with
  | @beginNode name pad hname hlen hpad =>
      rw [List.append_assoc, next, htag]
      simp only [Tag.ofWord?_word, skipBytes_be32]
      rw [nodeName_of_spelled hname hlen hpad, length_be32_append, Nat.add_assoc]
  | @property nameOffset value pad hlen hpad =>
      simp only [List.append_assoc]
      rw [next, htag]
      simp only [Tag.ofWord?_word, skipBytes_be32]
      rw [← List.append_assoc value, propertyBody_of_spelled pos hlen hpad]
      simp only [List.length_append, Bytes.length_be32, Prod.mk.injEq, true_and, mk.injEq]
      omega
  | endNode =>
      rw [next, htag]
      simp only [Tag.ofWord?_word, skipBytes_be32, Bytes.length_be32]
  | nop =>
      rw [next, htag]
      simp only [Tag.ofWord?_word, skipBytes_be32, Bytes.length_be32]
  | endTree =>
      rw [next, htag]
      simp only [Tag.ofWord?_word, skipBytes_be32, Bytes.length_be32]

/-! ## What is read was spelled -/

theorem skipBytes_skipBytes (c : Cursor) (m n : Nat) :
    (c.skipBytes m).skipBytes n = c.skipBytes (m + n) := by
  simp only [skipBytes, List.drop_drop, Nat.add_assoc]

theorem nodeName_eq_skipBytes (c : Cursor) : ∃ n, c.nodeName.2 = c.skipBytes n := by
  unfold nodeName
  split
  · exact ⟨_, rfl⟩
  · exact ⟨0, rfl⟩

theorem propertyBody_eq_skipBytes (offset : Nat) (c : Cursor) :
    ∃ n, (c.propertyBody offset).2 = c.skipBytes n := by
  unfold propertyBody
  split
  · exact ⟨0, rfl⟩
  · exact ⟨0, rfl⟩
  · simp only
    split
    · exact ⟨_, skipBytes_skipBytes c 8 _⟩
    · exact ⟨8, rfl⟩

/-- Reading only moves forward through the block. -/
theorem next_eq_skipBytes (c : Cursor) : ∃ n, c.next.2 = c.skipBytes n := by
  unfold next
  split
  · exact ⟨0, rfl⟩
  · simp only
    split
    · obtain ⟨n, hn⟩ := nodeName_eq_skipBytes (c.skipBytes 4)
      exact ⟨4 + n, by rw [hn, skipBytes_skipBytes]⟩
    · obtain ⟨n, hn⟩ := propertyBody_eq_skipBytes c.position (c.skipBytes 4)
      exact ⟨4 + n, by rw [hn, skipBytes_skipBytes]⟩
    · exact ⟨4, rfl⟩
    · exact ⟨4, rfl⟩
    · exact ⟨4, rfl⟩
    · exact ⟨4, rfl⟩

theorem word_of_ofWord? {tag : Tag} (h : Tag.ofWord? w = some tag) : w = tag.word := by
  unfold Tag.ofWord? at h
  split at h
  · rename_i hw
    rw [hw, ← Option.some.inj h, Tag.word]
  · split at h
    · rename_i hw
      rw [hw, ← Option.some.inj h, Tag.word]
    · split at h
      · rename_i hw
        rw [hw, ← Option.some.inj h, Tag.word]
      · split at h
        · rename_i hw
          rw [hw, ← Option.some.inj h, Tag.word]
        · split at h
          · rename_i hw
            rw [hw, ← Option.some.inj h, Tag.word]
          · exact absurd h (by simp)

theorem skipAligned_split {n : Nat}
    (hfits : ((⟨rest, pos⟩ : Cursor).skipAligned n).position ≤ pos + rest.length) :
    ∃ a b, rest = a ++ b ∧ n ≤ a.length ∧ pos + a.length = Bytes.align4 (pos + n) ∧
      (⟨rest, pos⟩ : Cursor).skipAligned n = ⟨b, pos + a.length⟩ := by
  have hle := Bytes.le_align4 (pos + n)
  change pos + (Bytes.align4 (pos + n) - pos) ≤ pos + rest.length at hfits
  have hlen : (rest.take (Bytes.align4 (pos + n) - pos)).length =
      Bytes.align4 (pos + n) - pos := by
    rw [List.length_take]
    omega
  refine ⟨rest.take (Bytes.align4 (pos + n) - pos), rest.drop (Bytes.align4 (pos + n) - pos),
    (List.take_append_drop _ _).symm, ?_, ?_, ?_⟩
  · omega
  · omega
  · rw [hlen]
    rfl

theorem spelled_of_nodeName (h : (⟨rest, pos⟩ : Cursor).nodeName = (.ok t, c'))
    (hfits : c'.position ≤ pos + rest.length) :
    ∃ name pad b, t = .beginNode name ∧ 0 ∉ name ∧ name.length < maxNodeName ∧
      rest = (name ++ 0 :: pad) ++ b ∧
      pos + (name ++ 0 :: pad).length = Bytes.align4 (pos + (name.length + 1)) ∧
      c' = ⟨b, pos + (name ++ 0 :: pad).length⟩ := by
  unfold nodeName at h
  split at h
  · rename_i name hread
    rw [Prod.mk.injEq, Except.ok.injEq] at h
    obtain ⟨rfl, rfl⟩ := h
    obtain ⟨hname, hstands⟩ := Bytes.terminated?_eq_some_iff.mp hread
    obtain ⟨a, b, rfl, hlen, halign, hskip⟩ := skipAligned_split hfits
    rw [List.prefix_take_iff, List.length_append, List.length_singleton] at hstands
    -- the name and its NUL lie within the bytes that are skipped
    obtain ⟨pad, hsplit⟩ : name ++ [0] <+: a := by
      refine List.prefix_of_prefix_length_le hstands.1 (List.prefix_append a b) ?_
      rw [List.length_append, List.length_singleton]
      exact hlen
    rw [List.append_assoc, List.singleton_append] at hsplit
    subst hsplit
    exact ⟨name, pad, b, rfl, hname, hstands.2, rfl, halign, hskip⟩
  · exact absurd h (by simp)

theorem spelled_of_propertyBody {offset : Nat}
    (h : (⟨rest, pos⟩ : Cursor).propertyBody offset = (.ok t, c'))
    (hfits : c'.position ≤ pos + rest.length) :
    ∃ nameOffset value pad b, t = .property ⟨offset, nameOffset, value⟩ ∧
      value.length < UInt32.size ∧
      rest = Bytes.be32 (UInt32.ofNat value.length) ++
        (Bytes.be32 nameOffset ++ ((value ++ pad) ++ b)) ∧
      pos + 8 + (value ++ pad).length = Bytes.align4 (pos + 8 + value.length) ∧
      c' = ⟨b, pos + 8 + (value ++ pad).length⟩ := by
  unfold propertyBody at h
  split at h
  · exact absurd h (by simp)
  · exact absurd h (by simp)
  · rename_i length nameOffset hlength hnameOffset
    obtain ⟨b₁, hb₁⟩ := word_eq_ok_iff.mp hlength
    obtain rfl : rest = Bytes.be32 length ++ b₁ := hb₁
    rw [skipBytes_be32] at hnameOffset
    obtain ⟨b₂, hb₂⟩ := word_eq_ok_iff.mp hnameOffset
    obtain rfl : b₁ = Bytes.be32 nameOffset ++ b₂ := hb₂
    have hbehind : (⟨Bytes.be32 length ++ (Bytes.be32 nameOffset ++ b₂), pos⟩ :
        Cursor).skipBytes 8 = ⟨b₂, pos + 8⟩ := by
      rw [skipBytes_mk, ← List.append_assoc, List.drop_left' (by simp)]
    simp only [hbehind] at h
    split at h
    · rename_i hvalue
      rw [Prod.mk.injEq, Except.ok.injEq] at h
      obtain ⟨rfl, rfl⟩ := h
      have hfits' : ((⟨b₂, pos + 8⟩ : Cursor).skipAligned length.toNat).position ≤
          pos + 8 + b₂.length := by
        simp only [List.length_append, Bytes.length_be32] at hfits
        omega
      obtain ⟨a, b, rfl, hlen, halign, hskip⟩ := skipAligned_split hfits'
      have htake : (a ++ b).take length.toNat = a.take length.toNat :=
        List.take_append_of_le_length hlen
      have hsplit : a.take length.toNat ++ a.drop length.toNat = a := List.take_append_drop _ _
      have hword : UInt32.ofNat (a.take length.toNat).length = length := by
        rw [List.length_take, Nat.min_eq_left hlen, UInt32.ofNat_toNat]
      rw [htake]
      refine ⟨nameOffset, a.take length.toNat, a.drop length.toNat, b, rfl, ?_, ?_, ?_, ?_⟩
      · rw [List.length_take, Nat.min_eq_left hlen]
        exact length.toNat_lt
      · rw [hword, hsplit]
      · rw [hsplit, List.length_take, Nat.min_eq_left hlen]
        exact halign
      · rw [hsplit]
        exact hskip
    · exact absurd h (by simp)

/-- **What is read was spelled**, as long as the padding ends within the block. -/
theorem spelled_of_next (h : (⟨rest, pos⟩ : Cursor).next = (.ok t, c'))
    (hfits : c'.position ≤ pos + rest.length) :
    ∃ a b, rest = a ++ b ∧ t.Spelled pos a ∧ c' = ⟨b, pos + a.length⟩ := by
  unfold next at h
  split at h
  · exact absurd h (by simp)
  · rename_i w hw
    obtain ⟨b₀, hb₀⟩ := word_eq_ok_iff.mp hw
    obtain rfl : rest = Bytes.be32 w ++ b₀ := hb₀
    simp only [skipBytes_be32] at h
    rw [length_be32_append, ← Nat.add_assoc] at hfits
    split at h
    · rename_i htag
      obtain rfl := word_of_ofWord? htag
      obtain ⟨name, pad, b, rfl, hname, hlen, rfl, hpad, rfl⟩ := spelled_of_nodeName h hfits
      refine ⟨_, b, (List.append_assoc _ _ _).symm, .beginNode hname hlen hpad, ?_⟩
      rw [length_be32_append, Nat.add_assoc]
    · rename_i htag
      obtain rfl := word_of_ofWord? htag
      obtain ⟨nameOffset, value, pad, b, rfl, hlen, rfl, hpad, rfl⟩ :=
        spelled_of_propertyBody h hfits
      refine ⟨_, b, ?_, .property hlen hpad, ?_⟩
      · simp only [List.append_assoc]
      · simp only [List.length_append, Bytes.length_be32, mk.injEq, true_and]
        omega
    · rename_i htag
      obtain rfl := word_of_ofWord? htag
      obtain ⟨rfl, rfl⟩ := Prod.mk.inj h |>.imp Except.ok.inj id
      exact ⟨_, b₀, rfl, .endNode, by rw [Bytes.length_be32]⟩
    · rename_i htag
      obtain rfl := word_of_ofWord? htag
      obtain ⟨rfl, rfl⟩ := Prod.mk.inj h |>.imp Except.ok.inj id
      exact ⟨_, b₀, rfl, .nop, by rw [Bytes.length_be32]⟩
    · rename_i htag
      obtain rfl := word_of_ofWord? htag
      obtain ⟨rfl, rfl⟩ := Prod.mk.inj h |>.imp Except.ok.inj id
      exact ⟨_, b₀, rfl, .endTree, by rw [Bytes.length_be32]⟩
    · exact absurd h (by simp)

end Cursor

/-! ## Runs of tokens -/

/-- The bytes of tokens that follow one another from a position of a block on. -/
inductive Spelling : Nat → List Step → Bytes → Prop
  | nil {pos : Nat} : Spelling pos [] []
  | cons {pos : Nat} {t : Token} {steps : List Step} {a b : Bytes} (head : t.Spelled pos a)
      (tail : Spelling (pos + a.length) steps b) :
      Spelling pos (⟨pos, t, pos + a.length⟩ :: steps) (a ++ b)

theorem Spelling.append {pos : Nat} {steps steps' : List Step} {a b : Bytes}
    (h : Spelling pos steps a) (h' : Spelling (pos + a.length) steps' b) :
    Spelling pos (steps ++ steps') (a ++ b) := by
  induction h with
  | nil => exact h'
  | cons head tail ih =>
      rw [List.cons_append, List.append_assoc]
      refine .cons head (ih ?_)
      rw [Nat.add_assoc, ← List.length_append]
      exact h'

/-- Every token ends at a multiple of four when it starts at one. -/
theorem Token.Spelled.mod_length {pos : Nat} {t : Token} {a : Bytes} (h : t.Spelled pos a)
    (hpos : pos % 4 = 0) : a.length % 4 = 0 := by
  cases h with
  | @beginNode name pad hname hlen hpad =>
      have hmod := Bytes.align4_mod (pos + 4 + (name.length + 1))
      rw [← hpad] at hmod
      rw [Cursor.length_be32_append]
      omega
  | @property nameOffset value pad hlen hpad =>
      have hmod := Bytes.align4_mod (pos + 4 + 8 + value.length)
      rw [← hpad] at hmod
      simp only [Cursor.length_be32_append]
      omega
  | endNode => rw [Bytes.length_be32]
  | nop => rw [Bytes.length_be32]
  | endTree => rw [Bytes.length_be32]

theorem Spelling.mod_length {pos : Nat} {steps : List Step} {a : Bytes} (h : Spelling pos steps a)
    (hpos : pos % 4 = 0) : a.length % 4 = 0 := by
  induction h with
  | nil => rfl
  | cons head tail ih =>
      have hhead := head.mod_length hpos
      have htail := ih (by omega)
      rw [List.length_append]
      omega

namespace Cursor

variable {c c' : Cursor} {pos : Nat} {t : Token} {a b rest : Bytes}

theorem collect_of_error {e : FormatError} (h : c.next = (.error e, c')) (done : List Step) :
    c.collect done = ⟨done.reverse, e, c'.position⟩ := by
  rw [collect]
  split
  · rename_i h'
    rw [h] at h'
    cases h'
    rfl
  · rename_i h'
    rw [h] at h'
    cases h'

theorem collect_of_ok (h : c.next = (.ok t, c')) (done : List Step) :
    c.collect done = c'.collect (⟨c.position, t, c'.position⟩ :: done) := by
  rw [collect]
  split
  · rename_i h'
    rw [h] at h'
    cases h'
  · rename_i h'
    rw [h] at h'
    cases h'
    rfl

/-- Every run ends, since every token takes some of the bytes that are left: what holds of a cursor
that reads nothing, and of one that reads a token when it holds behind it, holds of all of them. -/
@[elab_as_elim]
theorem next_induction {motive : Cursor → Prop}
    (failed : ∀ c e c', c.next = (.error e, c') → motive c)
    (read : ∀ c t c', c.next = (.ok t, c') → motive c' → motive c) (c : Cursor) : motive c := by
  induction hn : c.rest.length using Nat.strong_induction_on generalizing c with
  | _ n ih =>
      subst hn
      cases hnext : c.next with
      | mk result c' =>
          cases result with
          | error e => exact failed c e c' hnext
          | ok t => exact read c t c' hnext (ih _ (length_next_lt hnext) c' rfl)

theorem collect_eq (c : Cursor) (done : List Step) :
    c.collect done = ⟨done.reverse ++ c.run.steps, c.run.failure, c.run.position⟩ := by
  induction c using next_induction generalizing done with
  | failed c e c' hnext =>
      rw [run, collect_of_error hnext, collect_of_error hnext]
      simp
  | read c t c' hnext ih =>
      rw [run, collect_of_ok hnext, collect_of_ok hnext, ih, ih]
      simp

theorem run_of_error {e : FormatError} (h : c.next = (.error e, c')) :
    c.run = ⟨[], e, c'.position⟩ :=
  collect_of_error h []

theorem run_of_ok (h : c.next = (.ok t, c')) :
    c.run = ⟨⟨c.position, t, c'.position⟩ :: c'.run.steps, c'.run.failure, c'.run.position⟩ := by
  rw [run, collect_of_ok h, collect_eq]
  rfl

/-- **A spelled run is read**, whatever stands behind it. -/
theorem run_of_spelling {steps : List Step} (h : Spelling pos steps a) (b : Bytes) :
    (⟨a ++ b, pos⟩ : Cursor).run =
      ⟨steps ++ (⟨b, pos + a.length⟩ : Cursor).run.steps,
        (⟨b, pos + a.length⟩ : Cursor).run.failure,
        (⟨b, pos + a.length⟩ : Cursor).run.position⟩ := by
  induction h with
  | nil => rfl
  | @cons pos t steps front back head tail ih =>
      rw [List.append_assoc, run_of_ok (next_of_spelled head (back ++ b)), ih, List.length_append,
        ← Nat.add_assoc]
      rfl

/-- The first token of a run. -/
theorem next_of_run {s : Step} {behind : List Step} (h : c.run.steps = s :: behind) :
    ∃ c', c.next = (.ok s.token, c') ∧ s.start = c.position ∧ s.stop = c'.position ∧
      c'.run.steps = behind := by
  cases hnext : c.next with
  | mk result c' =>
      cases result with
      | error e =>
          rw [run_of_error hnext] at h
          exact absurd h (by simp)
      | ok t =>
          rw [run_of_ok hnext] at h
          obtain ⟨rfl, hbehind⟩ := List.cons.inj h
          exact ⟨c', rfl, rfl, rfl, hbehind⟩

theorem rest_ne_nil_of_run (h : c.run.steps ≠ []) : c.rest ≠ [] := by
  intro hempty
  have hfail : c.next = (.error (.truncated c.position 4), c) := by
    simp [next, word, hempty]
  rw [run_of_error hfail] at h
  exact h rfl

/-- A token that others follow ends, with its padding, within the block. -/
theorem fits_of_run (hnext : (⟨rest, pos⟩ : Cursor).next = (.ok t, c'))
    (h : c'.run.steps ≠ []) : c'.position ≤ pos + rest.length := by
  obtain ⟨n, hn⟩ := next_eq_skipBytes ⟨rest, pos⟩
  rw [hnext] at hn
  obtain rfl : c' = ⟨rest.drop n, pos + n⟩ := hn
  have hmore : rest.drop n ≠ [] := rest_ne_nil_of_run h
  rw [ne_eq, List.drop_eq_nil_iff] at hmore
  show pos + n ≤ pos + rest.length
  omega

/-- **What a run has read was spelled**, up to any token with which it goes on. -/
theorem spelling_of_run {steps behind : List Step} {s : Step}
    (h : (⟨rest, pos⟩ : Cursor).run.steps = steps ++ s :: behind) :
    ∃ a b, rest = a ++ b ∧ Spelling pos steps a ∧
      (⟨b, pos + a.length⟩ : Cursor).run.steps = s :: behind := by
  induction steps generalizing rest pos with
  | nil => exact ⟨[], rest, rfl, .nil, h⟩
  | cons s₀ steps ih =>
      obtain ⟨c', hnext, hstart, hstop, hrun⟩ := next_of_run h
      -- the first token is followed by another one, at the latest by `s`
      have hfits := fits_of_run hnext (by simp [hrun])
      obtain ⟨a₀, b₀, rfl, hspelled, rfl⟩ := spelled_of_next hnext hfits
      obtain ⟨a, b, rfl, hspelling, hbehind⟩ := ih hrun
      have hlen : pos + a₀.length + a.length = pos + (a₀ ++ a).length := by
        rw [List.length_append, Nat.add_assoc]
      have hs₀ : s₀ = ⟨pos, s₀.token, pos + a₀.length⟩ := by
        cases s₀
        simp only at hstart hstop
        rw [hstart, hstop]
      rw [hlen] at hbehind
      refine ⟨a₀ ++ a, b, (List.append_assoc _ _ _).symm, ?_, hbehind⟩
      rw [hs₀]
      exact .cons hspelled hspelling

end Cursor

end EmmcLayout.DeviceTree
