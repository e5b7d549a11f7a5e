import EmmcLayout.Proofs.DeviceTree.Strings

/-!
# Offsets over a history of insertions

Names are put into a strings block in two ways: always, or when they cannot be found.
`offsets_stable` says what any sequence of both leaves intact: every offset that was handed out or
gave a name before goes on giving it, and a search answers with the least of them.

A name may be found as the tail of a longer one, and the end of a block that is not closed by a NUL
runs into the next name that is appended.  Neither needs a case of its own: a block only grows at
its end, and what is found in front of that is closed already.
-/

namespace EmmcLayout.DeviceTree.StringsBlock

variable {s : StringsBlock}

/-- A call that puts a name in. -/
inductive Insertion
  /-- The name is appended in any case. -/
  | append (name : Bytes)
  /-- The name is appended when it cannot be found. -/
  | intern (name : Bytes)

namespace Insertion

/-- The name that is put in. -/
def name : Insertion → Bytes
  | .append name => name
  | .intern name => name

/-- The offset that the call returns, and the block that it leaves. -/
def apply (s : StringsBlock) : Insertion → UInt32 × StringsBlock
  | .append name => s.append name
  | .intern name => s.intern name

theorem extends_apply (s : StringsBlock) (i : Insertion) : s.Extends (i.apply s).2 := by
  cases i with
  | append name => exact extends_append s name
  | intern name => exact extends_intern s name

/-- The offset that a call returns is that of its name. -/
theorem get?_apply {i : Insertion} (hname : 0 ∉ i.name) (hlen : s.bytes.length < UInt32.size) :
    (i.apply s).2.get? (i.apply s).1 = some i.name := by
  cases i with
  | append name => exact get?_append hname hlen
  | intern name => exact get?_of_find? hname (find?_intern hname hlen)

end Insertion

/-- The block that a history of calls leaves. -/
def after (s : StringsBlock) (history : List Insertion) : StringsBlock :=
  history.foldl (fun block i => (i.apply block).2) s

theorem after_append (s : StringsBlock) (front back : List Insertion) :
    s.after (front ++ back) = (s.after front).after back :=
  List.foldl_append

theorem after_cons (s : StringsBlock) (i : Insertion) (history : List Insertion) :
    s.after (i :: history) = (i.apply s).2.after history := rfl

theorem extends_after (s : StringsBlock) (history : List Insertion) :
    s.Extends (s.after history) := by
  induction history generalizing s with
  | nil => exact Extends.refl s
  | cons i history ih => exact (i.extends_apply s).trans (ih _)

theorem extends_after_of_isPrefix {front history : List Insertion} (h : front <+: history) :
    (s.after front).Extends (s.after history) := by
  obtain ⟨back, rfl⟩ := h
  rw [after_append]
  exact extends_after _ back

/-- What is found is there already, so putting it in again changes nothing. -/
theorem intern_of_find? {name : Bytes} {offset : UInt32} (h : s.find? name = some offset) :
    s.intern name = (offset, s) := by
  rw [intern, h]

/-- **Offsets are stable, and those that are found are least.**  The block may start as anything,
also without a NUL at its end.  While names without a NUL are put in, and the block stays below 2^32
bytes, each offset that was returned gives its name from then on, and each offset that gave a name
at the start still gives it.  At any time a name is found at the least offset that gives it, and is
not found only where there is none; putting it in again when it is found changes nothing. -/
theorem offsets_stable (s : StringsBlock) (history : List Insertion)
    (hnames : ∀ i ∈ history, 0 ∉ i.name)
    (hsize : (s.after history).bytes.length < UInt32.size) :
    (∀ before i later, history = before ++ i :: later → ∀ now, now <+: later →
        (s.after (before ++ i :: now)).get? (i.apply (s.after before)).1 = some i.name) ∧
      ∀ now, now <+: history →
        (∀ offset name, s.get? offset = some name → (s.after now).get? offset = some name) ∧
        ∀ name, 0 ∉ name →
          (∀ offset, (s.after now).find? name = some offset ↔
            (s.after now).get? offset = some name ∧
              ∀ earlier < offset, (s.after now).get? earlier ≠ some name) ∧
          ((s.after now).find? name = none ↔ ∀ offset, (s.after now).get? offset ≠ some name) ∧
          ∀ offset, (s.after now).find? name = some offset →
            (s.after now).intern name = (offset, s.after now) := by
  constructor
  · rintro before i later rfl now -
    have hbefore : (s.after before).bytes.length < UInt32.size :=
      Nat.lt_of_le_of_lt (extends_after_of_isPrefix (List.prefix_append _ _)).length_le hsize
    have hname : 0 ∉ i.name := hnames i (by simp)
    rw [after_append, after_cons]
    exact get?_of_extends (extends_after _ now) (Insertion.get?_apply hname hbefore)
  · intro now hnow
    refine ⟨fun offset name h => get?_of_extends (extends_after s now) h, ?_⟩
    intro name hname
    exact ⟨fun offset => find?_eq_some_iff hname, find?_eq_none_iff hname,
      fun offset => intern_of_find?⟩

/-- A block whose end is not closed: the first name that is appended runs into it. -/
def openBlock : StringsBlock :=
  ⟨[0x73, 0x69, 0x7A]⟩

/-- `e` completes `size`, which is found then; it is appended all the same, and its tail is found in
the first copy. -/
def openHistory : List Insertion :=
  [.intern [0x65], .intern [0x73, 0x69, 0x7A, 0x65], .append [0x73, 0x69, 0x7A, 0x65],
    .intern [0x7A, 0x65]]

theorem offsets_stable_of_openBlock :
    (openBlock.after openHistory).bytes =
        [0x73, 0x69, 0x7A, 0x65, 0, 0x73, 0x69, 0x7A, 0x65, 0] ∧
      (openBlock.after openHistory).get? 3 = some [0x65] ∧
      (openBlock.after openHistory).find? [0x73, 0x69, 0x7A, 0x65] = some 0 ∧
      (openBlock.after openHistory).intern [0x73, 0x69, 0x7A, 0x65] =
        (0, openBlock.after openHistory) := by
  obtain ⟨hreturned, hhistory⟩ :=
    offsets_stable openBlock openHistory (by decide) (by decide)
  obtain ⟨-, hsearch⟩ := hhistory openHistory List.prefix_rfl
  obtain ⟨-, -, hagain⟩ := hsearch [0x73, 0x69, 0x7A, 0x65] (by decide)
  have hfound : (openBlock.after openHistory).find? [0x73, 0x69, 0x7A, 0x65] = some 0 := by decide
  exact ⟨by decide, hreturned [] _ _ rfl _ List.prefix_rfl, hfound, hagain 0 hfound⟩

end EmmcLayout.DeviceTree.StringsBlock
