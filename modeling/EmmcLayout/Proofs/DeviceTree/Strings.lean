import EmmcLayout.DeviceTree.Strings
import EmmcLayout.Proofs.Bytes

/-!
# Names in a strings block

A name without a NUL is found at the least offset at which it reads back (`find?_eq_some_iff`).  The
block only grows: what is found or read stays so in every block that goes on from this one
(`find?_of_extends`, `get?_of_extends`), and a name that was just put in is found where it was put
(`find?_intern`), even when the block did not end in a NUL before.
-/

namespace EmmcLayout.DeviceTree.StringsBlock

variable {s s' : StringsBlock} {name : Bytes} {offset : UInt32}

theorem get?_eq_some_iff :
    s.get? offset = some name ↔ 0 ∉ name ∧ name ++ [0] <+: s.bytes.drop offset.toNat :=
  Bytes.terminated?_eq_some_iff

/-- **A search finds the least offset at which the name reads back.** -/
theorem find?_eq_some_iff (hname : 0 ∉ name) :
    s.find? name = some offset ↔
      s.get? offset = some name ∧ ∀ earlier < offset, s.get? earlier ≠ some name := by
  have hne : name ++ [0] ≠ [] := by simp
  have hstands : ∀ w : UInt32,
      s.get? w = some name ↔ name ++ [0] <+: s.bytes.drop w.toNat :=
    fun w => get?_eq_some_iff.trans (and_iff_right hname)
  have hfind : s.find? name = some offset ↔
      ∃ k, Bytes.findFrom (name ++ [0]) 0 s.bytes = some k ∧ k = offset.toNat := by
    unfold find?
    cases Bytes.findFrom (name ++ [0]) 0 s.bytes with
    | none => simp
    | some k =>
        have hlt : offset.toNat < UInt32.size := offset.toNat_lt
        by_cases hk : k < UInt32.size
        · have hword : UInt32.ofNat k = offset ↔ k = offset.toNat := by
            rw [← UInt32.toNat_inj, UInt32.toNat_ofNat', Nat.mod_eq_of_lt hk]
          simp [hk, hword]
        · have hne' : k ≠ offset.toNat := by omega
          simp [hk, hne']
  rw [hfind]
  constructor
  · rintro ⟨k, hk, rfl⟩
    obtain ⟨i, hi, hhere, hleast⟩ := (Bytes.findFrom_eq_some_iff hne).mp hk
    rw [Nat.zero_add] at hi
    subst hi
    refine ⟨(hstands offset).mpr hhere, ?_⟩
    intro earlier hearlier hget
    exact hleast earlier.toNat (UInt32.lt_iff_toNat_lt.mp hearlier) ((hstands earlier).mp hget)
  · rintro ⟨hget, hleast⟩
    obtain ⟨k, hle, hk⟩ := Bytes.findFrom_isSome hne ((hstands offset).mp hget)
    refine ⟨k, hk, ?_⟩
    obtain ⟨i, hi, hhere, -⟩ := (Bytes.findFrom_eq_some_iff hne).mp hk
    rw [Nat.zero_add] at hi
    subst hi
    -- the place found is a word, so it is not earlier than `offset`
    by_contra hne'
    have hlt : offset.toNat < UInt32.size := offset.toNat_lt
    have hword : (UInt32.ofNat k).toNat = k :=
      UInt32.toNat_ofNat_of_lt' (show k < UInt32.size by omega)
    refine hleast (UInt32.ofNat k) ?_ ?_
    · rw [UInt32.lt_iff_toNat_lt, hword]
      omega
    · rw [hstands, hword]
      exact hhere

theorem get?_of_find? (hname : 0 ∉ name) (h : s.find? name = some offset) :
    s.get? offset = some name :=
  ((find?_eq_some_iff hname).mp h).1

/-- A name that reads back somewhere is found. -/
theorem exists_find? (h : s.get? offset = some name) : ∃ least, s.find? name = some least := by
  obtain ⟨hname, hstands⟩ := get?_eq_some_iff.mp h
  obtain ⟨k, hle, hk⟩ := Bytes.findFrom_isSome (by simp) hstands
  have hlt : k < UInt32.size := Nat.lt_of_le_of_lt hle offset.toNat_lt
  refine ⟨UInt32.ofNat k, ?_⟩
  simp [find?, hk, hlt]

theorem find?_eq_none_iff (hname : 0 ∉ name) :
    s.find? name = none ↔ ∀ offset, s.get? offset ≠ some name := by
  constructor
  · intro hnone offset hget
    obtain ⟨least, hleast⟩ := exists_find? hget
    rw [hnone] at hleast
    exact Option.some_ne_none least hleast.symm
  · intro hnot
    cases hfind : s.find? name with
    | none => rfl
    | some offset => exact absurd (get?_of_find? hname hfind) (hnot offset)

/-- Two names that are found at the same offset are the same. -/
theorem eq_of_find? {name' : Bytes} (hname : 0 ∉ name) (hname' : 0 ∉ name')
    (h : s.find? name = some offset) (h' : s.find? name' = some offset) : name = name' := by
  have hget := get?_of_find? hname h
  rw [get?_of_find? hname' h'] at hget
  exact (Option.some.inj hget).symm

theorem nameText_of_find? (hname : 0 ∉ name) (h : s.find? name = some offset) :
    s.nameText offset = Utf8.decodeLossy name := by
  rw [nameText, get?_of_find? hname h]

/-! ## Blocks that go on -/

/-- The second block goes on from the first one. -/
def Extends (s s' : StringsBlock) : Prop :=
  s.bytes <+: s'.bytes

theorem Extends.refl (s : StringsBlock) : s.Extends s := List.prefix_rfl

theorem Extends.trans {s'' : StringsBlock} (h : s.Extends s') (h' : s'.Extends s'') :
    s.Extends s'' :=
  List.IsPrefix.trans h h'

theorem Extends.length_le (h : s.Extends s') : s.bytes.length ≤ s'.bytes.length :=
  List.IsPrefix.length_le h

theorem get?_of_extends (hs : s.Extends s') (h : s.get? offset = some name) :
    s'.get? offset = some name :=
  Bytes.terminated?_of_prefix (List.IsPrefix.drop hs _) h

/-- What is found stays where it is, since nothing can be put in front of it. -/
theorem find?_of_extends (hs : s.Extends s') (hname : 0 ∉ name)
    (h : s.find? name = some offset) : s'.find? name = some offset := by
  obtain ⟨hget, hleast⟩ := (find?_eq_some_iff hname).mp h
  rw [find?_eq_some_iff hname]
  refine ⟨get?_of_extends hs hget, ?_⟩
  intro earlier hearlier hget'
  apply hleast earlier hearlier
  -- what stands earlier ends earlier, so it lies within the first block
  obtain ⟨more, hmore⟩ := hs
  have hstands := (get?_eq_some_iff.mp hget).2.length_le
  obtain ⟨-, hstands'⟩ := get?_eq_some_iff.mp hget'
  have hlt := UInt32.lt_iff_toNat_lt.mp hearlier
  rw [List.length_append, List.length_singleton, List.length_drop] at hstands
  rw [← hmore, List.drop_append_of_le_length (by omega)] at hstands'
  refine get?_eq_some_iff.mpr ⟨hname, ?_⟩
  refine List.prefix_of_prefix_length_le hstands' (List.prefix_append _ _) ?_
  rw [List.length_append, List.length_singleton, List.length_drop]
  omega

/-! ## Putting names in -/

theorem extends_append (s : StringsBlock) (name : Bytes) : s.Extends (s.append name).2 := by
  rw [append, Extends, List.append_assoc]
  exact List.prefix_append _ _

theorem get?_append (hname : 0 ∉ name) (hlen : s.bytes.length < UInt32.size) :
    (s.append name).2.get? (s.append name).1 = some name := by
  have hword : (UInt32.ofNat s.bytes.length).toNat = s.bytes.length :=
    UInt32.toNat_ofNat_of_lt' hlen
  rw [get?_eq_some_iff]
  refine ⟨hname, ?_⟩
  show name ++ [0] <+: (s.bytes ++ name ++ [0]).drop (UInt32.ofNat s.bytes.length).toNat
  rw [hword, List.append_assoc, List.drop_left]

/-- Nothing that stands in front of a name closed by a NUL can run into it. -/
theorem prefix_of_prefix_append {front : Bytes} (hname : 0 ∉ name) (hfront : front ≠ [])
    (h : name ++ [0] <+: front ++ (name ++ [0])) : name ++ [0] <+: front := by
  obtain ⟨back, hback⟩ := h
  rcases List.append_eq_append_iff.mp hback with ⟨part, rfl, -⟩ | ⟨part, hsplit, hrest⟩
  · exact List.prefix_append _ _
  · cases hlast : part.getLast? with
    | none =>
        rw [List.getLast?_eq_none_iff] at hlast
        rw [hlast, List.append_nil] at hsplit
        rw [hsplit]
    | some last =>
        -- the NUL would lie inside the name
        exfalso
        have hend := congrArg List.getLast? hsplit
        rw [List.getLast?_append, List.getLast?_append, hlast, List.getLast?_singleton] at hend
        obtain rfl : (0 : UInt8) = last := Option.some.inj hend
        have hlen := congrArg List.length hsplit
        have hpos := List.length_pos_iff.mpr hfront
        rw [List.length_append, List.length_append, List.length_singleton] at hlen
        have hpart : part <+: name := by
          refine List.prefix_of_prefix_length_le ⟨back, hrest.symm⟩ (List.prefix_append _ [0]) ?_
          omega
        exact hname (hpart.subset (List.mem_of_getLast? hlast))

theorem find?_append (hname : 0 ∉ name) (hlen : s.bytes.length < UInt32.size)
    (h : s.find? name = none) : (s.append name).2.find? name = some (s.append name).1 := by
  rw [find?_eq_some_iff hname]
  refine ⟨get?_append hname hlen, ?_⟩
  intro earlier hearlier hget
  have hword : (UInt32.ofNat s.bytes.length).toNat = s.bytes.length :=
    UInt32.toNat_ofNat_of_lt' hlen
  have hlt := UInt32.lt_iff_toNat_lt.mp hearlier
  change earlier.toNat < (UInt32.ofNat s.bytes.length).toNat at hlt
  rw [hword] at hlt
  obtain ⟨-, hstands⟩ := get?_eq_some_iff.mp hget
  change name ++ [0] <+: (s.bytes ++ name ++ [0]).drop earlier.toNat at hstands
  rw [List.append_assoc, List.drop_append_of_le_length (Nat.le_of_lt hlt)] at hstands
  have hfront : s.bytes.drop earlier.toNat ≠ [] := by
    rw [ne_eq, List.drop_eq_nil_iff]
    omega
  have hold := prefix_of_prefix_append hname hfront hstands
  exact (find?_eq_none_iff hname).mp h earlier (get?_eq_some_iff.mpr ⟨hname, hold⟩)

theorem extends_intern (s : StringsBlock) (name : Bytes) : s.Extends (s.intern name).2 := by
  unfold intern
  cases s.find? name with
  | some offset => exact Extends.refl s
  | none => exact extends_append s name

/-- **A name that was put in is found where it was put.** -/
theorem find?_intern (hname : 0 ∉ name) (hlen : s.bytes.length < UInt32.size) :
    (s.intern name).2.find? name = some (s.intern name).1 := by
  unfold intern
  cases h : s.find? name with
  | some offset => exact h
  | none => exact find?_append hname hlen h

/-- A name is not found behind another one, unless it ends as that one does. -/
theorem find?_append_of_getLast?_ne {other : Bytes} (hname : 0 ∉ name) (hne : name ≠ [])
    (hother : 0 ∉ other) (hne' : other ≠ []) (hlast : other.getLast? ≠ name.getLast?)
    (h : s.find? name = none) : (s.append other).2.find? name = none := by
  rw [find?_eq_none_iff hname]
  intro offset hget
  obtain ⟨-, more, hstands⟩ := get?_eq_some_iff.mp hget
  change name ++ [0] ++ more = (s.bytes ++ other ++ [0]).drop offset.toNat at hstands
  have hle : offset.toNat ≤ (s.bytes ++ other).length := by
    have hlen := congrArg List.length hstands
    simp only [List.length_append, List.length_drop, List.length_singleton] at hlen ⊢
    omega
  rw [List.drop_append_of_le_length hle] at hstands
  rcases List.eq_nil_or_concat more with rfl | ⟨most, z, rfl⟩
  · -- the name reaches up to the end, so it ends as the other one
    rw [List.append_nil] at hstands
    have hall := List.append_cancel_right hstands
    have hend := congrArg List.getLast? hall
    have hnonempty : (s.bytes ++ other).drop offset.toNat ≠ [] := hall ▸ hne
    rw [List.getLast?_drop, if_neg (by
      rw [ne_eq, List.drop_eq_nil_iff] at hnonempty
      exact hnonempty), List.getLast?_append_of_ne_nil _ hne'] at hend
    exact hlast hend.symm
  · -- its NUL stands in the block or in the other name
    rw [List.concat_eq_append, ← List.append_assoc] at hstands
    have hinside := (List.append_inj' hstands rfl).1
    by_cases hold : offset.toNat ≤ s.bytes.length
    · rw [List.drop_append_of_le_length hold] at hinside
      rcases List.append_eq_append_iff.mp hinside with ⟨back, hback, -⟩ | ⟨back, hfront, hrest⟩
      · exact (find?_eq_none_iff hname).mp h offset
          (get?_eq_some_iff.mpr ⟨hname, back, hback.symm⟩)
      · rcases List.eq_nil_or_concat back with rfl | ⟨others, z, rfl⟩
        · rw [List.append_nil] at hfront
          exact (find?_eq_none_iff hname).mp h offset
            (get?_eq_some_iff.mpr ⟨hname, hfront ▸ List.prefix_rfl⟩)
        · rw [List.concat_eq_append, ← List.append_assoc] at hfront
          obtain rfl : 0 = z := by simpa using (List.append_inj' hfront rfl).2
          exact hother (by rw [hrest]; simp)
    · rw [List.drop_append, List.drop_eq_nil_of_le (Nat.le_of_not_le hold),
        List.nil_append] at hinside
      have hzero : (0 : UInt8) ∈ other.drop (offset.toNat - s.bytes.length) := by
        rw [← hinside]
        simp
      exact hother (List.mem_of_mem_drop hzero)

theorem find?_intern_of_getLast?_ne {other : Bytes} (hname : 0 ∉ name) (hne : name ≠ [])
    (hother : 0 ∉ other) (hne' : other ≠ []) (hlast : other.getLast? ≠ name.getLast?)
    (h : s.find? name = none) : (s.intern other).2.find? name = none := by
  unfold intern
  cases s.find? other with
  | some offset => exact h
  | none => exact find?_append_of_getLast?_ne hname hne hother hne' hlast h

end EmmcLayout.DeviceTree.StringsBlock
