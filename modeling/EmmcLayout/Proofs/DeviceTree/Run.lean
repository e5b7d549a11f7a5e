import EmmcLayout.Proofs.DeviceTree.Content

/-!
# Runs of a block

The tokens of a block from some offset on are one run.  It goes on from every token in it
(`runAt_behind`), its tokens come in ascending order (`pairwise_start`), and the same bytes at
another place, with the same alignment, give a run that is alike (`run_alike`).
-/

namespace EmmcLayout.DeviceTree

namespace Cursor

variable {c c' : Cursor} {pos pos' : Nat} {t : Token} {rest : Bytes} {w : UInt32}

/-! ## The same bytes at another place -/

theorem word_eq_ok_of_rest (h : (⟨rest, pos⟩ : Cursor).word = .ok w) (pos' : Nat) :
    (⟨rest, pos'⟩ : Cursor).word = .ok w := by
  obtain ⟨b, hb⟩ := word_eq_ok_iff.mp h
  exact word_eq_ok_iff.mpr ⟨b, hb⟩

theorem skipAligned_mk (rest : Bytes) (pos n : Nat) :
    (⟨rest, pos⟩ : Cursor).skipAligned n =
      ⟨rest.drop (Bytes.align4 (pos + n) - pos), pos + (Bytes.align4 (pos + n) - pos)⟩ := rfl

/-- How far the padding reaches depends on the alignment alone. -/
theorem align4_sub_congr (h : pos % 4 = pos' % 4) (n : Nat) :
    Bytes.align4 (pos + n) - pos = Bytes.align4 (pos' + n) - pos' := by
  unfold Bytes.align4
  omega

theorem nodeName_alike (hmod : pos % 4 = pos' % 4)
    (h : (⟨rest, pos⟩ : Cursor).nodeName = (.ok t, c')) :
    ∃ n, c' = ⟨rest.drop n, pos + n⟩ ∧
      (⟨rest, pos'⟩ : Cursor).nodeName = (.ok t, ⟨rest.drop n, pos' + n⟩) := by
  unfold nodeName at h ⊢
  split at h
  · rename_i name hname
    simp only at hname
    obtain ⟨ht, rfl⟩ := Prod.mk.inj h
    refine ⟨Bytes.align4 (pos + (name.length + 1)) - pos, skipAligned_mk _ _ _, ?_⟩
    rw [align4_sub_congr hmod]
    simp only [hname, ht, skipAligned_mk]
  · exact absurd h (by simp)

theorem propertyBody_alike {offset : Nat} (offset' : Nat) (hmod : pos % 4 = pos' % 4)
    (h : (⟨rest, pos⟩ : Cursor).propertyBody offset = (.ok t, c')) :
    ∃ t' n, t.Alike t' ∧ c' = ⟨rest.drop n, pos + n⟩ ∧
      (⟨rest, pos'⟩ : Cursor).propertyBody offset' = (.ok t', ⟨rest.drop n, pos' + n⟩) := by
  unfold propertyBody at h ⊢
  split at h
  · exact absurd h (by simp)
  · exact absurd h (by simp)
  · rename_i length nameOffset hlength hname
    rw [skipBytes_mk] at hname
    have hlength' := word_eq_ok_of_rest hlength pos'
    have hname' := word_eq_ok_of_rest hname (pos' + 4)
    dsimp only at h
    split at h
    · rename_i hvalue
      obtain ⟨ht, rfl⟩ := Prod.mk.inj h
      obtain rfl := Except.ok.inj ht
      have hmod' : (pos + 8) % 4 = (pos' + 8) % 4 := by omega
      refine ⟨.property ⟨offset', _, _⟩, 8 + (Bytes.align4 (pos + 8 + length.toNat) - (pos + 8)),
        .property, ?_, ?_⟩
      · simp only [skipBytes_mk, skipAligned_mk, List.drop_drop, Nat.add_assoc]
      · rw [align4_sub_congr hmod']
        rw [skipBytes_mk] at hvalue
        simp only [hlength', skipBytes_mk, hname', hvalue, if_true, skipAligned_mk,
          List.drop_drop, Nat.add_assoc]
    · exact absurd h (by simp)

/-- One token, read from the same bytes at another place. -/
theorem next_alike (hmod : pos % 4 = pos' % 4)
    (h : (⟨rest, pos⟩ : Cursor).next = (.ok t, c')) :
    ∃ t' n, t.Alike t' ∧ c' = ⟨rest.drop n, pos + n⟩ ∧
      (⟨rest, pos'⟩ : Cursor).next = (.ok t', ⟨rest.drop n, pos' + n⟩) := by
  unfold next at h ⊢
  split at h
  · exact absurd h (by simp)
  · rename_i w hw
    have hw' := word_eq_ok_of_rest hw pos'
    have hmod' : (pos + 4) % 4 = (pos' + 4) % 4 := by omega
    simp only [hw', skipBytes_mk] at h ⊢
    split at h
    · rename_i htag
      obtain ⟨n, hc', hnext⟩ := nodeName_alike hmod' h
      refine ⟨t, 4 + n, .refl t, ?_, ?_⟩
      · rw [hc', List.drop_drop, Nat.add_assoc]
      · simp only [hnext, List.drop_drop, Nat.add_assoc]
    · rename_i htag
      obtain ⟨t', n, halike, hc', hnext⟩ := propertyBody_alike pos' hmod' h
      refine ⟨t', 4 + n, halike, ?_, ?_⟩
      · rw [hc', List.drop_drop, Nat.add_assoc]
      · simp only [hnext, List.drop_drop, Nat.add_assoc]
    · obtain ⟨ht, rfl⟩ := Prod.mk.inj h
      exact ⟨t, 4, .refl t, rfl, by rw [ht]⟩
    · obtain ⟨ht, rfl⟩ := Prod.mk.inj h
      exact ⟨t, 4, .refl t, rfl, by rw [ht]⟩
    · obtain ⟨ht, rfl⟩ := Prod.mk.inj h
      exact ⟨t, 4, .refl t, rfl, by rw [ht]⟩
    · exact absurd h (by simp)

/-- **The same bytes at another place give a run that is alike.** -/
theorem run_alike (hmod : pos % 4 = pos' % 4) :
    Alike (⟨rest, pos⟩ : Cursor).run.steps (⟨rest, pos'⟩ : Cursor).run.steps := by
  -- on the bytes that are left, since every token takes some
  induction hn : rest.length using Nat.strong_induction_on generalizing rest pos pos' with
  | _ n ih =>
      subst hn
      cases hnext : (⟨rest, pos⟩ : Cursor).next with
      | mk result c' =>
          cases result with
          | ok t =>
              obtain ⟨t', k, halike, rfl, hnext'⟩ := next_alike hmod hnext
              have hless := length_next_lt hnext
              rw [run_of_ok hnext, run_of_ok hnext']
              exact .cons halike (ih _ hless (by omega) rfl)
          | error e =>
              cases hnext' : (⟨rest, pos'⟩ : Cursor).next with
              | mk result' c'' =>
                  cases result' with
                  | error e' =>
                      rw [run_of_error hnext, run_of_error hnext']
                      exact .nil
                  | ok t' =>
                      -- what can be read there can be read here
                      obtain ⟨t, k, -, -, hok⟩ := next_alike hmod.symm hnext'
                      rw [hnext] at hok
                      exact absurd (Prod.mk.inj hok).1 (by simp)

/-! ## Places -/

/-- A cursor of a block stays one. -/
theorem next_ofBlock {block : Bytes} {result : Except FormatError Token}
    (h : (ofBlock block pos).next = (result, c')) : c' = ofBlock block c'.position := by
  obtain ⟨n, hn⟩ := next_eq_skipBytes (ofBlock block pos)
  rw [h] at hn
  obtain rfl : c' = (ofBlock block pos).skipBytes n := hn
  simp only [ofBlock, skipBytes, List.drop_drop]

theorem position_lt_of_next (h : c.next = (.ok t, c')) : c.position < c'.position := by
  obtain ⟨n, hn⟩ := next_eq_skipBytes c
  have hless := length_next_lt h
  rw [h] at hn
  obtain rfl : c' = c.skipBytes n := hn
  simp only [skipBytes, List.length_drop] at hless ⊢
  omega

theorem position_le_start (c : Cursor) : ∀ s ∈ c.run.steps, c.position ≤ s.start := by
  induction c using next_induction with
  | failed c e c' hnext =>
      rw [run_of_error hnext]
      simp
  | read c t c' hnext ih =>
      have hlt := position_lt_of_next hnext
      rw [run_of_ok hnext]
      refine List.forall_mem_cons.mpr ⟨Nat.le_refl _, ?_⟩
      intro s hs
      exact Nat.le_trans (Nat.le_of_lt hlt) (ih s hs)

theorem start_lt_stop (c : Cursor) : ∀ s ∈ c.run.steps, s.start < s.stop := by
  induction c using next_induction with
  | failed c e c' hnext =>
      rw [run_of_error hnext]
      simp
  | read c t c' hnext ih =>
      rw [run_of_ok hnext]
      exact List.forall_mem_cons.mpr ⟨position_lt_of_next hnext, ih⟩

/-- The tokens of a run come in ascending order. -/
theorem pairwise_start (c : Cursor) : c.run.steps.Pairwise (fun s s' => s.start < s'.start) := by
  induction c using next_induction with
  | failed c e c' hnext =>
      rw [run_of_error hnext]
      exact .nil
  | read c t c' hnext ih =>
      have hlt := position_lt_of_next hnext
      rw [run_of_ok hnext]
      refine List.pairwise_cons.mpr ⟨?_, ih⟩
      intro s hs
      exact Nat.lt_of_lt_of_le hlt (position_le_start c' s hs)

end Cursor

variable {t : DeviceTree} {offset : Nat} {front back : List Step} {s : Step}

/-- **A run goes on from every token in it.** -/
theorem runAt_behind (h : (t.runAt offset).steps = front ++ s :: back) :
    (t.runAt s.stop).steps = back := by
  induction front generalizing offset with
  | nil =>
      obtain ⟨c', hnext, -, hstop, hback⟩ := Cursor.next_of_run h
      rw [hstop, ← hback, runAt, ← Cursor.next_ofBlock hnext]
  | cons s₀ front ih =>
      obtain ⟨c', hnext, -, -, hback⟩ := Cursor.next_of_run h
      rw [Cursor.next_ofBlock hnext] at hback
      exact ih hback

/-- The first token of a run starts where the run does. -/
theorem start_of_runAt_head (h : (t.runAt offset).steps = s :: back) : s.start = offset := by
  obtain ⟨c', -, hstart, -, -⟩ := Cursor.next_of_run h
  exact hstart

theorem runAt_start (h : (t.runAt offset).steps = front ++ s :: back) :
    (t.runAt s.start).steps = s :: back := by
  induction front generalizing offset with
  | nil =>
      rw [start_of_runAt_head h]
      exact h
  | cons s₀ front ih =>
      have hfirst : (t.runAt offset).steps = [] ++ s₀ :: (front ++ s :: back) := h
      exact ih (runAt_behind hfirst)

/-- Every token of a run starts where the one in front of it stops. -/
theorem start_of_runAt (h : (t.runAt offset).steps = front ++ s :: back) :
    s.start = (front.getLast?.map Step.stop).getD offset := by
  induction front generalizing offset with
  | nil => exact start_of_runAt_head h
  | cons s₀ front ih =>
      have hfirst : (t.runAt offset).steps = [] ++ s₀ :: (front ++ s :: back) := h
      rw [ih (runAt_behind hfirst), List.getLast?_cons]
      cases front.getLast? with
      | none => rfl
      | some last => rfl

/-- A token that others follow stands in the block where the run says it does. -/
theorem spelled_of_runAt (h : (t.runAt offset).steps = front ++ s :: back) (hback : back ≠ []) :
    ∃ a, s.token.Spelled s.start a ∧ s.stop = s.start + a.length ∧
      s.stop ≤ t.structBlock.length ∧
      t.structBlock.drop s.start = a ++ t.structBlock.drop s.stop := by
  induction front generalizing offset with
  | nil =>
      obtain ⟨c', hnext, hstart, hstop, hrest⟩ := Cursor.next_of_run h
      obtain rfl : s.start = offset := hstart
      have hplace := Cursor.next_ofBlock hnext
      have hmore : t.structBlock.drop c'.position ≠ [] := by
        have hne := Cursor.rest_ne_nil_of_run (c := c') (by rw [hrest]; exact hback)
        rw [hplace] at hne
        exact hne
      rw [ne_eq, List.drop_eq_nil_iff, Nat.not_le] at hmore
      have hlt := Cursor.position_lt_of_next hnext
      change s.start < c'.position at hlt
      obtain ⟨a, b, hsplit, hspelled, hc'⟩ := Cursor.spelled_of_next hnext (by
        rw [List.length_drop]
        omega)
      have hend : c'.position = s.start + a.length := by rw [hc']
      have hbehind : t.structBlock.drop c'.position = b := by
        have hrest' : c'.rest = b := by rw [hc']
        rw [hplace] at hrest'
        exact hrest'
      refine ⟨a, hspelled, by rw [hstop, hend], by rw [hstop]; exact Nat.le_of_lt hmore, ?_⟩
      rw [hstop, hbehind]
      exact hsplit
  | cons s₀ front ih =>
      obtain ⟨c', hnext, -, -, hrest⟩ := Cursor.next_of_run h
      rw [Cursor.next_ofBlock hnext] at hrest
      exact ih hrest

end EmmcLayout.DeviceTree
