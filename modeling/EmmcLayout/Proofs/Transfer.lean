import EmmcLayout.Proofs.Outcome
import EmmcLayout.Transfer
import Mathlib.Tactic

/-!
# Transfers do not depend on how they are chopped up

How far a transfer comes is a matter of numbers: each call delivers what it is good for, as far as
that was asked for and is there (`delivered`), until all is delivered or a call stops the transfer
(`Stops`), because it fails or delivers nothing.  `Course` says how the transfer ends then.

`Reached.follows` carries this along the loop that reads: behind any number of calls the buffer
holds the bytes delivered so far, and the source what follows them.  Writing is reading from the
data into the sink, but for the name of an empty transfer (`drain_eq_fill`).
-/

namespace EmmcLayout

/-- The most bytes that a call moves. -/
def DeviceEvent.most : DeviceEvent → Nat
  | .move most => most
  | .pause _ => 0
  | .fail _ => 0

namespace Transfer

/-! ## The course of a transfer -/

section Course

variable (empty : Nat → Nat → TransferError) (total available : Nat) (events : List DeviceEvent)

/-- What the device does on call number `k`.  Behind the schedule it moves all that it is asked for.
-/
def call (k : Nat) : DeviceEvent :=
  events.getD k (.move total)

/-- How many bytes the first `k` calls deliver: each of them as many as it is good for, as far as
they are asked for and are there. -/
def delivered : Nat → Nat
  | 0 => 0
  | k + 1 =>
    delivered k +
      min (call total events k).most (min (total - delivered k) (available - delivered k))

/-- Call number `k` ends the transfer early: it fails, or it delivers nothing of what it is asked
for. -/
def Stops (k : Nat) : Prop :=
  delivered total available events k < total ∧
    match call total events k with
    | .move _ => delivered total available events (k + 1) = delivered total available events k
    | .pause _ => False
    | .fail _ => True

/-- All bytes are delivered before a call ends the transfer. -/
def Completes : Prop :=
  ∃ calls, delivered total available events calls = total ∧
    ∀ k < calls, ¬ Stops total available events k

/-- What the transfer fails with when call number `k` ends it; `empty` is the failure of a call that
delivers nothing. -/
def failure (k : Nat) : TransferError :=
  match call total events k with
  | .fail text => .device text
  | _ => empty (delivered total available events k) total

/-- The outcome of a transfer that `calls` calls do not end: it is complete then, or the next call
ends it. -/
structure Course (calls : Nat) (outcome : Except TransferError Unit) : Prop where
  going : ∀ k < calls, ¬ Stops total available events k
  ending : delivered total available events calls = total ∧ outcome = .ok () ∨
    Stops total available events calls ∧
      outcome = .error (failure empty total available events calls)

end Course

variable {empty : Nat → Nat → TransferError} {total available : Nat} {events : List DeviceEvent}
  {calls k : Nat} {outcome : Except TransferError Unit}

theorem delivered_le_total (total available : Nat) (events : List DeviceEvent) (k : Nat) :
    delivered total available events k ≤ total := by
  induction k with
  | zero => exact Nat.zero_le _
  | succ k ih =>
      rw [delivered]
      omega

theorem delivered_le_available (total available : Nat) (events : List DeviceEvent) (k : Nat) :
    delivered total available events k ≤ available := by
  induction k with
  | zero => exact Nat.zero_le _
  | succ k ih =>
      rw [delivered]
      omega

theorem delivered_mono {i : Nat} (h : i ≤ k) :
    delivered total available events i ≤ delivered total available events k :=
  monotone_nat_of_le_succ (fun _ => Nat.le_add_right _ _) h

/-- A transfer succeeds when it completes. -/
theorem Course.ok_iff (h : Course empty total available events calls outcome) :
    outcome = .ok () ↔ Completes total available events := by
  rcases h.ending with ⟨hall, rfl⟩ | ⟨hstops, rfl⟩
  · exact iff_of_true rfl ⟨calls, hall, h.going⟩
  · refine iff_of_false (by simp) ?_
    rintro ⟨calls', hall, hgoing⟩
    rcases Nat.lt_or_ge calls calls' with hlt | hle
    · exact hgoing calls hlt hstops
    · -- what is complete stays complete
      have hmono : delivered total available events calls' ≤
          delivered total available events calls := delivered_mono hle
      have hless := hstops.1
      omega

theorem Course.delivered_of_ok (h : Course empty total available events calls outcome)
    (hok : outcome = .ok ()) : delivered total available events calls = total := by
  rcases h.ending with ⟨hall, -⟩ | ⟨-, herror⟩
  · exact hall
  · rw [hok] at herror
    exact nomatch herror

theorem Course.stops_of_error (h : Course empty total available events calls outcome)
    {e : TransferError} (herror : outcome = .error e) :
    Stops total available events calls ∧ e = failure empty total available events calls := by
  rcases h.ending with ⟨-, hok⟩ | ⟨hstops, h⟩
  · rw [herror] at hok
    exact nomatch hok
  · rw [herror] at h
    exact ⟨hstops, Except.error.inj h⟩

/-! ### Single calls -/

section Calls

variable {most : Nat} {text : String} {why : Pause} {e : DeviceEvent} {rest : List DeviceEvent}

theorem call_of_drop (h : events.drop k = e :: rest) : call total events k = e := by
  have hhead : (events.drop k)[0]? = events[k + 0]? := List.getElem?_drop
  rw [h, List.getElem?_cons_zero, Nat.add_zero] at hhead
  rw [call, List.getD_eq_getElem?_getD, ← hhead, Option.getD_some]

theorem call_of_drop_nil (h : events.drop k = []) : call total events k = .move total := by
  rw [call, List.getD_eq_getElem?_getD, List.getElem?_eq_none (List.drop_eq_nil_iff.mp h),
    Option.getD_none]

theorem stops_move_iff (hcall : call total events k = .move most) :
    Stops total available events k ↔
      delivered total available events k < total ∧
        delivered total available events (k + 1) = delivered total available events k := by
  rw [Stops, hcall]

theorem not_stops_pause (hcall : call total events k = .pause why) :
    ¬ Stops total available events k := by
  rw [Stops, hcall]
  exact And.right

theorem delivered_pause (hcall : call total events k = .pause why) :
    delivered total available events (k + 1) = delivered total available events k := by
  rw [delivered, hcall, DeviceEvent.most, Nat.zero_min, Nat.add_zero]

theorem stops_fail_iff (hcall : call total events k = .fail text) :
    Stops total available events k ↔ delivered total available events k < total := by
  rw [Stops, hcall, and_iff_left trivial]

theorem failure_move (hcall : call total events k = .move most) :
    failure empty total available events k =
      empty (delivered total available events k) total := by
  rw [failure, hcall]

theorem failure_fail (hcall : call total events k = .fail text) :
    failure empty total available events k = .device text := by
  rw [failure, hcall]

/-- Behind the schedule the next call moves all that is left, and one more finds nothing. -/
theorem course_of_exhausted (empty : Nat → Nat → TransferError) (hdrop : events.drop k = [])
    (hgoing : ∀ i < k, ¬ Stops total available events i) :
    ∃ calls, delivered total available events calls = min total available ∧
      Course empty total available events calls
        (if min total available < total then .error (empty (min total available) total)
          else .ok ()) := by
  have htotal := delivered_le_total total available events k
  have havailable := delivered_le_available total available events k
  have hcall : call total events k = .move total := call_of_drop_nil hdrop
  have hcall' : call total events (k + 1) = .move total := by
    refine call_of_drop_nil ?_
    rw [← List.drop_drop, hdrop, List.drop_nil]
  have hnext : delivered total available events (k + 1) = min total available := by
    rw [delivered, hcall, DeviceEvent.most]
    omega
  have hnext' : delivered total available events (k + 2) = min total available := by
    rw [delivered, hcall', DeviceEvent.most, hnext]
    omega
  by_cases hstops : Stops total available events k
  · -- nothing was left already
    obtain ⟨hless, hsame⟩ := (stops_move_iff hcall).mp hstops
    rw [hnext] at hsame
    refine ⟨k, hsame.symm, hgoing, .inr ⟨hstops, ?_⟩⟩
    rw [if_pos (hsame ▸ hless), failure_move hcall, hsame]
  · refine ⟨k + 1, hnext, Nat.forall_lt_succ_right.mpr ⟨hgoing, hstops⟩, ?_⟩
    by_cases hless : min total available < total
    · refine .inr ⟨(stops_move_iff hcall').mpr ⟨hnext ▸ hless, hnext'.trans hnext.symm⟩, ?_⟩
      rw [if_pos hless, failure_move hcall', hnext]
    · exact .inl ⟨by omega, if_neg hless⟩

end Calls

/-! ## Reading -/

section Reading

variable {source filled left : Bytes} {rest : List DeviceEvent} {most : Nat} {e : DeviceEvent}

/-- The state of a read behind `k` calls that did not end it: the buffer holds what they delivered,
and the source what follows that. -/
structure Reached (total : Nat) (source : Bytes) (events : List DeviceEvent) (k : Nat)
    (filled left : Bytes) : Prop where
  going : ∀ i < k, ¬ Stops total source.length events i
  filled_eq : filled = source.take (delivered total source.length events k)
  left_eq : left = source.drop (delivered total source.length events k)

/-- A read that took this course. -/
structure Follows (total : Nat) (source : Bytes) (events : List DeviceEvent) (calls : Nat)
    (r : Reading) : Prop where
  course : Course .unexpectedEof total source.length events calls r.outcome.result
  reached : Reached total source events calls r.filled r.left

theorem reached_start (total : Nat) (source : Bytes) (events : List DeviceEvent) :
    Reached total source events 0 [] source :=
  ⟨fun _ h => absurd h (Nat.not_lt_zero _), rfl, rfl⟩

theorem Reached.length_filled (h : Reached total source events k filled left) :
    filled.length = delivered total source.length events k := by
  rw [h.filled_eq, List.length_take_of_le (delivered_le_available _ _ _ _)]

theorem Reached.length_chunk (h : Reached total source events k filled left)
    (hcall : call total events k = .move most) :
    delivered total source.length events k +
        (left.take (min most (total - filled.length))).length =
      delivered total source.length events (k + 1) := by
  rw [h.length_filled, h.left_eq, delivered, hcall, DeviceEvent.most, List.length_take,
    List.length_drop, Nat.min_assoc]

/-- What a call moves joins what was delivered before it. -/
theorem Reached.move (h : Reached total source events k filled left)
    (hcall : call total events k = .move most)
    (hchunk : left.take (min most (total - filled.length)) ≠ []) :
    Reached total source events (k + 1) (filled ++ left.take (min most (total - filled.length)))
      (left.drop (left.take (min most (total - filled.length))).length) := by
  have hpos := List.length_pos_iff.mpr hchunk
  have hmoved := h.length_chunk hcall
  have hle := delivered_le_available total source.length events k
  refine ⟨Nat.forall_lt_succ_right.mpr ⟨h.going, ?_⟩, ?_, ?_⟩
  · intro hstops
    have hsame := ((stops_move_iff hcall).mp hstops).2
    omega
  · rw [h.length_filled, h.filled_eq, h.left_eq, ← List.take_add, delivered, hcall,
      DeviceEvent.most, List.take_eq_take_iff]
    omega
  · rw [← hmoved, ← List.drop_drop, ← h.left_eq]

theorem Reached.pause {why : Pause} (h : Reached total source events k filled left)
    (hcall : call total events k = .pause why) :
    Reached total source events (k + 1) filled left := by
  refine ⟨Nat.forall_lt_succ_right.mpr ⟨h.going, not_stops_pause hcall⟩, ?_, ?_⟩
  · rw [delivered_pause hcall]
    exact h.filled_eq
  · rw [delivered_pause hcall]
    exact h.left_eq

theorem result_after {note : Logged TransferError Unit} (hnote : note.result = .ok ())
    (r : Reading) : (r.after note).outcome.result = r.outcome.result := by
  rw [Reading.after, Logged.result_bind, hnote, Outcome.ok_bind]

theorem fill_of_full (e : DeviceEvent) (h : total ≤ filled.length) :
    fill total filled left (e :: rest) = ⟨filled, left, pure ()⟩ :=
  if_pos h

theorem fill_move (h : ¬ total ≤ filled.length)
    (hchunk : left.take (min most (total - filled.length)) ≠ []) :
    fill total filled left (.move most :: rest) =
      fill total (filled ++ left.take (min most (total - filled.length)))
        (left.drop (left.take (min most (total - filled.length))).length) rest :=
  (if_neg h).trans (if_neg fun hempty => hchunk (List.isEmpty_iff.mp hempty))

theorem fill_move_nothing (h : ¬ total ≤ filled.length)
    (hchunk : left.take (min most (total - filled.length)) = []) :
    fill total filled left (.move most :: rest) =
      ⟨filled, left, throw (.unexpectedEof filled.length total)⟩ :=
  (if_neg h).trans (if_pos (List.isEmpty_iff.mpr hchunk))

theorem fill_pause (h : ¬ total ≤ filled.length) (why : Pause) :
    fill total filled left (.pause why :: rest) =
      (fill total filled left rest).after
        (Logged.debug ("retrying read after " ++ why.message)) :=
  if_neg h

theorem fill_fail (h : ¬ total ≤ filled.length) (text : String) :
    fill total filled left (.fail text :: rest) = ⟨filled, left, throw (.device text)⟩ :=
  if_neg h

/-- Where the schedule has ended, the rest is read at once. -/
theorem Reached.follows_nil (h : Reached total source events k filled left)
    (hdrop : events.drop k = []) :
    ∃ calls, Follows total source events calls (fill total filled left []) := by
  have htotal := delivered_le_total total source.length events k
  have hsource := delivered_le_available total source.length events k
  obtain ⟨calls, hnumber, hcourse⟩ :=
    course_of_exhausted .unexpectedEof hdrop h.going
  have hall : filled ++ left.take (total - filled.length) = source.take total := by
    rw [h.length_filled, h.filled_eq, h.left_eq, ← List.take_add, Nat.add_sub_cancel' htotal]
  have hrest : left.drop (left.take (total - filled.length)).length =
      source.drop (min total source.length) := by
    rw [h.length_filled, h.left_eq, List.drop_drop, List.length_take, List.length_drop]
    congr 1
    omega
  refine ⟨calls, ?_, hcourse.going, ?_, ?_⟩
  · simp only [fill, hall, List.length_take]
    split_ifs at hcourse ⊢
    · exact hcourse
    · exact hcourse
  · rw [hnumber, ← List.take_eq_take_min]
    exact hall
  · rw [hnumber]
    exact hrest

/-- **The loop follows the course**, from any state that the calls before lead to. -/
theorem Reached.follows (h : Reached total source events k filled left)
    (hdrop : events.drop k = rest) :
    ∃ calls, Follows total source events calls (fill total filled left rest) := by
  induction rest generalizing k filled left with
  | nil => exact h.follows_nil hdrop
  | cons e rest ih =>
      have hcall : call total events k = e := call_of_drop hdrop
      have hdrop' : events.drop (k + 1) = rest := by
        rw [← List.tail_drop, hdrop, List.tail_cons]
      have hlen := h.length_filled
      by_cases hdone : total ≤ filled.length
      · have hall := delivered_le_total total source.length events k
        rw [fill_of_full e hdone]
        exact ⟨k, ⟨h.going, .inl ⟨by omega, rfl⟩⟩, h⟩
      · have hless : delivered total source.length events k < total := by omega
        cases e with
        | move most =>
            by_cases hchunk : left.take (min most (total - filled.length)) = []
            · -- nothing was delivered
              have hsame := h.length_chunk hcall
              rw [hchunk, List.length_nil, Nat.add_zero] at hsame
              have hstops := (stops_move_iff hcall).mpr ⟨hless, hsame.symm⟩
              rw [fill_move_nothing hdone hchunk]
              refine ⟨k, ⟨h.going, .inr ⟨hstops, ?_⟩⟩, h⟩
              rw [failure_move hcall, hlen]
              rfl
            · rw [fill_move hdone hchunk]
              exact ih (h.move hcall hchunk) hdrop'
        | pause why =>
            obtain ⟨calls, hcourse, hreached⟩ := ih (h.pause hcall) hdrop'
            rw [fill_pause hdone]
            refine ⟨calls, ?_, hreached⟩
            rw [result_after (Logged.result_debug _)]
            exact hcourse
        | fail text =>
            rw [fill_fail hdone]
            refine ⟨k, ⟨h.going, .inr ⟨(stops_fail_iff hcall).mpr hless, ?_⟩⟩, h⟩
            rw [failure_fail hcall]
            rfl

/-- Every read follows a course. -/
theorem follows_read (total : Nat) (source : Bytes) (events : List DeviceEvent) :
    ∃ calls, Follows total source events calls (read total source events) :=
  (reached_start total source events).follows rfl

end Reading

/-! ## Writing -/

/-- A read that failed, told as a write. -/
def asWriting : TransferError → TransferError
  | .unexpectedEof done total => .writeZero done total
  | other => other

theorem Course.asWriting (h : Course .unexpectedEof total available events calls outcome) :
    Course .writeZero total available events calls (outcome.mapError asWriting) := by
  refine ⟨h.going, ?_⟩
  rcases h.ending with ⟨hall, rfl⟩ | ⟨hstops, rfl⟩
  · exact .inl ⟨hall, rfl⟩
  · refine .inr ⟨hstops, ?_⟩
    rw [Outcome.mapError_error, failure, failure]
    cases call total events calls <;> rfl

/-- **Writing is reading from the data into the sink.** -/
theorem drain_eq_fill {written left : Bytes} (hlen : written.length + left.length = total) :
    (drain total written left events).written = (fill total written left events).filled ∧
      (drain total written left events).outcome.result =
        (fill total written left events).outcome.result.mapError asWriting := by
  induction events generalizing written left with
  | nil =>
      have hall : left.take (total - written.length) = left := List.take_of_length_le (by omega)
      have hfull : ¬ (written ++ left).length < total := by
        rw [List.length_append]
        omega
      simp only [drain, fill, hall, if_neg hfull, Logged.result_pure, Outcome.mapError_ok, and_self]
  | cons e rest ih =>
      by_cases hdone : total ≤ written.length
      · have hnil : left = [] := List.eq_nil_of_length_eq_zero (by omega)
        rw [fill_of_full e hdone, hnil]
        exact ⟨rfl, rfl⟩
      · have hne : ¬ left.isEmpty = true := by
          rw [List.isEmpty_iff_length_eq_zero]
          omega
        cases e with
        | move most =>
            have hchunk : left.take (min most (total - written.length)) = left.take most := by
              rw [List.take_eq_take_iff]
              omega
            by_cases hnothing : left.take most = []
            · rw [fill_move_nothing hdone (hchunk.trans hnothing)]
              simp only [drain, hne, hnothing, List.isEmpty_nil, if_true, Bool.false_eq_true,
                if_false]
              exact ⟨trivial, rfl⟩
            · rw [fill_move hdone (hchunk ▸ hnothing), hchunk]
              simp only [drain, hne, List.isEmpty_iff, hnothing, if_false]
              refine ih ?_
              simp only [List.length_append, List.length_take, List.length_drop]
              omega
        | pause why =>
            obtain ⟨hwritten, hresult⟩ := ih hlen
            rw [fill_pause hdone, drain, if_neg hne]
            refine ⟨hwritten, ?_⟩
            rw [result_after (Logged.result_debug _), Writing.after, Logged.result_bind,
              Logged.result_debug, Outcome.ok_bind, hresult]
        | fail text =>
            rw [fill_fail hdone, drain, if_neg hne]
            exact ⟨rfl, rfl⟩

theorem write_eq_read (data : Bytes) (events : List DeviceEvent) :
    (write data events).written = (read data.length data events).filled ∧
      (write data events).outcome.result =
        (read data.length data events).outcome.result.mapError asWriting :=
  drain_eq_fill (Nat.zero_add _)

/-! ## What transfers promise -/

/-- What reading into a buffer promises. -/
structure ReadContract (source buffer : Bytes) (events : List DeviceEvent) (r : Reading) :
    Prop where
  ok_iff : r.outcome.result = .ok () ↔ Completes buffer.length source.length events
  /-- The buffer is filled with the bytes that were consumed. -/
  whole : r.outcome.result = .ok () → ∃ consumed, source = consumed ++ r.left ∧
    consumed.length = buffer.length ∧ r.bufferOver buffer = consumed
  /-- The buffer starts with the bytes that were consumed before the first call that ended the read,
  and keeps its other bytes. -/
  part : ∀ e, r.outcome.result = .error e → ∃ k consumed,
    Stops buffer.length source.length events k ∧
      (∀ i < k, ¬ Stops buffer.length source.length events i) ∧
      e = failure .unexpectedEof buffer.length source.length events k ∧
      source = consumed ++ r.left ∧
      consumed.length = delivered buffer.length source.length events k ∧
      r.bufferOver buffer = consumed ++ buffer.drop consumed.length

/-- What writing data promises. -/
structure WriteContract (data : Bytes) (events : List DeviceEvent) (w : Writing) : Prop where
  ok_iff : w.outcome.result = .ok () ↔ Completes data.length data.length events
  in_order : w.written <+: data
  whole_iff : w.written = data ↔ w.outcome.result = .ok ()
  part : ∀ e, w.outcome.result = .error e → ∃ k,
    Stops data.length data.length events k ∧
      (∀ i < k, ¬ Stops data.length data.length events i) ∧
      e = failure .writeZero data.length data.length events k ∧
      w.written.length = delivered data.length data.length events k

theorem readContract (source buffer : Bytes) (events : List DeviceEvent) :
    ReadContract source buffer events (read buffer.length source events) := by
  obtain ⟨calls, hcourse, hreached⟩ := follows_read buffer.length source events
  generalize read buffer.length source events = r at hcourse hreached ⊢
  have hlen := hreached.length_filled
  have hsource : source = r.filled ++ r.left := by
    rw [hreached.filled_eq, hreached.left_eq, List.take_append_drop]
  refine ⟨hcourse.ok_iff, ?_, ?_⟩
  · intro hok
    rw [hcourse.delivered_of_ok hok] at hlen
    refine ⟨r.filled, hsource, hlen, ?_⟩
    rw [Reading.bufferOver, hlen, List.drop_length, List.append_nil]
  · intro e herror
    obtain ⟨hstops, hfailure⟩ := hcourse.stops_of_error herror
    exact ⟨calls, r.filled, hstops, hcourse.going, hfailure, hsource, hlen, rfl⟩

theorem writeContract (data : Bytes) (events : List DeviceEvent) :
    WriteContract data events (write data events) := by
  obtain ⟨calls, hcourse, hreached⟩ := follows_read data.length data events
  obtain ⟨hwritten, hresult⟩ := write_eq_read data events
  have hcourse := hcourse.asWriting
  have hfilled := hreached.filled_eq
  have hlen := hreached.length_filled
  rw [← hwritten] at hfilled hlen
  rw [← hresult] at hcourse
  generalize write data events = w at hcourse hfilled hlen ⊢
  refine ⟨hcourse.ok_iff, hfilled ▸ List.take_prefix _ _, ⟨?_, ?_⟩, ?_⟩
  · -- a transfer that a call ended has not moved everything
    intro hall
    rcases hcourse.ending with ⟨-, hok⟩ | ⟨hstops, -⟩
    · exact hok
    · have hless := hstops.1
      rw [← hlen, hall] at hless
      exact absurd hless (Nat.lt_irrefl _)
  · intro hok
    rw [hfilled, hcourse.delivered_of_ok hok, List.take_length]
  · intro e herror
    obtain ⟨hstops, hfailure⟩ := hcourse.stops_of_error herror
    exact ⟨calls, hstops, hcourse.going, hfailure, hlen⟩

/-- **Transfers do not depend on how they are chopped up.**  Whatever the device does on each call,
a transfer succeeds if and only if all bytes are delivered before the first call that fails or
delivers nothing; then exactly these bytes are moved, and else exactly those delivered until then.
-/
theorem transfers_exact (source buffer data : Bytes) (events : List DeviceEvent) :
    ReadContract source buffer events (read buffer.length source events) ∧
      WriteContract data events (write data events) :=
  ⟨readContract source buffer events, writeContract data events⟩

/-- A device that stutters, and then takes nothing. -/
def stutter : List DeviceEvent :=
  [.pause .interrupted, .move 2, .pause .wouldBlock, .move 1, .move 0, .move 9]

/-- Three bytes come through a device that stutters, and a fourth one does not. -/
theorem transfers_exact_of_stutter :
    Completes 3 5 stutter ∧ (read 3 [7, 8, 9, 10, 11] stutter).bufferOver [0, 0, 0] = [7, 8, 9] ∧
      ¬ Completes 4 4 stutter ∧ (write [7, 8, 9, 10] stutter).written <+: [7, 8, 9, 10] ∧
      (write [7, 8, 9, 10] stutter).written ≠ [7, 8, 9, 10] := by
  obtain ⟨hread, hwrite⟩ := transfers_exact [7, 8, 9, 10, 11] [0, 0, 0] [7, 8, 9, 10] stutter
  have hok : (read 3 [7, 8, 9, 10, 11] stutter).outcome.result = .ok () := by decide
  have herror : (write [7, 8, 9, 10] stutter).outcome.result = .error (.writeZero 3 4) := by decide
  refine ⟨hread.ok_iff.mp hok, ?_, ?_, hwrite.in_order, ?_⟩
  · decide
  · intro h
    rw [hwrite.ok_iff.mpr h] at herror
    exact nomatch herror
  · intro h
    rw [hwrite.whole_iff.mp h] at herror
    exact nomatch herror

end Transfer

end EmmcLayout
