import Mathlib.Data.List.Basic
import Mathlib.Order.Nat

/-!
# Sliding windows

An event may happen at most `n` times in a window of `w` cycles. The bookkeeping is a list of the
times at which the recent events leave the window, oldest first: an event that finds `n` entries
waits for the oldest to expire, and every event takes one expired entry out at most.

## Main definitions

* `Window.mayPass`, `Window.slide`.
* `Window.Tracks`: what the list says about the events so far.

## Main results

* `Window.Tracks.slide`: an event that may pass keeps the list right.
* `Window.Tracks.spaced`: the event `n` places after another is `w` cycles after it.
-/

namespace Beethoven.Lib.Window

variable {n w now : ℕ} {times log : List ℕ}

/-- An event may happen now. -/
def mayPass (n : ℕ) (times : List ℕ) (now : ℕ) : Bool :=
  match times with
  | [] => true
  | t :: _ => !(decide (now < t) && decide (n ≤ times.length))

/-- An event happens now. -/
def slide (w : ℕ) (times : List ℕ) (now : ℕ) : List ℕ :=
  (match times with
    | [] => []
    | t :: rest => if t ≤ now then rest else t :: rest) ++ [now + w]

/-- The list has the times at which the last events of the log leave the window, the events before
them have left it, and the log keeps the bound. -/
structure Tracks (n w : ℕ) (times log : List ℕ) : Prop where
  recent : ∃ old new : List ℕ, log = old ++ new ∧ times = new.map (· + w) ∧ new.length ≤ n ∧
    ∀ t ∈ old, ∃ e ∈ log, t + w ≤ e
  spaced : ∀ i (h : i + n < log.length), log[i] + w ≤ log[i + n]

theorem Tracks.nil : Tracks n w [] [] :=
  ⟨⟨[], [], rfl, rfl, Nat.zero_le n, by simp⟩, fun _ h => absurd h (Nat.not_lt_zero _)⟩

/-- What is left of the list before the new entry is added. -/
private theorem exists_kept {new : List ℕ} (hn : 0 < n) (hlen : new.length ≤ n)
    (hpass : mayPass n (new.map (· + w)) now) :
    ∃ gone kept : List ℕ, new = gone ++ kept ∧ slide w (new.map (· + w)) now =
      (kept ++ [now]).map (· + w) ∧ kept.length < n ∧ ∀ t ∈ gone, t + w ≤ now := by
  cases new with
  | nil => exact ⟨[], [], rfl, rfl, hn, by simp⟩
  | cons t rest =>
    by_cases ht : t + w ≤ now
    · refine ⟨[t], rest, rfl, ?_, Nat.lt_of_succ_le hlen, by simpa using ht⟩
      simp [slide, ht]
    · refine ⟨[], t :: rest, rfl, ?_, ?_, by simp⟩
      · simp [slide, ht]
      · -- an entry that has not expired is passed only while there is room
        simp only [mayPass, List.map_cons, List.length_cons, List.length_map, Bool.not_eq_true',
          Bool.and_eq_false_iff, decide_eq_false_iff_not] at hpass
        simp only [List.length_cons]
        omega

/-- **An event that may pass keeps the list right.** -/
theorem Tracks.slide (h : Tracks n w times log) (hn : 0 < n) (hlog : ∀ e ∈ log, e ≤ now)
    (hpass : mayPass n times now) : Tracks n w (slide w times now) (log ++ [now]) := by
  obtain ⟨old, new, rfl, rfl, hlen, hold⟩ := h.recent
  obtain ⟨gone, kept, rfl, hslide, hkept, hgone⟩ := exists_kept hn hlen hpass
  have hexpired : ∀ t ∈ old ++ gone, t + w ≤ now := by
    intro t ht
    rcases List.mem_append.mp ht with ht | ht
    · obtain ⟨e, he, hle⟩ := hold t ht
      exact Nat.le_trans hle (hlog e he)
    · exact hgone t ht
  refine ⟨?_, ?_⟩
  · refine ⟨old ++ gone, kept ++ [now], by simp, hslide, by simpa using Nat.succ_le_of_lt hkept,
      fun t ht => ?_⟩
    exact ⟨now, by simp, hexpired t ht⟩
  · intro i hi
    by_cases hlast : i + n < (old ++ (gone ++ kept)).length
    · rw [List.getElem_append_left hlast, List.getElem_append_left (by omega)]
      exact h.spaced i hlast
    · -- the entry `n` places before the new one is not among those kept
      have hidx : i < (old ++ gone).length := by
        simp only [List.length_append, List.length_singleton] at hi hlast ⊢
        omega
      have hnow : (old ++ (gone ++ kept) ++ [now])[i + n] = now := by
        rw [List.getElem_append_right (not_lt.mp hlast)]
        simp
      have hget : (old ++ (gone ++ kept) ++ [now])[i] = (old ++ gone)[i] := by
        simp only [← List.append_assoc]
        rw [List.getElem_append_left (by simp at hidx ⊢; omega), List.getElem_append_left hidx]
      rw [hnow, hget]
      exact hexpired _ (List.getElem_mem hidx)

end Beethoven.Lib.Window
