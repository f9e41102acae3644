import Beethoven.Lib.PolledStream

/-!
# Streams handed over in frames

The words of a stream are collected and handed over in frames of a fixed length. An event may hand
over a frame; a trace is framed when each frame has exactly the words that were transferred since
the frame before it.

## Main definitions

* `framesOf`: the frames of a trace.
* `Framed`: each frame has the words transferred since the last one.
* `Framing`: the same for a trace in progress, with the words that are not yet handed over.

## Main results

* `Framing.append_other`, `Framing.append_data`, `Framing.append_frame`: how a trace is extended.
* `Framing.framed`, `Framing.take_drop_dataOf`.
-/

namespace Beethoven.Lib

variable {ε α : Type*}

/-- The frames handed over in a trace. -/
def framesOf (frame : ε → Option (List α)) (l : List ε) : List (List α) := l.filterMap frame

/-- Every frame has `n` words, those transferred since the frame before it. -/
structure Framed (kind : ε → StreamEvent α) (frame : ε → Option (List α)) (n : ℕ) (l : List ε) :
    Prop where
  length : ∀ b ∈ framesOf frame l, b.length = n
  first : ∀ l₁ e l₂ b, l = l₁ ++ e :: l₂ → frame e = some b → framesOf frame l₁ = [] →
    dataOf kind l₁ = b
  next : ∀ l₁ e l₂ e' l₃ b b', l = l₁ ++ e :: (l₂ ++ e' :: l₃) → frame e = some b →
    frame e' = some b' → framesOf frame l₂ = [] → dataOf kind l₂ = b'

/-- The words before a frame are those of the earlier frames and its own; the words `buf` have not
been handed over. -/
structure Framing (kind : ε → StreamEvent α) (frame : ε → Option (List α)) (n : ℕ) (buf : List α)
    (l : List ε) : Prop where
  frames : ∀ l₁ e l₂ b, l = l₁ ++ e :: l₂ → frame e = some b →
    b.length = n ∧ dataOf kind l₁ = (framesOf frame l₁).flatten ++ b
  words : dataOf kind l = (framesOf frame l).flatten ++ buf

variable {kind : ε → StreamEvent α} {frame : ε → Option (List α)} {n : ℕ} {buf b : List α}
  {l l₁ l₂ : List ε} {e : ε} {x : α}

@[simp] theorem framesOf_append :
    framesOf frame (l₁ ++ l₂) = framesOf frame l₁ ++ framesOf frame l₂ :=
  List.filterMap_append

theorem framesOf_singleton (he : frame e = some b) : framesOf frame [e] = [b] := by
  simp [framesOf, he]

theorem framesOf_singleton_of_none (he : frame e = none) : framesOf frame [e] = [] := by
  simp [framesOf, he]

theorem framesOf_cons (he : frame e = some b) :
    framesOf frame (e :: l) = b :: framesOf frame l := by
  simp [framesOf, he]

namespace Framing

theorem nil : Framing kind frame n [] [] :=
  ⟨fun _ _ _ _ hl => by simp at hl, rfl⟩

private theorem frames_append (h : Framing kind frame n buf l) (he : frame e = none) :
    ∀ l₁ e' l₂ b, l ++ [e] = l₁ ++ e' :: l₂ → frame e' = some b →
      b.length = n ∧ dataOf kind l₁ = (framesOf frame l₁).flatten ++ b := by
  intro l₁ e' l₂ b hl hb
  rcases append_singleton_eq hl with ⟨-, -, rfl⟩ | ⟨l₃, -, hl⟩
  · rw [he] at hb
    cases hb
  · exact h.frames l₁ e' l₃ b hl hb

theorem append_other (h : Framing kind frame n buf l) (he : frame e = none)
    (hk : ∀ x, kind e ≠ .data x) : Framing kind frame n buf (l ++ [e]) := by
  refine ⟨h.frames_append he, ?_⟩
  rw [dataOf_append, dataOf_singleton_of_ne hk, framesOf_append, framesOf_singleton_of_none he,
    List.append_nil, List.append_nil, h.words]

theorem append_data (h : Framing kind frame n buf l) (he : frame e = none)
    (hk : kind e = .data x) : Framing kind frame n (buf ++ [x]) (l ++ [e]) := by
  refine ⟨h.frames_append he, ?_⟩
  rw [dataOf_append, dataOf_singleton hk, framesOf_append, framesOf_singleton_of_none he,
    List.append_nil, h.words, List.append_assoc]

theorem append_frame (h : Framing kind frame n buf l) (he : frame e = some buf)
    (hk : ∀ x, kind e ≠ .data x) (hn : buf.length = n) : Framing kind frame n [] (l ++ [e]) := by
  refine ⟨fun l₁ e' l₂ b hl hb => ?_, ?_⟩
  · rcases append_singleton_eq hl with ⟨-, rfl, rfl⟩ | ⟨l₃, -, hl⟩
    · obtain rfl := Option.some.inj (he.symm.trans hb)
      exact ⟨hn, h.words⟩
    · exact h.frames l₁ e' l₃ b hl hb
  · rw [dataOf_append, dataOf_singleton_of_ne hk, framesOf_append, framesOf_singleton he, h.words]
    simp

theorem length_of_mem (h : Framing kind frame n buf l) (hb : b ∈ framesOf frame l) :
    b.length = n := by
  obtain ⟨e, he, hb⟩ := List.mem_filterMap.mp hb
  obtain ⟨l₁, l₂, hl⟩ := List.append_of_mem he
  exact (h.frames l₁ e l₂ b hl hb).1

private theorem take_drop_flatten {bs : List (List α)} (hlength : ∀ b ∈ bs, b.length = n) {k : ℕ}
    (hb : bs[k]? = some b) : ((bs.flatten ++ buf).drop (n * k)).take n = b := by
  induction bs generalizing k with
  | nil => cases hb
  | cons c bs ih =>
    have hc : c.length = n := hlength c List.mem_cons_self
    rw [List.flatten_cons, List.append_assoc]
    cases k with
    | zero =>
      obtain rfl : c = b := Option.some.inj hb
      rw [Nat.mul_zero, List.drop_zero, ← hc, List.take_left]
    | succ k =>
      rw [Nat.mul_succ, Nat.add_comm, ← List.drop_drop, List.drop_left' hc]
      exact ih (fun b hb => hlength b (List.mem_cons_of_mem c hb)) hb

theorem take_drop_dataOf (h : Framing kind frame n buf l) {k : ℕ}
    (hb : (framesOf frame l)[k]? = some b) : ((dataOf kind l).drop (n * k)).take n = b := by
  rw [h.words]
  exact take_drop_flatten (fun _ => h.length_of_mem) hb

theorem framed (h : Framing kind frame n buf l) (hk : ∀ e b, frame e = some b → kind e = .other) :
    Framed kind frame n l where
  length b := h.length_of_mem
  first l₁ e l₂ b hl hb hnone := by
    rw [(h.frames l₁ e l₂ b hl hb).2, hnone]
    rfl
  next l₁ e l₂ e' l₃ b b' hl hb hb' hnone := by
    -- the words up to the second frame, less the words up to the first
    have hfirst := (h.frames l₁ e _ b hl hb).2
    have hnext := (h.frames (l₁ ++ e :: l₂) e' l₃ b' (by simp [hl]) hb').2
    have hother : dataOf kind (e :: l₂) = dataOf kind l₂ := by
      rw [← List.singleton_append, dataOf_append,
        dataOf_singleton_of_ne (by simp [hk e b hb]), List.nil_append]
    rw [dataOf_append, hother, framesOf_append, framesOf_cons hb, hnone, List.flatten_append,
      List.flatten_singleton, ← hfirst] at hnext
    exact List.append_cancel_left hnext

end Framing

end Beethoven.Lib
