import Mathlib.Data.List.Basic
import Mathlib.Data.List.Flatten
import Mathlib.Data.List.TakeDrop

/-!
# Clocked machines

A machine takes an input at every tick and shows a value after it. What a machine shows is often
independent of its inputs for some ticks, while it works through phases that it counts by itself.
`Shows` says so of a state, and its rules compose phases.

A sender is a machine that takes data at any tick into a queue and sends the data of its queue, one
frame after the other, and shows a constant value while its queue is empty.

## Main definitions

* `trace`: what a machine shows.
* `Shows`: what a machine shows from a state on, whatever its inputs.
* `Sender`, `Emits`: the machines that send frames, and what they show.

## Main results

* `Shows.append`, `Shows.iterate`: the composition of phases.
* `Sender.emits`: for any inputs, a sender shows the frames of the data it takes, in order.
* `Sender.trace_of_loaded`: what a sender shows of the data that it has at the beginning.
-/

namespace Beethoven.Lib.Clocked

variable {σ ι ο : Type*}

section Trace

variable (step : σ → ι → σ) (out : σ → ο)

/-- What a machine shows after each tick. -/
def trace : σ → List ι → List ο
  | _, [] => []
  | s, i :: is => out (step s i) :: trace (step s i) is

@[simp] theorem trace_nil (s : σ) : trace step out s [] = [] := rfl

theorem trace_cons (s : σ) (i : ι) (is : List ι) :
    trace step out s (i :: is) = out (step s i) :: trace step out (step s i) is := rfl

@[simp] theorem length_trace (s : σ) (is : List ι) : (trace step out s is).length = is.length := by
  induction is generalizing s with
  | nil => rfl
  | cons i is ih => simp only [trace_cons, List.length_cons, ih]

theorem trace_append (s : σ) (is js : List ι) :
    trace step out s (is ++ js) = trace step out s is ++ trace step out (is.foldl step s) js := by
  induction is generalizing s with
  | nil => rfl
  | cons i is ih => simp only [List.cons_append, trace_cons, List.foldl_cons, ih]

/-- A part of a machine that runs by itself shows the same as in the machine. -/
theorem trace_map {σ' ι' : Type*} {step' : σ' → ι' → σ'} {out' : σ' → ο} (π : σ → σ') (f : ι → ι')
    (hstep : ∀ s i, π (step s i) = step' (π s) (f i)) (hout : ∀ s, out s = out' (π s)) (s : σ)
    (is : List ι) : trace step out s is = trace step' out' (π s) (is.map f) := by
  induction is generalizing s with
  | nil => rfl
  | cons i is ih => rw [List.map_cons, trace_cons, trace_cons, ih, hout, hstep]

end Trace

/-! ### Phases -/

section Phases

variable {step : σ → ι → σ} {out : σ → ο}

variable (step out) in
/-- From `s` on the machine shows `os`, whatever its inputs, and is then in a state that depends on
the inputs as `g` says. -/
def Shows (s : σ) (os : List ο) (g : List ι → σ) : Prop :=
  ∀ is, is.length = os.length → trace step out s is = os ∧ is.foldl step s = g is

theorem Shows.one {s : σ} {o : ο} {g : List ι → σ} (hstep : ∀ i, step s i = g [i])
    (hout : ∀ i, out (g [i]) = o) : Shows step out s [o] g := by
  intro is his
  obtain ⟨i, rfl⟩ := List.length_eq_one_iff.mp his
  simp [trace_cons, hstep, hout]

theorem Shows.append {s : σ} {os os' : List ο} {g h : List ι → σ} (hs : Shows step out s os g)
    (hg : ∀ is, Shows step out (g is) os' fun js => h (is ++ js)) :
    Shows step out s (os ++ os') h := by
  intro is his
  rw [List.length_append] at his
  obtain ⟨htrace, hstate⟩ := hs (is.take os.length) (by rw [List.length_take]; omega)
  obtain ⟨htrace', hstate'⟩ :=
    hg (is.take os.length) (is.drop os.length) (by rw [List.length_drop]; omega)
  simp only [List.take_append_drop] at hstate'
  constructor
  · rw [← List.take_append_drop os.length is, trace_append, htrace, hstate, htrace']
  · rw [← hstate', ← hstate, ← List.foldl_append, List.take_append_drop]

theorem Shows.iterate {f : ℕ → List ι → σ} {os : ℕ → List ο} {n : ℕ}
    (h : ∀ k < n, ∀ js, Shows step out (f k js) (os k) fun is => f (k + 1) (js ++ is))
    (js : List ι) :
    Shows step out (f 0 js) ((List.range n).flatMap os) fun is => f n (js ++ is) := by
  induction n with
  | zero =>
    intro is his
    rw [List.length_eq_zero_iff.mp his]
    simp
  | succ n ih =>
    rw [List.range_succ, List.flatMap_append, List.flatMap_singleton]
    refine (ih fun k hk => h k (by omega)).append fun is => ?_
    simpa only [List.append_assoc] using h n (by omega) (js ++ is)

theorem Shows.replicate {f : ℕ → List ι → σ} {o : ο} {n : ℕ}
    (hstep : ∀ k < n, ∀ js i, step (f k js) i = f (k + 1) (js ++ [i]))
    (hout : ∀ k < n, ∀ js, out (f (k + 1) js) = o) (js : List ι) :
    Shows step out (f 0 js) (List.replicate n o) fun is => f n (js ++ is) := by
  have h : Shows step out (f 0 js) ((List.range n).flatMap fun _ => [o]) fun is => f n (js ++ is) :=
    Shows.iterate (fun k hk js => Shows.one (hstep k hk js) fun i => hout k hk _) js
  rwa [← List.map_eq_flatMap, List.map_const', List.length_range] at h

/-- A tick that begins to count, and `n` more. -/
theorem Shows.count {s : σ} {f : ℕ → List ι → σ} {o : ο} {n : ℕ} (hfirst : ∀ i, step s i = f 0 [i])
    (hstep : ∀ k < n, ∀ js i, step (f k js) i = f (k + 1) (js ++ [i]))
    (hout : ∀ k ≤ n, ∀ js, out (f k js) = o) :
    Shows step out s (List.replicate (n + 1) o) (f n) := by
  rw [Nat.add_comm, List.replicate_add]
  exact (Shows.one hfirst fun i => hout 0 n.zero_le _).append
    (Shows.replicate hstep fun k hk js => hout (k + 1) hk js)

theorem Shows.countAndLeave {s : σ} {f : ℕ → List ι → σ} {g : List ι → σ} {o : ο} {n : ℕ}
    (hfirst : ∀ i, step s i = f 0 [i])
    (hstep : ∀ k < n, ∀ js i, step (f k js) i = f (k + 1) (js ++ [i]))
    (hlast : ∀ js i, step (f n js) i = g (js ++ [i])) (hout : ∀ k ≤ n, ∀ js, out (f k js) = o)
    (hout' : ∀ js, out (g js) = o) : Shows step out s (List.replicate (n + 2) o) g := by
  rw [List.replicate_succ']
  exact (Shows.count hfirst hstep hout).append fun js => .one (hlast js) fun _ => hout' _

theorem Shows.trace_eq [Nonempty ι] {s : σ} {os : List ο} {g : List ι → σ}
    (h : Shows step out s os g) (is : List ι) :
    trace step out s is =
      os.take is.length ++ trace step out (g (is.take os.length)) (is.drop os.length) := by
  rcases Nat.lt_or_ge is.length os.length with hlt | hge
  · obtain ⟨i⟩ := ‹Nonempty ι›
    have hfull := (h (is ++ List.replicate (os.length - is.length) i) (by simp; omega)).1
    rw [trace_append] at hfull
    rw [List.drop_of_length_le (Nat.le_of_lt hlt), trace_nil, List.append_nil, ← hfull,
      List.take_left' (length_trace step out s is)]
  · obtain ⟨htrace, hstate⟩ := h (is.take os.length) (by rw [List.length_take]; omega)
    rw [List.take_of_length_le hge]
    conv_lhs => rw [← List.take_append_drop os.length is, trace_append, htrace, hstate]

end Phases

/-! ### Levels of equal length -/

section Levels

variable (f : ℕ → ο)

theorem length_levels (w n : ℕ) :
    ((List.range n).flatMap fun i => List.replicate w (f i)).length = n * w := by
  simp [List.length_flatMap]

theorem getElem?_levels {w n i t : ℕ} (hi : i < n) (hlo : i * w ≤ t) (hhi : t < (i + 1) * w) :
    ((List.range n).flatMap fun i => List.replicate w (f i))[t]? = some (f i) := by
  induction n with
  | zero => exact absurd hi i.not_lt_zero
  | succ n ih =>
    have hlength := length_levels f w n
    rw [List.range_succ, List.flatMap_append, List.flatMap_singleton]
    rcases Nat.lt_or_ge i n with hlt | hge
    · have hbefore : (i + 1) * w ≤ n * w := Nat.mul_le_mul_right w hlt
      rw [List.getElem?_append_left (by omega), ih hlt]
    · obtain rfl : i = n := by omega
      rw [Nat.succ_mul] at hhi
      rw [List.getElem?_append_right (by omega), List.getElem?_replicate_of_lt (by omega)]

end Levels

/-! ### Senders -/

section Senders

variable {β : Type*}

/-- What a machine shows that sends a list of data: frames in the order of the data, and a constant
value before, between and after them. The run may end within the last frame. -/
inductive Emits (frame : β → List ο) (quiet : ο) : List β → List ο → Prop
  | nil : Emits frame quiet [] []
  | quiet {bs : List β} {os : List ο} (h : Emits frame quiet bs os) :
      Emits frame quiet bs (quiet :: os)
  | frame {bs : List β} {os : List ο} (b : β) (h : Emits frame quiet bs os) :
      Emits frame quiet (b :: bs) (frame b ++ os)
  | cut (b : β) (n : ℕ) : Emits frame quiet [b] ((frame b).take n)

/-- A machine that sends the data of its queue, to which the inputs are appended. Between two frames
its state is `idle` with the queue and with what is left of the frames before, which does not
matter. -/
structure Sender {τ : Type*} (step : σ → List β → σ) (out : σ → ο) (frame : β → List ο) (quiet : ο)
    (idle : τ → List β → σ) : Prop where
  step_push : ∀ t q p, step (idle t q) p = step (idle t (q ++ p)) []
  step_nil : ∀ t, step (idle t []) [] = idle t []
  out_nil : ∀ t, out (idle t []) = quiet
  frame_ne : ∀ b, frame b ≠ []
  shows_frame : ∀ t b q,
    ∃ t', Shows step out (idle t (b :: q)) (frame b) fun is => idle t' (q ++ is.flatten)

namespace Sender

variable {τ : Type*} {step : σ → List β → σ} {out : σ → ο} {frame : β → List ο} {quiet : ο}
  {idle : τ → List β → σ}

theorem trace_push (h : Sender step out frame quiet idle) (t : τ) (q p : List β)
    (is : List (List β)) :
    trace step out (idle t q) (p :: is) = trace step out (idle t (q ++ p)) ([] :: is) := by
  rw [trace_cons, trace_cons, h.step_push t q p]

theorem trace_quiet (h : Sender step out frame quiet idle) (t : τ) (is : List (List β)) :
    trace step out (idle t []) ([] :: is) = quiet :: trace step out (idle t []) is := by
  rw [trace_cons, h.step_nil, h.out_nil]

/-- What is sent is an initial part of what is queued, whenever it is queued: nothing is skipped,
repeated or sent in another order. -/
theorem emits (h : Sender step out frame quiet idle) (t : τ) (is : List (List β)) (q : List β) :
    ∃ sent, Emits frame quiet sent (trace step out (idle t q) is) ∧ sent <+: q ++ is.flatten := by
  -- by induction on the number of ticks, since a frame takes several of them
  obtain ⟨n, hn⟩ : ∃ n, is.length ≤ n := ⟨_, Nat.le_refl _⟩
  induction n generalizing t is q with
  | zero =>
    rw [List.length_eq_zero_iff.mp (Nat.le_zero.mp hn)]
    exact ⟨[], .nil, List.nil_prefix⟩
  | succ n ih =>
    cases is with
    | nil => exact ⟨[], .nil, List.nil_prefix⟩
    | cons p is =>
      rw [h.trace_push, List.flatten_cons, ← List.append_assoc]
      cases q ++ p with
      | nil =>
        obtain ⟨sent, hsent, hqueued⟩ := ih t is [] (Nat.le_of_succ_le_succ hn)
        rw [h.trace_quiet]
        exact ⟨sent, .quiet hsent, hqueued⟩
      | cons b q =>
        obtain ⟨t', hshows⟩ := h.shows_frame t b q
        have hframe : 0 < (frame b).length := List.length_pos_iff.mpr (h.frame_ne b)
        rw [hshows.trace_eq]
        rcases Nat.lt_or_ge ([] :: is).length (frame b).length with hlt | hge
        · refine ⟨[b], ?_, ⟨q ++ is.flatten, rfl⟩⟩
          rw [List.drop_of_length_le (Nat.le_of_lt hlt), trace_nil, List.append_nil]
          exact .cut b _
        · obtain ⟨sent, hsent, hqueued⟩ := ih t' (([] :: is).drop (frame b).length)
            (q ++ (([] :: is).take (frame b).length).flatten)
            (by rw [List.length_drop]; simp only [List.length_cons] at hn ⊢; omega)
          refine ⟨b :: sent, ?_, ?_⟩
          · rw [List.take_of_length_le hge]
            exact .frame b hsent
          · rw [List.append_assoc, ← List.flatten_append, List.take_append_drop] at hqueued
            exact List.cons_prefix_cons.mpr ⟨rfl, hqueued⟩

theorem trace_nil_queue (h : Sender step out frame quiet idle) (t : τ) (n : ℕ) :
    trace step out (idle t []) (List.replicate n []) = List.replicate n quiet := by
  induction n with
  | zero => rfl
  | succ n ih => rw [List.replicate_succ, List.replicate_succ, h.trace_quiet, ih]

/-- A sender that takes no data sends the data of its queue without a pause. -/
theorem trace_of_loaded (h : Sender step out frame quiet idle) (t : τ) (q : List β) {n m : ℕ}
    (hnm : n ≤ m) :
    trace step out (idle t q) (List.replicate n []) =
      (q.flatMap frame ++ List.replicate m quiet).take n := by
  induction q generalizing t n with
  | nil =>
    rw [List.flatMap_nil, List.nil_append, List.take_replicate, Nat.min_eq_left hnm,
      h.trace_nil_queue]
  | cons b q ih =>
    obtain ⟨t', hshows⟩ := h.shows_frame t b q
    rw [hshows.trace_eq, List.length_replicate, List.drop_replicate,
      List.take_replicate, List.flatten_replicate_nil, List.append_nil, ih t' (by omega),
      List.flatMap_cons, List.append_assoc]
    exact List.take_append.symm

end Sender

end Senders

end Beethoven.Lib.Clocked
