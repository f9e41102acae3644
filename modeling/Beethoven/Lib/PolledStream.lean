import Mathlib.Data.List.Basic

/-!
# Streams through polled registers

Two parties pass words one at a time through registers: one of them polls a flag until it reads
ready, transfers a word, and strobes; the flag has to be read again before the next word. The events
of a bus are sorted by what they are for the stream; a trace of the bus is a polled stream when its
transfers follow that pattern, whatever else happens on the bus.

The predicate `PolledStream` says so by the way in which a trace is extended. What it comes to, for
every transfer in the trace, is stated by `Disciplined`.

## Main definitions

* `StreamEvent`, `StreamPhase`, `PolledStream`, `dataOf`, `strobesOf`.
* `Disciplined`: every transfer is polled for and strobed.

## Main results

* `PolledStream.dataOf_eq`: the words of the stream are those of its transfers.
* `PolledStream.polled`: the last poll before a transfer read ready, after the last strobe.
* `PolledStream.strobed`: between two transfers there is exactly one strobe.
* `PolledStream.disciplined`: a polled stream is disciplined.
-/

namespace Beethoven.Lib

variable {ε α : Type*}

/-- What an event is for a stream. A stray event touches the registers of the stream in a way that
the stream does not allow. -/
inductive StreamEvent (α : Type*) where
  | poll (ready : Bool)
  | data (x : α)
  | strobe
  | stray
  | other
  deriving DecidableEq

/-- Where a stream is: between a strobe and a transfer, with what the last poll read, or between a
transfer and its strobe. -/
inductive StreamPhase where
  | idle (ready : Bool)
  | loaded
  deriving DecidableEq

/-- The traces of a polled stream, with its phase and its words. -/
inductive PolledStream (kind : ε → StreamEvent α) : StreamPhase → List α → List ε → Prop
  | nil : PolledStream kind (.idle false) [] []
  | other {q ws l e} (h : PolledStream kind q ws l) (he : kind e = .other) :
      PolledStream kind q ws (l ++ [e])
  | poll {r r' ws l e} (h : PolledStream kind (.idle r) ws l) (he : kind e = .poll r') :
      PolledStream kind (.idle r') ws (l ++ [e])
  | data {ws l e x} (h : PolledStream kind (.idle true) ws l) (he : kind e = .data x) :
      PolledStream kind .loaded (ws ++ [x]) (l ++ [e])
  | strobe {ws l e} (h : PolledStream kind .loaded ws l) (he : kind e = .strobe) :
      PolledStream kind (.idle false) ws (l ++ [e])

/-- The words transferred in a trace. -/
def dataOf (kind : ε → StreamEvent α) (l : List ε) : List α :=
  l.filterMap fun e => match kind e with
    | .data x => some x
    | _ => none

/-- The strobes of a trace. -/
def strobesOf (kind : ε → StreamEvent α) (l : List ε) : List ε :=
  l.filter fun e => match kind e with
    | .strobe => true
    | _ => false

/-- Every transfer comes after a poll that read ready, with nothing of the stream in between, and
every transfer has one strobe before the next; the last one may still lack it. -/
structure Disciplined (kind : ε → StreamEvent α) (l : List ε) : Prop where
  not_stray : ∀ e ∈ l, kind e ≠ .stray
  polled : ∀ l₁ e l₂ x, l = l₁ ++ e :: l₂ → kind e = .data x →
    ∃ l₃ e' l₄, l₁ = l₃ ++ e' :: l₄ ∧ kind e' = .poll true ∧ ∀ y ∈ l₄, kind y = .other
  strobed : ∀ l₁ e l₂ e' l₃ x x', l = l₁ ++ e :: (l₂ ++ e' :: l₃) → kind e = .data x →
    kind e' = .data x' → dataOf kind l₂ = [] → (strobesOf kind l₂).length = 1
  strobed_last : ∀ l₁ e l₂ x, l = l₁ ++ e :: l₂ → kind e = .data x → dataOf kind l₂ = [] →
    (strobesOf kind l₂).length ≤ 1
  strobed_first : dataOf kind l = [] → strobesOf kind l = []

variable {kind : ε → StreamEvent α} {q : StreamPhase} {ws : List α} {l l₁ l₂ : List ε} {e : ε}
  {x : α}

@[simp] theorem dataOf_nil : dataOf kind [] = [] := rfl

@[simp] theorem dataOf_append : dataOf kind (l₁ ++ l₂) = dataOf kind l₁ ++ dataOf kind l₂ :=
  List.filterMap_append

theorem dataOf_singleton (he : kind e = .data x) : dataOf kind [e] = [x] := by
  simp [dataOf, he]

theorem dataOf_singleton_of_ne (he : ∀ x, kind e ≠ .data x) : dataOf kind [e] = [] := by
  cases hk : kind e with
  | data x => exact absurd hk (he x)
  | _ => simp [dataOf, hk]

@[simp] theorem strobesOf_nil : strobesOf kind [] = [] := rfl

@[simp] theorem strobesOf_append :
    strobesOf kind (l₁ ++ l₂) = strobesOf kind l₁ ++ strobesOf kind l₂ :=
  List.filter_append ..

theorem strobesOf_singleton (he : kind e = .strobe) : strobesOf kind [e] = [e] := by
  simp [strobesOf, he]

theorem strobesOf_singleton_of_ne (he : kind e ≠ .strobe) : strobesOf kind [e] = [] := by
  cases hk : kind e with
  | strobe => exact absurd hk he
  | _ => simp [strobesOf, hk]

/-- A split of a trace with a last event is at that event or in the trace before it. -/
theorem append_singleton_eq {y : ε} (h : l ++ [y] = l₁ ++ e :: l₂) :
    (l₂ = [] ∧ l = l₁ ∧ y = e) ∨ ∃ l₃, l₂ = l₃ ++ [y] ∧ l = l₁ ++ e :: l₃ := by
  rcases List.eq_nil_or_concat l₂ with rfl | ⟨l₃, z, rfl⟩
  · obtain ⟨hl, hy⟩ := List.append_inj' h rfl
    exact .inl ⟨rfl, hl, (List.cons.inj hy).1⟩
  · rw [List.concat_eq_append, ← List.cons_append, ← List.append_assoc] at h
    obtain ⟨hl, hy⟩ := List.append_inj' h rfl
    obtain rfl := (List.cons.inj hy).1
    exact .inr ⟨l₃, List.concat_eq_append, hl⟩

namespace PolledStream

theorem append_other (h : PolledStream kind q ws l) (hl : ∀ e ∈ l₁, kind e = .other) :
    PolledStream kind q ws (l ++ l₁) := by
  induction l₁ generalizing l with
  | nil => rwa [List.append_nil]
  | cons e l₁ ih =>
    rw [List.append_cons]
    exact ih (h.other (hl e List.mem_cons_self)) fun y hy => hl y (List.mem_cons_of_mem e hy)

theorem dataOf_eq (h : PolledStream kind q ws l) : dataOf kind l = ws := by
  induction h with
  | nil => rfl
  | other h he ih | poll h he ih =>
    rw [dataOf_append, dataOf_singleton_of_ne (by simp [he]), ih, List.append_nil]
  | data h he ih => rw [dataOf_append, dataOf_singleton he, ih]
  | strobe h he ih => rw [dataOf_append, dataOf_singleton_of_ne (by simp [he]), ih, List.append_nil]

/-- Every transfer is strobed, except the one that a loaded stream has just made. -/
theorem length_strobesOf (h : PolledStream kind q ws l) :
    (strobesOf kind l).length + (if q = .loaded then 1 else 0) = ws.length := by
  induction h with
  | nil => rfl
  | other h he ih | poll h he ih | data h he ih =>
    rw [strobesOf_append, strobesOf_singleton_of_ne (by simp [he]), List.append_nil]
    simpa using ih
  | strobe h he ih => simpa [strobesOf_singleton he] using ih

theorem ne_stray (h : PolledStream kind q ws l) (he : e ∈ l) : kind e ≠ .stray := by
  induction h with
  | nil => simp at he
  | other h he' ih | poll h he' ih | data h he' ih | strobe h he' ih =>
    rcases List.mem_append.mp he with he | he
    · exact ih he
    · rw [List.mem_singleton.mp he, he']
      simp

/-- Before a transfer the stream is idle and the flag was read ready. -/
theorem before (h : PolledStream kind q ws l) (hl : l = l₁ ++ e :: l₂) (he : kind e = .data x) :
    ∃ ws', PolledStream kind (.idle true) ws' l₁ := by
  induction h generalizing l₂ with
  | nil => simp at hl
  | data h hk ih =>
    rcases append_singleton_eq hl with ⟨-, rfl, -⟩ | ⟨l₃, -, hl⟩
    · exact ⟨_, h⟩
    · exact ih hl
  | other h hk ih | poll h hk ih | strobe h hk ih =>
    rcases append_singleton_eq hl with ⟨-, -, rfl⟩ | ⟨l₃, -, hl⟩
    · simp [he] at hk
    · exact ih hl

/-- The flag was read ready by the last poll, and nothing of the stream has happened since. -/
theorem last_poll (h : PolledStream kind q ws l) (hq : q = .idle true) :
    ∃ l₁ e l₂, l = l₁ ++ e :: l₂ ∧ kind e = .poll true ∧ ∀ y ∈ l₂, kind y = .other := by
  induction h with
  | nil => cases hq
  | @other q ws l e h he ih =>
    obtain ⟨l₁, e', l₂, rfl, he', hl₂⟩ := ih hq
    refine ⟨l₁, e', l₂ ++ [e], by simp, he', fun y hy => ?_⟩
    rcases List.mem_append.mp hy with hy | hy
    · exact hl₂ y hy
    · rw [List.mem_singleton.mp hy, he]
  | @poll r r' ws l e h he ih =>
    cases hq
    exact ⟨l, e, [], rfl, he, by simp⟩
  | data h he ih => cases hq
  | strobe h he ih => cases hq

/-- **Transfers are polled.** The last poll before a transfer read ready, and the stream has had no
event since; so it is also later than the last strobe. -/
theorem polled (h : PolledStream kind q ws l) (hl : l = l₁ ++ e :: l₂) (he : kind e = .data x) :
    ∃ l₃ e' l₄, l₁ = l₃ ++ e' :: l₄ ∧ kind e' = .poll true ∧ ∀ y ∈ l₄, kind y = .other := by
  obtain ⟨ws', h'⟩ := h.before hl he
  exact h'.last_poll rfl

/-- After the last transfer there is one strobe, or none while the stream is loaded. -/
theorem strobes_last (h : PolledStream kind q ws l) (hl : l = l₁ ++ e :: l₂)
    (he : kind e = .data x) (hlast : dataOf kind l₂ = []) :
    if q = .loaded then strobesOf kind l₂ = [] else ∃ y, strobesOf kind l₂ = [y] := by
  induction h generalizing l₂ with
  | nil => simp at hl
  | other _ hk ih | poll _ hk ih =>
    rcases append_singleton_eq hl with ⟨-, -, rfl⟩ | ⟨l₃, rfl, hl'⟩
    · simp [he] at hk
    · have hl₃ : dataOf kind l₃ = [] := (List.append_eq_nil_iff.mp (dataOf_append ▸ hlast)).1
      rw [strobesOf_append, strobesOf_singleton_of_ne (by simp [hk]), List.append_nil]
      simpa using ih hl' hl₃
  | @data ws l y z h hk ih =>
    rcases append_singleton_eq hl with ⟨rfl, -, -⟩ | ⟨l₃, rfl, -⟩
    · simp
    · rw [dataOf_append, dataOf_singleton hk] at hlast
      simp at hlast
  | @strobe ws l y h hk ih =>
    rcases append_singleton_eq hl with ⟨-, -, rfl⟩ | ⟨l₃, rfl, hl'⟩
    · simp [he] at hk
    · have hl₃ : dataOf kind l₃ = [] := (List.append_eq_nil_iff.mp (dataOf_append ▸ hlast)).1
      have hnil : strobesOf kind l₃ = [] := by simpa using ih hl' hl₃
      rw [if_neg (by simp)]
      exact ⟨y, by rw [strobesOf_append, hnil, strobesOf_singleton hk, List.nil_append]⟩

/-- **Transfers are strobed.** Between two successive transfers there is exactly one strobe. -/
theorem strobed {e' : ε} {x' : α} {l₃ : List ε} (h : PolledStream kind q ws l)
    (hl : l = l₁ ++ e :: (l₂ ++ e' :: l₃)) (he : kind e = .data x) (he' : kind e' = .data x')
    (hnext : dataOf kind l₂ = []) : ∃ y, strobesOf kind l₂ = [y] := by
  have hsplit : l = (l₁ ++ e :: l₂) ++ e' :: l₃ := by simp [hl]
  obtain ⟨ws', h'⟩ := h.before hsplit he'
  simpa using h'.strobes_last rfl he hnext

theorem strobes_first (h : PolledStream kind q ws l) (hnone : ws = []) :
    q ≠ .loaded ∧ strobesOf kind l = [] := by
  induction h with
  | nil => simp
  | other h he ih =>
    rw [strobesOf_append, strobesOf_singleton_of_ne (by simp [he]), List.append_nil]
    exact ih hnone
  | poll h he ih =>
    rw [strobesOf_append, strobesOf_singleton_of_ne (by simp [he]), List.append_nil]
    exact ⟨by simp, (ih hnone).2⟩
  | data h he ih => simp at hnone
  | strobe h he ih => exact absurd rfl (ih hnone).1

theorem disciplined (h : PolledStream kind q ws l) : Disciplined kind l where
  not_stray _ he := h.ne_stray he
  polled _ _ _ _ hl he := h.polled hl he
  strobed _ _ _ _ _ _ _ hl he he' hnext := by
    obtain ⟨y, hy⟩ := h.strobed hl he he' hnext
    rw [hy, List.length_singleton]
  strobed_last _ _ _ _ hl he hlast := by
    have hstrobes := h.strobes_last hl he hlast
    split_ifs at hstrobes
    · simp [hstrobes]
    · obtain ⟨y, hy⟩ := hstrobes
      simp [hy]
  strobed_first hnone := (h.strobes_first (h.dataOf_eq.symm.trans hnone)).2

end PolledStream

end Beethoven.Lib
