import Mathlib.Data.List.Basic
import Mathlib.Data.List.Induction
import Mathlib.Data.List.Nodup
import Mathlib.Logic.Function.Basic
import Mathlib.Tactic.Common

/-!
# Replacing markers in a text

A global replacement scans a text from the left and puts a value in the place of each occurrence of
a pattern. A family of markers can be replaced one marker after the other, where each pass scans
what the passes before it have inserted, or all at once. If no two markers overlap, then the text
splits into its markers and the letters between them, and both ways of replacing agree as long as
no marker is created by the values of the others.

## Main definitions

* `replaceAll`, `occurrences`: the replacement of one pattern and how often it occurs.
* `Markers`: a family of patterns that do not overlap.
* `Markers.tokens`, `Markers.render`: a text as its markers and letters, and back.
* `Markers.simultaneous`, `Markers.oneByOne`.

## Main results

* `Markers.render_tokens`: a text is the rendering of its tokens.
* `Markers.oneByOne_eq_simultaneous`: the passes in any order give the simultaneous replacement, if
  replacing the other markers creates no occurrence of a marker.
-/

namespace Beethoven.Lib

open Function

variable {α : Type*}

/-- No occurrence of the pattern begins in the text `u` when `s` follows. -/
def NoneIn (pat u s : List α) : Prop := ∀ i < u.length, ¬ pat <+: u.drop i ++ s

theorem NoneIn.tail {pat u s : List α} {c : α} (h : NoneIn pat (c :: u) s) : NoneIn pat u s :=
  fun i hi => h (i + 1) (Nat.succ_lt_succ hi)

theorem NoneIn.head {pat u s : List α} {c : α} (h : NoneIn pat (c :: u) s) :
    ¬ pat <+: c :: (u ++ s) := h 0 (Nat.succ_pos _)

/-- A prefix of `u ++ s` ends in `u` or goes on behind it. -/
theorem prefix_append_of_rest {p u s s' : List α}
    (hrest : p.drop u.length <+: s → p.drop u.length <+: s') (h : p <+: u ++ s) :
    p <+: u ++ s' := by
  rcases List.prefix_or_prefix_of_prefix h (List.prefix_append u s) with hu | ⟨rest, rfl⟩
  · exact hu.trans (List.prefix_append u s')
  · rw [List.drop_left] at hrest
    rw [List.prefix_append_right_inj] at h ⊢
    exact hrest h

/-! ### One pattern -/

section Pattern

variable [DecidableEq α]

/-- Replace the occurrences of a nonempty pattern from left to right, where the first `skip` letters
still belong to an occurrence that has been replaced. -/
def replaceFrom (pat val : List α) : ℕ → List α → List α
  | _, [] => []
  | skip + 1, _ :: s => replaceFrom pat val skip s
  | 0, c :: s =>
    if pat <+: c :: s then val ++ replaceFrom pat val (pat.length - 1) s
    else c :: replaceFrom pat val 0 s

/-- Replace every occurrence of a nonempty pattern, from left to right. -/
def replaceAll (pat val s : List α) : List α := replaceFrom pat val 0 s

/-- The number of positions of a text at which the pattern occurs. -/
def occurrences (pat : List α) : List α → ℕ
  | [] => 0
  | c :: s => (if pat <+: c :: s then 1 else 0) + occurrences pat s

@[simp]
theorem replaceAll_nil (pat val : List α) : replaceAll pat val [] = [] := rfl

theorem replaceAll_cons_of_not {pat val s : List α} {c : α} (h : ¬ pat <+: c :: s) :
    replaceAll pat val (c :: s) = c :: replaceAll pat val s := by
  rw [replaceAll, replaceFrom, if_neg h, replaceAll]

theorem replaceFrom_append {pat val u s : List α} :
    replaceFrom pat val u.length (u ++ s) = replaceFrom pat val 0 s := by
  induction u with
  | nil => rfl
  | cons c u ih => rw [List.length_cons, List.cons_append, replaceFrom, ih]

theorem replaceAll_append_pat {pat val s : List α} (hpat : pat ≠ []) :
    replaceAll pat val (pat ++ s) = val ++ replaceAll pat val s := by
  obtain ⟨c, u, rfl⟩ := List.exists_cons_of_ne_nil hpat
  have hocc : c :: u <+: c :: (u ++ s) := ⟨s, rfl⟩
  rw [replaceAll, List.cons_append, replaceFrom, if_pos hocc, List.length_cons,
    Nat.add_sub_cancel, replaceFrom_append, replaceAll]

@[simp]
theorem replaceAll_cons_self (a : α) (val s : List α) :
    replaceAll [a] val (a :: s) = val ++ replaceAll [a] val s :=
  replaceAll_append_pat (List.cons_ne_nil a [])

theorem replaceAll_cons_ne {a c : α} (h : c ≠ a) (val s : List α) :
    replaceAll [a] val (c :: s) = c :: replaceAll [a] val s :=
  replaceAll_cons_of_not fun hocc => h (List.cons_prefix_cons.mp hocc).1.symm

theorem replaceAll_append {pat val u s : List α} (h : NoneIn pat u s) :
    replaceAll pat val (u ++ s) = u ++ replaceAll pat val s := by
  induction u with
  | nil => rfl
  | cons c u ih =>
    rw [List.cons_append, replaceAll_cons_of_not h.head, ih h.tail, List.cons_append]

/-- A text that lacks a letter of the pattern is left as it is. -/
theorem replaceAll_eq_self {pat val s : List α} {a : α} (ha : a ∈ pat) (hs : a ∉ s) :
    replaceAll pat val s = s := by
  have hnone : NoneIn pat s [] := by
    intro i _ hocc
    rw [List.append_nil] at hocc
    exact hs (List.mem_of_mem_drop (hocc.subset ha))
  have happend : replaceAll pat val (s ++ []) = s ++ replaceAll pat val [] :=
    replaceAll_append hnone
  simpa using happend

theorem occurrences_append {pat u s : List α} (h : NoneIn pat u s) :
    occurrences pat (u ++ s) = occurrences pat s := by
  induction u with
  | nil => rfl
  | cons c u ih => rw [List.cons_append, occurrences, if_neg h.head, ih h.tail, Nat.zero_add]

theorem occurrences_le_append (pat u s : List α) :
    occurrences pat s ≤ occurrences pat (u ++ s) := by
  induction u with
  | nil => exact Nat.le_refl _
  | cons c u ih => exact Nat.le_trans ih (Nat.le_add_left _ _)

/-- If a text adds no occurrence to what follows it, then none begins in it. -/
theorem noneIn_of_occurrences {pat u s : List α}
    (h : occurrences pat (u ++ s) ≤ occurrences pat s) : NoneIn pat u s := by
  induction u with
  | nil => exact fun i hi => absurd hi (Nat.not_lt_zero i)
  | cons c u ih =>
    have hle := occurrences_le_append pat u s
    rw [List.cons_append, occurrences] at h
    rintro (_ | i) hi
    · intro hocc
      rw [List.drop_zero, List.cons_append] at hocc
      rw [if_pos hocc] at h
      omega
    · exact ih (by omega) i (Nat.lt_of_succ_lt_succ hi)

end Pattern

/-! ### Families of markers -/

/-- A finite family of nonempty patterns of which no two occurrences meet. -/
structure Markers (α K : Type*) where
  /-- The markers. -/
  all : List K
  nodup_all : all.Nodup
  mem_all : ∀ k, k ∈ all
  /-- The text of a marker. -/
  text : K → List α
  text_ne_nil : ∀ k, text k ≠ []
  /-- A marker neither begins inside of an occurrence of a marker nor reaches into the next. -/
  disjoint : ∀ j k, ∀ i < (text j).length, (i = 0 → j ≠ k) →
    ¬ text k <+: (text j).drop i ∧ ¬ (text j).drop i <+: text k

namespace Markers

variable {K : Type*} (M : Markers α K)

theorem noneIn_text {j k : K} (hjk : j ≠ k) (s : List α) : NoneIn (M.text k) (M.text j) s := by
  intro i hi hocc
  have hd := M.disjoint j k i hi fun _ => hjk
  rcases List.prefix_or_prefix_of_prefix hocc (List.prefix_append _ s) with h | h
  · exact hd.1 h
  · exact hd.2 h

/-- No marker begins in an occurrence of a marker after its first letter. -/
theorem noneIn_tail_text (k : K) (s : List α) : NoneIn (M.text k) (M.text k).tail s := by
  intro i hi hocc
  rw [List.drop_tail] at hocc
  rw [List.length_tail] at hi
  have hd := M.disjoint k k (i + 1) (by omega) fun h => absurd h (Nat.succ_ne_zero i)
  rcases List.prefix_or_prefix_of_prefix hocc (List.prefix_append _ s) with h | h
  · exact hd.1 h
  · exact hd.2 h

/-- What is left of a marker after some of its letters does not begin where a marker begins. -/
theorem not_prefix_drop {j k : K} {i : ℕ} {s : List α} (hi : i < (M.text k).length)
    (hpos : 0 < i) : ¬ (M.text k).drop i <+: M.text j ++ s := by
  intro hocc
  have hd := M.disjoint k j i hi fun h => absurd h (Nat.ne_of_gt hpos)
  rcases List.prefix_or_prefix_of_prefix hocc (List.prefix_append _ s) with h | h
  · exact hd.2 h
  · exact hd.1 h

/-! ### Texts as tokens -/

/-- What the tokens stand for, one after the other: a letter for itself, a marker for its value. -/
def render (f : K → List α) (ts : List (α ⊕ K)) : List α := ts.flatMap (Sum.elim (fun c => [c]) f)

@[simp]
theorem render_nil (f : K → List α) : render f ([] : List (α ⊕ K)) = [] := rfl

@[simp]
theorem render_inl (f : K → List α) (c : α) (ts : List (α ⊕ K)) :
    render f (.inl c :: ts) = c :: render f ts := rfl

@[simp]
theorem render_inr (f : K → List α) (k : K) (ts : List (α ⊕ K)) :
    render f (.inr k :: ts) = f k ++ render f ts := rfl

/-- What begins inside of a marker and continues into a rendering continues in the same way if more
markers are replaced by their values. -/
theorem drop_text_prefix_render {k : K} {f g : K → List α}
    (hfg : ∀ j, f j = M.text j ∨ f j = g j) {ts : List (α ⊕ K)} {i : ℕ} (hpos : 0 < i)
    (h : (M.text k).drop i <+: render f ts) : (M.text k).drop i <+: render g ts := by
  induction ts generalizing i with
  | nil => exact h
  | cons t ts ih =>
    rcases Nat.lt_or_ge i (M.text k).length with hi | hi
    swap
    · rw [List.drop_eq_nil_of_le hi]
      exact List.nil_prefix
    rcases t with c | j
    · rw [List.drop_eq_getElem_cons hi, render_inl] at h ⊢
      obtain ⟨hc, h⟩ := List.cons_prefix_cons.mp h
      exact List.cons_prefix_cons.mpr ⟨hc, ih (Nat.succ_pos i) h⟩
    · rw [render_inr] at h ⊢
      rcases hfg j with hj | hj
      · rw [hj] at h
        exact absurd h (M.not_prefix_drop hi hpos)
      · rw [hj] at h
        refine prefix_append_of_rest (fun hrest => ?_) h
        rw [List.drop_drop] at hrest ⊢
        exact ih (Nat.add_pos_left hpos _) hrest

theorem noneIn_of_render {k : K} {f g : K → List α} (hfg : ∀ j, f j = M.text j ∨ f j = g j)
    {u : List α} {ts : List (α ⊕ K)} (h : NoneIn (M.text k) u (render g ts)) :
    NoneIn (M.text k) u (render f ts) := by
  intro i hi hocc
  refine h i hi (prefix_append_of_rest (fun hrest => ?_) hocc)
  rw [List.length_drop] at hrest ⊢
  exact M.drop_text_prefix_render hfg (Nat.sub_pos_of_lt hi) hrest

/-- The marker `k` begins in the rendering of the tokens only where they have it. -/
def Clean (k : K) (f : K → List α) : List (α ⊕ K) → Prop
  | [] => True
  | .inl c :: ts => NoneIn (M.text k) [c] (render f ts) ∧ Clean k f ts
  | .inr j :: ts => (j ≠ k → NoneIn (M.text k) (f j) (render f ts)) ∧ Clean k f ts

/-- A marker that is created by replacing some of the other markers is still there when all of the
others are replaced. -/
theorem Clean.mono {k : K} {f g : K → List α} (hfg : ∀ j, f j = M.text j ∨ f j = g j)
    {ts : List (α ⊕ K)} (h : M.Clean k g ts) : M.Clean k f ts := by
  induction ts with
  | nil => trivial
  | cons t ts ih =>
    rcases t with c | j
    · exact ⟨M.noneIn_of_render hfg h.1, ih h.2⟩
    · refine ⟨fun hjk => ?_, ih h.2⟩
      rcases hfg j with hj | hj
      · rw [hj]
        exact M.noneIn_text hjk _
      · rw [hj]
        exact M.noneIn_of_render hfg (h.1 hjk)

variable [DecidableEq α]

/-- The tokens of a text whose first `skip` letters belong to a marker that has been read. -/
def tokensFrom : ℕ → List α → List (α ⊕ K)
  | _, [] => []
  | skip + 1, _ :: s => tokensFrom skip s
  | 0, c :: s =>
    match M.all.find? fun k => M.text k <+: c :: s with
    | some k => .inr k :: tokensFrom ((M.text k).length - 1) s
    | none => .inl c :: tokensFrom 0 s

/-- The markers of a text and the letters between them. -/
def tokens (s : List α) : List (α ⊕ K) := M.tokensFrom 0 s

theorem tokensFrom_eq_drop (skip : ℕ) (s : List α) :
    M.tokensFrom skip s = M.tokens (s.drop skip) := by
  induction skip generalizing s with
  | zero => rfl
  | succ skip ih =>
    cases s with
    | nil => rfl
    | cons c s => rw [tokensFrom, ih, List.drop_succ_cons]

theorem tokens_cons (c : α) (s : List α) :
    (∀ k, ¬ M.text k <+: c :: s) ∧ M.tokens (c :: s) = .inl c :: M.tokens s ∨
      ∃ k s', c :: s = M.text k ++ s' ∧ M.tokens (c :: s) = .inr k :: M.tokens s' := by
  rw [tokens, tokensFrom]
  split
  next k hk =>
    obtain ⟨s', hs'⟩ : M.text k <+: c :: s := by simpa using List.find?_some hk
    obtain ⟨d, u, hu⟩ := List.exists_cons_of_ne_nil (M.text_ne_nil k)
    have hs : s = u ++ s' := by
      rw [hu, List.cons_append] at hs'
      exact (List.cons.inj hs').2.symm
    refine .inr ⟨k, s', hs'.symm, ?_⟩
    rw [tokensFrom_eq_drop, hu, List.length_cons, Nat.add_sub_cancel, hs, List.drop_left]
  next hnone =>
    exact .inl ⟨fun k => by simpa using List.find?_eq_none.mp hnone k (M.mem_all k), rfl⟩

theorem occurrences_text_append (k : K) (s : List α) :
    occurrences (M.text k) (M.text k ++ s) = occurrences (M.text k) s + 1 := by
  have htail := occurrences_append (M.noneIn_tail_text k s)
  obtain ⟨c, u, hu⟩ := List.exists_cons_of_ne_nil (M.text_ne_nil k)
  rw [hu, List.tail_cons] at htail
  rw [hu, List.cons_append, occurrences, if_pos ⟨s, rfl⟩, htail, Nat.add_comm]

theorem tokens_induction {motive : List α → List (α ⊕ K) → Prop} (nil : motive [] [])
    (letter : ∀ c s, (∀ k, ¬ M.text k <+: c :: s) → motive s (M.tokens s) →
      motive (c :: s) (.inl c :: M.tokens s))
    (marker : ∀ k s, motive s (M.tokens s) → motive (M.text k ++ s) (.inr k :: M.tokens s))
    (s : List α) : motive s (M.tokens s) := by
  match s with
  | [] => exact nil
  | c :: s =>
    rcases M.tokens_cons c s with ⟨hnone, h⟩ | ⟨k, s', hs, h⟩
    · rw [h]
      exact letter c s hnone (tokens_induction nil letter marker s)
    · rw [h, hs]
      have hlt : s'.length < (c :: s).length := by
        have hpos := List.length_pos_iff.mpr (M.text_ne_nil k)
        rw [hs, List.length_append]
        omega
      exact marker k s' (tokens_induction nil letter marker s')
termination_by s.length
decreasing_by
  · exact Nat.lt_succ_self _
  · exact hlt

theorem render_tokens (s : List α) : render M.text (M.tokens s) = s := by
  refine M.tokens_induction (motive := fun s ts => render M.text ts = s) rfl ?_ ?_ s
  · intro c s _ ih
    rw [render_inl, ih]
  · intro k s ih
    rw [render_inr, ih]

variable [DecidableEq K]

/-- How often the tokens have a marker. -/
def countOf (k : K) : List (α ⊕ K) → ℕ
  | [] => 0
  | .inl _ :: ts => countOf k ts
  | .inr j :: ts => countOf k ts + if j = k then 1 else 0

/-- The tokens of a text have each marker as often as the text contains it. -/
theorem countOf_tokens (k : K) (s : List α) :
    countOf k (M.tokens s) = occurrences (M.text k) s := by
  refine M.tokens_induction
    (motive := fun s ts => countOf k ts = occurrences (M.text k) s) rfl ?_ ?_ s
  · intro c s hnone ih
    rw [countOf, ih, occurrences, if_neg (hnone k), Nat.zero_add]
  · intro j s ih
    by_cases hjk : j = k
    · subst hjk
      rw [countOf, if_pos rfl, ih, M.occurrences_text_append]
    · rw [countOf, if_neg hjk, ih, occurrences_append (M.noneIn_text hjk s), Nat.add_zero]

/-! ### Replacing one marker -/

theorem countOf_le_occurrences {k : K} {f : K → List α} (hf : f k = M.text k)
    (ts : List (α ⊕ K)) : countOf k ts ≤ occurrences (M.text k) (render f ts) := by
  induction ts with
  | nil => exact Nat.le_refl _
  | cons t ts ih =>
    rcases t with c | j
    · exact Nat.le_trans ih (occurrences_le_append _ [c] _)
    · by_cases hjk : j = k
      · subst hjk
        rw [countOf, if_pos rfl, render_inr, hf, M.occurrences_text_append]
        exact Nat.succ_le_succ ih
      · rw [countOf, if_neg hjk]
        exact Nat.le_trans ih (occurrences_le_append _ _ _)

theorem clean_of_occurrences {k : K} {f : K → List α} (hf : f k = M.text k)
    {ts : List (α ⊕ K)} (h : occurrences (M.text k) (render f ts) ≤ countOf k ts) :
    M.Clean k f ts := by
  induction ts with
  | nil => trivial
  | cons t ts ih =>
    have hle := M.countOf_le_occurrences hf ts
    rcases t with c | j
    · rw [countOf] at h
      have hc : occurrences (M.text k) (render f ts) ≤
          occurrences (M.text k) (render f (.inl c :: ts)) := occurrences_le_append _ [c] _
      refine ⟨noneIn_of_occurrences ?_, ih (Nat.le_trans hc h)⟩
      exact Nat.le_trans h hle
    · by_cases hjk : j = k
      · subst hjk
        rw [countOf, if_pos rfl, render_inr, hf, M.occurrences_text_append] at h
        exact ⟨fun hne => absurd rfl hne, ih (Nat.le_of_succ_le_succ h)⟩
      · rw [countOf, if_neg hjk, render_inr] at h
        have hj := occurrences_le_append (M.text k) (f j) (render f ts)
        exact ⟨fun _ => noneIn_of_occurrences (Nat.le_trans h hle), ih (Nat.le_trans hj h)⟩

theorem replaceAll_render {k : K} {f : K → List α} (hf : f k = M.text k) (v : List α)
    {ts : List (α ⊕ K)} (h : M.Clean k f ts) :
    replaceAll (M.text k) v (render f ts) = render (update f k v) ts := by
  induction ts with
  | nil => rfl
  | cons t ts ih =>
    rcases t with c | j
    · rw [render_inl, render_inl, ← ih h.2]
      exact replaceAll_append h.1
    · by_cases hjk : j = k
      · subst hjk
        rw [render_inr, render_inr, hf, replaceAll_append_pat (M.text_ne_nil j), ih h.2,
          update_self]
      · rw [render_inr, render_inr, replaceAll_append (h.1 hjk), ih h.2,
          update_of_ne hjk]

/-! ### Replacing all markers -/

/-- Every marker replaced by its value, in one scan of the text. -/
def simultaneous (val : K → List α) (s : List α) : List α := render val (M.tokens s)

/-- The markers replaced one after the other, each throughout the text that the replacements before
it have left. -/
def oneByOne (val : K → List α) (order : List K) (s : List α) : List α :=
  order.foldl (fun s k => replaceAll (M.text k) (val k) s) s

omit [DecidableEq K] in
/-- A text without a letter that all markers have is left as it is. -/
theorem oneByOne_eq_self {a : α} (ha : ∀ k, a ∈ M.text k) (val : K → List α) (order : List K)
    {s : List α} (hs : a ∉ s) : M.oneByOne val order s = s := by
  induction order with
  | nil => rfl
  | cons k order ih =>
    have hcons : M.oneByOne val (k :: order) s =
        M.oneByOne val order (replaceAll (M.text k) (val k) s) := rfl
    rw [hcons, replaceAll_eq_self (ha k) hs, ih]

/-- A marker is replaced by its value if neither the value nor what follows has a letter that all
markers have. -/
theorem oneByOne_text_append {a : α} (ha : ∀ k, a ∈ M.text k) {val : K → List α} {order : List K}
    {k : K} (hk : k ∈ order) {s : List α} (hval : a ∉ val k) (hs : a ∉ s) :
    M.oneByOne val order (M.text k ++ s) = val k ++ s := by
  induction order with
  | nil => exact absurd hk List.not_mem_nil
  | cons j order ih =>
    have hcons : M.oneByOne val (j :: order) (M.text k ++ s) =
        M.oneByOne val order (replaceAll (M.text j) (val j) (M.text k ++ s)) := rfl
    by_cases hjk : k = j
    · subst hjk
      rw [hcons, replaceAll_append_pat (M.text_ne_nil k), replaceAll_eq_self (ha k) hs]
      exact M.oneByOne_eq_self ha val order (by simp [hval, hs])
    · rw [hcons, replaceAll_append (M.noneIn_text hjk s), replaceAll_eq_self (ha j) hs,
        ih ((List.mem_cons.mp hk).resolve_left hjk)]

/-- The passes for the markers of a list give the rendering in which these markers have their
values, if no marker is created. -/
theorem oneByOne_eq_render {val : K → List α} {s : List α}
    (h : ∀ k, M.Clean k (update val k (M.text k)) (M.tokens s)) {order : List K}
    (hnodup : order.Nodup) :
    M.oneByOne val order s =
      render (fun j => if j ∈ order then val j else M.text j) (M.tokens s) := by
  induction order using List.reverseRecOn with
  | nil => simpa [oneByOne] using (M.render_tokens s).symm
  | append_singleton order k ih =>
    obtain ⟨hnodup, -, hdisjoint⟩ := List.nodup_append.mp hnodup
    have hk : k ∉ order := fun hk => hdisjoint k hk k (List.mem_singleton_self k) rfl
    let f : K → List α := fun j => if j ∈ order then val j else M.text j
    have hfk : f k = M.text k := if_neg hk
    have hfg : ∀ j, f j = M.text j ∨ f j = update val k (M.text k) j := by
      intro j
      by_cases hj : j ∈ order
      · have hjk : j ≠ k := fun e => hk (e ▸ hj)
        exact .inr ((if_pos hj).trans (update_of_ne hjk _ _).symm)
      · exact .inl (if_neg hj)
    have hupdate : update f k (val k) =
        fun j => if j ∈ order ++ [k] then val j else M.text j := by
      funext j
      by_cases hjk : j = k
      · subst hjk
        simp
      · simp [f, hjk]
    calc M.oneByOne val (order ++ [k]) s
        = replaceAll (M.text k) (val k) (M.oneByOne val order s) := by simp [oneByOne]
      _ = replaceAll (M.text k) (val k) (render f (M.tokens s)) := by rw [ih hnodup]
      _ = render (update f k (val k)) (M.tokens s) :=
          M.replaceAll_render hfk _ (Clean.mono M hfg (h k))
      _ = _ := by rw [hupdate]

/-- If replacing the other markers creates no occurrence of a marker, then the passes for all
markers, in any order, give the simultaneous replacement. -/
theorem oneByOne_eq_simultaneous {val : K → List α} {s : List α}
    (h : ∀ k, occurrences (M.text k) (M.simultaneous (update val k (M.text k)) s) =
      occurrences (M.text k) s) {order : List K} (horder : order.Perm M.all) :
    M.oneByOne val order s = M.simultaneous val s := by
  have hclean : ∀ k, M.Clean k (update val k (M.text k)) (M.tokens s) := by
    intro k
    refine M.clean_of_occurrences (update_self k _ _) ?_
    rw [M.countOf_tokens, ← h k]
    exact Nat.le_refl _
  have hnodup : order.Nodup := horder.nodup_iff.mpr M.nodup_all
  rw [M.oneByOne_eq_render hclean hnodup, simultaneous]
  congr 1
  funext j
  exact if_pos (horder.mem_iff.mpr (M.mem_all j))

end Markers

end Beethoven.Lib
