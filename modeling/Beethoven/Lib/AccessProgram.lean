import Mathlib.Data.List.Basic

/-!
# Programs that access a device

A program reads from a device and writes to it, one access after the other. It is run against the
list of the values that it reads; the run ends early if the list does, and so models a program that
waits for the device. What a program does is the list of its accesses.

`Triple P m Q R` is a rule of pre- and postconditions for such programs, about the accesses made so
far: from `P`, the program `m` returns with `Q`, and where it has not returned `R` holds.

## Main definitions

* `AccessProgram`, `AccessProgram.access`, `AccessProgram.read`, `AccessProgram.readUntil`.
* `AccessProgram.Triple`, `AccessProgram.Consumes`.

## Main results

* `Triple.bind`, `Triple.access`, `Triple.read`, `Triple.readUntil`: the rules.
* `Consumes.bind`, `Consumes.readUntil`: a program that polls returns if the device lets it.
-/

namespace Beethoven.Lib

/-- The accesses made against given values, and the result with the values left if there is one. -/
def AccessProgram (ε ν α : Type) : Type := List ν → List ε × Option (α × List ν)

namespace AccessProgram

variable {ε ν α β : Type}

instance : Monad (AccessProgram ε ν) where
  pure a := fun vs => ([], some (a, vs))
  bind m k := fun vs =>
    match m vs with
    | (l, none) => (l, none)
    | (l, some (a, vs)) => (l ++ (k a vs).1, (k a vs).2)

/-- An access that reads nothing. -/
def access (e : ε) : AccessProgram ε ν Unit := fun vs => ([e], some ((), vs))

/-- An access that reads a value. -/
def read (f : ν → ε) : AccessProgram ε ν ν
  | [] => ([], none)
  | v :: vs => ([f v], some (v, vs))

/-- Read until the value is one that is waited for. -/
def readUntil (f : ν → ε) (p : ν → Bool) : AccessProgram ε ν ν
  | [] => ([], none)
  | v :: vs =>
    if p v then ([f v], some (v, vs)) else (f v :: (readUntil f p vs).1, (readUntil f p vs).2)

/-- The program ends without a result. -/
def stop : AccessProgram ε ν α := fun _ => ([], none)

/-! ### Pre- and postconditions -/

/-- From `P` the program returns with `Q`; while it has not returned, `R` holds. -/
structure Triple (P : List ε → Prop) (m : AccessProgram ε ν α) (Q : α → List ε → Prop)
    (R : List ε → Prop) : Prop where
  returns : ∀ {vs l l' a vs'}, P l → m vs = (l', some (a, vs')) → Q a (l ++ l')
  waits : ∀ {vs l l'}, P l → m vs = (l', none) → R (l ++ l')

namespace Triple

variable {P R R' : List ε → Prop} {Q Q' : α → List ε → Prop} {S : β → List ε → Prop}
  {m : AccessProgram ε ν α} {k : α → AccessProgram ε ν β}

theorem result (h : Triple P m Q R) {l : List ε} (hP : P l) (vs : List ν) :
    (∃ a vs', (m vs).2 = some (a, vs') ∧ Q a (l ++ (m vs).1)) ∨
      (m vs).2 = none ∧ R (l ++ (m vs).1) := by
  cases hrun : (m vs).2 with
  | none => exact .inr ⟨rfl, h.waits hP (Prod.ext rfl hrun)⟩
  | some r => exact .inl ⟨r.1, r.2, rfl, h.returns hP (Prod.ext rfl hrun)⟩

theorem weaken (h : Triple P m Q R) (hQ : ∀ a l, Q a l → Q' a l) (hR : ∀ l, R l → R' l) :
    Triple P m Q' R' :=
  ⟨fun hP hrun => hQ _ _ (h.returns hP hrun), fun hP hrun => hR _ (h.waits hP hrun)⟩

theorem ret {a : α} (h : ∀ l, P l → Q a l) :
    Triple P (pure a : AccessProgram ε ν α) Q R where
  returns hP hrun := by
    cases hrun
    simpa using h _ hP
  waits _ hrun := by cases hrun

theorem stop (h : ∀ l, P l → R l) : Triple P (stop : AccessProgram ε ν α) Q R where
  returns _ hrun := by cases hrun
  waits hP hrun := by
    cases hrun
    simpa using h _ hP

theorem bind (hm : Triple P m Q R) (hk : ∀ a, Triple (Q a) (k a) S R) :
    Triple P (m >>= k) S R where
  returns {vs l l' b vs'} hP hrun := by
    cases hmv : m vs with
    | mk l₁ rest =>
      cases rest with
      | none => simp [Bind.bind, hmv] at hrun
      | some r =>
        simp only [Bind.bind, hmv, Prod.mk.injEq] at hrun
        obtain ⟨rfl, hrest⟩ := hrun
        rw [← List.append_assoc]
        exact (hk r.1).returns (hm.returns hP hmv) (Prod.ext rfl hrest)
  waits {vs l l'} hP hrun := by
    cases hmv : m vs with
    | mk l₁ rest =>
      cases rest with
      | none =>
        simp only [Bind.bind, hmv, Prod.mk.injEq] at hrun
        obtain ⟨rfl, -⟩ := hrun
        exact hm.waits hP hmv
      | some r =>
        simp only [Bind.bind, hmv, Prod.mk.injEq] at hrun
        obtain ⟨rfl, hrest⟩ := hrun
        rw [← List.append_assoc]
        exact (hk r.1).waits (hm.returns hP hmv) (Prod.ext rfl hrest)

theorem access {e : ε} {Q : Unit → List ε → Prop} (h : ∀ l, P l → Q () (l ++ [e])) :
    Triple P (access e : AccessProgram ε ν Unit) Q R where
  returns hP hrun := by
    cases hrun
    exact h _ hP
  waits _ hrun := by cases hrun

theorem read {f : ν → ε} {Q : ν → List ε → Prop} (h : ∀ l v, P l → Q v (l ++ [f v]))
    (hR : ∀ l, P l → R l) : Triple P (read f) Q R where
  returns {vs _ _ _ _} hP hrun := by
    cases vs with
    | nil => cases hrun
    | cons v vs =>
      cases hrun
      exact h _ _ hP
  waits {vs _ _} hP hrun := by
    cases vs with
    | nil =>
      cases hrun
      simpa using hR _ hP
    | cons v vs => cases hrun

/-- The precondition of a loop that polls is its invariant. -/
theorem readUntil {f : ν → ε} {p : ν → Bool} {Q : ν → List ε → Prop}
    (hloop : ∀ l v, p v = false → P l → P (l ++ [f v]))
    (hexit : ∀ l v, p v = true → P l → Q v (l ++ [f v])) :
    Triple P (readUntil f p) Q P where
  returns {vs l l' a vs'} hP hrun := by
    induction vs generalizing l l' with
    | nil => cases hrun
    | cons v vs ih =>
      rw [AccessProgram.readUntil] at hrun
      split_ifs at hrun with hv
      · cases hrun
        exact hexit l _ hv hP
      · obtain ⟨rfl, hrest⟩ := Prod.mk.inj hrun
        rw [List.append_cons]
        exact ih (hloop l v (by simpa using hv) hP) (Prod.ext rfl hrest)
  waits {vs l l'} hP hrun := by
    induction vs generalizing l l' with
    | nil =>
      cases hrun
      simpa using hP
    | cons v vs ih =>
      rw [AccessProgram.readUntil] at hrun
      split_ifs at hrun with hv
      · cases hrun
      · obtain ⟨rfl, hrest⟩ := Prod.mk.inj hrun
        rw [List.append_cons]
        exact ih (hloop l v (by simpa using hv) hP) (Prod.ext rfl hrest)

end Triple

/-! ### Returning -/

/-- Against values of which at least `n` satisfy `p`, the program returns and uses up at most `n` of
them. -/
def Consumes (p : ν → Bool) (n : ℕ) (m : AccessProgram ε ν α) : Prop :=
  ∀ vs, n ≤ vs.countP p →
    ∃ l a vs', m vs = (l, some (a, vs')) ∧ vs.countP p ≤ vs'.countP p + n

namespace Consumes

variable {p : ν → Bool} {n n' : ℕ} {m : AccessProgram ε ν α} {k : α → AccessProgram ε ν β}

theorem ret {a : α} : Consumes p 0 (pure a : AccessProgram ε ν α) :=
  fun vs _ => ⟨[], a, vs, rfl, Nat.le_refl _⟩

theorem access {e : ε} : Consumes p 0 (access e : AccessProgram ε ν Unit) :=
  fun vs _ => ⟨[e], (), vs, rfl, Nat.le_refl _⟩

theorem read {f : ν → ε} : Consumes p 1 (read f) := by
  intro vs hvs
  cases vs with
  | nil => simp at hvs
  | cons v vs =>
    refine ⟨[f v], v, vs, rfl, ?_⟩
    rw [List.countP_cons]
    split_ifs <;> omega

theorem bind (hm : Consumes p n m) (hk : ∀ a, Consumes p n' (k a)) :
    Consumes p (n + n') (m >>= k) := by
  intro vs hvs
  obtain ⟨l, a, vs₁, hrun, hcount⟩ := hm vs (by omega)
  obtain ⟨l', b, vs₂, hrun', hcount'⟩ := hk a vs₁ (by omega)
  refine ⟨l ++ l', b, vs₂, ?_, by omega⟩
  simp only [Bind.bind, hrun, hrun']

theorem readUntil {f : ν → ε} : Consumes p 1 (readUntil f p) := by
  intro vs hvs
  induction vs with
  | nil => simp at hvs
  | cons v vs ih =>
    rw [AccessProgram.readUntil]
    cases hv : p v with
    | true => exact ⟨[f v], v, vs, by simp, by simp [hv]⟩
    | false =>
      rw [List.countP_cons_of_neg (by simp [hv])] at hvs ⊢
      obtain ⟨l, a, vs', hrun, hcount⟩ := ih hvs
      exact ⟨f v :: l, a, vs', by simp [hrun], hcount⟩

end Consumes

end AccessProgram

end Beethoven.Lib
