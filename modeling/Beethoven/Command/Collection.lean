import Mathlib.Data.Fintype.Basic
import Beethoven.Lib.Claims
import Beethoven.Command.Steps

/-!
# Collecting responses

A `get` or `try_get` that locks `wait_for_response` of its slot claims the ticket of its getter
object: it takes the response, pushes the slot back on the free list and returns. When no call takes
the response of a ticket that another call has taken, every ticket is collected once and its slot is
pushed back once.

The flag `has_recieved` that should prevent a second collection lives in each getter object, and the
copy constructor, documented to invalidate its source, copies it and leaves the source usable. When
programs do not use an object that was the source of a copy, each ticket has one usable object and
is collected once.
-/

namespace Beethoven.Command

open Lib

variable {ι : Type}

/-! ### Claims -/

/-- The ticket that a client is collecting, and whether it has pushed the slot back. -/
def ClientPc.claim : ClientPc → Option (ℕ × Bool)
  | .getRead k | .getLock k _ | .getPush k _ => some (k.ticket, false)
  | .getUnlock k _ => some (k.ticket, true)
  | _ => none

/-- The claims of the calls in progress. -/
def claims (s : State ι) : Claims ι ℕ where
  claim i := (s.client i).claim
  released := s.pushedBack
  finished := s.collected.map Prod.fst

/-- A call takes the response only of a ticket that no call has collected or is collecting. -/
def CollectsOnce (s : State ι) : Action ι → Prop
  | .client i =>
    match s.client i with
    | .getWait k | .getTry k => s.waitForResponse k.id = false →
        k.ticket ∉ s.collected.map Prod.fst ∧ ∀ j b, (s.client j).claim ≠ some (k.ticket, b)
    | _ => True
  | _ => True

instance [Fintype ι] (s : State ι) : (a : Action ι) → Decidable (CollectsOnce s a)
  | .client i =>
    match h : s.client i with
    | .getWait k | .getTry k => decidable_of_iff (s.waitForResponse k.id = false →
        k.ticket ∉ s.collected.map Prod.fst ∧ ∀ j b, (s.client j).claim ≠ some (k.ticket, b))
        (by simp [CollectsOnce, h])
    | .idle | .exited | .sendLock _ | .sendWrite .. | .sendPost .. | .sendAwait .. | .sendRead ..
    | .sendUnlock .. | .sendQuit .. | .shutdownLock | .shutdownPost | .shutdownQuit
    | .shutdownUnlock | .getRead _ | .getLock .. | .getPush .. | .getUnlock .. =>
      .isTrue (by simp [CollectsOnce, h])
  | .call .. | .server _ | .poller _ | .deliver | .respond .. | .unsolicited _ =>
    inferInstanceAs (Decidable True)

section

variable [DecidableEq ι] {info : PackInfo} {s t : State ι} {a : Action ι}

theorem claim_update (f : ι → ClientPc) (i : ι) (pc : ClientPc) :
    (fun j => (Function.update f i pc j).claim) =
      Function.update (fun j => (f j).claim) i pc.claim := by
  funext j
  exact Function.apply_update (fun _ => ClientPc.claim) f i pc j

theorem claim_update_of_eq {f : ι → ClientPc} {i : ι} {pc : ClientPc}
    (h : pc.claim = (f i).claim) :
    (fun j => (Function.update f i pc j).claim) = fun j => (f j).claim := by
  rw [claim_update, h, Function.update_eq_self]

omit [DecidableEq ι] in
theorem CollectsOnce.claim_ne {i : ι} (ha : CollectsOnce s (.client i)) {k : Collection}
    (hpc : s.client i = .getWait k ∨ s.client i = .getTry k)
    (hfree : s.waitForResponse k.id = false) :
    k.ticket ∉ s.collected.map Prod.fst ∧ ∀ j b, (s.client j).claim ≠ some (k.ticket, b) := by
  rcases hpc with hpc | hpc <;> simp only [CollectsOnce, hpc] at ha <;> exact ha hfree

private theorem claims_callStep {i : ι} {call : Call} (h : CallStep s i call t) :
    claims t = claims s := by
  cases h with
  | getThrows | copy => rfl
  | send hpc | shutdown hpc | get hpc | tryGet hpc | tryGetExits hpc =>
    simp only [claims]
    rw [claim_update_of_eq (by rw [hpc]; rfl)]

private theorem claims_take {i : ι} {k : Collection} (ha : CollectsOnce s (.client i))
    (hpc : s.client i = .getWait k ∨ s.client i = .getTry k)
    (hfree : s.waitForResponse k.id = false) :
    (claims s).Step (claims { s with
      client := Function.update s.client i (.getRead k)
      waitForResponse := Function.update s.waitForResponse k.id true }) := by
  have hi : (claims s).claim i = none := by
    rcases hpc with hpc | hpc <;> exact congrArg ClientPc.claim hpc
  obtain ⟨hfinished, hclaim⟩ := ha.claim_ne hpc hfree
  have hstep := Claims.Step.start (s := claims s) (i := i) hi hclaim hfinished
  simp only [claims, claim_update]
  exact hstep

private theorem claims_clientStep {i : ι} (h : ClientStep s i t)
    (ha : CollectsOnce s (.client i)) : claims t = claims s ∨ (claims s).Step (claims t) := by
  cases h with
  | getWait hpc hfree => exact .inr (claims_take ha (.inl hpc) hfree)
  | getTry hpc hfree => exact .inr (claims_take ha (.inr hpc) hfree)
  | getPush hpc =>
    have hstep := Claims.Step.release (s := claims s) (i := i) (congrArg ClientPc.claim hpc)
    right
    simp only [claims, claim_update]
    exact hstep
  | getUnlock hpc =>
    have hstep := Claims.Step.finish (s := claims s) (i := i) (congrArg ClientPc.claim hpc)
    right
    simp only [claims, claim_update, List.map_append]
    exact hstep
  | sendLock hpc | sendWrite hpc | sendPost hpc | sendAwait hpc | sendRead hpc | sendUnlock hpc
  | sendQuit hpc | shutdownLock hpc | shutdownPost hpc | shutdownQuit hpc | shutdownUnlock hpc
  | tryFails hpc | getRead hpc | getLock hpc =>
    left
    simp only [claims]
    rw [claim_update_of_eq (by rw [hpc]; rfl)]

theorem claimsInv_step (h : (claims s).Inv) (ha : CollectsOnce s a)
    (hstep : step info s a = some t) : (claims t).Inv := by
  have hclaims : claims t = claims s ∨ (claims s).Step (claims t) := by
    cases step_cases hstep with
    | call h' => exact .inl (claims_callStep h')
    | client h' => exact claims_clientStep h' ha
    | server h' | poller h' | hardware h' => exact .inl (by cases h' <;> rfl)
  rcases hclaims with heq | hstep'
  · rw [heq]
    exact h
  · exact h.step hstep'

omit [DecidableEq ι] in
theorem claimsInv_init : (claims (State.init ι)).Inv := by
  refine ⟨?_, ?_, ?_, ?_, List.nodup_nil, List.nodup_nil⟩ <;>
    simp [claims, State.init, ClientPc.claim]

end

/-! ### Getter objects -/

/-- The getter objects with what matters for their use: the tickets on their way to a new object,
the objects in use with their tickets, the number of tickets issued and the tickets collected. -/
structure Objects (ι : Type) where
  ticket : ι → Option ℕ
  inUse : ι → Option (ℕ × ℕ)
  object : ℕ → Option Getter
  issued : ℕ
  collected : List ℕ

namespace Objects

/-- What a program without uses of sources does to the objects. -/
inductive Step [DecidableEq ι] (x : Objects ι) : Objects ι → Prop
  | issue {i} (hi : x.ticket i = none) :
      Step x { x with ticket := Function.update x.ticket i (some x.issued), issued := x.issued + 1 }
  | hand {i n} {g : Getter} (hi : x.ticket i = some g.ticket) (hn : x.object n = none) :
      Step x { x with
        ticket := Function.update x.ticket i none, object := Function.update x.object n (some g) }
  | start {i o g} (recieved : Bool) (hi : x.inUse i = none) (hg : x.object o = some g)
      (huse : g.inUse = false) (hsource : g.isSource = false) (hrecieved : g.hasRecieved = false) :
      Step x { x with
        inUse := Function.update x.inUse i (some (o, g.ticket))
        object := Function.update x.object o
          (some { g with hasRecieved := recieved, inUse := true }) }
  | drop {i o t g} (hi : x.inUse i = some (o, t)) (hg : x.object o = some g) :
      Step x { x with
        inUse := Function.update x.inUse i none
        object := Function.update x.object o (some { g with inUse := false }) }
  | finish {i o t g} (hi : x.inUse i = some (o, t)) (hg : x.object o = some g) :
      Step x { x with
        inUse := Function.update x.inUse i none
        object := Function.update x.object o
          (some { g with hasRecieved := true, inUse := false })
        collected := x.collected ++ [t] }
  | copy {o n g} (hg : x.object o = some g) (hn : x.object n = none) (huse : g.inUse = false)
      (hsource : g.isSource = false) :
      Step x { x with
        object := Function.update (Function.update x.object o (some { g with isSource := true })) n
          (some { g with isSource := false }) }

/-- Every ticket has at most one object that is no source of a copy; calls are made on such objects,
one call on each, and the object of a collected ticket has its flag set. -/
structure Linear (x : Objects ι) : Prop where
  ticket_lt : ∀ i t, x.ticket i = some t → t < x.issued
  ticket_unique : ∀ i j t, x.ticket i = some t → x.ticket j = some t → i = j
  object_lt : ∀ o g, x.object o = some g → g.ticket < x.issued
  object_ne : ∀ o g i, x.object o = some g → x.ticket i ≠ some g.ticket
  single : ∀ o o' g g', x.object o = some g → x.object o' = some g' →
    g.isSource = false → g'.isSource = false → g.ticket = g'.ticket → o = o'
  used : ∀ i o t, x.inUse i = some (o, t) →
    ∃ g, x.object o = some g ∧ g.inUse = true ∧ g.isSource = false ∧ g.ticket = t
  user : ∀ i j o t t', x.inUse i = some (o, t) → x.inUse j = some (o, t') → i = j
  fresh : ∀ i o t, x.inUse i = some (o, t) → t ∉ x.collected
  collected_mem : ∀ t ∈ x.collected, ∃ o g, x.object o = some g ∧ g.ticket = t
  recieved : ∀ o g, x.object o = some g → g.isSource = false → g.ticket ∈ x.collected →
    g.hasRecieved = true

private theorem of_update_eq_some {α β : Type} [DecidableEq α] {f : α → Option β} {a a' : α}
    {c : Option β} {b : β} (h : Function.update f a c a' = some b) :
    (a' = a ∧ c = some b) ∨ (a' ≠ a ∧ f a' = some b) := by
  by_cases heq : a' = a
  · subst heq
    exact .inl ⟨rfl, by rwa [Function.update_self] at h⟩
  · exact .inr ⟨heq, by rwa [Function.update_of_ne heq] at h⟩

variable {x y : Objects ι}

/-- The objects of `y` are objects of `x` that stand for the same tickets. -/
structure SameTickets (x y : Objects ι) : Prop where
  back : ∀ o g', y.object o = some g' →
    ∃ g, x.object o = some g ∧ g.ticket = g'.ticket ∧ g.isSource = g'.isSource
  forth : ∀ o g, x.object o = some g → ∃ g', y.object o = some g' ∧ g'.ticket = g.ticket

theorem SameTickets.update {o : ℕ} {g g' : Getter} (hg : x.object o = some g)
    (hy : y.object = Function.update x.object o (some g')) (hticket : g'.ticket = g.ticket)
    (hsource : g'.isSource = g.isSource) : SameTickets x y where
  back o₁ g₁ h₁ := by
    rw [hy] at h₁
    rcases of_update_eq_some h₁ with ⟨rfl, heq⟩ | ⟨-, h₁⟩
    · obtain rfl := Option.some.inj heq
      exact ⟨g, hg, hticket.symm, hsource.symm⟩
    · exact ⟨g₁, h₁, rfl, rfl⟩
  forth o₁ g₁ h₁ := by
    rw [hy]
    by_cases heq : o₁ = o
    · subst heq
      obtain rfl := Option.some.inj (hg.symm.trans h₁)
      exact ⟨g', Function.update_self .., hticket⟩
    · exact ⟨g₁, by rwa [Function.update_of_ne heq], rfl⟩

private theorem Linear.of_sameTickets (h : x.Linear) (hsame : SameTickets x y)
    (hticket : y.ticket = x.ticket) (hissued : y.issued = x.issued)
    (hcollected : ∀ t ∈ y.collected, t ∈ x.collected ∨ ∃ o g, x.object o = some g ∧ g.ticket = t)
    (hused : ∀ i o t, y.inUse i = some (o, t) →
      ∃ g, y.object o = some g ∧ g.inUse = true ∧ g.isSource = false ∧ g.ticket = t)
    (huser : ∀ i j o t t', y.inUse i = some (o, t) → y.inUse j = some (o, t') → i = j)
    (hfresh : ∀ i o t, y.inUse i = some (o, t) → t ∉ y.collected)
    (hrecieved : ∀ o g, y.object o = some g → g.isSource = false → g.ticket ∈ y.collected →
      g.hasRecieved = true) : y.Linear where
  ticket_lt := by
    rw [hticket, hissued]
    exact h.ticket_lt
  ticket_unique := by
    rw [hticket]
    exact h.ticket_unique
  object_lt o g' hg' := by
    obtain ⟨g, hg, ht, -⟩ := hsame.back o g' hg'
    rw [hissued, ← ht]
    exact h.object_lt o g hg
  object_ne o g' i hg' := by
    obtain ⟨g, hg, ht, -⟩ := hsame.back o g' hg'
    rw [hticket, ← ht]
    exact h.object_ne o g i hg
  single o₁ o₂ g₁ g₂ h₁ h₂ hs₁ hs₂ ht := by
    obtain ⟨g₁', h₁', ht₁, hs₁'⟩ := hsame.back o₁ g₁ h₁
    obtain ⟨g₂', h₂', ht₂, hs₂'⟩ := hsame.back o₂ g₂ h₂
    exact h.single o₁ o₂ g₁' g₂' h₁' h₂' (hs₁'.trans hs₁) (hs₂'.trans hs₂)
      (ht₁.trans (ht.trans ht₂.symm))
  used := hused
  user := huser
  fresh := hfresh
  collected_mem t ht := by
    obtain ⟨o, g, hg, hgt⟩ : ∃ o g, x.object o = some g ∧ g.ticket = t :=
      (hcollected t ht).elim (h.collected_mem t) id
    obtain ⟨g', hg', ht'⟩ := hsame.forth o g hg
    exact ⟨o, g', hg', ht'.trans hgt⟩
  recieved := hrecieved

section

variable [DecidableEq ι]

private theorem Linear.issue {i : ι} (h : x.Linear) :
    Linear { x with
      ticket := Function.update x.ticket i (some x.issued), issued := x.issued + 1 } where
  ticket_lt j t hj := by
    rcases of_update_eq_some hj with ⟨-, heq⟩ | ⟨-, hj⟩
    · obtain rfl := Option.some.inj heq
      exact Nat.lt_succ_self _
    · exact Nat.lt_succ_of_lt (h.ticket_lt j t hj)
  ticket_unique j k t hj hk := by
    -- the new ticket is larger than all others
    rcases of_update_eq_some hj with ⟨rfl, heq⟩ | ⟨-, hj'⟩
    · rcases of_update_eq_some hk with ⟨rfl, -⟩ | ⟨-, hk'⟩
      · rfl
      · obtain rfl := Option.some.inj heq
        exact absurd (h.ticket_lt k _ hk') (Nat.lt_irrefl _)
    · rcases of_update_eq_some hk with ⟨rfl, heq⟩ | ⟨-, hk'⟩
      · obtain rfl := Option.some.inj heq
        exact absurd (h.ticket_lt j _ hj') (Nat.lt_irrefl _)
      · exact h.ticket_unique j k t hj' hk'
  object_lt o g hg := Nat.lt_succ_of_lt (h.object_lt o g hg)
  object_ne o g j hg hj := by
    rcases of_update_eq_some hj with ⟨-, heq⟩ | ⟨-, hj⟩
    · exact absurd (h.object_lt o g hg) (by rw [Option.some.inj heq]; exact Nat.lt_irrefl _)
    · exact h.object_ne o g j hg hj
  single := h.single
  used := h.used
  user := h.user
  fresh := h.fresh
  collected_mem := h.collected_mem
  recieved := h.recieved

private theorem Linear.hand {i : ι} {n : ℕ} {g : Getter} (h : x.Linear)
    (hi : x.ticket i = some g.ticket) (hn : x.object n = none) :
    Linear { x with
      ticket := Function.update x.ticket i none
      object := Function.update x.object n (some g) } := by
  have hticket : ∀ j t,
      Function.update x.ticket i none j = some t → x.ticket j = some t ∧ j ≠ i := by
    intro j t hj
    rcases of_update_eq_some hj with ⟨-, heq⟩ | ⟨hji, hj⟩
    · cases heq
    · exact ⟨hj, hji⟩
  have hobject : ∀ o g', Function.update x.object n (some g) o = some g' →
      (o = n ∧ g' = g) ∨ x.object o = some g' := by
    intro o g' hg'
    rcases of_update_eq_some hg' with ⟨rfl, heq⟩ | ⟨-, hg'⟩
    · exact .inl ⟨rfl, (Option.some.inj heq).symm⟩
    · exact .inr hg'
  have hkeep : ∀ o g', x.object o = some g' → Function.update x.object n (some g) o = some g' := by
    intro o g' hg'
    rwa [Function.update_of_ne]
    rintro rfl
    simp [hn] at hg'
  -- no object stands for a ticket on its way
  have hnew : ∀ o g', x.object o = some g' → g'.ticket ≠ g.ticket := fun o g' hg' heq =>
    h.object_ne o g' i hg' (heq ▸ hi)
  refine ⟨fun j t hj => h.ticket_lt j t (hticket j t hj).1,
    fun j k t hj hk => h.ticket_unique j k t (hticket j t hj).1 (hticket k t hk).1,
    fun o g' hg' => ?_, fun o g' j hg' hj => ?_, fun o₁ o₂ g₁ g₂ h₁ h₂ hs₁ hs₂ ht => ?_,
    fun j o t hj => ?_, h.user, h.fresh, fun t ht => ?_, fun o g' hg' hs ht => ?_⟩
  · rcases hobject o g' hg' with ⟨-, rfl⟩ | hg'
    · exact h.ticket_lt i _ hi
    · exact h.object_lt o g' hg'
  · obtain ⟨hj', hji⟩ := hticket j _ hj
    rcases hobject o g' hg' with ⟨-, rfl⟩ | hg'
    · exact hji (h.ticket_unique j i _ hj' hi)
    · exact h.object_ne o g' j hg' hj'
  · rcases hobject o₁ g₁ h₁ with ⟨rfl, rfl⟩ | h₁'
    · rcases hobject o₂ g₂ h₂ with ⟨rfl, -⟩ | h₂'
      · rfl
      · exact absurd ht.symm (hnew o₂ g₂ h₂')
    · rcases hobject o₂ g₂ h₂ with ⟨rfl, rfl⟩ | h₂'
      · exact absurd ht (hnew o₁ g₁ h₁')
      · exact h.single o₁ o₂ g₁ g₂ h₁' h₂' hs₁ hs₂ ht
  · obtain ⟨g', hg', hrest⟩ := h.used j o t hj
    exact ⟨g', hkeep o g' hg', hrest⟩
  · obtain ⟨o, g', hg', hrest⟩ := h.collected_mem t ht
    exact ⟨o, g', hkeep o g' hg', hrest⟩
  · rcases hobject o g' hg' with ⟨-, rfl⟩ | hg'
    · obtain ⟨o', g'', hg'', heq⟩ := h.collected_mem _ ht
      exact absurd heq (hnew o' g'' hg'')
    · exact h.recieved o g' hg' hs ht

private theorem Linear.start {i : ι} {o : ℕ} {g : Getter} (h : x.Linear) (recieved : Bool)
    (hg : x.object o = some g) (huse : g.inUse = false) (hsource : g.isSource = false)
    (hrecieved : g.hasRecieved = false) :
    Linear { x with
      inUse := Function.update x.inUse i (some (o, g.ticket))
      object := Function.update x.object o
        (some { g with hasRecieved := recieved, inUse := true }) } := by
  have hticket : g.ticket ∉ x.collected := fun hmem => by
    simp [h.recieved o g hg hsource hmem] at hrecieved
  have hunused : ∀ j t, x.inUse j ≠ some (o, t) := fun j t hj => by
    obtain ⟨g', hg', huse', -⟩ := h.used j o t hj
    obtain rfl := Option.some.inj (hg.symm.trans hg')
    simp [huse] at huse'
  have hinUse : ∀ j o' t, Function.update x.inUse i (some (o, g.ticket)) j = some (o', t) →
      (j = i ∧ o' = o ∧ t = g.ticket) ∨ (x.inUse j = some (o', t) ∧ o' ≠ o) := by
    intro j o' t hj
    rcases of_update_eq_some hj with ⟨rfl, heq⟩ | ⟨-, hj'⟩
    · obtain ⟨rfl, rfl⟩ := Prod.mk.inj (Option.some.inj heq)
      exact .inl ⟨rfl, rfl, rfl⟩
    · refine .inr ⟨hj', ?_⟩
      rintro rfl
      exact hunused j t hj'
  refine h.of_sameTickets (.update hg rfl rfl rfl) rfl rfl (fun _ => .inl) (fun j o' t hj => ?_)
    (fun j k o' t t' hj hk => ?_) (fun j o' t hj => ?_) (fun o' g' hg' hs ht => ?_)
  · rcases hinUse j o' t hj with ⟨-, rfl, rfl⟩ | ⟨hj, hne⟩
    · exact ⟨_, Function.update_self .., rfl, hsource, rfl⟩
    · obtain ⟨g', hg', hrest⟩ := h.used j o' t hj
      exact ⟨g', (Function.update_of_ne hne _ _).trans hg', hrest⟩
  · rcases hinUse j o' t hj with ⟨rfl, rfl, -⟩ | ⟨hj', hne⟩
    · rcases hinUse k _ t' hk with ⟨rfl, -⟩ | ⟨-, hne⟩
      · rfl
      · exact absurd rfl hne
    · rcases hinUse k o' t' hk with ⟨-, rfl, -⟩ | ⟨hk', -⟩
      · exact absurd rfl hne
      · exact h.user j k o' t t' hj' hk'
  · rcases hinUse j o' t hj with ⟨-, -, rfl⟩ | ⟨hj, -⟩
    · exact hticket
    · exact h.fresh j o' t hj
  · rcases of_update_eq_some hg' with ⟨-, heq⟩ | ⟨-, hg'⟩
    · obtain rfl := Option.some.inj heq
      exact absurd ht hticket
    · exact h.recieved o' g' hg' hs ht

private theorem Linear.leave {i : ι} {o t : ℕ} {g g' : Getter} {collected : List ℕ} (h : x.Linear)
    (hi : x.inUse i = some (o, t)) (hg : x.object o = some g) (hticket : g'.ticket = g.ticket)
    (hsource : g'.isSource = g.isSource) (hcollected : ∀ u ∈ collected, u ∈ x.collected ∨ u = t)
    (hrecieved : g'.ticket ∈ collected → g'.hasRecieved = true) :
    Linear { x with
      inUse := Function.update x.inUse i none
      object := Function.update x.object o (some g')
      collected := collected } := by
  obtain ⟨g₀, hg₀, -, hsource₀, hticket₀⟩ := h.used i o t hi
  obtain rfl := Option.some.inj (hg.symm.trans hg₀)
  have hinUse : ∀ j o' u, Function.update x.inUse i none j = some (o', u) →
      x.inUse j = some (o', u) ∧ o' ≠ o := by
    intro j o' u hj
    rcases of_update_eq_some hj with ⟨-, heq⟩ | ⟨hji, hj'⟩
    · cases heq
    · refine ⟨hj', ?_⟩
      rintro rfl
      exact hji (h.user j i o' u t hj' hi)
  -- no other call is in progress for the ticket, and no other object stands for it
  have hne : ∀ o' g'', o' ≠ o → x.object o' = some g'' → g''.isSource = false →
      g''.ticket ≠ t := fun o' g'' hne hg'' hs heq =>
    hne (h.single o' o g'' g hg'' hg hs hsource₀ (heq.trans hticket₀.symm))
  refine h.of_sameTickets (.update hg rfl hticket hsource) rfl rfl (fun u hu => ?_)
    (fun j o' u hj => ?_) (fun j k o' u u' hj hk => ?_) (fun j o' u hj hu => ?_)
    (fun o' g'' hg'' hs hu => ?_)
  · refine (hcollected u hu).imp_right ?_
    rintro rfl
    exact ⟨o, g, hg, hticket₀⟩
  · obtain ⟨hj, hoo⟩ := hinUse j o' u hj
    obtain ⟨g'', hg'', hrest⟩ := h.used j o' u hj
    exact ⟨g'', (Function.update_of_ne hoo _ _).trans hg'', hrest⟩
  · exact h.user j k o' u u' (hinUse j o' u hj).1 (hinUse k o' u' hk).1
  · obtain ⟨hj, hoo⟩ := hinUse j o' u hj
    obtain ⟨g'', hg'', -, hs, rfl⟩ := h.used j o' u hj
    exact (hcollected _ hu).elim (h.fresh j o' _ hj) (hne o' g'' hoo hg'' hs)
  · rcases of_update_eq_some hg'' with ⟨-, heq⟩ | ⟨hoo, hg''⟩
    · obtain rfl := Option.some.inj heq
      exact hrecieved hu
    · exact h.recieved o' g'' hg'' hs
        ((hcollected _ hu).resolve_right (hne o' g'' hoo hg'' hs))

omit [DecidableEq ι] in
private theorem Linear.copy {o n : ℕ} {g : Getter} (h : x.Linear) (hg : x.object o = some g)
    (hn : x.object n = none) (huse : g.inUse = false) (hsource : g.isSource = false) :
    Linear { x with
      object := Function.update (Function.update x.object o (some { g with isSource := true })) n
        (some { g with isSource := false }) } := by
  have hno : n ≠ o := by
    rintro rfl
    simp [hn] at hg
  -- an object that is no source is the copy, or one that was there and is not the original
  have hobject : ∀ o' g', Function.update (Function.update x.object o
        (some { g with isSource := true })) n (some { g with isSource := false }) o' = some g' →
      (∃ o₀ g₀, x.object o₀ = some g₀ ∧ g₀.ticket = g'.ticket) ∧ (g'.isSource = false →
        (o' = n ∧ g' = { g with isSource := false }) ∨ (o' ≠ o ∧ x.object o' = some g')) := by
    intro o' g' hg'
    rcases of_update_eq_some hg' with ⟨rfl, heq⟩ | ⟨-, hg'⟩
    · obtain rfl := Option.some.inj heq
      exact ⟨⟨o, g, hg, rfl⟩, fun _ => .inl ⟨rfl, rfl⟩⟩
    · rcases of_update_eq_some hg' with ⟨rfl, heq⟩ | ⟨hne, hg'⟩
      · obtain rfl := Option.some.inj heq
        exact ⟨⟨o', g, hg, rfl⟩, fun hs => by cases hs⟩
      · exact ⟨⟨o', g', hg', rfl⟩, fun _ => .inr ⟨hne, hg'⟩⟩
  have hkeep : ∀ o' g', o' ≠ o → x.object o' = some g' →
      Function.update (Function.update x.object o (some { g with isSource := true })) n
        (some { g with isSource := false }) o' = some g' := by
    intro o' g' hne hg'
    rw [Function.update_of_ne, Function.update_of_ne hne, hg']
    rintro rfl
    simp [hn] at hg'
  have hother : ∀ o' g', o' ≠ o → x.object o' = some g' → g'.isSource = false →
      g'.ticket ≠ g.ticket :=
    fun o' g' hne hg' hs heq => hne (h.single o' o g' g hg' hg hs hsource heq)
  refine ⟨h.ticket_lt, h.ticket_unique, fun o' g' hg' => ?_, fun o' g' j hg' => ?_,
    fun o₁ o₂ g₁ g₂ h₁ h₂ hs₁ hs₂ ht => ?_, fun j o' t hj => ?_, h.user, h.fresh, fun t ht => ?_,
    fun o' g' hg' hs ht => ?_⟩
  · obtain ⟨⟨o₀, g₀, hg₀, heq⟩, -⟩ := hobject o' g' hg'
    exact heq ▸ h.object_lt o₀ g₀ hg₀
  · obtain ⟨⟨o₀, g₀, hg₀, heq⟩, -⟩ := hobject o' g' hg'
    exact heq ▸ h.object_ne o₀ g₀ j hg₀
  · rcases (hobject o₁ g₁ h₁).2 hs₁ with ⟨rfl, rfl⟩ | ⟨hne₁, h₁'⟩
    · rcases (hobject o₂ g₂ h₂).2 hs₂ with ⟨rfl, -⟩ | ⟨hne₂, h₂'⟩
      · rfl
      · exact absurd ht.symm (hother o₂ g₂ hne₂ h₂' hs₂)
    · rcases (hobject o₂ g₂ h₂).2 hs₂ with ⟨rfl, rfl⟩ | ⟨-, h₂'⟩
      · exact absurd ht (hother o₁ g₁ hne₁ h₁' hs₁)
      · exact h.single o₁ o₂ g₁ g₂ h₁' h₂' hs₁ hs₂ ht
  · obtain ⟨g', hg', huse', hrest⟩ := h.used j o' t hj
    refine ⟨g', hkeep o' g' ?_ hg', huse', hrest⟩
    rintro rfl
    obtain rfl := Option.some.inj (hg.symm.trans hg')
    simp [huse] at huse'
  · obtain ⟨o', g', hg', heq⟩ := h.collected_mem t ht
    by_cases hoo : o' = o
    · subst hoo
      obtain rfl := Option.some.inj (hg.symm.trans hg')
      exact ⟨n, _, Function.update_self .., heq⟩
    · exact ⟨o', g', hkeep o' g' hoo hg', heq⟩
  · rcases (hobject o' g' hg').2 hs with ⟨-, rfl⟩ | ⟨-, hg'⟩
    · exact h.recieved o g hg hsource ht
    · exact h.recieved o' g' hg' hs ht

/-- **Every step keeps the objects linear.** -/
theorem Linear.step (h : x.Linear) (hstep : x.Step y) : y.Linear := by
  cases hstep with
  | issue => exact h.issue
  | hand hi hn => exact h.hand hi hn
  | start recieved _ hg huse hsource hrecieved =>
    exact h.start recieved hg huse hsource hrecieved
  | @drop i o t g hi hg =>
    refine h.leave hi hg rfl rfl (fun _ => .inl) fun hmem => ?_
    obtain ⟨g', hg', -, -, hticket⟩ := h.used i o t hi
    obtain rfl := Option.some.inj (hg.symm.trans hg')
    exact absurd hmem (hticket ▸ h.fresh i o t hi)
  | finish hi hg =>
    exact h.leave hi hg rfl rfl (fun u hu => by simpa using hu) fun _ => rfl
  | copy hg hn huse hsource => exact h.copy hg hn huse hsource

end

theorem Linear.inUse_unique (h : x.Linear) {i j : ι} {o o' t : ℕ} (hi : x.inUse i = some (o, t))
    (hj : x.inUse j = some (o', t)) : i = j := by
  obtain ⟨g, hg, -, hsource, hticket⟩ := h.used i o t hi
  obtain ⟨g', hg', -, hsource', hticket'⟩ := h.used j o' t hj
  obtain rfl := h.single o o' g g' hg hg' hsource hsource' (hticket.trans hticket'.symm)
  exact h.user i j o t t hi hj

end Objects

/-- The object on which a client's call is in progress, and its ticket. -/
def ClientPc.inUse : ClientPc → Option (ℕ × ℕ)
  | .getWait k | .getTry k | .getRead k | .getLock k _ | .getPush k _ | .getUnlock k _ =>
    some (k.getter, k.ticket)
  | _ => none

/-- The objects of a state. -/
def objects (s : State ι) : Objects ι where
  ticket i := (s.client i).ticket
  inUse i := (s.client i).inUse
  object o := s.getters[o]?
  issued := s.acquired.length
  collected := s.collected.map Prod.fst

/-- Programs do not call or copy an object that was the source of a copy. -/
def SourceUnused (s : State ι) : Action ι → Prop
  | .call _ (.get o) | .call _ (.tryGet o) | .call _ (.copy o) =>
    ∀ g ∈ s.getters[o]?, g.isSource = false
  | _ => True

instance (s : State ι) : (a : Action ι) → Decidable (SourceUnused s a)
  | .call _ (.get o) | .call _ (.tryGet o) | .call _ (.copy o) =>
    inferInstanceAs (Decidable (∀ g ∈ s.getters[o]?, _))
  | .call _ (.send _) | .call _ .shutdown | .client _ | .server _ | .poller _
  | .deliver | .respond .. | .unsolicited _ => inferInstanceAs (Decidable True)

section

variable [DecidableEq ι] {info : PackInfo} {s t : State ι} {a : Action ι}

private theorem ticket_update (f : ι → ClientPc) (i : ι) (pc : ClientPc) :
    (fun j => (Function.update f i pc j).ticket) =
      Function.update (fun j => (f j).ticket) i pc.ticket := by
  funext j
  exact Function.apply_update (fun _ => ClientPc.ticket) f i pc j

private theorem ticket_update_of_eq {f : ι → ClientPc} {i : ι} {pc : ClientPc}
    (h : pc.ticket = (f i).ticket) :
    (fun j => (Function.update f i pc j).ticket) = fun j => (f j).ticket := by
  rw [ticket_update, h, Function.update_eq_self]

private theorem inUse_update (f : ι → ClientPc) (i : ι) (pc : ClientPc) :
    (fun j => (Function.update f i pc j).inUse) =
      Function.update (fun j => (f j).inUse) i pc.inUse := by
  funext j
  exact Function.apply_update (fun _ => ClientPc.inUse) f i pc j

private theorem inUse_update_of_eq {f : ι → ClientPc} {i : ι} {pc : ClientPc}
    (h : pc.inUse = (f i).inUse) :
    (fun j => (Function.update f i pc j).inUse) = fun j => (f j).inUse := by
  rw [inUse_update, h, Function.update_eq_self]

section

variable {l : List Getter} {o : ℕ} {g : Getter}

private theorem object_set (h : l[o]? = some g) (g' : Getter) :
    (fun o' => (l.set o g')[o']?) = Function.update (fun o' => l[o']?) o (some g') := by
  funext o'
  have hlt := (List.getElem?_eq_some_iff.mp h).1
  by_cases heq : o' = o
  · subst heq
    simp [hlt]
  · rw [Function.update_of_ne heq, List.getElem?_set_ne (Ne.symm heq)]

private theorem object_modify (h : l[o]? = some g) (f : Getter → Getter) :
    (fun o' => (l.modify o f)[o']?) = Function.update (fun o' => l[o']?) o (some (f g)) := by
  funext o'
  by_cases heq : o' = o
  · subst heq
    simp [h]
  · rw [Function.update_of_ne heq, List.getElem?_modify]
    simp [Ne.symm heq]

private theorem object_concat (l : List Getter) (g : Getter) :
    (fun o' => (l ++ [g])[o']?) = Function.update (fun o' => l[o']?) l.length (some g) := by
  funext o'
  by_cases heq : o' = l.length
  · subst heq
    simp
  · rw [Function.update_of_ne heq, List.getElem?_append]
    split_ifs with hlt
    · rfl
    · rw [List.getElem?_eq_none (by simp; omega), List.getElem?_eq_none (by omega)]

end

private theorem objects_callStep {i : ι} {call : Call} (h : CallStep s i call t)
    (ha : SourceUnused s (.call i call)) :
    objects t = objects s ∨ (objects s).Step (objects t) := by
  cases h with
  | getThrows => exact .inl rfl
  | send hpc | shutdown hpc | tryGetExits hpc =>
    left
    simp only [objects]
    rw [ticket_update_of_eq (by rw [hpc]; rfl), inUse_update_of_eq (by rw [hpc]; rfl)]
  | @copy o g hpc hg huse =>
    have hstep := Objects.Step.copy (x := objects s) hg
      (List.getElem?_eq_none (Nat.le_refl s.getters.length)) huse (ha _ hg)
    right
    simp only [objects, object_concat, object_set hg, List.length_set]
    exact hstep
  | @get o g hpc hg huse hwait hrecieved =>
    have hstep := Objects.Step.start (x := objects s) (i := i) true (congrArg ClientPc.inUse hpc) hg
      huse (ha _ hg) hrecieved
    right
    simp only [objects, inUse_update, object_set hg]
    rw [ticket_update_of_eq (by rw [hpc]; rfl)]
    exact hstep
  | @tryGet o g hpc hg huse hwait hrecieved =>
    have hstep := Objects.Step.start (x := objects s) (i := i) g.hasRecieved
      (congrArg ClientPc.inUse hpc) hg huse (ha _ hg) hrecieved
    right
    simp only [objects, inUse_update, object_set hg]
    rw [ticket_update_of_eq (by rw [hpc]; rfl)]
    exact hstep

private theorem objects_clientStep {i : ι} (hlinear : (objects s).Linear) (h : ClientStep s i t) :
    objects t = objects s ∨ (objects s).Step (objects t) := by
  cases h with
  | sendLock hpc =>
    have hstep := Objects.Step.issue (x := objects s) (i := i) (congrArg ClientPc.ticket hpc)
    right
    simp only [objects, ticket_update, List.length_append]
    rw [inUse_update_of_eq (by rw [hpc]; rfl)]
    exact hstep
  | @sendQuit _ c handle hpc =>
    have hstep := Objects.Step.hand (x := objects s) (i := i)
      (g := ⟨c.getXd, false, handle, _, false, false⟩) (congrArg ClientPc.ticket hpc)
      (List.getElem?_eq_none (Nat.le_refl s.getters.length))
    right
    simp only [objects, ticket_update, object_concat]
    rw [inUse_update_of_eq (by rw [hpc]; rfl)]
    exact hstep
  | tryFails hpc =>
    have hi : (objects s).inUse i = some (_, _) := congrArg ClientPc.inUse hpc
    obtain ⟨g, hg, -⟩ := hlinear.used i _ _ hi
    have hstep := Objects.Step.drop hi hg
    right
    simp only [objects, inUse_update, object_modify hg]
    rw [ticket_update_of_eq (by rw [hpc]; rfl)]
    exact hstep
  | getUnlock hpc =>
    have hi : (objects s).inUse i = some (_, _) := congrArg ClientPc.inUse hpc
    obtain ⟨g, hg, -⟩ := hlinear.used i _ _ hi
    have hstep := Objects.Step.finish hi hg
    right
    simp only [objects, inUse_update, List.map_append, object_modify hg]
    rw [ticket_update_of_eq (by rw [hpc]; rfl)]
    exact hstep
  | sendWrite hpc | sendPost hpc | sendAwait hpc | sendRead hpc | sendUnlock hpc
  | shutdownLock hpc | shutdownPost hpc | shutdownQuit hpc | shutdownUnlock hpc
  | getWait hpc | getTry hpc | getRead hpc | getLock hpc | getPush hpc =>
    left
    simp only [objects]
    rw [ticket_update_of_eq (by rw [hpc]; rfl), inUse_update_of_eq (by rw [hpc]; rfl)]

theorem linear_step (h : (objects s).Linear) (ha : SourceUnused s a)
    (hstep : step info s a = some t) : (objects t).Linear := by
  have hobjects : objects t = objects s ∨ (objects s).Step (objects t) := by
    cases step_cases hstep with
    | call h' => exact objects_callStep h' ha
    | client h' => exact objects_clientStep h h'
    | server h' | poller h' | hardware h' => exact .inl (by cases h' <;> rfl)
  rcases hobjects with heq | hstep'
  · rw [heq]
    exact h
  · exact h.step hstep'

omit [DecidableEq ι] in
theorem linear_init : (objects (State.init ι)).Linear := by
  constructor <;> simp [objects, State.init, ClientPc.ticket, ClientPc.inUse]

omit [DecidableEq ι] in
private theorem ClientPc.inUse_of_claim {pc : ClientPc} {t : ℕ} {b : Bool}
    (h : pc.claim = some (t, b)) : ∃ o, pc.inUse = some (o, t) := by
  cases pc <;> simp_all [ClientPc.claim, ClientPc.inUse]

omit [DecidableEq ι] in
theorem collectsOnce_of_linear (h : (objects s).Linear) : CollectsOnce s a := by
  have hfree : ∀ (i : ι) (k : Collection), (s.client i).inUse = some (k.getter, k.ticket) →
      (s.client i).claim = none →
      k.ticket ∉ s.collected.map Prod.fst ∧ ∀ j b, (s.client j).claim ≠ some (k.ticket, b) := by
    intro i k hi hclaim
    refine ⟨h.fresh i _ _ hi, fun j b hj => ?_⟩
    obtain ⟨o', hj'⟩ := ClientPc.inUse_of_claim hj
    obtain rfl := h.inUse_unique hi hj'
    simp [hj] at hclaim
  cases a with
  | client i =>
    have hi := hfree i
    cases hpc : s.client i with
    | getWait k | getTry k =>
      simp only [CollectsOnce, hpc]
      rw [hpc] at hi
      exact fun _ => hi k rfl rfl
    | _ => simp [CollectsOnce, hpc]
  | _ => trivial

/-- **Single collection per command.** In every run in which programs use no object that was the
source of a copy, at most one call for each command returns a response, and its slot is pushed back
at most once. -/
theorem single_collection (h : (commandSystem ι info).Reaches SourceUnused s) :
    (s.collected.map Prod.fst).Nodup ∧ s.pushedBack.Nodup := by
  have hinv : (objects s).Linear ∧ (claims s).Inv :=
    h.invariant (I := fun s => (objects s).Linear ∧ (claims s).Inv) ⟨linear_init, claimsInv_init⟩
      fun _ _ _ hs ha hstep => ⟨linear_step hs.1 ha hstep,
        claimsInv_step hs.2 (collectsOnce_of_linear hs.1) hstep⟩
  exact ⟨hinv.2.nodup_finished, hinv.2.nodup_released⟩

end

/-! ### Runs of whole calls -/

/-- Client `i` sends `c`, a command that expects a response, and nothing else runs. -/
def sendRun (i : ι) (c : RoccCmd) : List (Action ι) :=
  [.call i (.send c), .client i, .client i, .client i] ++ List.replicate 12 (.server 0) ++
    List.replicate 4 (.client i)

/-- The oldest command is delivered and answered. -/
def respondRun (buffer : ResponseBuffer) : List (Action ι) :=
  [.deliver, .respond 0 buffer] ++ List.replicate 7 (.poller 0)

/-- Client `i` calls `get` on an object whose response is there. -/
def getRun (i : ι) (o : ℕ) : List (Action ι) :=
  .call i (.get o) :: List.replicate 5 (.client i)

theorem single_collection_copy :
    ∃ s, (commandSystem (Fin 1) ⟨4, 8⟩).Reaches SourceUnused s ∧
      s.collected.map Prod.fst = [0, 1] ∧ s.pushedBack = [0, 1] ∧
      (s.collected.map Prod.fst).Nodup ∧ s.pushedBack.Nodup := by
  obtain ⟨s, hs, hcollected, hpushed⟩ := (commandSystem (Fin 1) ⟨4, 8⟩).exists_reaches SourceUnused
    (fun s => s.collected.map Prod.fst = [0, 1] ∧ s.pushedBack = [0, 1])
    (sendRun 0 { xd := 1 } ++ respondRun ⟨0, 0, 0⟩ ++ [.call 0 (.copy 0)] ++ getRun 0 1 ++
      sendRun 0 { xd := 1 } ++ respondRun ⟨0, 0, 0⟩ ++ getRun 0 2) (by decide +kernel)
  exact ⟨s, hs, hcollected, hpushed, single_collection hs⟩

/-- A `get` on the source of a copy takes the response of a later command and pushes the slot of
that command back a second time. -/
theorem not_single_collection :
    ¬∀ s, (commandSystem (Fin 1) ⟨4, 8⟩).Reaches System.anyStep s →
      (s.collected.map Prod.fst).Nodup ∧ s.pushedBack.Nodup := by
  intro h
  obtain ⟨s, hs, hcollected⟩ := (commandSystem (Fin 1) ⟨4, 8⟩).exists_reaches System.anyStep
    (fun s => s.collected.map Prod.fst = [0, 0])
    (sendRun 0 { xd := 1 } ++ respondRun ⟨0, 0, 0⟩ ++ [.call 0 (.copy 0)] ++ getRun 0 1 ++
      sendRun 0 { xd := 1 } ++ respondRun ⟨0, 0, 0⟩ ++ getRun 0 0) (by decide +kernel)
  have hnodup := (h s hs).1
  rw [hcollected] at hnodup
  simp at hnodup

end Beethoven.Command
