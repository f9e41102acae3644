import Beethoven.Command.Flow

/-!
# Responses that no command waits for

`register_reponse` looks for the queue of the pair of a response and rejects the response if there
is none. The server makes the queue of a pair when it files the first command of the pair that
expects a response, and the queue stays when it drains. So a response of a pair that never had such
a command is rejected (`unsolicited_rejected`), while a response of a pair whose commands are all
answered is taken for the answer to a command that is not there.

The commands that are filed and the ones that are answered are logged beside the command system.
-/

namespace Beethoven.Command

open Lib Function

/-- The server files a command that expects a response, or a call of `register_reponse` answers
one. -/
inductive QueueEvent where
  | filed (k : SystemCorePair)
  | answered (k : SystemCorePair)
  deriving DecidableEq, Repr

variable {ι : Type}

/-- What a step shows of the queues. -/
def queueEvents (s : State ι) : Action ι → List QueueEvent
  | .server _ =>
    if s.server = .fileInFlight ∧ s.cmd.cmd.getXd = true then [.filed s.cmd.cmd.key] else []
  | .poller _ =>
    match s.poller with
    | .pop _ r => if (s.inFlight r.key).getD [] = [] then [] else [.answered r.key]
    | _ => []
  | _ => []

/-- The command system with a log of its queues. -/
def queueSystem (ι : Type) [DecidableEq ι] (info : PackInfo) :
    System (State ι × List QueueEvent) (Action ι) :=
  (commandSystem ι info).logged queueEvents

/-- The number of commands of a pair that expect a response and have none. -/
def outstanding (l : List QueueEvent) (k : SystemCorePair) : ℕ :=
  l.count (.filed k) - l.count (.answered k)

/-- A call of `register_reponse` is in progress. -/
def Registering (s : State ι) : Action ι → Prop := fun _ => s.poller ≠ .idle

/-! ### The queues and the log -/

/-- A pair has a queue if and only if a command of it was filed, and the queue has an entry for each
command that was not answered. -/
structure QueuesLogged (x : State ι × List QueueEvent) : Prop where
  none_iff : ∀ k, x.1.inFlight k = none ↔ .filed k ∉ x.2
  length : ∀ k, ((x.1.inFlight k).getD []).length + x.2.count (.answered k) =
    x.2.count (.filed k)

namespace QueuesLogged

variable {s t : State ι} {l : List QueueEvent}

private theorem of_eq (h : QueuesLogged (s, l)) (ht : t.inFlight = s.inFlight) :
    QueuesLogged (t, l ++ []) := by
  rw [List.append_nil]
  exact ⟨fun k => ht ▸ h.none_iff k, fun k => ht ▸ h.length k⟩

private theorem file (h : QueuesLogged (s, l)) {key : SystemCorePair} {id : ℕ}
    (ht : t.inFlight =
      update s.inFlight key (some ((s.inFlight key).getD [] ++ [id]))) :
    QueuesLogged (t, l ++ [.filed key]) := by
  refine ⟨fun k => ?_, fun k => ?_⟩ <;> dsimp only <;> rw [ht]
  · by_cases hk : k = key
    · simp [hk]
    · simp [hk, h.none_iff k]
  · have hlength := h.length k
    dsimp only at hlength
    by_cases hk : k = key
    · subst hk
      simp only [update_self, Option.getD_some, List.length_append, List.length_singleton,
        List.count_append, List.count_singleton_self, List.count_singleton, reduceCtorEq,
        beq_iff_eq, ↓reduceIte]
      omega
    · have hne : ¬key = k := Ne.symm hk
      simpa [hk, hne, List.count_singleton] using hlength

private theorem pop (h : QueuesLogged (s, l)) {key : SystemCorePair}
    (ht : t.inFlight = update s.inFlight key ((s.inFlight key).map List.tail)) :
    QueuesLogged (t, l ++ if (s.inFlight key).getD [] = [] then [] else [.answered key]) := by
  refine ⟨fun k => ?_, fun k => ?_⟩ <;> dsimp only <;> rw [ht]
  · have hnone := h.none_iff k
    dsimp only at hnone
    by_cases hk : k = key
    · subst hk
      rw [update_self, Option.map_eq_none_iff, hnone]
      split_ifs <;> simp
    · rw [update_of_ne hk, hnone]
      split_ifs <;> simp
  · have hlength := h.length k
    dsimp only at hlength
    by_cases hk : k = key
    · subst hk
      rw [update_self]
      cases hq : s.inFlight k with
      | none => simpa [hq] using hlength
      | some q =>
        cases q with
        | nil => simpa [hq] using hlength
        | cons id q =>
          rw [hq] at hlength
          simp only [Option.getD_some, List.length_cons] at hlength
          simp
          omega
    · have hne : ¬key = k := Ne.symm hk
      rw [update_of_ne hk]
      split_ifs
      · simpa using hlength
      · simpa [hne, List.count_singleton] using hlength

variable [DecidableEq ι] {info : PackInfo} {a : Action ι}

theorem step (h : QueuesLogged (s, l)) (hstep : Command.step info s a = some t) :
    QueuesLogged (t, l ++ queueEvents s a) := by
  cases step_cases hstep with
  | call h' | client h' | hardware h' => cases h' <;> exact h.of_eq rfl
  | server h' =>
    cases h' with
    | fileInFlight hpc hxd =>
      rw [queueEvents, if_pos ⟨hpc, hxd⟩]
      exact h.file rfl
    | fileNothing hpc hxd =>
      rw [queueEvents, if_neg (by simp [hxd])]
      exact h.of_eq rfl
    | lockServerMut hpc | expectsResponse hpc | expectsNoResponse hpc | lockFreeList hpc
    | popSlot hpc | unlockFreeList hpc | storeWaitId hpc | lockCmdserver hpc | quit hpc | keepOn hpc
    | push hpc | unlockResp hpc | unlockCmdserver hpc =>
      rw [queueEvents, if_neg (by simp [hpc])]
      exact h.of_eq rfl
  | poller h' =>
    cases h' with
    | pop hpc =>
      simp only [queueEvents, hpc]
      exact h.pop rfl
    | receive hpc | lock hpc | notFound hpc | found hpc | write hpc | signal hpc | unlock hpc
    | reject hpc =>
      simp only [queueEvents, hpc]
      exact h.of_eq rfl

theorem of_reaches {x : State ι × List QueueEvent}
    (h : (queueSystem ι info).Reaches System.anyStep x) : QueuesLogged x := by
  refine System.Reaches.invariant (I := QueuesLogged) ?_ ?_ h
  · constructor <;> simp [queueSystem, System.logged, commandSystem, State.init]
  · rintro ⟨s, l⟩ a ⟨t, l'⟩ hs - hstep
    obtain ⟨ht, hl⟩ := System.logged_step hstep
    dsimp only at hl
    rw [hl]
    exact hs.step ht

end QueuesLogged

section

variable [DecidableEq ι] {info : PackInfo} {x : State ι × List QueueEvent}

/-! ### Rejected responses -/

/-- From the lookup of a pair without a queue until the call returns. -/
inductive Rejecting (r : RoccResponse) (s : State ι) : Prop
  | find {t} (hpc : s.poller = .find t r) (hfind : s.inFlight r.key = none)
  | reject (hpc : s.poller = .reject)
  | returned (hpc : s.poller = .idle)

omit [DecidableEq ι] in
theorem Rejecting.pollerStep {r : RoccResponse} {s t : State ι} {stray : ℕ} (hs : Rejecting r s)
    (hpc : s.poller ≠ .idle) (h : PollerStep info stray s t) :
    (t.poller = .reject ∨ t.poller = .idle) ∧ t.responses = s.responses ∧
      t.waitForResponse = s.waitForResponse ∧ t.inFlight = s.inFlight := by
  cases hs with
  | find hpc hfind =>
    cases h with
    | notFound => exact ⟨.inl rfl, rfl, rfl, rfl⟩
    | found hpc' hfind' =>
      obtain ⟨rfl, rfl⟩ : _ ∧ _ := by simpa using hpc.symm.trans hpc'
      simp [hfind] at hfind'
    | _ hpc' => simp [hpc] at hpc'
  | reject hpc =>
    cases h with
    | reject => exact ⟨.inr rfl, rfl, rfl, rfl⟩
    | _ hpc' => simp [hpc] at hpc'
  | returned hpc' => exact absurd hpc' hpc

/-- The other parties neither move the poller nor touch the queues while it looks up. -/
theorem Rejecting.step {r : RoccResponse} {s t : State ι} {a : Action ι} (hs : Rejecting r s)
    (hexclusive : Exclusive s) (hpc : s.poller ≠ .idle) (h : Command.step info s a = some t) :
    Rejecting r t := by
  have hkeep : t.poller = s.poller → t.inFlight = s.inFlight → Rejecting r t := by
    intro hpoller hqueues
    cases hs with
    | find hpc hfind => exact .find (hpoller.trans hpc) (hqueues ▸ hfind)
    | reject hpc => exact .reject (hpoller.trans hpc)
    | returned hpc => exact .returned (hpoller.trans hpc)
  cases step_cases h with
  | call h' | client h' | hardware h' => cases h' <;> exact hkeep rfl rfl
  | server h' =>
    cases h' with
    | fileInFlight hpc' =>
      have hholds : s.poller.holdsCmdserver = true := by
        cases hs with
        | find hpc => rw [hpc]; rfl
        | reject hpc => rw [hpc]; rfl
        | returned hpc' => exact absurd hpc' hpc
      exact absurd hpc' (hexclusive.server_ne hholds)
    | _ => exact hkeep rfl rfl
  | poller h' =>
    obtain ⟨hreject | hidle, -⟩ := hs.pollerStep hpc h'
    · exact .reject hreject
    · exact .returned hidle

/-- **Unsolicited responses are rejected** if no command of their pair that expects a response was
ever filed: from the lookup on, no step of the call of `register_reponse` changes a response,
unlocks a mutex of a response or touches a queue, whatever the other parties do meanwhile. -/
theorem unsolicited_rejected (hx : (queueSystem ι info).Reaches System.anyStep x) {u : Option ℕ}
    {r : RoccResponse} (hfind : x.1.poller = .find u r) (hnever : .filed r.key ∉ x.2)
    {l : List (Action ι)} {s t : State ι} {stray : ℕ}
    (hrun : (commandSystem ι info).Run Registering x.1 l s) (hpc : s.poller ≠ .idle)
    (hstep : step info s (.poller stray) = some t) :
    (t.poller = .reject ∨ t.poller = .idle) ∧ t.responses = s.responses ∧
      t.waitForResponse = s.waitForResponse ∧ t.inFlight = s.inFlight := by
  have hinv : Rejecting r s ∧ Exclusive s := by
    refine hrun.invariant (I := fun s => Rejecting r s ∧ Exclusive s) ?_ ⟨?_, ?_⟩
    · rintro s a t ⟨hs, hexclusive⟩ hok hstep
      exact ⟨hs.step hexclusive hok hstep, hexclusive.step hstep⟩
    · exact .find hfind (((QueuesLogged.of_reaches hx).none_iff r.key).mpr hnever)
    · exact hx.of_logged.invariant exclusive_init fun _ _ _ hs _ hstep => hs.step hstep
  cases step_cases hstep with
  | poller h => exact hinv.1.pollerStep hpc h
  | hardware h => cases h

end

/-- A response of core 2, while a command of core 1 is outstanding. -/
theorem unsolicited_rejected_other_core :
    ∃ x, (queueSystem (Fin 1) ⟨4, 8⟩).Reaches System.anyStep x ∧ outstanding x.2 ⟨0, 1⟩ = 1 ∧
      ∃ t, step ⟨4, 8⟩ x.1 (.poller 0) = some t ∧ t.poller = .reject ∧
        t.responses = x.1.responses ∧ t.waitForResponse = x.1.waitForResponse ∧
        t.inFlight = x.1.inFlight := by
  obtain ⟨x, hx, hone, hfind, hnever, hqueue⟩ := (queueSystem (Fin 1) ⟨4, 8⟩).exists_reaches
    System.anyStep
    (fun x => outstanding x.2 ⟨0, 1⟩ = 1 ∧ x.1.poller = .find none { coreId := 2 } ∧
      .filed (RoccResponse.key { coreId := 2 }) ∉ x.2 ∧
      x.1.inFlight (RoccResponse.key { coreId := 2 }) = none)
    (sendRun 0 { xd := 1, coreId := 1 } ++ [.unsolicited ⟨0, 0, 1024⟩, .poller 0, .poller 0])
    (by decide +kernel)
  have hstep : step ⟨4, 8⟩ x.1 (.poller 0) = some { x.1 with poller := .reject } := by
    simp [step, pollerStep, hfind, hqueue]
  have hrejected := unsolicited_rejected hx hfind hnever (.nil x.1) (by simp [hfind]) hstep
  exact ⟨x, hx, hone, _, hstep, rfl, hrejected.2⟩

/-- A second response to a command that is answered: its pair has no outstanding command, and the
response is written to the slot whose number is found in the memory of the queue. -/
theorem not_unsolicited_rejected :
    ¬∀ (info : PackInfo) (x : State (Fin 1) × List QueueEvent),
      (queueSystem (Fin 1) info).Reaches System.anyStep x → ∀ (u : Option ℕ) (r : RoccResponse),
      x.1.poller = .find u r → outstanding x.2 r.key = 0 →
      ∀ (l : List (Action (Fin 1))) (s t : State (Fin 1)) (stray : ℕ),
      (commandSystem (Fin 1) info).Run Registering x.1 l s → s.poller ≠ .idle →
      step info s (.poller stray) = some t →
      t.responses = s.responses ∧ t.waitForResponse = s.waitForResponse ∧
        t.inFlight = s.inFlight := by
  intro h
  obtain ⟨x, hx, hfind, hzero, hqueue, hslot⟩ := (queueSystem (Fin 1) ⟨4, 8⟩).exists_reaches
    System.anyStep
    (fun x => x.1.poller = .find none { data := 5, coreId := 1 } ∧
      outstanding x.2 (RoccResponse.key { data := 5, coreId := 1 }) = 0 ∧
      x.1.inFlight (RoccResponse.key { data := 5, coreId := 1 }) = some [] ∧
      x.1.responses 7 = {})
    (sendRun 0 { xd := 1, coreId := 1 } ++ respondRun ⟨0, 0, 512⟩ ++
      [.unsolicited ⟨5, 0, 512⟩, .poller 0, .poller 0]) (by decide +kernel)
  have hlookup : step ⟨4, 8⟩ x.1 (.poller 7) =
      some { x.1 with poller := .write none { data := 5, coreId := 1 } 7 } := by
    simp [step, pollerStep, hfind, hqueue]
  have hrun : (commandSystem (Fin 1) ⟨4, 8⟩).Run Registering x.1 [.poller 7]
      { x.1 with poller := .write none { data := 5, coreId := 1 } 7 } :=
    .cons (by simp [Registering, hfind]) hlookup (.nil _)
  have hsame := (h ⟨4, 8⟩ x hx none _ hfind hzero _ _ _ 0 hrun (by simp) rfl).1
  have hseven := congrFun hsame 7
  simp [hslot] at hseven

end Beethoven.Command
