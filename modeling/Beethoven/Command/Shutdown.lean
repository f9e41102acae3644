import Mathlib.Data.Fintype.Basic
import Beethoven.Command.Handshake

/-!
# Shutting the command server down

`shutdown` unlocks `server_mut` before it sets `quit`, and `send` clears `quit` after it has
released `cmd_send_lock`. Two interleavings go wrong: the server tests `quit` between the two steps
of a shutdown, or a client that is about to return from `send` clears `quit` before the server has
tested it. In both the server delivers the command in shared memory a second time. In runs without
these two steps every command is pushed at most once, and nothing is pushed after a shutdown has
posted.
-/

namespace Beethoven.Command

open Lib Function

variable {ι : Type}

/-- A client calls `send` or `shutdown`, or a client or the server takes a step. -/
def SendOrShutdown (_ : State ι) : Action ι → Prop
  | .call _ (.send _) | .call _ .shutdown | .client _ | .server _ => True
  | _ => False

instance (s : State ι) : (a : Action ι) → Decidable (SendOrShutdown s a)
  | .call _ (.send _) | .call _ .shutdown | .client _ | .server _ =>
    inferInstanceAs (Decidable True)
  | .call _ (.get _) | .call _ (.tryGet _) | .call _ (.copy _) | .poller _ | .deliver
  | .respond .. | .unsolicited _ => inferInstanceAs (Decidable False)

/-- The client is about to clear `quit` at the end of `send`. -/
def ClientPc.ClearsQuit : ClientPc → Prop
  | .sendQuit .. => True
  | _ => False

instance : (pc : ClientPc) → Decidable pc.ClearsQuit
  | .sendQuit .. => inferInstanceAs (Decidable True)
  | .idle | .exited | .sendLock _ | .sendWrite .. | .sendPost .. | .sendAwait .. | .sendRead ..
  | .sendUnlock .. | .shutdownLock | .shutdownPost | .shutdownQuit | .shutdownUnlock | .getWait _
  | .getTry _ | .getRead _ | .getLock .. | .getPush .. | .getUnlock .. =>
    inferInstanceAs (Decidable False)

/-- The server does not find `quit` clear while a shutdown has posted `server_mut` and not yet set
`quit`, and no client clears `quit` while it is set and the server has not stopped. -/
def NoShutdownRace (s : State ι) : Action ι → Prop
  | .server _ => s.server = .testQuit → s.quit = false → ∀ i, s.client i ≠ .shutdownQuit
  | .client i => (s.client i).ClearsQuit → s.quit = true → s.server = .stopped
  | _ => True

instance [Fintype ι] (s : State ι) : (a : Action ι) → Decidable (NoShutdownRace s a)
  | .server _ => inferInstanceAs (Decidable (_ → _ → _))
  | .client _ => inferInstanceAs (Decidable (_ → _ → _))
  | .call .. | .poller _ | .deliver | .respond .. | .unsolicited _ =>
    inferInstanceAs (Decidable True)

/-- The server has stopped or will find `quit` set. -/
def Told (s : State ι) : Prop := s.quit = true ∨ s.server = .stopped

/-- A shutdown has posted `server_mut`. The server delivers nothing any more, and a shutdown that
has not set `quit` yet is on its way to do so. -/
structure Draining (s : State ι) : Prop where
  posted : Told s ∨ ∃ i, s.client i = .shutdownQuit
  push : s.server ≠ .push

/-- A shutdown that has set `quit` has told the server. -/
def ToldAfterQuit (s : State ι) : Prop :=
  (s.shutdowns ≠ 0 ∨ ∃ i, s.client i = .shutdownUnlock) → Told s

section

variable [DecidableEq ι] {info : PackInfo} {s t : State ι} {a : Action ι}

private theorem exists_client_update {f : ι → ClientPc} {i : ι} {pc target : ClientPc}
    (hne : f i ≠ target) (h : ∃ j, f j = target) : ∃ j, update f i pc j = target := by
  obtain ⟨j, hj⟩ := h
  have hji : j ≠ i := by
    rintro rfl
    exact hne hj
  exact ⟨j, by rw [update_of_ne hji, hj]⟩

theorem Told.step (h : Told s) (ha : NoShutdownRace s a) (hstep : Command.step info s a = some t) :
    Told t := by
  cases step_cases hstep with
  | call h' => cases h' <;> exact h
  | poller h' => cases h' <;> exact h
  | hardware h' => cases h' <;> exact h
  | client h' =>
    cases h' with
    | sendQuit hpc =>
      refine .inr (h.elim (fun hquit => ha ?_ hquit) id)
      rw [hpc]
      trivial
    | shutdownQuit hpc => exact .inl rfl
    | _ => exact h
  | server h' =>
    cases h' with
    | quit hpc hquit => exact .inr rfl
    | lockServerMut hpc | expectsResponse hpc | expectsNoResponse hpc | lockFreeList hpc
    | popSlot hpc | unlockFreeList hpc | storeWaitId hpc | lockCmdserver hpc | keepOn hpc
    | push hpc | fileInFlight hpc | fileNothing hpc | unlockResp hpc | unlockCmdserver hpc =>
      exact .inl (h.resolve_right (by simp [hpc]))

theorem Draining.step (h : Draining s) (ha : NoShutdownRace s a)
    (hstep : Command.step info s a = some t) : Draining t where
  posted := by
    rcases h.posted with htold | hex
    · exact .inl (htold.step ha hstep)
    · cases step_cases hstep with
      | poller h' | hardware h' | server h' => exact .inr (by cases h' <;> exact hex)
      | call h' =>
        right
        cases h' with
        | getThrows | copy => exact hex
        | send hpc | shutdown hpc | get hpc | tryGet hpc | tryGetExits hpc =>
          exact exists_client_update (by simp [hpc]) hex
      | client h' =>
        cases h' with
        | shutdownQuit hpc => exact .inl (.inl rfl)
        | shutdownPost hpc => exact .inr ⟨_, update_self ..⟩
        | sendLock hpc | sendWrite hpc | sendPost hpc | sendAwait hpc | sendRead hpc
        | sendUnlock hpc | sendQuit hpc | shutdownLock hpc | shutdownUnlock hpc | getWait hpc
        | tryFails hpc | getTry hpc | getRead hpc | getLock hpc | getPush hpc | getUnlock hpc =>
          exact .inr (exists_client_update (by simp [hpc]) hex)
  push := by
    cases step_cases hstep with
    | call h' => cases h' <;> exact h.push
    | poller h' => cases h' <;> exact h.push
    | hardware h' => cases h' <;> exact h.push
    | client h' => cases h' <;> exact h.push
    | server h' =>
      cases h' with
      | keepOn hpc hquit =>
        -- the test would succeed only in the window that the guard excludes
        rcases h.posted with (hset | hstop) | ⟨i, hi⟩
        · simp [hquit] at hset
        · simp [hpc] at hstop
        · exact absurd hi (ha hpc hquit i)
      | _ => simp

theorem Draining.pushed_eq (h : Draining s) (hstep : Command.step info s a = some t) :
    t.pushed = s.pushed := by
  cases step_cases hstep with
  | call h' => cases h' <;> rfl
  | poller h' => cases h' <;> rfl
  | hardware h' => cases h' <;> rfl
  | client h' => cases h' <;> rfl
  | server h' =>
    cases h' with
    | push hpc => exact absurd hpc h.push
    | _ => rfl

private theorem exists_client_of_update {f : ι → ClientPc} {i : ι} {pc target : ClientPc}
    (hne : pc ≠ target) (h : ∃ j, update f i pc j = target) : ∃ j, f j = target := by
  obtain ⟨j, hj⟩ := h
  have hji : j ≠ i := by
    rintro rfl
    rw [update_self] at hj
    exact hne hj
  exact ⟨j, by rwa [update_of_ne hji] at hj⟩

theorem ToldAfterQuit.step (h : ToldAfterQuit s) (ha : NoShutdownRace s a)
    (hstep : Command.step info s a = some t) : ToldAfterQuit t := by
  intro hafter
  -- only the write of `quit` brings a shutdown past it
  by_cases hwrite : ∃ i, a = .client i ∧ s.client i = .shutdownQuit
  · obtain ⟨i, rfl, hi⟩ := hwrite
    have ht : Command.clientStep s i = some t := hstep
    simp only [clientStep, hi, Option.some.injEq] at ht
    exact ht ▸ .inl rfl
  · refine (h ?_).step ha hstep
    cases step_cases hstep with
    | poller h' => cases h' <;> exact hafter
    | hardware h' => cases h' <;> exact hafter
    | server h' => cases h' <;> exact hafter
    | call h' =>
      cases h' with
      | getThrows | copy => exact hafter
      | send | shutdown | get | tryGet | tryGetExits =>
        exact hafter.imp id (exists_client_of_update (by simp))
    | @client i _ h' =>
      cases h' with
      | shutdownQuit hpc => exact absurd ⟨i, rfl, hpc⟩ hwrite
      | shutdownUnlock hpc => exact .inr ⟨i, hpc⟩
      | _ => exact hafter.imp id (exists_client_of_update (by simp))

/-! ### Shutdown safety -/

/-- The queue holds the first commands in the order of their acquisitions, each once. -/
def PushedInOrder (s : State ι) : Prop :=
  s.pushed.map (fun x => (x.ticket, x.cmd)) <+: Rendezvous.tagged s.acquired

/-- Either no shutdown has posted, or the server is draining. -/
structure ShutdownInv (s : State ι) : Prop where
  phase : Orderly s ∨ Draining s
  told : ToldAfterQuit s
  pushed : PushedInOrder s

omit [DecidableEq ι] in
theorem shutdownInv_init : ShutdownInv (State.init ι) where
  phase := .inl orderly_init
  told hafter := absurd hafter (by simp [State.init])
  pushed := List.prefix_refl _

private theorem tagged_acquired_of_step (hstep : Command.step info s a = some t) :
    Rendezvous.tagged s.acquired <+: Rendezvous.tagged t.acquired := by
  cases step_cases hstep with
  | call h' | poller h' | hardware h' | server h' => cases h' <;> exact List.prefix_refl _
  | client h' =>
    cases h' with
    | sendLock hpc =>
      rw [Rendezvous.tagged_concat]
      exact List.prefix_append _ _
    | _ => exact List.prefix_refl _

theorem Orderly.draining_of_barePost (h : Orderly s) (hpost : BarePost s a)
    (hstep : Command.step info s a = some t) : Draining t ∧ t.pushed = s.pushed := by
  cases a with
  | client i =>
    have hi : s.client i = .shutdownPost := hpost
    have ht : Command.clientStep s i = some t := hstep
    simp only [clientStep, hi, Option.some.injEq] at ht
    subst ht
    have hrest : Rendezvous.ClientOk (view s).toShared i (s.client i).phase := h.inv.client i
    rw [hi] at hrest
    refine ⟨⟨.inr ⟨i, update_self ..⟩, fun hpush => ?_⟩, rfl⟩
    have hserver : s.server.phase = .resting := hrest.server
    have hpc : s.server = .push := hpush
    rw [hpc] at hserver
    exact absurd hserver (by simp [ServerPc.phase])
  | _ => exact hpost.elim

theorem ShutdownInv.step (h : ShutdownInv s) (ha : NoShutdownRace s a)
    (hstep : Command.step info s a = some t) : ShutdownInv t := by
  have htold := h.told.step ha hstep
  have hkeep : t.pushed = s.pushed → PushedInOrder t := fun heq => by
    rw [PushedInOrder, heq]
    exact h.pushed.trans (tagged_acquired_of_step hstep)
  rcases h.phase with horderly | hdraining
  · by_cases hpost : BarePost s a
    · obtain ⟨hdraining, heq⟩ := horderly.draining_of_barePost hpost hstep
      exact ⟨.inr hdraining, htold, hkeep heq⟩
    · have horderly' := horderly.step hstep hpost
      obtain ⟨rest, heq, -⟩ := horderly'.inv.pushed_append
      exact ⟨.inl horderly', htold, ⟨rest, heq.symm⟩⟩
  · exact ⟨.inr (hdraining.step ha hstep), htold, hkeep (hdraining.pushed_eq hstep)⟩

omit [DecidableEq ι] in
/-- After a shutdown has returned, the server is draining and has been told. -/
theorem ShutdownInv.draining (h : ShutdownInv s) (hshut : s.shutdowns ≠ 0) :
    Draining s ∧ Told s := by
  have htold := h.told (.inl hshut)
  refine ⟨h.phase.resolve_left fun horderly => ?_, htold⟩
  rcases htold with hquit | hstop
  · simp [horderly.quit] at hquit
  · exact horderly.stopped hstop

/-- Nothing is pushed any more, and the server will find `quit` set. -/
private theorem run_of_draining {l : List (Action ι)} (h : Draining s) (htold : Told s)
    (hrun : (commandSystem ι info).Run NoShutdownRace s l t) :
    t.pushed = s.pushed ∧ Told t := by
  induction hrun with
  | nil s => exact ⟨rfl, htold⟩
  | cons ha hstep _ ih =>
    obtain ⟨hpushed, htold'⟩ := ih (h.step ha hstep) (htold.step ha hstep)
    exact ⟨hpushed.trans (h.pushed_eq hstep), htold'⟩

/-- Shutdown safety. -/
structure ShutdownSafe (info : PackInfo) (s : State ι) : Prop where
  /-- Every command is pushed at most once, and nothing but commands is pushed. -/
  once : (s.pushed.map Issued.ticket).Nodup ∧ none ∉ s.pushed.map Issued.ticket
  /-- Once a shutdown has returned, nothing is pushed any more; whenever the server tests `quit`, it
  is set, and the server stops. -/
  stops : s.shutdowns ≠ 0 → ∀ l t, (commandSystem ι info).Run NoShutdownRace s l t →
    t.pushed = s.pushed ∧ (t.server = .testQuit → t.quit = true)

/-- **Shutdown safety** of the runs in which the server does not test `quit` between the two steps
of a shutdown and no client clears `quit` before the server has stopped. -/
theorem shutdownSafe_of_reaches (hs : (commandSystem ι info).Reaches NoShutdownRace s) :
    ShutdownSafe info s := by
  have h : ShutdownInv s :=
    hs.invariant shutdownInv_init fun _ _ _ h ha hstep => h.step ha hstep
  refine ⟨?_, fun hshut l t hrun => ?_⟩
  · have hpre := h.pushed.map Prod.fst
    rw [Rendezvous.map_fst_tagged, List.map_map] at hpre
    have hsub : (s.pushed.map Issued.ticket).Sublist ((List.range s.acquired.length).map some) :=
      hpre.sublist
    refine ⟨hsub.nodup (List.nodup_range.map (Option.some_injective _)), fun hnone => ?_⟩
    simpa using hsub.subset hnone
  · obtain ⟨hdraining, htold⟩ := h.draining hshut
    obtain ⟨hpushed, htold'⟩ := run_of_draining hdraining htold hrun
    refine ⟨hpushed, fun htest => htold'.resolve_right ?_⟩
    simp [htest]

/-- A client sends a command and shuts the server down; the server stops with one push. -/
theorem shutdownSafe_one_client :
    ∃ s, (commandSystem (Fin 1) ⟨4, 8⟩).Reaches NoShutdownRace s ∧
      s.shutdowns = 1 ∧ s.server = .stopped ∧ s.pushed.length = 1 ∧ ShutdownSafe ⟨4, 8⟩ s := by
  obtain ⟨s, hs, hshut, hstop, hpushed⟩ :=
    (commandSystem (Fin 1) ⟨4, 8⟩).exists_reaches NoShutdownRace
      (fun s => s.shutdowns = 1 ∧ s.server = .stopped ∧ s.pushed.length = 1)
      (List.flatten [[.call 0 (.send {}), .client 0, .client 0, .client 0],
        List.replicate 9 (.server 0), List.replicate 4 (.client 0),
        [.call 0 .shutdown, .client 0, .client 0], List.replicate 4 (.server 0),
        [.client 0, .server 0, .client 0]]) (by decide +kernel)
  exact ⟨s, hs, hshut, hstop, hpushed, shutdownSafe_of_reaches hs⟩

/-- The server that tests `quit` between the two steps of a shutdown pushes the command in shared
memory a second time. -/
theorem not_pushed_once :
    ¬∀ s, (commandSystem (Fin 1) ⟨4, 8⟩).Reaches SendOrShutdown s →
      (s.pushed.map Issued.ticket).Nodup := by
  intro h
  obtain ⟨s, hs, hpushed⟩ := (commandSystem (Fin 1) ⟨4, 8⟩).exists_reaches SendOrShutdown
    (fun s => ¬(s.pushed.map Issued.ticket).Nodup)
    (List.flatten [[.call 0 (.send {}), .client 0, .client 0, .client 0],
      List.replicate 9 (.server 0), List.replicate 4 (.client 0),
      [.call 0 .shutdown, .client 0, .client 0], List.replicate 6 (.server 0)])
    (by decide +kernel)
  exact hpushed (h s hs)

end

end Beethoven.Command
