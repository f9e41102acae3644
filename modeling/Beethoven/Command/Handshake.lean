import Beethoven.Lib.Rendezvous
import Beethoven.Command.Steps

/-!
# The handshake between clients and command server

`cmd_send_lock`, `server_mut` and `cmd_recieve_server_resp_lock` with the shared `cmd` and
`pthread_wait_id` are a rendezvous: `server_mut` unlocked is the posted wake-up,
`cmd_recieve_server_resp_lock` unlocked the posted answer. Every step of the command system is a
step of the rendezvous or does not touch it, as long as no `shutdown` posts `server_mut`.
-/

namespace Beethoven.Command

open Lib Function

variable {ι : Type}

/-- The phase of the rendezvous in which the server is. -/
def ServerPc.phase : ServerPc → Rendezvous.ServerPhase
  | .lockServerMut | .unlockCmdserver | .stopped => .resting
  | .readXd | .lockFreeList | .popSlot | .unlockFreeList | .storeWaitId => .taken
  | .lockCmdserver | .testQuit | .push => .stored
  | .fileInFlight | .unlockResp => .pushed

/-- The phase of the rendezvous in which a client is. -/
def ClientPc.phase : ClientPc → Rendezvous.ClientPhase RoccCmd ℕ
  | .sendWrite t c => .entered t c
  | .sendPost t c => .written t c
  | .sendAwait t c => .waiting t c
  | .sendRead t c => .woken t c
  | .sendUnlock t c handle => .replied t c handle
  | .sendQuit t c handle => .leaving t c handle
  | .shutdownPost | .shutdownQuit | .shutdownUnlock => .visiting
  | _ => .out

/-- The rendezvous in a state of the command system. -/
def view (s : State ι) : Rendezvous.State ι RoccCmd ℕ where
  wake := !s.serverMut
  answer := !s.cmdRecieveServerRespLock
  slot := (s.cmd.ticket, s.cmd.cmd)
  reply := s.pthreadWaitId
  server := s.server.phase
  entered := s.acquired
  replies := s.served
  pushed := s.pushed.map fun x => (x.ticket, x.cmd)
  lock := s.cmdSendLock
  client i := (s.client i).phase
  returned := s.returned

variable [DecidableEq ι]

/-- The step in which `shutdown` unlocks `server_mut`. -/
def BarePost (s : State ι) : Action ι → Prop
  | .client i => s.client i = .shutdownPost
  | _ => False

section

variable {info : PackInfo} {s t : State ι} {a : Action ι}

theorem phase_update (f : ι → ClientPc) (i : ι) (pc : ClientPc) :
    (fun j => (update f i pc j).phase) =
      update (fun j => (f j).phase) i pc.phase := by
  funext j
  exact apply_update (fun _ => ClientPc.phase) f i pc j

theorem phase_update_of_eq {f : ι → ClientPc} {i : ι} {pc : ClientPc}
    (h : pc.phase = (f i).phase) :
    (fun j => (update f i pc j).phase) = fun j => (f j).phase := by
  rw [phase_update, h, update_eq_self]

theorem view_serverStep {stray : ℕ} (h : ServerStep stray s t) (hquit : s.quit = false) :
    view t = view s ∨ Rendezvous.Step (view s) (view t) := by
  cases h with
  | lockServerMut hpc hfree =>
    right
    have hstep := Rendezvous.Step.take (s := view s) (by simp [view, hpc, ServerPc.phase])
      (by simp [view, hfree])
    simpa [view, ServerPc.phase] using hstep
  | storeWaitId hpc =>
    right
    have hstep := Rendezvous.Step.store (s := view s) s.serverId
      (by simp [view, hpc, ServerPc.phase])
    simpa [view, ServerPc.phase] using hstep
  | push hpc =>
    right
    have hstep := Rendezvous.Step.push (s := view s) (by simp [view, hpc, ServerPc.phase])
    simpa [view, ServerPc.phase] using hstep
  | unlockResp hpc =>
    right
    have hstep := Rendezvous.Step.answer (s := view s) (by simp [view, hpc, ServerPc.phase])
    simpa [view, ServerPc.phase] using hstep
  | quit hpc hquit' => simp [hquit] at hquit'
  | expectsResponse hpc | expectsNoResponse hpc | lockFreeList hpc | popSlot hpc
  | unlockFreeList hpc | lockCmdserver hpc | keepOn hpc | fileInFlight hpc | fileNothing hpc
  | unlockCmdserver hpc =>
    left
    simp [view, hpc, ServerPc.phase]

omit [DecidableEq ι] in
theorem view_pollerStep {stray : ℕ} (h : PollerStep info stray s t) : view t = view s := by
  cases h <;> rfl

omit [DecidableEq ι] in
theorem view_hardwareStep (h : HardwareStep s a t) : view t = view s := by
  cases h <;> rfl

theorem view_callStep {i : ι} {call : Call} (h : CallStep s i call t) : view t = view s := by
  cases h with
  | getThrows _ => rfl
  | copy _ _ _ => rfl
  | send hpc | shutdown hpc | get hpc | tryGet hpc | tryGetExits hpc =>
    simp only [view]
    rw [phase_update_of_eq (by rw [hpc]; rfl)]

/-- A step of client `i` is a step of the rendezvous if its new phase makes it one. -/
private theorem view_step_of_update {i : ι} {pc : ClientPc}
    (ht : t.client = update s.client i pc)
    (hstep : Rendezvous.Step (view s)
      { view t with client := update (view s).client i pc.phase }) :
    view t = view s ∨ Rendezvous.Step (view s) (view t) := by
  have hview : view t = { view t with client := update (view s).client i pc.phase } := by
    simp only [view, ht, phase_update]
  rw [hview]
  exact .inr hstep

theorem view_clientStep {i : ι} (h : ClientStep s i t) (hpost : s.client i ≠ .shutdownPost) :
    view t = view s ∨ Rendezvous.Step (view s) (view t) := by
  have hi : (view s).client i = (s.client i).phase := rfl
  cases h with
  | @sendLock c hpc hfree =>
    rw [hpc] at hi
    exact view_step_of_update rfl (Rendezvous.Step.enter (s := view s) (x := c) hi hfree)
  | sendWrite hpc =>
    rw [hpc] at hi
    exact view_step_of_update rfl (Rendezvous.Step.write (s := view s) hi)
  | sendPost hpc =>
    rw [hpc] at hi
    exact view_step_of_update rfl (Rendezvous.Step.post (s := view s) hi)
  | sendAwait hpc hfree =>
    rw [hpc] at hi
    exact view_step_of_update rfl (Rendezvous.Step.resume (s := view s) hi (by simp [view, hfree]))
  | sendRead hpc =>
    rw [hpc] at hi
    exact view_step_of_update rfl (Rendezvous.Step.read (s := view s) hi)
  | sendUnlock hpc =>
    rw [hpc] at hi
    exact view_step_of_update rfl (Rendezvous.Step.leave (s := view s) hi)
  | sendQuit hpc =>
    rw [hpc] at hi
    exact view_step_of_update rfl (Rendezvous.Step.finish (s := view s) hi)
  | shutdownLock hpc hfree =>
    rw [hpc] at hi
    exact view_step_of_update rfl (Rendezvous.Step.visit (s := view s) hi hfree)
  | shutdownPost hpc => exact absurd hpc hpost
  | shutdownUnlock hpc =>
    rw [hpc] at hi
    exact view_step_of_update rfl (Rendezvous.Step.depart (s := view s) hi)
  | shutdownQuit hpc | getWait hpc | tryFails hpc | getTry hpc | getRead hpc | getLock hpc
  | getPush hpc | getUnlock hpc =>
    left
    simp only [view]
    rw [phase_update_of_eq (by rw [hpc]; rfl)]

/-- **Refinement.** Every step but a bare post is a step of the rendezvous or leaves it as it is. -/
theorem view_step (h : step info s a = some t) (hquit : s.quit = false) (hpost : ¬BarePost s a) :
    view t = view s ∨ Rendezvous.Step (view s) (view t) := by
  cases step_cases h with
  | call h => exact .inl (view_callStep h)
  | client h => exact view_clientStep h hpost
  | server h => exact view_serverStep h hquit
  | poller h => exact .inl (view_pollerStep h)
  | hardware h => exact .inl (view_hardwareStep h)

end

/-! ### Orderly states -/

/-- No `shutdown` has posted `server_mut`, and the rendezvous invariant holds. -/
structure Orderly (s : State ι) : Prop where
  quit : s.quit = false
  stopped : s.server ≠ .stopped
  shutdownQuit : ∀ i, s.client i ≠ .shutdownQuit
  inv : Rendezvous.Inv (view s)

omit [DecidableEq ι] in
theorem orderly_init : Orderly (State.init ι) where
  quit := rfl
  stopped := by simp [State.init]
  shutdownQuit _ := by simp [State.init]
  inv := by
    refine ⟨fun i j hi => hi.elim, fun i hi => hi.elim, fun hlock => ?_, fun i => trivial,
      fun _ => ⟨rfl, rfl, rfl, rfl, rfl⟩, ?_⟩
    · simp [view, State.init] at hlock
    · simp [view, State.init]

section

variable {info : PackInfo} {s t : State ι} {a : Action ι}

/-- Only a bare post leads a client to the write of `quit`. -/
private theorem shutdownQuit_of_step (h : step info s a = some t) (hpost : ¬BarePost s a) {i : ι}
    (hi : t.client i = .shutdownQuit) : s.client i = .shutdownQuit := by
  have hupdate : ∀ {j : ι} {pc : ClientPc}, pc ≠ .shutdownQuit →
      update s.client j pc i = .shutdownQuit → s.client i = .shutdownQuit := by
    intro j pc hpc hi
    by_cases hij : i = j
    · subst hij
      exact absurd (by simpa using hi) hpc
    · simpa [update_of_ne hij] using hi
  cases step_cases h with
  | call h => cases h <;> first | exact hi | exact hupdate (by simp) hi
  | client h =>
    cases h with
    | shutdownPost hpc => exact absurd hpc hpost
    | _ => exact hupdate (by simp) hi
  | server h => cases h <;> exact hi
  | poller h => cases h <;> exact hi
  | hardware h => cases h <;> exact hi

/-- **Every step but a bare post keeps a state orderly.** -/
theorem Orderly.step (hs : Orderly s) (h : step info s a = some t) (hpost : ¬BarePost s a) :
    Orderly t where
  quit := by
    cases step_cases h with
    | call h => cases h <;> exact hs.quit
    | client h =>
      cases h with
      | shutdownQuit hpc => exact absurd hpc (hs.shutdownQuit _)
      | sendQuit hpc => rfl
      | _ => exact hs.quit
    | server h => cases h <;> exact hs.quit
    | poller h => cases h <;> exact hs.quit
    | hardware h => cases h <;> exact hs.quit
  stopped := by
    cases step_cases h with
    | call h => cases h <;> exact hs.stopped
    | client h => cases h <;> exact hs.stopped
    | server h =>
      cases h with
      | quit hpc hquit => simp [hs.quit] at hquit
      | _ => simp
    | poller h => cases h <;> exact hs.stopped
    | hardware h => cases h <;> exact hs.stopped
  shutdownQuit i hi := hs.shutdownQuit i (shutdownQuit_of_step h hpost hi)
  inv := by
    rcases view_step h hs.quit hpost with hview | hstep
    · rw [hview]
      exact hs.inv
    · exact hs.inv.step hstep

end

section

variable {s : State ι}

omit [DecidableEq ι] in
/-- Before the server stores an id, the command in shared memory is the last one entered and none of
its successors is served. -/
theorem Orderly.of_taken (h : Orderly s) (hserver : s.server.phase = .taken) :
    ∃ i n, s.cmd.ticket = some n ∧ s.acquired[n]? = some (i, s.cmd.cmd) ∧
      s.acquired.length = n + 1 ∧ s.served.length = n ∧ s.pushed.length = n := by
  obtain ⟨i, n, c, -, ⟨hlength, hlast⟩, hservice, hslot⟩ :=
    h.inv.exists_waiting (by simp [view, hserver])
  obtain ⟨hticket, hcmd⟩ := Prod.mk.inj hslot
  cases hservice with
  | taken _ _ _ hpushed hreplies =>
    have hlen := congrArg List.length hpushed
    simp only [Rendezvous.length_tagged, List.length_append, List.length_singleton, view,
      List.length_map] at hlen
    have hlength' : s.acquired.length = n + 1 := hlength
    exact ⟨i, n, hticket, hcmd ▸ hlast, hlength, hreplies, by omega⟩
  | posted _ _ hserver' | stored _ _ hserver' | pushed _ _ hserver' | answered _ _ hserver' =>
    simp [view, hserver] at hserver'

omit [DecidableEq ι] in
/-- Between storing the id and pushing, the command in shared memory is the last one entered and the
last one served. -/
theorem Orderly.of_stored (h : Orderly s) (hserver : s.server.phase = .stored) :
    ∃ i n, s.cmd.ticket = some n ∧ s.acquired[n]? = some (i, s.cmd.cmd) ∧
      s.acquired.length = n + 1 ∧ s.served.length = n + 1 ∧
      s.served[n]? = some (some n, s.pthreadWaitId) ∧ s.pushed.length = n := by
  obtain ⟨i, n, c, -, ⟨hlength, hlast⟩, hservice, hslot⟩ :=
    h.inv.exists_waiting (by simp [view, hserver])
  obtain ⟨hticket, hcmd⟩ := Prod.mk.inj hslot
  cases hservice with
  | stored _ _ _ hpushed hreplies hreply =>
    have hlen := congrArg List.length hpushed
    simp only [Rendezvous.length_tagged, List.length_append, List.length_singleton, view,
      List.length_map] at hlen
    have hlength' : s.acquired.length = n + 1 := hlength
    exact ⟨i, n, hticket, hcmd ▸ hlast, hlength, hreplies, hreply, by omega⟩
  | posted _ _ hserver' | taken _ _ hserver' | pushed _ _ hserver' | answered _ _ hserver' =>
    simp [view, hserver] at hserver'

omit [DecidableEq ι] in
theorem Orderly.resting_of_sendWrite (h : Orderly s) {i : ι} {n : ℕ} {c : RoccCmd}
    (hpc : s.client i = .sendWrite n c) : s.server.phase = .resting := by
  have hok : Rendezvous.ClientOk (view s).toShared i (s.client i).phase := h.inv.client i
  rw [hpc] at hok
  exact hok.2.server

omit [DecidableEq ι] in
/-- While nobody holds `cmd_send_lock` every command entered is served. -/
theorem Orderly.length_served (h : Orderly s) (hfree : s.cmdSendLock = false) :
    s.served.length = s.acquired.length := by
  have hrest := h.inv.free fun i hi => by
    have hlock : s.cmdSendLock = true := h.inv.locked i hi
    simp [hfree] at hlock
  exact hrest.replies

omit [DecidableEq ι] in
/-- A `send` about to return has the id that the server stored for its command. -/
theorem Orderly.of_sendQuit (h : Orderly s) {i : ι} {n handle : ℕ} {c : RoccCmd}
    (hpc : s.client i = .sendQuit n c handle) :
    s.acquired[n]? = some (i, c) ∧ s.served[n]? = some (some n, handle) := by
  have hok : Rendezvous.ClientOk (view s).toShared i (s.client i).phase := h.inv.client i
  rw [hpc] at hok
  exact ⟨hok.1, hok.2.reply⟩

end

end Beethoven.Command
