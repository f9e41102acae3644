import Mathlib.Algebra.BigOperators.Group.Finset.Piecewise
import Mathlib.Data.Fintype.Basic
import Beethoven.Command.Handshake

/-!
# Submitting commands

Runs in which clients only send. Every command is pushed to the command queue once, in the order in
which the clients acquired `cmd_send_lock`, and every `send` returns the id that the server stored
while it processed that command. No wake-up is lost: the calls already made can only take a bounded
number of further steps, and when they can take none, every command is pushed and every call has
returned.
-/

namespace Beethoven.Command

open Lib Function

variable {ι : Type}

/-- A client calls `send`, or a client or the server takes a step. -/
def Submitting (_ : State ι) : Action ι → Prop
  | .call _ (.send _) | .client _ | .server _ => True
  | _ => False

instance (s : State ι) : (a : Action ι) → Decidable (Submitting s a)
  | .call _ (.send _) | .client _ | .server _ => inferInstanceAs (Decidable True)
  | .call _ .shutdown | .call _ (.get _) | .call _ (.tryGet _) | .call _ (.copy _)
  | .poller _ | .deliver | .respond .. | .unsolicited _ => inferInstanceAs (Decidable False)

/-- A client or the server takes a step of a call already made. -/
def Continuing (_ : State ι) : Action ι → Prop
  | .client _ | .server _ => True
  | _ => False

/-- The client is not in a call, or in `send`. -/
def ClientPc.InSend : ClientPc → Prop
  | .idle | .sendLock _ | .sendWrite .. | .sendPost .. | .sendAwait .. | .sendRead ..
  | .sendUnlock .. | .sendQuit .. => True
  | _ => False

/-- The server holds `free_list_lock`. -/
def ServerPc.holdsFreeList : ServerPc → Bool
  | .popSlot | .unlockFreeList => true
  | _ => false

/-- The server holds `cmdserverlock`. -/
def ServerPc.holdsCmdserver : ServerPc → Bool
  | .testQuit | .push | .fileInFlight | .unlockResp | .unlockCmdserver | .stopped => true
  | _ => false

/-- What holds in runs in which clients only send. -/
structure SubmittingInv (s : State ι) : Prop where
  orderly : Orderly s
  inSend : ∀ i, (s.client i).InSend
  freeListLock : s.freeListLock = s.server.holdsFreeList
  cmdserverlock : s.cmdserverlock = s.server.holdsCmdserver
  accounted : ∀ n < s.acquired.length,
    (∃ r ∈ s.returned, r.2.1 = n) ∨ ∃ i, (s.client i).ticket = some n

theorem submittingInv_init : SubmittingInv (State.init ι) where
  orderly := orderly_init
  inSend _ := trivial
  freeListLock := rfl
  cmdserverlock := rfl
  accounted n hn := absurd hn (by simp [State.init])

section

variable [DecidableEq ι] {info : PackInfo} {s t : State ι}

private theorem exists_ticket_update {f : ι → ClientPc} {i : ι} {pc : ClientPc} {n : ℕ}
    (hpc : pc.ticket = (f i).ticket) (h : ∃ j, (f j).ticket = some n) :
    ∃ j, (update f i pc j).ticket = some n := by
  obtain ⟨j, hj⟩ := h
  refine ⟨j, ?_⟩
  by_cases hji : j = i
  · subst hji
    rw [update_self, hpc, hj]
  · rw [update_of_ne hji, hj]

private theorem SubmittingInv.inSend_update (h : SubmittingInv s) (i : ι) {pc : ClientPc}
    (hpc : pc.InSend) : ∀ j, (update s.client i pc j).InSend :=
  (forall_update_iff s.client fun _ pc => pc.InSend).mpr ⟨hpc, fun j _ => h.inSend j⟩

omit [DecidableEq ι] in
private theorem SubmittingInv.notBarePost (h : SubmittingInv s) (a : Action ι) :
    ¬BarePost s a := by
  intro hpost
  cases a with
  | client i =>
    have hi : s.client i = .shutdownPost := hpost
    have hin := h.inSend i
    rw [hi] at hin
    exact hin
  | _ => exact hpost

theorem SubmittingInv.step_server {stray : ℕ} (h : SubmittingInv s)
    (hstep : Command.step info s (.server stray) = some t) : SubmittingInv t := by
  have horderly := h.orderly.step hstep (h.notBarePost _)
  have hfree := h.freeListLock
  have hcmd := h.cmdserverlock
  cases serverStep_cases hstep with
  | quit hpc hquit => exact absurd hquit (by simp [h.orderly.quit])
  | lockServerMut hpc | expectsResponse hpc | expectsNoResponse hpc | lockFreeList hpc
  | popSlot hpc | unlockFreeList hpc | storeWaitId hpc | lockCmdserver hpc | keepOn hpc
  | push hpc | fileInFlight hpc | fileNothing hpc | unlockResp hpc | unlockCmdserver hpc =>
    rw [hpc] at hfree hcmd
    exact ⟨horderly, h.inSend, by first | rfl | exact hfree, by first | rfl | exact hcmd,
      h.accounted⟩

theorem SubmittingInv.step_client {i : ι} (h : SubmittingInv s)
    (hstep : Command.step info s (.client i) = some t) : SubmittingInv t := by
  have horderly := h.orderly.step hstep (h.notBarePost _)
  have hin := h.inSend i
  cases clientStep_cases hstep with
  | sendLock hpc =>
    refine ⟨horderly, h.inSend_update i trivial, h.freeListLock, h.cmdserverlock, fun n hn => ?_⟩
    by_cases hlast : n = s.acquired.length
    · exact .inr ⟨i, by simp [ClientPc.ticket, hlast]⟩
    · refine (h.accounted n ?_).imp id fun hex => ?_
      · simp only [List.length_append, List.length_singleton] at hn
        omega
      · obtain ⟨j, hj⟩ := hex
        have hji : j ≠ i := by
          rintro rfl
          simp [hpc, ClientPc.ticket] at hj
        exact ⟨j, by simpa [update_of_ne hji] using hj⟩
  | @sendQuit tk c handle hpc =>
    refine ⟨horderly, h.inSend_update i trivial, h.freeListLock, h.cmdserverlock, fun n hn => ?_⟩
    rcases h.accounted n hn with ⟨r, hr, hrn⟩ | ⟨j, hj⟩
    · exact .inl ⟨r, List.mem_append_left _ hr, hrn⟩
    · by_cases hji : j = i
      · subst hji
        rw [hpc, ClientPc.ticket, Option.some.injEq] at hj
        exact .inl ⟨(j, tk, handle), by simp, hj⟩
      · exact .inr ⟨j, by simpa [update_of_ne hji] using hj⟩
  | sendWrite hpc | sendPost hpc | sendAwait hpc | sendRead hpc | sendUnlock hpc =>
    refine ⟨horderly, h.inSend_update i trivial, h.freeListLock, h.cmdserverlock, fun n hn => ?_⟩
    exact (h.accounted n hn).imp id fun hex => exists_ticket_update (by rw [hpc]; rfl) hex
  | shutdownLock hpc | shutdownPost hpc | shutdownQuit hpc | shutdownUnlock hpc | getWait hpc
  | tryFails hpc | getTry hpc | getRead hpc | getLock hpc | getPush hpc | getUnlock hpc =>
    rw [hpc] at hin
    exact hin.elim

theorem SubmittingInv.step_call {i : ι} {c : RoccCmd} (h : SubmittingInv s)
    (hstep : Command.step info s (.call i (.send c)) = some t) : SubmittingInv t := by
  have horderly := h.orderly.step hstep (h.notBarePost _)
  cases callStep_cases hstep with
  | send hpc =>
    refine ⟨horderly, h.inSend_update i trivial, h.freeListLock, h.cmdserverlock, fun n hn => ?_⟩
    exact (h.accounted n hn).imp id fun hex => exists_ticket_update (by rw [hpc]; rfl) hex

theorem SubmittingInv.step {a : Action ι} (h : SubmittingInv s) (ha : Submitting s a)
    (hstep : Command.step info s a = some t) : SubmittingInv t :=
  match a, ha, hstep with
  | .call _ (.send _), _, hstep => h.step_call hstep
  | .client _, _, hstep => h.step_client hstep
  | .server _, _, hstep => h.step_server hstep

theorem submittingInv_of_reaches (hs : (commandSystem ι info).Reaches Submitting s) :
    SubmittingInv s :=
  hs.invariant submittingInv_init fun _ _ _ h ha hstep => h.step ha hstep

end

/-! ### Bounded work -/

/-- The steps that the server can still take for the command it has taken up. -/
def ServerPc.work : ServerPc → ℕ
  | .lockServerMut | .stopped => 0
  | .unlockCmdserver => 1
  | .unlockResp => 2
  | .fileInFlight => 3
  | .push => 4
  | .testQuit => 5
  | .lockCmdserver => 6
  | .storeWaitId => 7
  | .unlockFreeList => 8
  | .popSlot => 9
  | .lockFreeList => 10
  | .readXd => 11

/-- The steps that a `send` can still take, those of the server for it included until it has posted
`server_mut`. -/
def ClientPc.work : ClientPc → ℕ
  | .sendLock _ => 19
  | .sendWrite .. => 18
  | .sendPost .. => 17
  | .sendAwait .. => 4
  | .sendRead .. => 3
  | .sendUnlock .. => 2
  | .sendQuit .. => 1
  | _ => 0

/-- The steps that the calls already made can still take. -/
def State.work [Fintype ι] (s : State ι) : ℕ :=
  (∑ i, (s.client i).work) + s.server.work + if s.serverMut then 0 else 12

section

variable [DecidableEq ι] [Fintype ι] {info : PackInfo} {s t : State ι}

private theorem sum_work_update (f : ι → ClientPc) (i : ι) (pc : ClientPc) :
    (∑ j, (update f i pc j).work) + (f i).work = (∑ j, (f j).work) + pc.work := by
  have hnew : (fun j => (update f i pc j).work) =
      update (fun j => (f j).work) i pc.work := by
    funext j
    exact apply_update (fun _ => ClientPc.work) f i pc j
  rw [hnew, Finset.sum_update_of_mem (Finset.mem_univ i),
    ← Finset.add_sum_erase _ _ (Finset.mem_univ i), Finset.sdiff_singleton_eq_erase]
  omega

private theorem work_lt_of_client {i : ι} {pc : ClientPc} (hclient : t.client =
    update s.client i pc) (hserver : t.server = s.server)
    (hlt : pc.work + (if t.serverMut then 0 else 12) <
      (s.client i).work + if s.serverMut then 0 else 12) : t.work < s.work := by
  have hsum := sum_work_update s.client i pc
  rw [State.work, State.work, hclient, hserver]
  omega

/-- Every step of a client or of the server uses up work. -/
theorem SubmittingInv.work_lt {a : Action ι} (h : SubmittingInv s) (ha : Continuing s a)
    (hstep : Command.step info s a = some t) : t.work < s.work := by
  match a, ha, hstep with
  | .server stray, _, hstep =>
    cases serverStep_cases hstep with
    | lockServerMut hpc hfree => simp [State.work, hpc, hfree, ServerPc.work]
    | quit hpc hquit => exact absurd hquit (by simp [h.orderly.quit])
    | expectsResponse hpc | expectsNoResponse hpc | lockFreeList hpc | popSlot hpc
    | unlockFreeList hpc | storeWaitId hpc | lockCmdserver hpc | keepOn hpc | push hpc
    | fileInFlight hpc | fileNothing hpc | unlockResp hpc | unlockCmdserver hpc =>
      simp [State.work, hpc, ServerPc.work]
  | .client i, _, hstep =>
    have hin := h.inSend i
    cases clientStep_cases hstep with
    | sendPost hpc =>
      refine work_lt_of_client rfl rfl ?_
      rw [hpc]
      simp only [ClientPc.work]
      split_ifs <;> simp
    | sendLock hpc | sendWrite hpc | sendAwait hpc | sendRead hpc | sendUnlock hpc
    | sendQuit hpc =>
      refine work_lt_of_client rfl rfl ?_
      rw [hpc]
      simp [ClientPc.work]
    | shutdownLock hpc | shutdownPost hpc | shutdownQuit hpc | shutdownUnlock hpc | getWait hpc
    | tryFails hpc | getTry hpc | getRead hpc | getLock hpc | getPush hpc | getUnlock hpc =>
      rw [hpc] at hin
      exact hin.elim

/-- The calls already made take at most as many steps as the state has work. -/
theorem SubmittingInv.length_le_work {l : List (Action ι)} (h : SubmittingInv s)
    (hrun : (commandSystem ι info).Run Continuing s l t) : l.length ≤ s.work := by
  induction hrun with
  | nil s => exact Nat.zero_le _
  | @cons s t u a l ha hstep _ ih =>
    have hsub : Submitting s a := by
      match a, ha with
      | .client _, _ => trivial
      | .server _, _ => trivial
    have hlt := h.work_lt ha hstep
    have hle := ih (h.step hsub hstep)
    simp only [List.length_cons]
    omega

end

/-! ### Quiescence -/

/-- No client and not the server can take a step. -/
def Quiescent [DecidableEq ι] (s : State ι) : Prop :=
  (∀ i, clientStep s i = none) ∧ ∀ stray, serverStep stray s = none

section

variable [DecidableEq ι] {s : State ι}

/-- Without a further step the server waits on `server_mut`. -/
theorem SubmittingInv.server_of_quiescent (h : SubmittingInv s) (hq : Quiescent s) :
    s.server = .lockServerMut ∧ s.serverMut = true := by
  have hserver := hq.2 0
  have hfree := h.freeListLock
  have hcmd := h.cmdserverlock
  cases hpc : s.server with
  | lockServerMut =>
    refine ⟨rfl, ?_⟩
    by_contra hmut
    simp [serverStep, hpc, lockThen, hmut] at hserver
  | stopped => exact absurd hpc h.orderly.stopped
  | lockFreeList =>
    rw [hpc] at hfree
    simp [serverStep, hpc, lockThen, hfree, ServerPc.holdsFreeList] at hserver
  | lockCmdserver =>
    rw [hpc] at hcmd
    simp [serverStep, hpc, lockThen, hcmd, ServerPc.holdsCmdserver] at hserver
  | readXd | testQuit | fileInFlight =>
    simp only [serverStep, hpc] at hserver
    split_ifs at hserver
  | popSlot | unlockFreeList | storeWaitId | push | unlockResp | unlockCmdserver =>
    simp [serverStep, hpc] at hserver

/-- Without a further step no client holds `cmd_send_lock`. -/
theorem SubmittingInv.not_holds_of_quiescent (h : SubmittingInv s) (hq : Quiescent s) (i : ι) :
    ¬((view s).client i).Holds := by
  obtain ⟨hpc, hmut⟩ := h.server_of_quiescent hq
  have hclient := hq.1 i
  have hin := h.inSend i
  have hok := h.orderly.inv.client i
  intro hholds
  change ((s.client i).phase).Holds at hholds
  change Rendezvous.ClientOk _ i (s.client i).phase at hok
  cases hi : s.client i with
  | sendAwait t c =>
    rw [hi] at hok
    obtain ⟨-, hservice, -⟩ := hok
    -- the token is neither in `server_mut` nor with the server, so the answer is posted
    cases hservice with
    | posted hwake => simp [view, hmut] at hwake
    | taken _ _ hserver | stored _ _ hserver | pushed _ _ hserver =>
      simp [view, hpc, ServerPc.phase] at hserver
    | answered _ hanswer =>
      have hresp : s.cmdRecieveServerRespLock = false := by simpa [view] using hanswer
      simp [clientStep, hi, lockThen, hresp] at hclient
  | sendWrite | sendPost | sendRead | sendUnlock => simp [clientStep, hi] at hclient
  | idle | exited | sendLock | sendQuit | shutdownLock | getWait | getTry | getRead | getLock
  | getPush | getUnlock =>
    rw [hi] at hholds
    exact hholds
  | shutdownPost | shutdownQuit | shutdownUnlock =>
    rw [hi] at hin
    exact hin

/-- **No lost wake-up.** Without a further step every client is idle, every command is pushed and
every call has returned. -/
theorem SubmittingInv.complete (h : SubmittingInv s) (hq : Quiescent s) :
    (∀ i, s.client i = .idle) ∧
      Rendezvous.tagged s.acquired = s.pushed.map (fun x => (x.ticket, x.cmd)) ∧
      ∀ n < s.acquired.length, ∃ r ∈ s.returned, r.2.1 = n := by
  have hnot := h.not_holds_of_quiescent hq
  have hlock : s.cmdSendLock = false := by
    by_contra hlock
    obtain ⟨i, hi⟩ := h.orderly.inv.held (by simpa [view] using hlock)
    exact hnot i hi
  have hidle : ∀ i, s.client i = .idle := by
    intro i
    have hclient := hq.1 i
    have hin := h.inSend i
    have hi := hnot i
    change ¬((s.client i).phase).Holds at hi
    cases hpc : s.client i with
    | idle => rfl
    | sendLock c => simp [clientStep, hpc, lockThen, hlock] at hclient
    | sendQuit => simp [clientStep, hpc] at hclient
    | sendWrite | sendPost | sendAwait | sendRead | sendUnlock =>
      rw [hpc] at hi
      exact absurd trivial hi
    | exited | shutdownLock | shutdownPost | shutdownQuit | shutdownUnlock | getWait | getTry
    | getRead | getLock | getPush | getUnlock =>
      rw [hpc] at hin
      exact hin.elim
  refine ⟨hidle, (h.orderly.inv.free hnot).pushed, fun n hn => ?_⟩
  refine (h.accounted n hn).resolve_right ?_
  rintro ⟨i, hi⟩
  simp [hidle i, ClientPc.ticket] at hi

end

/-! ### Exactly-once submission -/

/-- Exactly-once submission. -/
structure Submitted [DecidableEq ι] [Fintype ι] (info : PackInfo) (s : State ι) : Prop where
  /-- The queue got the commands in the order in which their clients acquired `cmd_send_lock`, each
  once; only the last may be missing. -/
  order : ∃ rest, Rendezvous.tagged s.acquired =
    s.pushed.map (fun x => (x.ticket, x.cmd)) ++ rest ∧ rest.length ≤ 1
  /-- A client returned with the id stored while the server processed its own command. -/
  returned : ∀ i t handle, (i, t, handle) ∈ s.returned →
    (s.acquired[t]?).map Prod.fst = some i ∧ t < s.pushed.length ∧
      s.served[t]? = some (some t, handle)
  /-- The calls already made end. -/
  bounded : ∀ l t, (commandSystem ι info).Run Continuing s l t → l.length ≤ s.work
  /-- When they have ended, every command is pushed and every call has returned. -/
  complete : Quiescent s → (∀ i, s.client i = .idle) ∧
    Rendezvous.tagged s.acquired = s.pushed.map (fun x => (x.ticket, x.cmd)) ∧
    ∀ n < s.acquired.length, ∃ r ∈ s.returned, r.2.1 = n

/-- **Exactly-once submission** holds in every state that clients and server reach, whatever the
interleaving of their steps. -/
theorem submitted_of_reaches [DecidableEq ι] [Fintype ι] {info : PackInfo} {s : State ι}
    (hs : (commandSystem ι info).Reaches Submitting s) : Submitted info s := by
  have h := submittingInv_of_reaches hs
  refine ⟨h.orderly.inv.pushed_append, fun i t handle hr => ?_, fun l t hrun => ?_, h.complete⟩
  · have hreplied := h.orderly.inv.returned _ hr
    exact ⟨hreplied.entered, by simpa [view] using hreplied.pushed, hreplied.reply⟩
  · exact h.length_le_work hrun

/-- Two clients send, the second one calling while the first is served. -/
theorem submitted_two_clients :
    ∃ s, (commandSystem (Fin 2) ⟨4, 8⟩).Reaches Submitting s ∧
      s.returned = [(0, 0, 255), (1, 1, 0xffff)] ∧ s.pushed.length = 2 ∧
      Submitted ⟨4, 8⟩ s := by
  obtain ⟨s, hs, hreturned, hpushed⟩ := (commandSystem (Fin 2) ⟨4, 8⟩).exists_reaches Submitting
    (fun s => s.returned = [(0, 0, 255), (1, 1, 0xffff)] ∧ s.pushed.length = 2)
    (List.flatten [[.call 0 (.send { xd := 1 }), .client 0, .client 0, .client 0],
      [.call 1 (.send {})], List.replicate 11 (.server 0),
      [.client 0, .client 0, .client 0, .client 1, .client 0, .client 1, .client 1],
      List.replicate 9 (.server 0), List.replicate 4 (.client 1)]) (by decide +kernel)
  exact ⟨s, hs, hreturned, hpushed, submitted_of_reaches hs⟩

end Beethoven.Command
