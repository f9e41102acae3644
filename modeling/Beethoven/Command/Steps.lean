import Beethoven.Command.CmdServer

/-!
# What a step of the command system does

One constructor for each way in which a party can take a step, with the condition under which it is
taken. Invariants are proved by cases on these relations.
-/

namespace Beethoven.Command

open Function

variable {ι : Type}

/-- The ticket of a `send` that has acquired `cmd_send_lock` and not returned. -/
def ClientPc.ticket : ClientPc → Option ℕ
  | .sendWrite t _ | .sendPost t _ | .sendAwait t _ | .sendRead t _ | .sendUnlock t ..
  | .sendQuit t .. => some t
  | _ => none

/-- The steps of `cmd_server_f`. -/
inductive ServerStep (stray : ℕ) (s : State ι) : State ι → Prop
  | lockServerMut (hpc : s.server = .lockServerMut) (hfree : s.serverMut = false) :
      ServerStep stray s { s with serverMut := true, server := .readXd }
  | expectsResponse (hpc : s.server = .readXd) (hxd : s.cmd.cmd.getXd = true) :
      ServerStep stray s { s with server := .lockFreeList }
  | expectsNoResponse (hpc : s.server = .readXd) (hxd : s.cmd.cmd.getXd = false) :
      ServerStep stray s { s with serverId := 0xffff, server := .storeWaitId }
  | lockFreeList (hpc : s.server = .lockFreeList) (hfree : s.freeListLock = false) :
      ServerStep stray s { s with freeListLock := true, server := .popSlot }
  | popSlot (hpc : s.server = .popSlot) :
      ServerStep stray s { s with
        serverId := s.slotAt stray
        freeListIdx := decU16 s.freeListIdx
        held := s.held ++ [(s.cmd.ticket, s.slotAt stray)]
        slotOf := update s.slotOf s.cmd.ticket (s.slotAt stray)
        server := .unlockFreeList }
  | unlockFreeList (hpc : s.server = .unlockFreeList) :
      ServerStep stray s { s with freeListLock := false, server := .storeWaitId }
  | storeWaitId (hpc : s.server = .storeWaitId) :
      ServerStep stray s { s with
        pthreadWaitId := s.serverId
        served := s.served ++ [(s.cmd.ticket, s.serverId)]
        server := .lockCmdserver }
  | lockCmdserver (hpc : s.server = .lockCmdserver) (hfree : s.cmdserverlock = false) :
      ServerStep stray s { s with cmdserverlock := true, server := .testQuit }
  | quit (hpc : s.server = .testQuit) (hquit : s.quit = true) :
      ServerStep stray s { s with mainLock := false, server := .stopped }
  | keepOn (hpc : s.server = .testQuit) (hquit : s.quit = false) :
      ServerStep stray s { s with server := .push }
  | push (hpc : s.server = .push) :
      ServerStep stray s { s with
        cmds := s.cmds ++ [s.cmd], pushed := s.pushed ++ [s.cmd], server := .fileInFlight }
  | fileInFlight (hpc : s.server = .fileInFlight) (hxd : s.cmd.cmd.getXd = true) :
      ServerStep stray s { s with
        inFlight := update s.inFlight s.cmd.cmd.key
          (some ((s.inFlight s.cmd.cmd.key).getD [] ++ [s.serverId]))
        server := .unlockResp }
  | fileNothing (hpc : s.server = .fileInFlight) (hxd : s.cmd.cmd.getXd = false) :
      ServerStep stray s { s with server := .unlockResp }
  | unlockResp (hpc : s.server = .unlockResp) :
      ServerStep stray s { s with
        cmdRecieveServerRespLock := false, server := .unlockCmdserver }
  | unlockCmdserver (hpc : s.server = .unlockCmdserver) :
      ServerStep stray s { s with cmdserverlock := false, server := .lockServerMut }

/-- The steps of `register_reponse`. -/
inductive PollerStep (info : PackInfo) (stray : ℕ) (s : State ι) : State ι → Prop
  | receive {t buffer chan} (hpc : s.poller = .idle) (hchan : s.chan = (t, buffer) :: chan) :
      PollerStep info stray s
        { s with chan := chan, poller := .lock t (.ofBuffer info buffer) }
  | lock {t r} (hpc : s.poller = .lock t r) (hfree : s.cmdserverlock = false) :
      PollerStep info stray s { s with cmdserverlock := true, poller := .find t r }
  | notFound {t r} (hpc : s.poller = .find t r) (hfind : s.inFlight r.key = none) :
      PollerStep info stray s { s with poller := .reject }
  | found {t r q} (hpc : s.poller = .find t r) (hfind : s.inFlight r.key = some q) :
      PollerStep info stray s { s with poller := .write t r (q.headD stray) }
  | write {t r id} (hpc : s.poller = .write t r id) :
      PollerStep info stray s
        { s with responses := update s.responses id r, poller := .signal t r id }
  | signal {t r id} (hpc : s.poller = .signal t r id) :
      PollerStep info stray s { s with
        waitForResponse := update s.waitForResponse id false, poller := .pop t r }
  | pop {t r} (hpc : s.poller = .pop t r) :
      PollerStep info stray s { s with
        inFlight := update s.inFlight r.key ((s.inFlight r.key).map List.tail)
        poller := .unlock }
  | unlock (hpc : s.poller = .unlock) :
      PollerStep info stray s { s with cmdserverlock := false, poller := .idle }
  | reject (hpc : s.poller = .reject) :
      PollerStep info stray s { s with cmdserverlock := false, mainLock := false, poller := .idle }

variable [DecidableEq ι]

/-- The calls of an idle client. -/
inductive CallStep (s : State ι) (i : ι) : Call → State ι → Prop
  | send {c} (hpc : s.client i = .idle) :
      CallStep s i (.send c) { s with client := update s.client i (.sendLock c) }
  | shutdown (hpc : s.client i = .idle) :
      CallStep s i .shutdown { s with client := update s.client i .shutdownLock }
  | get {o g} (hpc : s.client i = .idle) (hg : s.getters[o]? = some g) (huse : g.inUse = false)
      (hwait : g.canWait = true) (hrecieved : g.hasRecieved = false) :
      CallStep s i (.get o) { s with
        client := update s.client i (.getWait ⟨o, g.ticket, g.id⟩)
        getters := s.getters.set o { g with hasRecieved := true, inUse := true } }
  | getThrows {o} (hpc : s.client i = .idle) : CallStep s i (.get o) s
  | tryGet {o g} (hpc : s.client i = .idle) (hg : s.getters[o]? = some g) (huse : g.inUse = false)
      (hwait : g.canWait = true) (hrecieved : g.hasRecieved = false) :
      CallStep s i (.tryGet o) { s with
        client := update s.client i (.getTry ⟨o, g.ticket, g.id⟩)
        getters := s.getters.set o { g with inUse := true } }
  | tryGetExits {o} (hpc : s.client i = .idle) :
      CallStep s i (.tryGet o) { s with client := update s.client i .exited }
  | copy {o g} (hpc : s.client i = .idle) (hg : s.getters[o]? = some g) (huse : g.inUse = false) :
      CallStep s i (.copy o) { s with
        getters := s.getters.set o { g with isSource := true } ++ [{ g with isSource := false }] }

/-- The steps of a client inside a call. -/
inductive ClientStep (s : State ι) (i : ι) : State ι → Prop
  | sendLock {c} (hpc : s.client i = .sendLock c) (hfree : s.cmdSendLock = false) :
      ClientStep s i { s with
        client := update s.client i (.sendWrite s.acquired.length c)
        cmdSendLock := true, acquired := s.acquired ++ [(i, c)] }
  | sendWrite {t c} (hpc : s.client i = .sendWrite t c) :
      ClientStep s i { s with
        client := update s.client i (.sendPost t c)
        cmd := ⟨some t, c⟩ }
  | sendPost {t c} (hpc : s.client i = .sendPost t c) :
      ClientStep s i { s with
        client := update s.client i (.sendAwait t c)
        serverMut := false }
  | sendAwait {t c} (hpc : s.client i = .sendAwait t c)
      (hfree : s.cmdRecieveServerRespLock = false) :
      ClientStep s i { s with
        client := update s.client i (.sendRead t c)
        cmdRecieveServerRespLock := true }
  | sendRead {t c} (hpc : s.client i = .sendRead t c) :
      ClientStep s i { s with
        client := update s.client i (.sendUnlock t c s.pthreadWaitId) }
  | sendUnlock {t c handle} (hpc : s.client i = .sendUnlock t c handle) :
      ClientStep s i { s with
        client := update s.client i (.sendQuit t c handle)
        cmdSendLock := false }
  | sendQuit {t c handle} (hpc : s.client i = .sendQuit t c handle) :
      ClientStep s i { s with
        client := update s.client i .idle
        quit := false
        getters := s.getters ++ [⟨c.getXd, false, handle, t, false, false⟩]
        returned := s.returned ++ [(i, t, handle)] }
  | shutdownLock (hpc : s.client i = .shutdownLock) (hfree : s.cmdSendLock = false) :
      ClientStep s i { s with
        client := update s.client i .shutdownPost
        cmdSendLock := true }
  | shutdownPost (hpc : s.client i = .shutdownPost) :
      ClientStep s i { s with
        client := update s.client i .shutdownQuit
        serverMut := false }
  | shutdownQuit (hpc : s.client i = .shutdownQuit) :
      ClientStep s i { s with client := update s.client i .shutdownUnlock, quit := true }
  | shutdownUnlock (hpc : s.client i = .shutdownUnlock) :
      ClientStep s i { s with
        client := update s.client i .idle
        cmdSendLock := false
        shutdowns := s.shutdowns + 1 }
  | getWait {k} (hpc : s.client i = .getWait k) (hfree : s.waitForResponse k.id = false) :
      ClientStep s i { s with
        client := update s.client i (.getRead k)
        waitForResponse := update s.waitForResponse k.id true }
  | tryFails {k} (hpc : s.client i = .getTry k) (hlocked : s.waitForResponse k.id = true) :
      ClientStep s i { s with
        client := update s.client i .idle
        getters := s.getters.modify k.getter fun g => { g with inUse := false } }
  | getTry {k} (hpc : s.client i = .getTry k) (hfree : s.waitForResponse k.id = false) :
      ClientStep s i { s with
        client := update s.client i (.getRead k)
        waitForResponse := update s.waitForResponse k.id true }
  | getRead {k} (hpc : s.client i = .getRead k) :
      ClientStep s i { s with client := update s.client i (.getLock k (s.responses k.id)) }
  | getLock {k r} (hpc : s.client i = .getLock k r) (hfree : s.freeListLock = false) :
      ClientStep s i { s with
        client := update s.client i (.getPush k r)
        freeListLock := true }
  | getPush {k r} (hpc : s.client i = .getPush k r) :
      ClientStep s i { s with
        client := update s.client i (.getUnlock k r)
        freeListIdx := incU16 s.freeListIdx
        freeList := if incU16 s.freeListIdx < 256 then
          update s.freeList (incU16 s.freeListIdx) (k.id % 2 ^ 16) else s.freeList
        held := s.held.erase (some k.ticket, k.id)
        pushedBack := s.pushedBack ++ [k.ticket] }
  | getUnlock {k r} (hpc : s.client i = .getUnlock k r) :
      ClientStep s i { s with
        client := update s.client i .idle
        freeListLock := false
        getters := s.getters.modify k.getter fun g => { g with hasRecieved := true, inUse := false }
        collected := s.collected ++ [(k.ticket, r)] }

/-- The steps of the control bus and of the hardware. -/
inductive HardwareStep (s : State ι) : Action ι → State ι → Prop
  | deliver {x cmds} (hcmds : s.cmds = x :: cmds) :
      HardwareStep s .deliver { s with cmds := cmds, hw := s.hw ++ [x] }
  | respond {j x buffer} (hx : s.hw[j]? = some x) (hxd : x.cmd.getXd = true) :
      HardwareStep s (.respond j buffer) { s with
        hw := s.hw.eraseIdx j
        chan := s.chan ++ [(x.ticket, buffer)]
        emitted := s.emitted ++ [(x.ticket, buffer)] }
  | unsolicited {buffer} :
      HardwareStep s (.unsolicited buffer) { s with
        chan := s.chan ++ [(none, buffer)], emitted := s.emitted ++ [(none, buffer)] }

omit [DecidableEq ι] in
theorem serverStep_cases {stray : ℕ} {s t : State ι} (h : serverStep stray s = some t) :
    ServerStep stray s t := by
  cases hpc : s.server with
  | stopped => simp [serverStep, hpc] at h
  | lockServerMut =>
    simp only [serverStep, hpc, lockThen_eq_some] at h
    obtain ⟨hfree, rfl⟩ := h
    exact .lockServerMut hpc hfree
  | lockFreeList =>
    simp only [serverStep, hpc, lockThen_eq_some] at h
    obtain ⟨hfree, rfl⟩ := h
    exact .lockFreeList hpc hfree
  | lockCmdserver =>
    simp only [serverStep, hpc, lockThen_eq_some] at h
    obtain ⟨hfree, rfl⟩ := h
    exact .lockCmdserver hpc hfree
  | readXd =>
    simp only [serverStep, hpc] at h
    split_ifs at h with hxd
    · obtain rfl := Option.some.inj h
      exact .expectsResponse hpc hxd
    · obtain rfl := Option.some.inj h
      exact .expectsNoResponse hpc (by simpa using hxd)
  | testQuit =>
    simp only [serverStep, hpc] at h
    split_ifs at h with hquit
    · obtain rfl := Option.some.inj h
      exact .quit hpc hquit
    · obtain rfl := Option.some.inj h
      exact .keepOn hpc (by simpa using hquit)
  | fileInFlight =>
    simp only [serverStep, hpc] at h
    split_ifs at h with hxd
    · obtain rfl := Option.some.inj h
      exact .fileInFlight hpc hxd
    · obtain rfl := Option.some.inj h
      exact .fileNothing hpc (by simpa using hxd)
  | popSlot =>
    simp only [serverStep, hpc, Option.some.injEq] at h
    exact h ▸ .popSlot hpc
  | unlockFreeList =>
    simp only [serverStep, hpc, Option.some.injEq] at h
    exact h ▸ .unlockFreeList hpc
  | storeWaitId =>
    simp only [serverStep, hpc, Option.some.injEq] at h
    exact h ▸ .storeWaitId hpc
  | push =>
    simp only [serverStep, hpc, Option.some.injEq] at h
    exact h ▸ .push hpc
  | unlockResp =>
    simp only [serverStep, hpc, Option.some.injEq] at h
    exact h ▸ .unlockResp hpc
  | unlockCmdserver =>
    simp only [serverStep, hpc, Option.some.injEq] at h
    exact h ▸ .unlockCmdserver hpc

omit [DecidableEq ι] in
theorem pollerStep_cases {info : PackInfo} {stray : ℕ} {s t : State ι}
    (h : pollerStep info stray s = some t) : PollerStep info stray s t := by
  cases hpc : s.poller with
  | idle =>
    simp only [pollerStep, hpc] at h
    cases hchan : s.chan with
    | nil => simp [hchan] at h
    | cons head chan =>
      simp only [hchan, Option.some.injEq] at h
      exact h ▸ .receive hpc hchan
  | lock t r =>
    simp only [pollerStep, hpc, lockThen_eq_some] at h
    obtain ⟨hfree, rfl⟩ := h
    exact .lock hpc hfree
  | find t r =>
    simp only [pollerStep, hpc] at h
    cases hfind : s.inFlight r.key with
    | none =>
      simp only [hfind, Option.some.injEq] at h
      exact h ▸ .notFound hpc hfind
    | some q =>
      simp only [hfind, Option.some.injEq] at h
      exact h ▸ .found hpc hfind
  | write t r id =>
    simp only [pollerStep, hpc, Option.some.injEq] at h
    exact h ▸ .write hpc
  | signal t r id =>
    simp only [pollerStep, hpc, Option.some.injEq] at h
    exact h ▸ .signal hpc
  | pop t r =>
    simp only [pollerStep, hpc, Option.some.injEq] at h
    exact h ▸ .pop hpc
  | unlock =>
    simp only [pollerStep, hpc, Option.some.injEq] at h
    exact h ▸ .unlock hpc
  | reject =>
    simp only [pollerStep, hpc, Option.some.injEq] at h
    exact h ▸ .reject hpc

theorem callStep_cases {s t : State ι} {i : ι} {call : Call} (h : callStep s i call = some t) :
    CallStep s i call t := by
  cases hpc : s.client i with
  | idle =>
    cases call with
    | send c =>
      simp only [callStep, hpc, Option.some.injEq] at h
      exact h ▸ .send hpc
    | shutdown =>
      simp only [callStep, hpc, Option.some.injEq] at h
      exact h ▸ .shutdown hpc
    | get o =>
      simp only [callStep, hpc] at h
      obtain ⟨g, hg, h⟩ := Option.bind_eq_some_iff.mp h
      split_ifs at h with huse hwait
      · obtain rfl := Option.some.inj h
        simp only [Bool.and_eq_true, Bool.not_eq_true'] at hwait
        exact .get hpc hg (by simpa using huse) hwait.1 hwait.2
      · obtain rfl := Option.some.inj h
        exact .getThrows hpc
    | tryGet o =>
      simp only [callStep, hpc] at h
      obtain ⟨g, hg, h⟩ := Option.bind_eq_some_iff.mp h
      split_ifs at h with huse hwait
      · obtain rfl := Option.some.inj h
        simp only [Bool.and_eq_true, Bool.not_eq_true'] at hwait
        exact .tryGet hpc hg (by simpa using huse) hwait.1 hwait.2
      · obtain rfl := Option.some.inj h
        exact .tryGetExits hpc
    | copy o =>
      simp only [callStep, hpc] at h
      obtain ⟨g, hg, h⟩ := Option.bind_eq_some_iff.mp h
      split_ifs at h with huse
      obtain rfl := Option.some.inj h
      exact .copy hpc hg (by simpa using huse)
  | _ => simp [callStep, hpc] at h

theorem clientStep_cases {s t : State ι} {i : ι} (h : clientStep s i = some t) :
    ClientStep s i t := by
  cases hpc : s.client i with
  | idle => simp [clientStep, hpc] at h
  | exited => simp [clientStep, hpc] at h
  | sendLock c =>
    simp only [clientStep, hpc, lockThen_eq_some] at h
    obtain ⟨hfree, rfl⟩ := h
    exact .sendLock hpc hfree
  | sendAwait t c =>
    simp only [clientStep, hpc, lockThen_eq_some] at h
    obtain ⟨hfree, rfl⟩ := h
    exact .sendAwait hpc hfree
  | shutdownLock =>
    simp only [clientStep, hpc, lockThen_eq_some] at h
    obtain ⟨hfree, rfl⟩ := h
    exact .shutdownLock hpc hfree
  | getWait k =>
    simp only [clientStep, hpc, lockThen_eq_some] at h
    obtain ⟨hfree, rfl⟩ := h
    exact .getWait hpc hfree
  | getLock k r =>
    simp only [clientStep, hpc, lockThen_eq_some] at h
    obtain ⟨hfree, rfl⟩ := h
    exact .getLock hpc hfree
  | getTry k =>
    simp only [clientStep, hpc] at h
    split_ifs at h with hlocked
    · obtain rfl := Option.some.inj h
      exact .tryFails hpc hlocked
    · obtain rfl := Option.some.inj h
      exact .getTry hpc (by simpa using hlocked)
  | sendWrite t c =>
    simp only [clientStep, hpc, Option.some.injEq] at h
    exact h ▸ .sendWrite hpc
  | sendPost t c =>
    simp only [clientStep, hpc, Option.some.injEq] at h
    exact h ▸ .sendPost hpc
  | sendRead t c =>
    simp only [clientStep, hpc, Option.some.injEq] at h
    exact h ▸ .sendRead hpc
  | sendUnlock t c handle =>
    simp only [clientStep, hpc, Option.some.injEq] at h
    exact h ▸ .sendUnlock hpc
  | sendQuit t c handle =>
    simp only [clientStep, hpc, Option.some.injEq] at h
    exact h ▸ .sendQuit hpc
  | shutdownPost =>
    simp only [clientStep, hpc, Option.some.injEq] at h
    exact h ▸ .shutdownPost hpc
  | shutdownQuit =>
    simp only [clientStep, hpc, Option.some.injEq] at h
    exact h ▸ .shutdownQuit hpc
  | shutdownUnlock =>
    simp only [clientStep, hpc, Option.some.injEq] at h
    exact h ▸ .shutdownUnlock hpc
  | getRead k =>
    simp only [clientStep, hpc, Option.some.injEq] at h
    exact h ▸ .getRead hpc
  | getPush k r =>
    simp only [clientStep, hpc, Option.some.injEq] at h
    exact h ▸ .getPush hpc
  | getUnlock k r =>
    simp only [clientStep, hpc, Option.some.injEq] at h
    exact h ▸ .getUnlock hpc

/-- **What a step does.** -/
inductive StepCases (info : PackInfo) (s : State ι) : Action ι → State ι → Prop
  | call {i call t} (h : CallStep s i call t) : StepCases info s (.call i call) t
  | client {i t} (h : ClientStep s i t) : StepCases info s (.client i) t
  | server {stray t} (h : ServerStep stray s t) : StepCases info s (.server stray) t
  | poller {stray t} (h : PollerStep info stray s t) : StepCases info s (.poller stray) t
  | hardware {a t} (h : HardwareStep s a t) : StepCases info s a t

theorem step_cases {info : PackInfo} {s t : State ι} {a : Action ι}
    (h : step info s a = some t) : StepCases info s a t := by
  cases a with
  | call i call => exact .call (callStep_cases h)
  | client i => exact .client (clientStep_cases h)
  | server stray => exact .server (serverStep_cases h)
  | poller stray => exact .poller (pollerStep_cases h)
  | deliver =>
    simp only [step] at h
    cases hcmds : s.cmds with
    | nil => simp [hcmds] at h
    | cons x cmds =>
      simp only [hcmds, Option.some.injEq] at h
      exact .hardware (h ▸ .deliver hcmds)
  | respond j buffer =>
    simp only [step] at h
    obtain ⟨x, hx, h⟩ := Option.bind_eq_some_iff.mp h
    split_ifs at h with hxd
    obtain rfl := Option.some.inj h
    exact .hardware (.respond hx hxd)
  | unsolicited buffer =>
    simp only [step, Option.some.injEq] at h
    exact .hardware (h ▸ .unsolicited)

end Beethoven.Command
