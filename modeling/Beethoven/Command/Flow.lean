import Mathlib.Data.List.Perm.Basic
import Beethoven.Command.Slots
import Beethoven.Command.Submission

/-!
# The way of a command through the queues

A command that expects a response goes through the command queue to the hardware, its response
through the response channel to `register_reponse`. The queue `in_flight` of a (system, core) pair
holds the slots of the commands of this pair that are on this way, in the same order, when the
hardware answers the commands of each pair in the order in which they were delivered. So the front
of the queue is the slot of the command whose response arrives.
-/

namespace Beethoven.Command

open Lib Function

variable {ι : Type}

/-! ### The runs considered -/

/-- The ids of a command are in the ranges of the hardware. -/
def RoccCmd.Fits (c : RoccCmd) : Prop := c.systemId.toNat < 16 ∧ c.coreId.toNat < 256

instance (c : RoccCmd) : Decidable c.Fits := inferInstanceAs (Decidable (_ ∧ _))

/-- The commands sent have ids in the ranges of the hardware. -/
def SendsFit : Action ι → Prop
  | .call _ (.send c) => c.Fits
  | _ => True

instance : (a : Action ι) → Decidable (SendsFit a)
  | .call _ (.send c) => inferInstanceAs (Decidable c.Fits)
  | .call _ .shutdown | .call _ (.get _) | .call _ (.tryGet _) | .call _ (.copy _) | .client _
  | .server _ | .poller _ | .deliver | .respond .. | .unsolicited _ =>
    inferInstanceAs (Decidable True)

/-- At most 256 commands that expect a response are outstanding: the server takes up another one
only when fewer slots are held. -/
def FewOutstanding (s : State ι) : Action ι → Prop
  | .server _ => s.server = .popSlot → s.held.length < 256
  | _ => True

instance (s : State ι) : (a : Action ι) → Decidable (FewOutstanding s a)
  | .server _ => inferInstanceAs (Decidable (_ → _))
  | .call .. | .client _ | .poller _ | .deliver | .respond .. | .unsolicited _ =>
    inferInstanceAs (Decidable True)

/-- The hardware answers the commands of each (system, core) pair in the order in which they were
delivered, with responses that carry the ids of the command, and sends no other responses. -/
def AnswersInOrder (info : PackInfo) (s : State ι) : Action ι → Prop
  | .respond j buffer => ∀ x ∈ s.hw[j]?, buffer.Carries info x.cmd ∧
      ∀ y ∈ s.hw.take j, y.cmd.getXd = true →
        ¬(y.cmd.systemId = x.cmd.systemId ∧ y.cmd.coreId = x.cmd.coreId)
  | .unsolicited _ => False
  | _ => True

instance (info : PackInfo) (s : State ι) : (a : Action ι) → Decidable (AnswersInOrder info s a)
  | .respond j _ => inferInstanceAs (Decidable (∀ x ∈ s.hw[j]?, _ ∧ ∀ y ∈ s.hw.take j, _ → _))
  | .unsolicited _ => inferInstanceAs (Decidable False)
  | .call .. | .client _ | .server _ | .poller _ | .deliver => inferInstanceAs (Decidable True)

/-- Clients send and collect, each response is taken once, at most 256 commands are outstanding, and
the hardware answers in order. -/
def Routable (info : PackInfo) (s : State ι) (a : Action ι) : Prop :=
  NoShutdown a ∧ CollectsOnce s a ∧ SendsFit a ∧ FewOutstanding s a ∧ AnswersInOrder info s a

instance [Fintype ι] (info : PackInfo) (s : State ι) (a : Action ι) :
    Decidable (Routable info s a) :=
  inferInstanceAs (Decidable (_ ∧ _))

theorem Routable.popsFree {info : PackInfo} {s : State ι} {a : Action ι} (ha : Routable info s a)
    (h : Held s) : PopsFree s a := by
  obtain ⟨hshutdown, hcollects, -, hfew, -⟩ := ha
  refine ⟨hshutdown, hcollects, ?_⟩
  cases a with
  | server stray =>
    intro hpc hidx
    have hlength := h.length
    have hlt := hfew hpc
    rw [hidx] at hlength
    simp only [incU16, if_true] at hlength
    omega
  | _ => trivial

/-! ### Commands and responses on their way -/

/-- The response that the poller has read and for which the front of the queue is not popped. -/
def PollerPc.unpopped : PollerPc → List (Option ℕ × RoccResponse)
  | .lock t r | .find t r | .write t r _ | .signal t r _ | .pop t r => [(t, r)]
  | .idle | .unlock | .reject => []

/-- The responses that buffers hold. -/
def decode (info : PackInfo) (l : List (Option ℕ × ResponseBuffer)) :
    List (Option ℕ × RoccResponse) :=
  l.map fun e => (e.1, .ofBuffer info e.2)

/-- The commands that expect a response, on their way to the hardware or not yet answered. -/
def State.awaited (s : State ι) : List Issued := (s.hw ++ s.cmds).filter fun x => x.cmd.getXd

/-- The responses on their way to the queues. -/
def State.incoming (info : PackInfo) (s : State ι) : List (Option ℕ × RoccResponse) :=
  s.poller.unpopped ++ decode info s.chan

/-- The tickets of the responses and commands of pair `k` on their way. -/
def State.pipeline (info : PackInfo) (s : State ι) (k : SystemCorePair) : List (Option ℕ) :=
  ((s.incoming info).filter fun e => e.2.key = k).map Prod.fst ++
    (s.awaited.filter fun x => x.cmd.key = k).map Issued.ticket

/-- The slots filed for pair `k`, the one that the server is about to file included. -/
def State.filed (s : State ι) (k : SystemCorePair) : List ℕ :=
  (s.inFlight k).getD [] ++
    if s.server = .fileInFlight ∧ s.cmd.cmd.getXd = true ∧ s.cmd.cmd.key = k then [s.serverId]
    else []

/-- The commands sent fit, the commands queued are commands pushed, no command is answered twice,
and the responses on their way are the last ones emitted. -/
structure Transit (info : PackInfo) (s : State ι) : Prop where
  sending : ∀ i c, s.client i = .sendLock c → c.Fits
  fits : ∀ e ∈ s.acquired, e.2.Fits
  queued : ∀ x ∈ s.hw ++ s.cmds, ∃ n < s.pushed.length, x.ticket = some n ∧
    ∃ i, s.acquired[n]? = some (i, x.cmd)
  nodup : (s.emitted.map Prod.fst ++ s.awaited.map Issued.ticket).Nodup
  emitted : ∀ e ∈ s.emitted, ∃ n < s.pushed.length, e.1 = some n
  incoming : s.incoming info <:+ decode info s.emitted

theorem transit_init (info : PackInfo) : Transit info (State.init ι) := by
  constructor <;> simp [State.init, State.awaited, State.incoming, PollerPc.unpopped, decode]

section

variable {info : PackInfo} {s t : State ι} {a : Action ι}

theorem Transit.fits_of_queued (h : Transit info s) {x : Issued} (hx : x ∈ s.hw ++ s.cmds) :
    x.cmd.Fits := by
  obtain ⟨n, -, -, i, hi⟩ := h.queued x hx
  exact h.fits _ (List.mem_of_getElem? hi)

theorem eraseIdx_split {l : List Issued} {j : ℕ} {x : Issued} (hx : l[j]? = some x) :
    l = l.take j ++ x :: l.drop (j + 1) ∧ l.eraseIdx j = l.take j ++ l.drop (j + 1) := by
  obtain ⟨hlt, hget⟩ := List.getElem?_eq_some_iff.mp hx
  refine ⟨?_, List.eraseIdx_eq_take_drop_succ ..⟩
  rw [← hget, ← List.drop_eq_getElem_cons hlt, List.take_append_drop]

theorem awaited_concat (hw cmds : List Issued) (x : Issued) :
    (hw ++ (cmds ++ [x])).filter (fun x => x.cmd.getXd) =
      (hw ++ cmds).filter (fun x => x.cmd.getXd) ++ if x.cmd.getXd then [x] else [] := by
  rw [← List.append_assoc, List.filter_append, List.filter_singleton]
  cases x.cmd.getXd <;> rfl

private theorem Transit.of_eq (h : Transit info s)
    (hsending : ∀ i c, t.client i = .sendLock c → c.Fits) (hacquired : s.acquired <+: t.acquired)
    (hfits : ∀ e ∈ t.acquired, e.2.Fits) (hqueued : t.hw ++ t.cmds = s.hw ++ s.cmds)
    (hpushed : t.pushed = s.pushed) (hemitted : t.emitted = s.emitted)
    (hincoming : t.incoming info <:+ s.incoming info) : Transit info t where
  sending := hsending
  fits := hfits
  queued x hx := by
    rw [hqueued] at hx
    obtain ⟨n, hn, hticket, i, hi⟩ := h.queued x hx
    exact ⟨n, hpushed ▸ hn, hticket, i, Rendezvous.getElem?_mono hacquired hi⟩
  nodup := by
    rw [State.awaited, hqueued, hemitted]
    exact h.nodup
  emitted := by
    rw [hemitted, hpushed]
    exact h.emitted
  incoming := by
    rw [hemitted]
    exact hincoming.trans h.incoming

private theorem Transit.step_server {stray : ℕ} (h : Transit info s) (horderly : Orderly s)
    (hstep : ServerStep stray s t) : Transit info t := by
  cases hstep with
  | push hpc =>
    obtain ⟨i, n, hticket, hacquired, -, -, -, hpushed⟩ := horderly.of_stored (by rw [hpc]; rfl)
    have hlt : ∀ {m}, m < s.pushed.length → m < (s.pushed ++ [s.cmd]).length := fun hm => by
      rw [List.length_append]
      exact Nat.lt_add_right _ hm
    refine ⟨h.sending, h.fits, fun x hx => ?_, ?_, fun e he => ?_, h.incoming⟩
    · rw [← List.append_assoc] at hx
      rcases List.mem_append.mp hx with hx | hx
      · obtain ⟨m, hm, hrest⟩ := h.queued x hx
        exact ⟨m, hlt hm, hrest⟩
      · obtain rfl := List.mem_singleton.mp hx
        exact ⟨n, by simp [hpushed], hticket, i, hacquired⟩
    · have hfresh : some n ∉ s.emitted.map Prod.fst ++ s.awaited.map Issued.ticket := by
        intro hmem
        rcases List.mem_append.mp hmem with hmem | hmem
        · obtain ⟨e, he, hen⟩ := List.mem_map.mp hmem
          obtain ⟨m, hm, hem⟩ := h.emitted e he
          have hmn := Option.some.inj (hem.symm.trans hen)
          omega
        · obtain ⟨x, hx, hxn⟩ := List.mem_map.mp hmem
          obtain ⟨m, hm, hxm, -⟩ := h.queued x (List.mem_of_mem_filter hx)
          have hmn := Option.some.inj (hxm.symm.trans hxn)
          omega
      have hnodup := h.nodup
      simp only [State.awaited] at hnodup hfresh ⊢
      rw [awaited_concat]
      by_cases hxd : s.cmd.cmd.getXd = true
      · rw [if_pos hxd, List.map_append, ← List.append_assoc]
        simpa [hticket] using hnodup.concat hfresh
      · rw [if_neg hxd, List.append_nil]
        exact hnodup
    · obtain ⟨m, hm, hrest⟩ := h.emitted e he
      exact ⟨m, hlt hm, hrest⟩
  | _ => exact ⟨h.sending, h.fits, h.queued, h.nodup, h.emitted, h.incoming⟩

private theorem Transit.step_poller {stray : ℕ} (h : Transit info s)
    (hstep : PollerStep info stray s t) : Transit info t := by
  refine h.of_eq ?_ ?_ ?_ ?_ ?_ ?_ ?_
  · cases hstep <;> exact h.sending
  · cases hstep <;> exact List.prefix_refl _
  · cases hstep <;> exact h.fits
  · cases hstep <;> rfl
  · cases hstep <;> rfl
  · cases hstep <;> rfl
  · cases hstep with
    | receive hpc hchan => simp [State.incoming, hpc, hchan, PollerPc.unpopped, decode]
    | lock hpc | notFound hpc | found hpc | write hpc | signal hpc | pop hpc | unlock hpc
    | reject hpc => simp [State.incoming, hpc, PollerPc.unpopped]

private theorem Transit.step_hardware (h : Transit info s) (ha : AnswersInOrder info s a)
    (hstep : HardwareStep s a t) : Transit info t := by
  cases hstep with
  | @deliver x cmds hcmds =>
    refine h.of_eq h.sending (List.prefix_refl _) h.fits ?_ rfl rfl (List.suffix_refl _)
    simp [hcmds]
  | @respond j x buffer hx hxd =>
    have hsub : ∀ y ∈ s.hw.eraseIdx j ++ s.cmds, y ∈ s.hw ++ s.cmds := fun y hy =>
      (List.mem_append.mp hy).elim
        (fun hy => List.mem_append_left _ ((List.eraseIdx_sublist _ _).subset hy))
        (List.mem_append_right _)
    refine ⟨h.sending, h.fits, fun y hy => h.queued y (hsub y hy), ?_, fun e he => ?_, ?_⟩
    · obtain ⟨hhw, herase⟩ := eraseIdx_split hx
      refine (List.Perm.nodup_iff ?_).mp h.nodup
      simp only [State.awaited]
      rw [herase]
      nth_rewrite 1 [hhw]
      simp only [List.filter_append, List.filter_cons, hxd, if_true, List.append_assoc,
        List.map_append, List.map_cons, List.cons_append, List.map_nil, List.nil_append]
      exact List.Perm.append_left _ List.perm_middle
    · rcases List.mem_append.mp he with he | he
      · exact h.emitted e he
      · obtain rfl := List.mem_singleton.mp he
        obtain ⟨n, hn, hticket, -⟩ := h.queued x
          (List.mem_append_left _ (List.mem_of_getElem? hx))
        exact ⟨n, hn, hticket⟩
    · obtain ⟨l, hl⟩ := h.incoming
      refine ⟨l, ?_⟩
      simp only [State.incoming, decode, List.map_append, ← List.append_assoc] at hl ⊢
      rw [hl]
  | unsolicited => exact ha.elim

private theorem Transit.step_client [DecidableEq ι] {i : ι} (h : Transit info s)
    (hstep : ClientStep s i t) : Transit info t := by
  have hupdate : ∀ pc, (∀ c, pc ≠ .sendLock c) →
      ∀ j c, update s.client i pc j = .sendLock c → c.Fits := by
    intro pc hpc j c hj
    by_cases hji : j = i
    · subst hji
      exact absurd (by simpa using hj) (hpc c)
    · exact h.sending j c (by simpa [hji] using hj)
  cases hstep with
  | sendLock hpc =>
    refine h.of_eq (hupdate _ (by simp)) (List.prefix_append _ _) (fun e he => ?_) rfl rfl rfl
      (List.suffix_refl _)
    rcases List.mem_append.mp he with he | he
    · exact h.fits e he
    · obtain rfl := List.mem_singleton.mp he
      exact h.sending i _ hpc
  | _ =>
    exact h.of_eq (hupdate _ (by simp)) (List.prefix_refl _) h.fits rfl rfl rfl (List.suffix_refl _)

private theorem Transit.step_call [DecidableEq ι] {i : ι} {call : Call} (h : Transit info s)
    (ha : SendsFit (.call i call)) (hstep : CallStep s i call t) : Transit info t := by
  have hupdate : ∀ pc, (∀ c, pc = .sendLock c → c.Fits) →
      ∀ j c, update s.client i pc j = .sendLock c → c.Fits := by
    intro pc hpc j c hj
    by_cases hji : j = i
    · subst hji
      exact hpc c (by simpa using hj)
    · exact h.sending j c (by simpa [hji] using hj)
  cases hstep with
  | getThrows => exact h
  | copy => exact ⟨h.sending, h.fits, h.queued, h.nodup, h.emitted, h.incoming⟩
  | send hpc =>
    refine h.of_eq (hupdate _ fun c' hc' => ?_) (List.prefix_refl _) h.fits rfl rfl rfl
      (List.suffix_refl _)
    obtain rfl := ClientPc.sendLock.inj hc'
    exact ha
  | _ =>
    exact h.of_eq (hupdate _ (by simp)) (List.prefix_refl _) h.fits rfl rfl rfl (List.suffix_refl _)

theorem Transit.step [DecidableEq ι] (h : Transit info s) (horderly : Orderly s)
    (ha : Routable info s a) (hstep : Command.step info s a = some t) : Transit info t := by
  cases step_cases hstep with
  | call h' => exact h.step_call ha.2.2.1 h'
  | client h' => exact h.step_client h'
  | server h' => exact h.step_server horderly h'
  | poller h' => exact h.step_poller h'
  | hardware h' => exact h.step_hardware ha.2.2.2.2 h'

theorem Transit.lt_of_mem_pipeline (h : Transit info s) {k : SystemCorePair} {t : Option ℕ}
    (ht : t ∈ s.pipeline info k) : ∃ n < s.pushed.length, t = some n := by
  rcases List.mem_append.mp ht with ht | ht
  · obtain ⟨e, he, rfl⟩ := List.mem_map.mp ht
    obtain ⟨e', he', rfl⟩ :=
      List.mem_map.mp (h.incoming.subset (List.mem_of_mem_filter he))
    exact h.emitted e' he'
  · obtain ⟨x, hx, rfl⟩ := List.mem_map.mp ht
    obtain ⟨n, hn, hticket, -⟩ :=
      h.queued x (List.mem_of_mem_filter (List.mem_of_mem_filter hx))
    exact ⟨n, hn, hticket⟩

end

/-! ### The queues of the pairs -/

/-- The poller holds `cmdserverlock`. -/
def PollerPc.holdsCmdserver : PollerPc → Bool
  | .find .. | .write .. | .signal .. | .pop .. | .unlock | .reject => true
  | .idle | .lock .. => false

/-- Server and poller exclude each other while they use the queues. -/
structure Exclusive (s : State ι) : Prop where
  locked : s.cmdserverlock = (s.server.holdsCmdserver || s.poller.holdsCmdserver)
  exclusive : s.server.holdsCmdserver = true → s.poller.holdsCmdserver = false

theorem exclusive_init : Exclusive (State.init ι) where
  locked := rfl
  exclusive := by simp [State.init, ServerPc.holdsCmdserver]

theorem Exclusive.step [DecidableEq ι] {info : PackInfo} {s t : State ι} {a : Action ι}
    (h : Exclusive s) (hstep : Command.step info s a = some t) : Exclusive t := by
  have hlocked := h.locked
  have hexclusive := h.exclusive
  cases step_cases hstep with
  | call h' | client h' | hardware h' => cases h' <;> exact ⟨h.locked, h.exclusive⟩
  | server h' =>
    cases h' with
    | lockServerMut hpc | expectsResponse hpc | expectsNoResponse hpc | lockFreeList hpc
    | popSlot hpc | unlockFreeList hpc | storeWaitId hpc | lockCmdserver hpc | quit hpc | keepOn hpc
    | push hpc | fileInFlight hpc | fileNothing hpc | unlockResp hpc | unlockCmdserver hpc =>
      constructor <;> simp_all [ServerPc.holdsCmdserver]
  | poller h' =>
    cases h' with
    | receive hpc | lock hpc | notFound hpc | found hpc | write hpc | signal hpc | pop hpc
    | unlock hpc | reject hpc =>
      constructor <;> simp_all [PollerPc.holdsCmdserver]

/-- The poller found the slot of the command whose response it registers. -/
def PollerPc.Routed (s : State ι) : PollerPc → Prop
  | .write t _ id => id = s.slotOf t
  | .signal t r id => id = s.slotOf t ∧ s.responses id = r
  | .reject => False
  | .idle | .lock .. | .find .. | .pop .. | .unlock => True

/-- The queue of every pair holds the slots of the commands of the pair that are on their way. -/
structure Queues (info : PackInfo) (s : State ι) : Prop where
  expects : s.server = .lockFreeList ∨ s.server = .popSlot → s.cmd.cmd.getXd = true
  stored : s.server.phase = .stored ∨ s.server = .fileInFlight → s.cmd.cmd.getXd = true →
    s.slotOf s.cmd.ticket = s.serverId
  routed : s.poller.Routed s
  filed : ∀ k, s.filed k = (s.pipeline info k).map s.slotOf

theorem queues_init (info : PackInfo) : Queues info (State.init ι) where
  expects := by simp [State.init]
  stored := by simp [State.init, ServerPc.phase]
  routed := trivial
  filed k := by
    simp [State.init, State.filed, State.pipeline, State.incoming, State.awaited,
      PollerPc.unpopped, decode]

section

variable {info : PackInfo} {s t : State ι} {a : Action ι} {stray : ℕ}

theorem filed_of_ne (h : s.server ≠ .fileInFlight) (k : SystemCorePair) :
    s.filed k = (s.inFlight k).getD [] := by
  simp [State.filed, h]

private theorem Queues.filed_of_eq (h : Queues info s) (hs : s.server ≠ .fileInFlight)
    (ht : t.server ≠ .fileInFlight) (hinFlight : t.inFlight = s.inFlight)
    (hpipeline : ∀ k, (t.pipeline info k).map t.slotOf = (s.pipeline info k).map s.slotOf)
    (k : SystemCorePair) : t.filed k = (t.pipeline info k).map t.slotOf := by
  rw [hpipeline, ← h.filed, filed_of_ne hs, filed_of_ne ht, hinFlight]

private theorem Queues.step_pop (h : Queues info s) (htransit : Transit info s)
    (horderly : Orderly s) (hpc : s.server = .popSlot) :
    Queues info { s with
      serverId := s.slotAt stray
      freeListIdx := decU16 s.freeListIdx
      held := s.held ++ [(s.cmd.ticket, s.slotAt stray)]
      slotOf := update s.slotOf s.cmd.ticket (s.slotAt stray)
      server := .unlockFreeList } := by
  obtain ⟨i, n, hticket, -, -, -, hpushed⟩ := horderly.of_taken (by rw [hpc]; rfl)
  have hslot : ∀ k, ∀ u ∈ s.pipeline info k,
      update s.slotOf s.cmd.ticket (s.slotAt stray) u = s.slotOf u := by
    intro k u hu
    obtain ⟨m, hm, rfl⟩ := htransit.lt_of_mem_pipeline hu
    refine update_of_ne ?_ _ _
    rw [hticket]
    simp only [ne_eq, Option.some.injEq]
    omega
  refine ⟨by simp, by simp [ServerPc.phase], ?_,
    h.filed_of_eq (by simp [hpc]) (by simp) rfl fun k => List.map_congr_left (hslot k)⟩
  have hrouted := h.routed
  have hcurrent : ∀ u r, (u, r) ∈ s.poller.unpopped → u ∈ s.pipeline info r.key := by
    intro u r hu
    refine List.mem_append_left _ (List.mem_map.mpr ⟨(u, r), ?_, rfl⟩)
    exact List.mem_filter.mpr ⟨List.mem_append_left _ hu, by simp⟩
  cases hpoller : s.poller with
  | write u r id =>
    rw [hpoller] at hrouted hcurrent
    exact hrouted.trans (hslot _ u (hcurrent u r (by simp [PollerPc.unpopped]))).symm
  | signal u r id =>
    rw [hpoller] at hrouted hcurrent
    exact ⟨hrouted.1.trans (hslot _ u (hcurrent u r (by simp [PollerPc.unpopped]))).symm,
      hrouted.2⟩
  | reject =>
    rw [hpoller] at hrouted
    exact hrouted
  | _ => trivial

/-- The push of a command, which joins the end of the pipeline of its pair. -/
private theorem Queues.filed_push (h : Queues info s) (hpc : s.server = .push)
    (hserver : t.server = .fileInFlight) (hcmd : t.cmd = s.cmd) (hid : t.serverId = s.serverId)
    (hinFlight : t.inFlight = s.inFlight) (hslot : t.slotOf = s.slotOf)
    (hincoming : t.incoming info = s.incoming info)
    (hawaited : t.awaited = s.awaited ++ if s.cmd.cmd.getXd then [s.cmd] else [])
    (k : SystemCorePair) : t.filed k = (t.pipeline info k).map t.slotOf := by
  have hstored := h.stored (.inl (by rw [hpc]; rfl))
  have hpipeline : t.pipeline info k = s.pipeline info k ++
      ((if s.cmd.cmd.getXd then [s.cmd] else []).filter fun x => x.cmd.key = k).map
        Issued.ticket := by
    simp only [State.pipeline, hincoming, hawaited, List.filter_append, List.map_append,
      List.append_assoc]
  rw [hpipeline, List.map_append, hslot, ← h.filed k,
    filed_of_ne (s := s) (by simp [hpc]), State.filed, hinFlight, hserver, hcmd, hid]
  congr 1
  by_cases hxd : s.cmd.cmd.getXd = true
  · by_cases hkey : s.cmd.cmd.key = k
    · simp [hxd, hkey, hstored hxd]
    · simp [hxd, hkey]
  · simp [hxd]

private theorem Queues.step_server (h : Queues info s) (htransit : Transit info s)
    (horderly : Orderly s) (hheld : Held s) (hstep : ServerStep stray s t) : Queues info t := by
  have hstored := h.stored
  cases hstep with
  | popSlot hpc => exact h.step_pop htransit horderly hpc
  | push hpc =>
    exact ⟨by simp, fun _ => hstored (.inl (by rw [hpc]; rfl)), h.routed,
      h.filed_push hpc rfl rfl rfl rfl rfl rfl (awaited_concat ..)⟩
  | fileInFlight hpc hxd =>
    refine ⟨by simp, by simp [ServerPc.phase], h.routed, fun k => ?_⟩
    have hfiled := h.filed k
    rw [State.filed, hpc] at hfiled
    rw [filed_of_ne (by simp)]
    refine Eq.trans ?_ hfiled
    by_cases hkey : s.cmd.cmd.key = k
    · subst hkey
      simp [hxd]
    · simp [hkey, update_of_ne (Ne.symm hkey)]
  | fileNothing hpc hxd =>
    refine ⟨by simp, by simp [ServerPc.phase], h.routed, fun k => ?_⟩
    have hfiled := h.filed k
    rw [State.filed, hpc] at hfiled
    rw [filed_of_ne (by simp)]
    refine Eq.trans ?_ hfiled
    simp [hxd]
  | storeWaitId hpc =>
    refine ⟨by simp, fun _ hxd => ?_, h.routed,
      h.filed_of_eq (by simp [hpc]) (by simp) rfl fun _ => rfl⟩
    exact (hheld.owner _ (hheld.popped (by rw [hpc]; rfl) hxd)).1
  | lockCmdserver hpc | keepOn hpc =>
    exact ⟨by simp, fun _ => hstored (.inl (by rw [hpc]; rfl)), h.routed,
      h.filed_of_eq (by simp [hpc]) (by simp) rfl fun _ => rfl⟩
  | expectsResponse hpc hxd =>
    exact ⟨fun _ => hxd, by simp [ServerPc.phase], h.routed,
      h.filed_of_eq (by simp [hpc]) (by simp) rfl fun _ => rfl⟩
  | lockFreeList hpc =>
    exact ⟨fun _ => h.expects (.inl hpc), by simp [ServerPc.phase], h.routed,
      h.filed_of_eq (by simp [hpc]) (by simp) rfl fun _ => rfl⟩
  | lockServerMut hpc | expectsNoResponse hpc | unlockFreeList hpc | quit hpc | unlockResp hpc
  | unlockCmdserver hpc =>
    exact ⟨by simp, by simp [ServerPc.phase], h.routed,
      h.filed_of_eq (by simp [hpc]) (by simp) rfl fun _ => rfl⟩

/-- While the poller uses the queues the server files nothing. -/
theorem Exclusive.server_ne (h : Exclusive s) (hpoller : s.poller.holdsCmdserver = true) :
    s.server ≠ .fileInFlight := by
  intro hpc
  have hexclusive := h.exclusive
  rw [hpc] at hexclusive
  simp [hexclusive rfl] at hpoller

/-- The response that the poller registers is the first of the pipeline of its pair. -/
private theorem pipeline_cons {u : Option ℕ} {r : RoccResponse}
    (hincoming : s.incoming info = (u, r) :: t.incoming info) (hawaited : t.awaited = s.awaited)
    (k : SystemCorePair) :
    s.pipeline info k = (if r.key = k then [u] else []) ++ t.pipeline info k := by
  simp only [State.pipeline, hincoming, hawaited, List.filter_cons, decide_eq_true_eq]
  split_ifs <;> rfl

/-- The front of the queue is the slot of the command whose response the poller registers. -/
theorem Queues.front (h : Queues info s) (hexclusive : Exclusive s) {u : Option ℕ}
    {r : RoccResponse} (hpoller : s.poller.holdsCmdserver = true)
    (hcurrent : s.poller.unpopped = [(u, r)]) :
    ∃ rest, s.inFlight r.key = some (s.slotOf u :: rest) := by
  have hfiled := h.filed r.key
  have hincoming : s.incoming info =
      (u, r) :: State.incoming info { s with poller := .unlock } := by
    rw [State.incoming, hcurrent]
    rfl
  rw [filed_of_ne (hexclusive.server_ne hpoller), pipeline_cons hincoming rfl, if_pos rfl] at hfiled
  cases hqueue : s.inFlight r.key with
  | none => simp [hqueue] at hfiled
  | some q =>
    rw [hqueue, Option.getD_some] at hfiled
    exact ⟨_, by rw [hfiled]; rfl⟩

private theorem Queues.filed_pop (h : Queues info s) (hne : s.server ≠ .fileInFlight)
    {u : Option ℕ} {r : RoccResponse} (hserver : t.server = s.server)
    (hinFlight : t.inFlight =
      update s.inFlight r.key ((s.inFlight r.key).map List.tail))
    (hslot : t.slotOf = s.slotOf) (hincoming : s.incoming info = (u, r) :: t.incoming info)
    (hawaited : t.awaited = s.awaited) (k : SystemCorePair) :
    t.filed k = (t.pipeline info k).map t.slotOf := by
  have hfiled := h.filed k
  rw [filed_of_ne hne, pipeline_cons hincoming hawaited] at hfiled
  rw [filed_of_ne (hserver ▸ hne), hinFlight, hslot]
  by_cases hkey : r.key = k
  · subst hkey
    rw [if_pos rfl] at hfiled
    cases hqueue : s.inFlight r.key <;> simp_all
  · rw [if_neg hkey] at hfiled
    rw [update_of_ne (Ne.symm hkey)]
    exact hfiled

private theorem Queues.step_poller (h : Queues info s) (hexclusive : Exclusive s)
    (hstep : PollerStep info stray s t) : Queues info t := by
  have hrouted := h.routed
  have hfront := fun u r => h.front hexclusive (u := u) (r := r)
  cases hstep with
  | receive hpc hchan =>
    refine ⟨h.expects, h.stored, trivial, fun k => (h.filed k).trans ?_⟩
    simp [State.pipeline, State.incoming, State.awaited, hpc, hchan, PollerPc.unpopped, decode]
  | notFound hpc hfind =>
    rw [hpc] at hfront
    obtain ⟨rest, hqueue⟩ := hfront _ _ rfl rfl
    simp [hfind] at hqueue
  | found hpc hfind =>
    rw [hpc] at hfront
    obtain ⟨rest, hqueue⟩ := hfront _ _ rfl rfl
    obtain rfl := Option.some.inj (hfind.symm.trans hqueue)
    refine ⟨h.expects, h.stored, rfl, fun k => (h.filed k).trans ?_⟩
    simp [State.pipeline, State.incoming, State.awaited, hpc, PollerPc.unpopped]
  | write hpc =>
    rw [hpc] at hrouted
    refine ⟨h.expects, h.stored, ⟨hrouted, update_self ..⟩,
      fun k => (h.filed k).trans ?_⟩
    simp [State.pipeline, State.incoming, State.awaited, hpc, PollerPc.unpopped]
  | pop hpc =>
    exact ⟨h.expects, h.stored, trivial, h.filed_pop (hexclusive.server_ne (by rw [hpc]; rfl)) rfl
      rfl rfl (by rw [State.incoming, hpc]; rfl) rfl⟩
  | reject hpc =>
    rw [hpc] at hrouted
    exact hrouted.elim
  | lock hpc | signal hpc | unlock hpc =>
    refine ⟨h.expects, h.stored, trivial, fun k => (h.filed k).trans ?_⟩
    simp [State.pipeline, State.incoming, State.awaited, hpc, PollerPc.unpopped]

/-- Commands in the ranges of the hardware that are filed under one key are for one pair. -/
theorem RoccCmd.Fits.key_inj {c c' : RoccCmd} (hc : c.Fits) (hc' : c'.Fits)
    (h : c.key = c'.key) : c.systemId = c'.systemId ∧ c.coreId = c'.coreId := by
  simp only [RoccCmd.key, RoccCmd.getSystemId, RoccCmd.getCoreId, SystemCorePair.mk.injEq,
    UInt16.toNat_toUInt8, Nat.mod_eq_of_lt hc.2, Nat.mod_eq_of_lt hc'.2] at h
  exact ⟨UInt16.toNat_inj.mp h.1, UInt16.toNat_inj.mp h.2⟩

/-- An answer in order moves the first command of a pair from the hardware to the end of the
responses. -/
private theorem pipeline_respond {x : Issued} {r : RoccResponse} (l l' : List Issued)
    (hincoming : t.incoming info = s.incoming info ++ [(x.ticket, r)]) (hkey : r.key = x.cmd.key)
    (hs : s.awaited = l ++ x :: l') (ht : t.awaited = l ++ l')
    (horder : ∀ y ∈ l, y.cmd.key ≠ x.cmd.key) (k : SystemCorePair) :
    t.pipeline info k = s.pipeline info k := by
  simp only [State.pipeline, hincoming, hs, ht, List.filter_append, List.filter_cons, hkey,
    List.map_append, decide_eq_true_eq, List.filter_nil]
  by_cases hk : x.cmd.key = k
  · have hnil : l.filter (fun y => y.cmd.key = k) = [] := by
      refine List.filter_eq_nil_iff.mpr fun y hy => ?_
      simpa [← hk] using horder y hy
    simp [hk, hnil]
  · simp [hk]

private theorem Queues.step_hardware (h : Queues info s) (htransit : Transit info s)
    (ha : AnswersInOrder info s a) (hstep : HardwareStep s a t) : Queues info t := by
  cases hstep with
  | @deliver x cmds hcmds =>
    refine ⟨h.expects, h.stored, h.routed, fun k => (h.filed k).trans ?_⟩
    simp [State.pipeline, State.incoming, State.awaited, hcmds]
  | @respond j x buffer hx hxd =>
    obtain ⟨hhw, herase⟩ := eraseIdx_split hx
    obtain ⟨hcarries, horder⟩ := ha x hx
    have hfits := htransit.fits_of_queued (List.mem_append_left _ (List.mem_of_getElem? hx))
    have hkey := RoccResponse.key_ofBuffer hcarries (Nat.lt_of_lt_of_le hfits.1 (by decide))
    refine ⟨h.expects, h.stored, h.routed, fun k => (h.filed k).trans ?_⟩
    refine congrArg _ (pipeline_respond (x := x) ((s.hw.take j).filter fun y => y.cmd.getXd)
      ((s.hw.drop (j + 1) ++ s.cmds).filter fun y => y.cmd.getXd) ?_ hkey ?_ ?_ ?_ k).symm
    · simp [State.incoming, decode]
    · rw [State.awaited]
      nth_rewrite 1 [hhw]
      simp [hxd]
    · rw [State.awaited, herase]
      simp
    · intro y hy heq
      obtain ⟨hy, hyxd⟩ := List.mem_filter.mp hy
      have hyfits := htransit.fits_of_queued
        (List.mem_append_left s.cmds (List.mem_of_mem_take hy))
      exact horder y hy hyxd (hyfits.key_inj hfits heq)
  | unsolicited => exact ha.elim

/-- **Every step keeps the queues.** -/
theorem Queues.step [DecidableEq ι] (h : Queues info s) (hexclusive : Exclusive s)
    (htransit : Transit info s) (hslots : SlotsInv s) (ha : Routable info s a)
    (hstep : Command.step info s a = some t) : Queues info t := by
  cases step_cases hstep with
  | call h' => cases h' <;> exact ⟨h.expects, h.stored, h.routed, h.filed⟩
  | client h' =>
    cases h' with
    | sendWrite hpc =>
      have hrest : ∀ pc, s.server = pc → pc.phase = .resting := by
        rintro _ rfl
        exact hslots.orderly.resting_of_sendWrite hpc
      have hne : s.server ≠ .fileInFlight := fun hserver => by
        simpa [ServerPc.phase] using hrest _ hserver
      refine ⟨fun hserver => ?_, fun hserver => ?_, h.routed,
        h.filed_of_eq hne hne rfl fun _ => rfl⟩
      · rcases hserver with hserver | hserver <;>
          exact absurd (hrest _ hserver) (by simp [ServerPc.phase])
      · rcases hserver with hserver | hserver
        · simpa [hserver] using hrest _ rfl
        · exact absurd hserver hne
    | _ => exact ⟨h.expects, h.stored, h.routed, h.filed⟩
  | server h' => exact h.step_server htransit hslots.orderly hslots.held h'
  | poller h' => exact h.step_poller hexclusive h'
  | hardware h' => exact h.step_hardware htransit ha.2.2.2.2 h'

end

end Beethoven.Command
