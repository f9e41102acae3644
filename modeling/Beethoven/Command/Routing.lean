import Beethoven.Lib.Mailboxes
import Beethoven.Command.Flow

/-!
# Routing responses

The slots with `wait_for_response` and `responses` are mailboxes: the owner of a slot is the command
for which the server popped it, `register_reponse` writes and signals, `get` and `try_get` read. A
command is pending from the pop of its slot until `register_reponse` unlocks its mutex. The queues
of the pairs see to it that the response is written to the slot of the command that it answers.
-/

namespace Beethoven.Command

open Lib Function

variable {ι : Type}

/-! ### The mailboxes -/

/-- The ticket of the response that the poller has read and not signalled. -/
def PollerPc.unsignalled : PollerPc → List (Option ℕ)
  | .lock t _ | .find t _ | .write t _ _ | .signal t _ _ => [t]
  | .idle | .pop .. | .unlock | .reject => []

/-- The server is between the pop of a slot and the push of the command. -/
def ServerPc.unpushed : ServerPc → Bool
  | .unlockFreeList | .storeWaitId | .lockCmdserver | .testQuit | .push => true
  | _ => false

/-- The tickets whose slot is popped and whose response is not signalled. -/
def State.pending (s : State ι) : List (Option ℕ) :=
  s.poller.unsignalled ++ s.chan.map Prod.fst ++ s.awaited.map Issued.ticket ++
    if s.server.unpushed = true ∧ s.cmd.cmd.getXd = true then [s.cmd.ticket] else []

/-- What a client reads. -/
def ClientPc.reader : ClientPc → Reader (Option ℕ) ℕ RoccResponse
  | .getRead k => .taken (some k.ticket) k.id
  | .getLock k r | .getPush k r => .read (some k.ticket) k.id r
  | .getUnlock k r => .released (some k.ticket) r
  | _ => .out

/-- The mailboxes in a state of the command system. -/
def mailboxes (info : PackInfo) (s : State ι) :
    Mailboxes ι (Option ℕ) ℕ RoccResponse where
  held := s.held
  pending := {u | u ∈ s.pending}
  ready sl := !s.waitForResponse sl
  box := s.responses
  answers := decode info s.emitted
  reader i := (s.client i).reader
  returned := s.collected.map fun e => (some e.1, e.2)

theorem mailboxesInv_init (info : PackInfo) : (mailboxes info (State.init ι)).Inv := by
  constructor <;> simp [mailboxes, State.init, State.pending, State.awaited, PollerPc.unsignalled,
    ServerPc.unpushed, ClientPc.reader, Reader.owner, Mailboxes.ReaderOk]

section

variable [DecidableEq ι] {info : PackInfo} {s t : State ι} {a : Action ι} {stray : ℕ}

private theorem reader_update (f : ι → ClientPc) (i : ι) (pc : ClientPc) :
    (fun j => (update f i pc j).reader) =
      update (fun j => (f j).reader) i pc.reader := by
  funext j
  exact apply_update (fun _ => ClientPc.reader) f i pc j

private theorem reader_update_of_eq {f : ι → ClientPc} {i : ι} {pc : ClientPc}
    (h : pc.reader = (f i).reader) :
    (fun j => (update f i pc j).reader) = fun j => (f j).reader := by
  rw [reader_update, h, update_eq_self]

private theorem ready_update (f : ℕ → Bool) (sl : ℕ) (b : Bool) :
    (fun sl' => !update f sl b sl') = update (fun sl' => !f sl') sl (!b) := by
  funext sl'
  exact apply_update (fun _ => not) f sl b sl'

private theorem ClientPc.owner_reader (pc : ClientPc) :
    pc.reader.owner = pc.claim.map fun x => some x.1 := by
  cases pc <;> rfl

private theorem ClientPc.collection_of_owner {pc : ClientPc} {u : Option ℕ}
    (h : pc.reader.owner = some u) : ∃ k, pc.collection = some k ∧ some k.ticket = u := by
  cases pc <;> simp_all [ClientPc.reader, Reader.owner, ClientPc.collection]

omit [DecidableEq ι] in
private theorem mailboxes_eq (hheld : t.held = s.held)
    (hpending : ∀ u, u ∈ t.pending ↔ u ∈ s.pending)
    (hwait : t.waitForResponse = s.waitForResponse) (hresponses : t.responses = s.responses)
    (hemitted : t.emitted = s.emitted) (hclient : t.client = s.client)
    (hcollected : t.collected = s.collected) : mailboxes info t = mailboxes info s := by
  simp only [mailboxes, hheld, hpending, hwait, hresponses, hemitted, hclient, hcollected]

/-! ### The server -/

private theorem mailboxes_pop (hslots : SlotsInv s) (hqueues : Queues info s)
    (hpc : s.server = .popSlot) (hne : s.freeListIdx ≠ 65535) :
    (mailboxes info s).Step (mailboxes info { s with
      serverId := s.slotAt stray
      freeListIdx := decU16 s.freeListIdx
      held := s.held ++ [(s.cmd.ticket, s.slotAt stray)]
      slotOf := update s.slotOf s.cmd.ticket (s.slotAt stray)
      server := .unlockFreeList }) := by
  obtain ⟨i, n, hticket, -, -, hserved, -⟩ := hslots.orderly.of_taken (by rw [hpc]; rfl)
  have hlt := hslots.held.freeListIdx_lt hne
  have hfree : s.slotAt stray ∈ s.freeSlots := by
    have hslot : s.slotAt stray = s.freeList s.freeListIdx := if_pos hlt
    rw [hslot, State.freeSlots, map_range_pop hlt]
    simp
  have hdisjoint := (List.nodup_append.mp
    (hslots.held.conserved.nodup_iff.mpr List.nodup_range)).2.2
  have hstep := Mailboxes.Step.alloc (s := mailboxes info s) s.cmd.ticket (s.slotAt stray)
    (fun u hu => hdisjoint _ hfree _ (List.mem_map_of_mem hu) rfl)
    (fun sl hsl => ?_) (fun j hj => ?_)
  · have hpending : ∀ u, u ∈ State.pending { s with
        serverId := s.slotAt stray
        freeListIdx := decU16 s.freeListIdx
        held := s.held ++ [(s.cmd.ticket, s.slotAt stray)]
        slotOf := update s.slotOf s.cmd.ticket (s.slotAt stray)
        server := .unlockFreeList } ↔ u = s.cmd.ticket ∨ u ∈ s.pending := by
      intro u
      simp only [State.pending, State.awaited, hpc, ServerPc.unpushed, hqueues.expects (.inr hpc)]
      simp
      grind
    simp only [mailboxes, hpending]
    exact hstep
  · -- a slot held belongs to a command served before
    obtain ⟨-, m, hm, hlt'⟩ := hslots.held.owner _ hsl
    rw [hpc] at hlt'
    have hmn : m = n := Option.some.inj (hm.symm.trans hticket)
    have hlt'' : m < s.served.length := hlt'
    omega
  · obtain ⟨k, hk, hkn⟩ := ClientPc.collection_of_owner hj
    have hserved' := (List.getElem?_eq_some_iff.mp (hslots.traced.collecting j k hk).2).1
    have hkn' := Option.some.inj (hkn.trans hticket)
    omega

private theorem mailboxes_server (hslots : SlotsInv s) (hqueues : Queues info s)
    (ha : PopsNonempty s (.server stray)) (hstep : ServerStep stray s t) :
    mailboxes info t = mailboxes info s ∨ (mailboxes info s).Step (mailboxes info t) := by
  cases hstep with
  | popSlot hpc => exact .inr (mailboxes_pop hslots hqueues hpc (ha hpc))
  | push hpc =>
    refine .inl (mailboxes_eq rfl (fun u => ?_) rfl rfl rfl rfl rfl)
    simp only [State.pending, State.awaited, hpc, ServerPc.unpushed, awaited_concat]
    by_cases hxd : s.cmd.cmd.getXd = true <;> simp [hxd]
  | expectsNoResponse hpc hxd =>
    refine .inl (mailboxes_eq rfl (fun u => ?_) rfl rfl rfl rfl rfl)
    simp [State.pending, State.awaited, hpc, ServerPc.unpushed, hxd]
  | quit hpc hquit => simp [hslots.orderly.quit] at hquit
  | lockServerMut hpc | expectsResponse hpc | lockFreeList hpc | unlockFreeList hpc
  | storeWaitId hpc | lockCmdserver hpc | keepOn hpc | fileInFlight hpc
  | fileNothing hpc | unlockResp hpc | unlockCmdserver hpc =>
    refine .inl (mailboxes_eq rfl (fun u => ?_) rfl rfl rfl rfl rfl)
    simp [State.pending, State.awaited, hpc, ServerPc.unpushed]

/-! ### Registering responses -/

omit [DecidableEq ι] in
theorem Transit.nodup_pending (h : Transit info s) (horderly : Orderly s) : s.pending.Nodup := by
  have hsuffix : s.poller.unsignalled ++ s.chan.map Prod.fst <:+ s.emitted.map Prod.fst := by
    have hmap := h.incoming.map Prod.fst
    have hdecode : ∀ l, (decode info l).map Prod.fst = l.map Prod.fst := fun l => by
      simp [decode]
    rw [State.incoming, List.map_append, hdecode, hdecode] at hmap
    refine List.IsSuffix.trans ?_ hmap
    cases s.poller <;> simp [PollerPc.unsignalled, PollerPc.unpopped]
  have hsub := hsuffix.sublist.append_right (s.awaited.map Issued.ticket)
  have hnodup := h.nodup.sublist hsub
  rw [State.pending]
  split_ifs with hcmd
  · -- the command in shared memory is not pushed yet
    have hticket : s.cmd.ticket = some s.pushed.length := by
      have hphase : s.server.phase = .taken ∨ s.server.phase = .stored := by
        have hunpushed := hcmd.1
        cases hpc : s.server <;> simp [hpc, ServerPc.unpushed, ServerPc.phase] at hunpushed ⊢
      rcases hphase with hphase | hphase
      · obtain ⟨i, n, hn, -, -, -, hpushed⟩ := horderly.of_taken hphase
        rw [hn, hpushed]
      · obtain ⟨i, n, hn, -, -, -, -, hpushed⟩ := horderly.of_stored hphase
        rw [hn, hpushed]
    refine List.nodup_append.mpr ⟨hnodup, List.nodup_singleton _, fun u hu v hv => ?_⟩
    obtain rfl := List.mem_singleton.mp hv
    obtain ⟨n, hn, rfl⟩ : ∃ n < s.pushed.length, u = some n := by
      rcases List.mem_append.mp (hsub.subset hu) with hu | hu
      · obtain ⟨e, he, rfl⟩ := List.mem_map.mp hu
        exact h.emitted e he
      · obtain ⟨x, hx, rfl⟩ := List.mem_map.mp hu
        obtain ⟨n, hn, hxn, -⟩ := h.queued x (List.mem_of_mem_filter hx)
        exact ⟨n, hn, hxn⟩
    rw [hticket]
    simpa using hn.ne
  · rwa [List.append_nil]

omit [DecidableEq ι] in
private theorem mem_held_of_pending (hheld : Held s) (hinv : (mailboxes info s).Inv) {u : Option ℕ}
    (hu : u ∈ s.pending) : (u, s.slotOf u) ∈ s.held := by
  obtain ⟨-, sl, hsl, -⟩ := hinv.pending u hu
  have hslot : s.slotOf u = sl := (hheld.owner _ hsl).1
  exact hslot ▸ hsl

private theorem mailboxes_poller (hheld : Held s) (horderly : Orderly s) (htransit : Transit info s)
    (hqueues : Queues info s) (hqueues' : Queues info t) (hinv : (mailboxes info s).Inv)
    (hstep : PollerStep info stray s t) :
    mailboxes info t = mailboxes info s ∨ (mailboxes info s).Step (mailboxes info t) := by
  have hrouted := hqueues.routed
  have hanswer : ∀ e ∈ s.poller.unpopped, e ∈ decode info s.emitted := fun e he =>
    htransit.incoming.subset (List.mem_append_left _ he)
  cases hstep with
  | receive hpc hchan =>
    refine .inl (mailboxes_eq rfl (fun u => ?_) rfl rfl rfl rfl rfl)
    simp [State.pending, State.awaited, hpc, hchan, PollerPc.unsignalled]
  | notFound => exact hqueues'.routed.elim
  | reject hpc =>
    rw [hpc] at hrouted
    exact hrouted.elim
  | @write u r id hpc =>
    rw [hpc] at hrouted hanswer
    obtain rfl : id = s.slotOf u := hrouted
    have hu : u ∈ s.pending := by simp [State.pending, hpc, PollerPc.unsignalled]
    have hstep := Mailboxes.Step.write (s := mailboxes info s) hu
      (mem_held_of_pending hheld hinv hu) (hanswer _ (List.mem_singleton_self _))
    have hpending : ∀ v, v ∈ State.pending { s with
        responses := update s.responses (s.slotOf u) r
        poller := .signal u r (s.slotOf u) } ↔ v ∈ s.pending := fun v => by
      simp [State.pending, State.awaited, hpc, PollerPc.unsignalled]
    right
    simp only [mailboxes, hpending]
    exact hstep
  | @signal u r id hpc =>
    rw [hpc] at hrouted hanswer
    obtain ⟨rfl, hbox⟩ := hrouted
    have hu : u ∈ s.pending := by simp [State.pending, hpc, PollerPc.unsignalled]
    have hstep := Mailboxes.Step.signal (s := mailboxes info s) hu
      (mem_held_of_pending hheld hinv hu)
      (show (u, s.responses (s.slotOf u)) ∈ _ from hbox ▸ hanswer _ (List.mem_singleton_self _))
    have hnodup := htransit.nodup_pending horderly
    have hpending : {v | v ∈ State.pending { s with
        waitForResponse := update s.waitForResponse (s.slotOf u) false
        poller := .pop u r }} = {v | v ∈ s.pending} \ {u} := by
      ext v
      simp only [State.pending, State.awaited, hpc, PollerPc.unsignalled, List.cons_append,
        List.nil_append, List.nodup_cons] at hnodup ⊢
      simp only [Set.mem_ofPred_eq, Set.mem_sdiff, Set.mem_singleton_iff, List.mem_cons]
      constructor
      · intro hv
        exact ⟨.inr hv, fun heq => hnodup.1 (heq ▸ hv)⟩
      · rintro ⟨heq | hv, hne⟩
        · exact absurd heq hne
        · exact hv
    right
    simp only [mailboxes, hpending, ready_update]
    exact hstep
  | lock hpc | found hpc | pop hpc | unlock hpc =>
    refine .inl (mailboxes_eq rfl (fun u => ?_) rfl rfl rfl rfl rfl)
    simp [State.pending, State.awaited, hpc, PollerPc.unsignalled]

/-! ### Clients and hardware -/

omit [DecidableEq ι] in
/-- The slot of a response about to be taken is held for its ticket, and nobody else reads it. -/
private theorem held_of_take (hslots : SlotsInv s) {i : ι} {k : Collection}
    (hk : (s.client i).collection = some k)
    (hcollects : k.ticket ∉ s.collected.map Prod.fst ∧
      ∀ j b, (s.client j).claim ≠ some (k.ticket, b)) :
    (some k.ticket, k.id) ∈ s.held ∧ (mailboxes info s).Unread (some k.ticket) := by
  refine ⟨(hslots.held.handed _ _ (hslots.traced.collecting i k hk)).2.resolve_right
    fun hback => ?_, fun j hj => ?_⟩
  · rcases hslots.claims.released _ hback with hfinished | ⟨j, hj⟩
    · exact hcollects.1 hfinished
    · exact hcollects.2 j true hj
  · change (s.client j).reader.owner = _ at hj
    rw [ClientPc.owner_reader] at hj
    obtain ⟨⟨n, b⟩, hclaim, hn⟩ := Option.map_eq_some_iff.mp hj
    obtain rfl : n = k.ticket := Option.some.inj hn
    exact hcollects.2 j b hclaim

private theorem mailboxes_take {i : ι} {k : Collection} (hslots : SlotsInv s)
    (ha : CollectsOnce s (.client i)) (hpc : s.client i = .getWait k ∨ s.client i = .getTry k)
    (hfree : s.waitForResponse k.id = false) :
    (mailboxes info s).Step (mailboxes info { s with
      client := update s.client i (.getRead k)
      waitForResponse := update s.waitForResponse k.id true }) := by
  have hi : (mailboxes info s).reader i = .out := by
    change (s.client i).reader = .out
    rcases hpc with hpc | hpc <;> rw [hpc] <;> rfl
  have hk : (s.client i).collection = some k := by
    rcases hpc with hpc | hpc <;> rw [hpc] <;> rfl
  obtain ⟨hheld, hunread⟩ := held_of_take hslots hk (ha.claim_ne hpc hfree)
  have hstep := Mailboxes.Step.take (s := mailboxes info s) hi hheld (by simp [mailboxes, hfree])
    hunread
  simp only [mailboxes, reader_update, ready_update]
  exact hstep

private theorem mailboxes_client {i : ι} (hslots : SlotsInv s) (ha : CollectsOnce s (.client i))
    (hstep : ClientStep s i t) :
    mailboxes info t = mailboxes info s ∨ (mailboxes info s).Step (mailboxes info t) := by
  have hi : (mailboxes info s).reader i = (s.client i).reader := rfl
  cases hstep with
  | getWait hpc hfree => exact .inr (mailboxes_take hslots ha (.inl hpc) hfree)
  | getTry hpc hfree => exact .inr (mailboxes_take hslots ha (.inr hpc) hfree)
  | getRead hpc =>
    rw [hpc] at hi
    have hstep := Mailboxes.Step.read (s := mailboxes info s) hi
    right
    simp only [mailboxes, reader_update]
    exact hstep
  | getPush hpc =>
    rw [hpc] at hi
    have hstep := Mailboxes.Step.release (s := mailboxes info s) hi
    right
    simp only [mailboxes, reader_update]
    exact hstep
  | getUnlock hpc =>
    rw [hpc] at hi
    have hstep := Mailboxes.Step.finish (s := mailboxes info s) hi
    right
    simp only [mailboxes, reader_update, List.map_append]
    exact hstep
  | sendWrite hpc =>
    left
    have hrest := hslots.orderly.resting_of_sendWrite hpc
    have hunpushed : s.server.unpushed = false := by
      cases hserver : s.server <;> simp_all [ServerPc.phase, ServerPc.unpushed]
    simp only [mailboxes, State.pending, State.awaited, hunpushed]
    rw [reader_update_of_eq (by rw [hpc]; rfl)]
    simp
  | sendLock hpc | sendPost hpc | sendAwait hpc | sendRead hpc | sendUnlock hpc | sendQuit hpc
  | shutdownLock hpc | shutdownPost hpc | shutdownQuit hpc | shutdownUnlock hpc | tryFails hpc
  | getLock hpc =>
    left
    simp only [mailboxes, State.pending, State.awaited]
    rw [reader_update_of_eq (by rw [hpc]; rfl)]

private theorem mailboxes_call {i : ι} {call : Call} (hstep : CallStep s i call t) :
    mailboxes info t = mailboxes info s := by
  cases hstep with
  | getThrows | copy => rfl
  | send hpc | shutdown hpc | get hpc | tryGet hpc | tryGetExits hpc =>
    simp only [mailboxes, State.pending, State.awaited]
    rw [reader_update_of_eq (by rw [hpc]; rfl)]

private theorem mailboxes_hardware (ha : AnswersInOrder info s a) (hstep : HardwareStep s a t) :
    mailboxes info t = mailboxes info s ∨ (mailboxes info s).Step (mailboxes info t) := by
  cases hstep with
  | deliver hcmds =>
    refine .inl (mailboxes_eq rfl (fun u => ?_) rfl rfl rfl rfl rfl)
    simp [State.pending, State.awaited, hcmds]
  | @respond j x buffer hx hxd =>
    have hstep := Mailboxes.Step.answer (s := mailboxes info s) x.ticket (.ofBuffer info buffer)
    have hpending : ∀ u, u ∈ State.pending { s with
        hw := s.hw.eraseIdx j
        chan := s.chan ++ [(x.ticket, buffer)]
        emitted := s.emitted ++ [(x.ticket, buffer)] } ↔ u ∈ s.pending := by
      intro u
      obtain ⟨hhw, herase⟩ := eraseIdx_split hx
      simp only [State.pending, State.awaited, herase]
      nth_rewrite 3 [hhw]
      simp [hxd]
      grind
    right
    simp only [mailboxes, hpending, decode, List.map_append]
    exact hstep
  | unsolicited => exact ha.elim

/-- **Refinement.** Every step is a step of the mailboxes or leaves them as they are. -/
theorem mailboxes_step (hslots : SlotsInv s) (htransit : Transit info s) (hqueues : Queues info s)
    (hqueues' : Queues info t) (hinv : (mailboxes info s).Inv) (ha : Routable info s a)
    (hstep : step info s a = some t) :
    mailboxes info t = mailboxes info s ∨ (mailboxes info s).Step (mailboxes info t) := by
  have hpops := ha.popsFree hslots.held
  cases step_cases hstep with
  | call h => exact .inl (mailboxes_call h)
  | client h => exact mailboxes_client hslots ha.2.1 h
  | server h => exact mailboxes_server hslots hqueues hpops.2.2 h
  | poller h =>
    exact mailboxes_poller hslots.held hslots.orderly htransit hqueues hqueues' hinv h
  | hardware h => exact mailboxes_hardware ha.2.2.2.2 h

end

/-! ### Routing -/

/-- What holds in routable runs. -/
structure RoutingInv (info : PackInfo) (s : State ι) : Prop where
  slots : SlotsInv s
  exclusive : Exclusive s
  transit : Transit info s
  queues : Queues info s
  boxes : (mailboxes info s).Inv

theorem routingInv_init (info : PackInfo) : RoutingInv info (State.init ι) :=
  ⟨slotsInv_init, exclusive_init, transit_init info, queues_init info, mailboxesInv_init info⟩

section

variable [DecidableEq ι] {info : PackInfo} {s t : State ι} {a : Action ι}

/-- **Every step of a routable run keeps the invariant.** -/
theorem RoutingInv.step (h : RoutingInv info s) (ha : Routable info s a)
    (hstep : Command.step info s a = some t) : RoutingInv info t := by
  have hqueues := h.queues.step h.exclusive h.transit h.slots ha hstep
  refine ⟨h.slots.step (ha.popsFree h.slots.held) hstep, h.exclusive.step hstep,
    h.transit.step h.slots.orderly ha hstep, hqueues, ?_⟩
  rcases mailboxes_step h.slots h.transit h.queues hqueues h.boxes ha hstep with heq | hstep'
  · rw [heq]
    exact h.boxes
  · exact h.boxes.step hstep'

/-- Response routing: a call returns the one response that the hardware emitted for the command
whose `send` made the getter object. -/
structure Routed (info : PackInfo) (s : State ι) : Prop where
  /-- The response returned for ticket `n` was emitted for ticket `n`. -/
  response : ∀ n r, (n, r) ∈ s.collected →
    ∃ buffer, (some n, buffer) ∈ s.emitted ∧ r = .ofBuffer info buffer
  /-- No ticket is answered twice. -/
  once : (s.emitted.map Prod.fst).Nodup
  /-- The command that the server pushed with ticket `n` is the one that the `send` with ticket `n`
  sent. -/
  own : ∀ x ∈ s.pushed, ∃ n i, x.ticket = some n ∧ s.acquired[n]? = some (i, x.cmd)
  /-- A getter object has the slot that the server stored for its own command. -/
  handle : ∀ g ∈ s.getters, s.served[g.ticket]? = some (some g.ticket, g.id)

omit [DecidableEq ι] in
private theorem own_of_tagged {x : Issued} {l : List (ι × RoccCmd)}
    (h : (x.ticket, x.cmd) ∈ Rendezvous.tagged l) :
    ∃ n i, x.ticket = some n ∧ l[n]? = some (i, x.cmd) := by
  obtain ⟨⟨⟨i, c⟩, n⟩, hmem, heq⟩ := List.mem_map.mp h
  obtain ⟨hticket, hcmd⟩ := Prod.mk.inj heq
  have hn := List.mem_zipIdx_iff_getElem?.mp hmem
  exact ⟨n, i, hticket.symm, hcmd ▸ hn⟩

/-- **Response routing** holds in every state that a routable run reaches. -/
theorem routed_of_reaches (h : (commandSystem ι info).Reaches (Routable info) s) :
    Routed info s := by
  have hinv : RoutingInv info s := h.invariant (routingInv_init info) fun _ _ _ hs ha hstep =>
    hs.step ha hstep
  refine ⟨fun n r hr => ?_, (List.nodup_append.mp hinv.transit.nodup).1, fun x hx => ?_,
    fun g hg => (hinv.slots.traced.getter g hg).2⟩
  · have hanswer := hinv.boxes.returned (some n, r) (List.mem_map.mpr ⟨(n, r), hr, rfl⟩)
    obtain ⟨⟨u, buffer⟩, hmem, heq⟩ := List.mem_map.mp hanswer
    obtain ⟨rfl, hresponse⟩ := Prod.mk.inj heq
    exact ⟨buffer, hmem, hresponse.symm⟩
  · obtain ⟨rest, htagged, -⟩ := hinv.slots.orderly.inv.pushed_append
    exact own_of_tagged (htagged ▸ List.mem_append_left _ (List.mem_map_of_mem hx))

end

/-- Two clients use two cores, and the second core answers first. -/
theorem routed_two_cores :
    ∃ s, (commandSystem (Fin 2) ⟨4, 8⟩).Reaches (Routable ⟨4, 8⟩) s ∧
      s.collected = [(0, { data := 11, coreId := 1 }), (1, { data := 22, coreId := 2 })] ∧
      Routed ⟨4, 8⟩ s := by
  obtain ⟨s, hs, hcollected⟩ := (commandSystem (Fin 2) ⟨4, 8⟩).exists_reaches (Routable ⟨4, 8⟩)
    (fun s => s.collected = [(0, { data := 11, coreId := 1 }), (1, { data := 22, coreId := 2 })])
    (List.flatten [sendRun 0 { xd := 1, coreId := 1 }, sendRun 1 { xd := 1, coreId := 2 },
      [.deliver, .deliver, .respond 1 ⟨22, 0, 1024⟩, .respond 0 ⟨11, 0, 512⟩],
      List.replicate 14 (.poller 0), getRun 0 0, getRun 1 1]) (by decide +kernel)
  exact ⟨s, hs, hcollected, routed_of_reaches hs⟩

end Beethoven.Command
