import Mathlib.Data.List.Perm.Basic
import Beethoven.Command.Collection
import Beethoven.Command.Handshake

/-!
# Response slots

The stack `free_list` with its 16-bit index `free_list_idx` holds the slots that no outstanding
command has; 65535 stands for the empty stack. The command server pops a slot for every command that
expects a response, and the call that collects the response pushes it back. As long as the server
pops from a stack that is not empty and no response is taken twice, the stack and the slots held by
outstanding commands are all 256 slots, each once, and all indices are inside the array. The server
does not test for the empty stack: the 257th outstanding command reads outside it.
-/

namespace Beethoven.Command

open Lib

variable {ι : Type}

/-! ### The stack -/

/-- The entries `free_list[0..free_list_idx]`, none when the index is 65535. -/
def State.freeSlots (s : State ι) : List ℕ := (List.range (incU16 s.freeListIdx)).map s.freeList

section

variable {f : ℕ → ℕ} {n : ℕ}

private theorem incU16_decU16 (h : n < 256) : incU16 (decU16 n) = n := by
  unfold incU16 decU16
  split_ifs <;> omega

theorem map_range_pop (h : n < 256) :
    (List.range (incU16 n)).map f = (List.range (incU16 (decU16 n))).map f ++ [f n] := by
  have hinc : incU16 n = n + 1 := if_neg (by omega)
  rw [incU16_decU16 h, hinc, List.range_succ, List.map_append, List.map_singleton]

theorem map_range_push (h : incU16 n < 256) (v : ℕ) :
    (List.range (incU16 (incU16 n))).map (Function.update f (incU16 n) v) =
      (List.range (incU16 n)).map f ++ [v] := by
  have hinc : incU16 (incU16 n) = incU16 n + 1 := if_neg (by omega)
  rw [hinc, List.range_succ, List.map_append, List.map_singleton, Function.update_self]
  congr 1
  refine List.map_congr_left fun i hi => Function.update_of_ne ?_ _ _
  exact (List.mem_range.mp hi).ne

end

section

variable {free l : List ℕ}

private theorem perm_pop {held : List ℕ} {v : ℕ} (h : (free ++ [v] ++ held).Perm l) :
    (free ++ (held ++ [v])).Perm l := by
  rw [List.append_assoc] at h
  exact (List.perm_append_comm.append_left free).trans h

private theorem perm_push {held : List (Option ℕ × ℕ)} {x : Option ℕ × ℕ} (hx : x ∈ held)
    (h : (free ++ held.map Prod.snd).Perm l) :
    (free ++ [x.2] ++ (held.erase x).map Prod.snd).Perm l := by
  rw [List.append_assoc]
  exact (((List.perm_cons_erase hx).map Prod.snd).symm.append_left free).trans h

end

/-! ### Where slot numbers come from -/

/-- The `send` with ticket `n` sent a command with the given `xd`, and the server stored `id` for
it. -/
def Handed (s : State ι) (n id : ℕ) (xd : Bool) : Prop :=
  (∃ e, s.acquired[n]? = some e ∧ e.2.getXd = xd) ∧ s.served[n]? = some (some n, id)

/-- The collection that a client's call is about. -/
def ClientPc.collection : ClientPc → Option Collection
  | .getWait k | .getTry k | .getRead k | .getLock k _ | .getPush k _ | .getUnlock k _ => some k
  | _ => none

/-- Getter objects and the calls on them have the slot that the server stored for their ticket. -/
structure Traced (s : State ι) : Prop where
  getter : ∀ g ∈ s.getters, Handed s g.ticket g.id g.canWait
  collecting : ∀ i k, (s.client i).collection = some k → Handed s k.ticket k.id true

theorem traced_init : Traced (State.init ι) where
  getter := by simp [State.init]
  collecting := by simp [State.init, ClientPc.collection]

section

variable [DecidableEq ι] {info : PackInfo} {s t : State ι} {a : Action ι} {n id : ℕ} {xd : Bool}

omit [DecidableEq ι] in
theorem Handed.mono (h : Handed s n id xd) (hacquired : s.acquired <+: t.acquired)
    (hserved : s.served <+: t.served) : Handed t n id xd := by
  obtain ⟨⟨e, he, hxd⟩, hid⟩ := h
  exact ⟨⟨e, Rendezvous.getElem?_mono hacquired he, hxd⟩,
    Rendezvous.getElem?_mono hserved hid⟩

private theorem mem_modify {l : List Getter} {o : ℕ} {f : Getter → Getter} {g : Getter}
    (h : g ∈ l.modify o f) : ∃ g' ∈ l, g = g' ∨ g = f g' := by
  obtain ⟨o', ho'⟩ := List.getElem?_of_mem h
  rw [List.getElem?_modify] at ho'
  obtain ⟨g', hg', rfl⟩ := Option.map_eq_some_iff.mp ho'
  refine ⟨g', List.mem_of_getElem? hg', ?_⟩
  split_ifs
  · exact .inr rfl
  · exact .inl rfl

private theorem Traced.update {i : ι} {pc : ClientPc} (h : Traced s)
    (hacquired : s.acquired <+: t.acquired) (hserved : t.served = s.served)
    (hgetter : ∀ g ∈ t.getters, Handed s g.ticket g.id g.canWait)
    (hclient : t.client = Function.update s.client i pc)
    (hpc : ∀ k, pc.collection = some k → Handed s k.ticket k.id true) : Traced t := by
  have hmono : ∀ {n id xd}, Handed s n id xd → Handed t n id xd := fun hs =>
    hs.mono hacquired (hserved ▸ List.prefix_refl _)
  refine ⟨fun g hg => hmono (hgetter g hg), fun j k hk => hmono ?_⟩
  by_cases hji : j = i
  · subst hji
    exact hpc k (by simpa [hclient] using hk)
  · exact h.collecting j k (by simpa [hclient, hji] using hk)

omit [DecidableEq ι] in
private theorem Traced.getter_set (h : Traced s) {o : ℕ} {g x g' : Getter}
    (hg : s.getters[o]? = some g) (hg' : g' ∈ s.getters.set o x)
    (hx : x.ticket = g.ticket ∧ x.id = g.id ∧ x.canWait = g.canWait) :
    Handed s g'.ticket g'.id g'.canWait := by
  rcases List.mem_or_eq_of_mem_set hg' with hg' | rfl
  · exact h.getter g' hg'
  · rw [hx.1, hx.2.1, hx.2.2]
    exact h.getter g (List.mem_of_getElem? hg)

theorem Traced.step (h : Traced s) (horderly : Orderly s) (hstep : Command.step info s a = some t) :
    Traced t := by
  cases step_cases hstep with
  | poller h' | hardware h' => cases h' <;> exact ⟨h.getter, h.collecting⟩
  | server h' =>
    cases h' with
    | storeWaitId hpc =>
      have hmono : ∀ {n id xd}, Handed s n id xd → Handed { s with
          pthreadWaitId := s.serverId
          served := s.served ++ [(s.cmd.ticket, s.serverId)]
          server := .lockCmdserver } n id xd := fun hs =>
        hs.mono (List.prefix_refl _) (List.prefix_append _ _)
      exact ⟨fun g hg => hmono (h.getter g hg), fun i k hk => hmono (h.collecting i k hk)⟩
    | _ => exact ⟨h.getter, h.collecting⟩
  | @call i call _ h' =>
    cases h' with
    | getThrows => exact h
    | send | shutdown | tryGetExits =>
      exact h.update (i := i) (List.prefix_refl _) rfl h.getter rfl (by simp [ClientPc.collection])
    | @get o g hpc hg huse hwait hrecieved | @tryGet o g hpc hg huse hwait hrecieved =>
      have hhanded := hwait ▸ h.getter g (List.mem_of_getElem? hg)
      refine h.update (i := i) (List.prefix_refl _) rfl
        (fun g' hg' => h.getter_set hg hg' ⟨rfl, rfl, rfl⟩) rfl (fun k hk => ?_)
      obtain rfl := Option.some.inj hk
      exact hhanded
    | @copy o g hpc hg huse =>
      refine ⟨fun g' hg' => ?_, h.collecting⟩
      rcases List.mem_append.mp hg' with hg' | hg'
      · exact h.getter_set hg hg' ⟨rfl, rfl, rfl⟩
      · obtain rfl := List.mem_singleton.mp hg'
        exact h.getter g (List.mem_of_getElem? hg)
  | @client i _ h' =>
    have hi := h.collecting i
    cases h' with
    | sendLock hpc =>
      exact h.update (i := i) (List.prefix_append _ _) rfl h.getter rfl
        (by simp [ClientPc.collection])
    | @sendQuit n c handle hpc =>
      obtain ⟨hacquired, hserved⟩ := horderly.of_sendQuit hpc
      refine h.update (i := i) (List.prefix_refl _) rfl (fun g hg => ?_) rfl
        (by simp [ClientPc.collection])
      rcases List.mem_append.mp hg with hg | hg
      · exact h.getter g hg
      · obtain rfl := List.mem_singleton.mp hg
        exact ⟨⟨(i, c), hacquired, rfl⟩, hserved⟩
    | tryFails hpc | getUnlock hpc =>
      refine h.update (i := i) (List.prefix_refl _) rfl (fun g hg => ?_) rfl
        (by simp [ClientPc.collection])
      obtain ⟨g', hg', rfl | rfl⟩ := mem_modify hg
      · exact h.getter g hg'
      · exact h.getter g' hg'
    | sendWrite hpc | sendPost hpc | sendAwait hpc | sendRead hpc | sendUnlock hpc
    | shutdownLock hpc | shutdownPost hpc | shutdownQuit hpc | shutdownUnlock hpc =>
      exact h.update (i := i) (List.prefix_refl _) rfl h.getter rfl (by simp [ClientPc.collection])
    | getWait hpc | getTry hpc | getRead hpc | getLock hpc | getPush hpc =>
      rw [hpc] at hi
      exact h.update (i := i) (List.prefix_refl _) rfl h.getter rfl hi

end

/-! ### The slots held -/

/-- The server is between the pop of a slot and the store of its number. -/
def ServerPc.popped : ServerPc → Bool
  | .unlockFreeList | .storeWaitId => true
  | _ => false

/-- The slots on the stack and the slots held are all slots. A slot is held by a command that is
served or being served; a command that expects a response holds its slot until it is pushed back. -/
structure Held (s : State ι) : Prop where
  conserved : (s.freeSlots ++ s.held.map Prod.snd).Perm (List.range 256)
  owner : ∀ x ∈ s.held, s.slotOf x.1 = x.2 ∧
    ∃ n, x.1 = some n ∧ n < s.served.length + s.server.popped.toNat
  handed : ∀ n id, Handed s n id true →
    s.slotOf (some n) = id ∧ ((some n, id) ∈ s.held ∨ n ∈ s.pushedBack)
  popped : s.server.popped = true → s.cmd.cmd.getXd = true → (s.cmd.ticket, s.serverId) ∈ s.held

theorem held_init : Held (State.init ι) where
  conserved := by
    have hrange : (State.init ι).freeSlots = List.range 256 := by
      simp [State.freeSlots, State.init, incU16]
    rw [hrange]
    simp [State.init]
  owner := by simp [State.init]
  handed := by simp [Handed, State.init]
  popped := by simp [State.init, ServerPc.popped]

section

variable {s t : State ι} {stray : ℕ}

theorem Held.length (h : Held s) : incU16 s.freeListIdx + s.held.length = 256 := by
  simpa [State.freeSlots] using h.conserved.length_eq

theorem Held.lt_of_mem (h : Held s) {x : Option ℕ × ℕ} (hx : x ∈ s.held) : x.2 < 256 :=
  List.mem_range.mp (h.conserved.mem_iff.mp
    (List.mem_append_right _ (List.mem_map_of_mem hx)))

theorem Held.freeListIdx_lt (h : Held s) (hne : s.freeListIdx ≠ 65535) : s.freeListIdx < 256 := by
  have hlength := h.length
  rw [incU16, if_neg hne] at hlength
  omega

theorem Held.incU16_lt (h : Held s) {x : Option ℕ × ℕ} (hx : x ∈ s.held) :
    incU16 s.freeListIdx < 256 := by
  have hlength := h.length
  have hpos := List.length_pos_of_mem hx
  omega

private theorem Held.step_pop (h : Held s) (horderly : Orderly s) (hpc : s.server = .popSlot)
    (hne : s.freeListIdx ≠ 65535) :
    Held { s with
      serverId := s.slotAt stray
      freeListIdx := decU16 s.freeListIdx
      held := s.held ++ [(s.cmd.ticket, s.slotAt stray)]
      slotOf := Function.update s.slotOf s.cmd.ticket (s.slotAt stray)
      server := .unlockFreeList } := by
  obtain ⟨i, n, hticket, -, -, hserved, -⟩ := horderly.of_taken (by rw [hpc]; rfl)
  have hlt := h.freeListIdx_lt hne
  have hother : ∀ m, m < n → Function.update s.slotOf s.cmd.ticket (s.slotAt stray) (some m) =
      s.slotOf (some m) := fun m hm => Function.update_of_ne (by rw [hticket]; simp; omega) _ _
  have howner := h.owner
  rw [hpc] at howner
  refine ⟨?_, fun ⟨tk, sl⟩ hx => ?_, fun m id hm => ?_, fun _ _ => by simp⟩
  · have hconserved := h.conserved
    rw [State.freeSlots, map_range_pop hlt] at hconserved
    have hslot : s.slotAt stray = s.freeList s.freeListIdx := if_pos hlt
    rw [← hslot] at hconserved
    simpa [State.freeSlots] using perm_pop hconserved
  · rcases List.mem_append.mp hx with hx | hx
    · obtain ⟨hslot, m, rfl, hlt⟩ := howner _ hx
      have hlt' : m < s.served.length := hlt
      exact ⟨(hother m (hserved ▸ hlt')).trans hslot, m, rfl, Nat.lt_succ_of_lt hlt'⟩
    · obtain ⟨rfl, rfl⟩ := Prod.mk.inj (List.mem_singleton.mp hx)
      exact ⟨Function.update_self .., n, hticket, hserved ▸ Nat.lt_succ_self _⟩
  · obtain ⟨hslot, hmem⟩ := h.handed m id hm
    have hlt : m < s.served.length := (List.getElem?_eq_some_iff.mp hm.2).1
    exact ⟨(hother m (hserved ▸ hlt)).trans hslot, hmem.imp_left (List.mem_append_left _)⟩

private theorem Held.step_store (h : Held s) (horderly : Orderly s)
    (hpc : s.server = .storeWaitId) :
    Held { s with
      pthreadWaitId := s.serverId
      served := s.served ++ [(s.cmd.ticket, s.serverId)]
      server := .lockCmdserver } := by
  obtain ⟨i, n, hticket, hacquired, -, hserved, -⟩ := horderly.of_taken (by rw [hpc]; rfl)
  have howner := h.owner
  have hpopped := h.popped
  rw [hpc] at howner hpopped
  refine ⟨h.conserved, fun x hx => ?_, fun m id hm => ?_, fun hfalse => by cases hfalse⟩
  · obtain ⟨hslot, m, hm, hlt⟩ := howner x hx
    refine ⟨hslot, m, hm, ?_⟩
    rw [List.length_append]
    exact hlt
  · obtain ⟨⟨e, he, hxd⟩, hid⟩ := hm
    by_cases hmn : m = n
    · subst hmn
      have hcmd : e = (i, s.cmd.cmd) := Option.some.inj (he.symm.trans hacquired)
      have hid' : s.serverId = id := (by simpa [← hserved] using hid : _ ∧ s.serverId = id).2
      rw [hcmd] at hxd
      have hmem := hpopped rfl hxd
      rw [hticket, hid'] at hmem
      exact ⟨(howner _ hmem).1, .inl hmem⟩
    · have hlt : m < s.served.length := by
        have hlt' := (List.getElem?_eq_some_iff.mp hid).1
        simp only [List.length_append, List.length_singleton] at hlt'
        omega
      exact h.handed m id ⟨⟨e, he, hxd⟩, by simpa [List.getElem?_append_left hlt] using hid⟩

theorem Held.step_server (h : Held s) (horderly : Orderly s) (hstep : ServerStep stray s t)
    (hpop : s.server = .popSlot → s.freeListIdx ≠ 65535) : Held t := by
  have howner := h.owner
  have hpopped := h.popped
  cases hstep with
  | popSlot hpc => exact h.step_pop horderly hpc (hpop hpc)
  | storeWaitId hpc => exact h.step_store horderly hpc
  | expectsNoResponse hpc hxd =>
    rw [hpc] at howner
    refine ⟨h.conserved, fun x hx => ?_, h.handed, fun _ hxd' => absurd hxd' (by simp [hxd])⟩
    obtain ⟨hslot, m, hm, hlt⟩ := howner x hx
    exact ⟨hslot, m, hm, Nat.lt_succ_of_lt hlt⟩
  | unlockFreeList hpc =>
    rw [hpc] at howner hpopped
    exact ⟨h.conserved, howner, h.handed, hpopped⟩
  | lockServerMut hpc | expectsResponse hpc | lockFreeList hpc | lockCmdserver hpc | quit hpc
  | keepOn hpc | push hpc | fileInFlight hpc | fileNothing hpc | unlockResp hpc
  | unlockCmdserver hpc =>
    rw [hpc] at howner
    exact ⟨h.conserved, howner, h.handed, fun hfalse => by cases hfalse⟩

theorem Held.mem_of_claim (h : Held s) (htraced : Traced s) (hclaims : (claims s).Inv) {i : ι}
    {k : Collection} (hk : (s.client i).collection = some k)
    (hclaim : (s.client i).claim = some (k.ticket, false)) : (some k.ticket, k.id) ∈ s.held :=
  (h.handed _ _ (htraced.collecting i k hk)).2.resolve_right (hclaims.unreleased i _ hclaim)

private theorem Held.step_push (h : Held s) (horderly : Orderly s) {k : Collection}
    (hhanded : Handed s k.ticket k.id true) (client : ι → ClientPc)
    (hmem : (some k.ticket, k.id) ∈ s.held) :
    Held { s with
      client := client
      freeListIdx := incU16 s.freeListIdx
      freeList := if incU16 s.freeListIdx < 256 then
        Function.update s.freeList (incU16 s.freeListIdx) (k.id % 2 ^ 16) else s.freeList
      held := s.held.erase (some k.ticket, k.id)
      pushedBack := s.pushedBack ++ [k.ticket] } := by
  have hlt := h.incU16_lt hmem
  have hid : k.id % 65536 = k.id := by
    have hid := h.lt_of_mem hmem
    simp only at hid
    omega
  have hkeep : ∀ m id, m ≠ k.ticket → (some m, id) ∈ s.held →
      (some m, id) ∈ s.held.erase (some k.ticket, k.id) := fun m id hne hm =>
    (List.mem_erase_of_ne (by simp [hne])).mpr hm
  refine ⟨?_, fun x hx => h.owner x (List.mem_of_mem_erase hx), fun m id hm => ?_,
    fun hpopped hxd => ?_⟩
  · have hpush := perm_push hmem h.conserved
    rw [State.freeSlots, ← map_range_push hlt] at hpush
    simpa [State.freeSlots, hlt, hid] using hpush
  · obtain ⟨hslot, hmem'⟩ := h.handed m id hm
    refine ⟨hslot, ?_⟩
    by_cases hmk : m = k.ticket
    · exact .inr (by simp [hmk])
    · exact hmem'.imp (hkeep m id hmk) (List.mem_append_left _)
  · -- the command being served is not handed out yet
    have hphase : s.server.phase = .taken := by
      change s.server.popped = true at hpopped
      cases hpc : s.server <;> simp [hpc, ServerPc.popped] at hpopped <;> rfl
    obtain ⟨i, n, hticket, -, -, hserved, -⟩ := horderly.of_taken hphase
    have hne : n ≠ k.ticket := by
      have hk := (List.getElem?_eq_some_iff.mp hhanded.2).1
      omega
    have hpop := h.popped hpopped hxd
    rw [hticket] at hpop
    exact hticket ▸ hkeep n _ hne hpop

theorem Held.step_client [DecidableEq ι] {i : ι} (h : Held s) (horderly : Orderly s)
    (htraced : Traced s)
    (hclaims : (claims s).Inv) (hstep : ClientStep s i t) : Held t := by
  have hk := htraced.collecting i
  have hmem := fun k => h.mem_of_claim htraced hclaims (i := i) (k := k)
  cases hstep with
  | sendLock hpc hfree =>
    refine ⟨h.conserved, h.owner, fun m id hm => ?_, h.popped⟩
    obtain ⟨⟨e, he, hxd⟩, hid⟩ := hm
    have hlt : m < s.acquired.length := by
      rw [← horderly.length_served hfree]
      exact (List.getElem?_eq_some_iff.mp hid).1
    exact h.handed m id ⟨⟨e, by simpa [List.getElem?_append_left hlt] using he, hxd⟩, hid⟩
  | sendWrite hpc =>
    have hrest := horderly.resting_of_sendWrite hpc
    refine ⟨h.conserved, h.owner, h.handed, fun hpopped _ => ?_⟩
    change s.server.popped = true at hpopped
    cases hserver : s.server <;> simp [hserver, ServerPc.popped, ServerPc.phase] at hpopped hrest
  | getPush hpc =>
    rw [hpc] at hk hmem
    exact h.step_push horderly (hk _ rfl) _ (hmem _ rfl rfl)
  | _ => exact ⟨h.conserved, h.owner, h.handed, h.popped⟩

end

/-! ### Conservation -/

/-- The client is in `shutdown`. -/
def ClientPc.inShutdown : ClientPc → Bool
  | .shutdownLock | .shutdownPost | .shutdownQuit | .shutdownUnlock => true
  | _ => false

/-- No `shutdown` is called. -/
def NoShutdown : Action ι → Prop
  | .call _ .shutdown => False
  | _ => True

instance : (a : Action ι) → Decidable (NoShutdown a)
  | .call _ .shutdown => inferInstanceAs (Decidable False)
  | .call _ (.send _) | .call _ (.get _) | .call _ (.tryGet _) | .call _ (.copy _) | .client _
  | .server _ | .poller _ | .deliver | .respond .. | .unsolicited _ =>
    inferInstanceAs (Decidable True)

/-- The server pops a slot only from a stack that is not empty. -/
def PopsNonempty (s : State ι) : Action ι → Prop
  | .server _ => s.server = .popSlot → s.freeListIdx ≠ 65535
  | _ => True

instance (s : State ι) : (a : Action ι) → Decidable (PopsNonempty s a)
  | .server _ => inferInstanceAs (Decidable (_ → _))
  | .call .. | .client _ | .poller _ | .deliver | .respond .. | .unsolicited _ =>
    inferInstanceAs (Decidable True)

/-- No `shutdown` is called, no response is taken twice, and the server pops a slot only from a
stack that is not empty. -/
def PopsFree (s : State ι) (a : Action ι) : Prop :=
  NoShutdown a ∧ CollectsOnce s a ∧ PopsNonempty s a

instance [Fintype ι] (s : State ι) (a : Action ι) : Decidable (PopsFree s a) :=
  inferInstanceAs (Decidable (_ ∧ _))

/-- What holds in such runs. -/
structure SlotsInv (s : State ι) : Prop where
  running : ∀ i, (s.client i).inShutdown = false
  orderly : Orderly s
  claims : (claims s).Inv
  traced : Traced s
  held : Held s

theorem slotsInv_init : SlotsInv (State.init ι) :=
  ⟨fun _ => rfl, orderly_init, claimsInv_init, traced_init, held_init⟩

section

variable [DecidableEq ι] {info : PackInfo} {s t : State ι} {a : Action ι}

omit [DecidableEq ι] in
private theorem notBarePost_of_running (h : ∀ i, (s.client i).inShutdown = false) :
    ¬BarePost s a := by
  intro hpost
  cases a with
  | client i =>
    have hi : s.client i = .shutdownPost := hpost
    simpa [hi, ClientPc.inShutdown] using h i
  | _ => exact hpost

private theorem running_step (h : ∀ i, (s.client i).inShutdown = false)
    (ha : NoShutdown a) (hstep : step info s a = some t) :
    ∀ i, (t.client i).inShutdown = false := by
  have hupdate : ∀ i pc, pc.inShutdown = false →
      ∀ j, (Function.update s.client i pc j).inShutdown = false := fun i pc hpc =>
    (Function.forall_update_iff s.client fun _ pc => pc.inShutdown = false).mpr
      ⟨hpc, fun j _ => h j⟩
  cases step_cases hstep with
  | @call i call _ h' =>
    cases h' with
    | shutdown => exact ha.elim
    | getThrows | copy => exact h
    | _ => exact hupdate i _ rfl
  | @client i _ h' =>
    have hi := h i
    cases h' with
    | shutdownLock hpc | shutdownPost hpc | shutdownQuit hpc | shutdownUnlock hpc =>
      rw [hpc] at hi
      cases hi
    | _ => exact hupdate i _ rfl
  | server h' => cases h' <;> exact h
  | poller h' => cases h' <;> exact h
  | hardware h' => cases h' <;> exact h

/-- **Every step keeps the invariant.** -/
theorem SlotsInv.step (h : SlotsInv s) (ha : PopsFree s a)
    (hstep : Command.step info s a = some t) : SlotsInv t where
  running := running_step h.running ha.1 hstep
  orderly := h.orderly.step hstep (notBarePost_of_running h.running)
  claims := claimsInv_step h.claims ha.2.1 hstep
  traced := h.traced.step h.orderly hstep
  held := by
    have hs := h.held
    cases step_cases hstep with
    | call h' => cases h' <;> exact ⟨hs.conserved, hs.owner, hs.handed, hs.popped⟩
    | client h' => exact hs.step_client h.orderly h.traced h.claims h'
    | server h' => exact hs.step_server h.orderly h' ha.2.2
    | poller h' | hardware h' => cases h' <;> exact ⟨hs.conserved, hs.owner, hs.handed, hs.popped⟩

theorem slotsInv_of_reaches (h : (commandSystem ι info).Reaches PopsFree s) : SlotsInv s :=
  h.invariant slotsInv_init fun _ _ _ hs ha hstep => hs.step ha hstep

/-- Conservation of the slots: the stack and the slots held by outstanding commands are pairwise
distinct and together all slots, and the indices of a pop and of a push are inside the array. -/
structure SlotsConserved (s : State ι) : Prop where
  nodup : (s.freeSlots ++ s.held.map Prod.snd).Nodup
  all : ∀ n, n ∈ s.freeSlots ++ s.held.map Prod.snd ↔ n < 256
  pop : s.server = .popSlot → s.freeListIdx ≠ 65535 → s.freeListIdx < 256
  push : ∀ i k r, s.client i = .getPush k r → incU16 s.freeListIdx < 256

/-- **Conservation of the response slots** in every run of sends and collections in which the server
pops only from a stack that is not empty and no response is taken twice. -/
theorem slots_conserved (h : (commandSystem ι info).Reaches PopsFree s) : SlotsConserved s := by
  have hinv := slotsInv_of_reaches h
  have hperm := hinv.held.conserved
  refine ⟨hperm.nodup_iff.mpr List.nodup_range, fun n => hperm.mem_iff.trans List.mem_range,
    fun _ => hinv.held.freeListIdx_lt, fun i k r hpc => ?_⟩
  exact hinv.held.incU16_lt (hinv.held.mem_of_claim hinv.traced hinv.claims (i := i) (k := k)
    (by rw [hpc]; rfl) (by rw [hpc]; rfl))

end

/-- Two commands are outstanding after a third was collected. -/
theorem slots_conserved_three_sends :
    ∃ s, (commandSystem (Fin 1) ⟨4, 8⟩).Reaches PopsFree s ∧
      s.held = [(some 1, 254), (some 2, 255)] ∧ s.freeListIdx = 253 ∧ SlotsConserved s := by
  obtain ⟨s, hs, hheld, hidx⟩ := (commandSystem (Fin 1) ⟨4, 8⟩).exists_reaches PopsFree
    (fun s => s.held = [(some 1, 254), (some 2, 255)] ∧ s.freeListIdx = 253)
    (sendRun 0 { xd := 1 } ++ sendRun 0 { xd := 1 } ++ respondRun ⟨0, 0, 0⟩ ++ getRun 0 0 ++
      sendRun 0 { xd := 1 }) (by decide +kernel)
  exact ⟨s, hs, hheld, hidx, slots_conserved hs⟩

/-- The server pops a slot for the 257th outstanding command with index 65535. -/
theorem not_slots_conserved :
    ¬∀ s, (commandSystem (Fin 1) ⟨4, 8⟩).Reaches (fun _ => NoShutdown) s →
      s.server = .popSlot → s.freeListIdx < 256 := by
  intro h
  obtain ⟨s, hs, hpc, hidx⟩ := (commandSystem (Fin 1) ⟨4, 8⟩).exists_reaches (fun _ => NoShutdown)
    (fun s => s.server = .popSlot ∧ s.freeListIdx = 65535)
    (List.flatten [(List.replicate 256 (sendRun 0 { xd := 1 })).flatten,
      [.call 0 (.send { xd := 1 }), .client 0, .client 0, .client 0],
      List.replicate 3 (.server 0)]) (by decide +kernel)
  have hlt := h s hs hpc
  omega

end Beethoven.Command
