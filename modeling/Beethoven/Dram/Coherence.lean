import Beethoven.Dram.DramSystem
import Beethoven.Lib.WriteBuffer

/-!
# The order of reads and writes

A controller answers writes before they reach the devices, merges the writes of an address, answers
reads from the writes that it has not issued yet, and serves the other reads and the writes in an
order of its own. It nevertheless refines the memory behind a write buffer of `Lib.WriteBuffer`, at
every address: the pending writes are the buffer, the pending reads are the reads that wait, a
column read fetches, and a column write stores. The one guard of that machine is that no write is
stored while a read of its address waits. It is kept in two ways:

* with separate queues, a write of an address joins the command queues only when no read of the
  address is pending, and then no read becomes pending before the write is issued;
* with a unified queue, the read and the write of an address keep their order on the way to the
  command queue, since they are for the same command queue, and there the write is held back by the
  read before it.
-/

namespace Beethoven.Dram

open Lib (WriteBuffer.Event)
open Function

/-- What an event means for the memory behind the write buffer. -/
def Event.transfer : Event → Option (Lib.WriteBuffer.Event ℕ)
  | .accept addr true _ => some (.write addr)
  | .accept addr false hit => some (.read addr hit)
  | .issue _ cmd =>
    if cmd.cmdType.isRead then some (.fetch cmd.hexAddr)
    else if cmd.cmdType.isWrite then some (.store cmd.hexAddr)
    else none

namespace Controller

variable {c : Config} {k k' k'' : Controller} {a : ℕ} {w : Bool} {cmd : Command}

def transfers (k : Controller) : List (Lib.WriteBuffer.Event ℕ) :=
  k.history.filterMap Event.transfer

/-- The addresses with a pending write, and those with pending reads. -/
def buffers (k : Controller) : Lib.WriteBuffer.State ℕ where
  buffered a := decide (a ∈ k.pendingAddrs true)
  waiting a := decide (a ∈ k.pendingAddrs false)

/-- The kinds of the commands and transactions of an address on their way through a unified queue,
those nearest to the banks first. -/
def line (c : Config) (k : Controller) (a : ℕ) : List Bool :=
  ((k.cmdQueue.queues (c.queueOf (c.addressMapping a))).filter (·.hexAddr = a)).map
      (·.cmdType.isWrite) ++
    (k.unifiedQueue.filter (·.addr = a)).map (·.isWrite)

/-- No write of an address comes before a pending read of it. -/
structure Ordered (c : Config) (k : Controller) : Prop where
  split : c.unifiedQueue = false → ∀ a ∈ k.pendingAddrs false,
    c.column a true ∉ k.cmdQueue.queues (c.queueOf (c.addressMapping a))
  unified : c.unifiedQueue = true → ∀ a ∈ k.pendingAddrs false, (k.line c a).head? = some false

/-- The controller is where the memory behind the write buffer is after the same events. -/
structure Follows (c : Config) (k : Controller) : Prop extends Ordered c k where
  reaches : (Lib.WriteBuffer.system ℕ).Reaches Lib.System.anyStep (k.buffers, k.transfers)

/-! ### Addresses that are not pending -/

theorem Good.not_mem_queue (hk : Good c k) (h : a ∉ k.pendingAddrs w) :
    c.column a w ∉ k.cmdQueue.queues (c.queueOf (c.addressMapping a)) := by
  intro hmem
  have hcount := hk.queued w a
  have hpos := List.count_pos_iff.mpr hmem
  rw [if_neg h, Controller.queued] at hcount
  omega

theorem Good.pending_of_mem_waiting (hk : Good c k) {t : Transaction} (ht : t ∈ k.waiting) :
    t.addr ∈ k.pendingAddrs t.isWrite := by
  by_contra h
  have hcount := hk.queued t.isWrite t.addr
  rw [if_neg h, Controller.queued] at hcount
  have hpos : 0 < k.waiting.countP fun x => x.addr = t.addr && x.isWrite = t.isWrite :=
    List.countP_pos_iff.mpr ⟨t, ht, by simp⟩
  omega

theorem Good.eq_column (hk : Good c k) {i : ℤ} (h : cmd ∈ k.cmdQueue.queues i) :
    cmd = c.column cmd.hexAddr cmd.cmdType.isWrite := by
  obtain ⟨w, hw⟩ := hk.placed.column i cmd h
  have hwrite : cmd.cmdType.isWrite = w := by rw [hw, c.isWrite_column]
  rw [hwrite]
  exact hw

theorem Good.line_eq_nil (hk : Good c k) (h : a ∉ k.pendingAddrs false)
    (h' : a ∉ k.pendingAddrs true) : k.line c a = [] := by
  have hnot (w : Bool) : a ∉ k.pendingAddrs w := by
    cases w
    · exact h
    · exact h'
  rw [line, List.append_eq_nil_iff, List.map_eq_nil_iff, List.map_eq_nil_iff,
    List.filter_eq_nil_iff, List.filter_eq_nil_iff]
  constructor
  · intro cmd hcmd haddr
    obtain rfl : cmd.hexAddr = a := by simpa using haddr
    exact hk.not_mem_queue (hnot _) (hk.eq_column hcmd ▸ hcmd)
  · intro t ht haddr
    obtain rfl : t.addr = a := by simpa using haddr
    exact hnot _ (hk.pending_of_mem_waiting (by simp [waiting, ht]))

/-! ### A new transaction -/

/-- What a new transaction changes. -/
structure Accepted (c : Config) (k : Controller) (a : ℕ) (w : Bool) (k' : Controller) : Prop where
  cmdQueue : k'.cmdQueue = k.cmdQueue
  history : k'.history = k.history ++ [.accept a w (decide (a ∈ k.pendingAddrs true))]
  pendingAddrs : ∀ w' b, b ∈ k'.pendingAddrs w' ↔
    b ∈ k.pendingAddrs w' ∨ a ∉ k.pendingAddrs true ∧ w' = w ∧ b = a
  unifiedQueue : ∃ new, k'.unifiedQueue = k.unifiedQueue ++ new ∧
    (∀ t ∈ new, t.addr = a ∧ t.isWrite = w) ∧
    (c.unifiedQueue → a ∉ k.pendingAddrs true → a ∉ k.pendingAddrs w → new ≠ [])

theorem accepted_enqueue (h : a ∉ k.pendingAddrs true) :
    Accepted c k a w (record ((k.addPending ⟨a, k.clk, 0, w⟩).enqueue c ⟨a, k.clk, 0, w⟩)
      (.accept a w false)) := by
  obtain ⟨-, hq, -, hrd, hwr, -, -, hhist⟩ := enqueue_frame (c := c)
    (k.addPending ⟨a, k.clk, 0, w⟩) ⟨a, k.clk, 0, w⟩
  have hpending : (k.addPending ⟨a, k.clk, 0, w⟩).cmdQueue = k.cmdQueue ∧
      (k.addPending ⟨a, k.clk, 0, w⟩).history = k.history ∧
      (k.addPending ⟨a, k.clk, 0, w⟩).unifiedQueue = k.unifiedQueue := by
    rw [addPending]
    split_ifs <;> exact ⟨rfl, rfl, rfl⟩
  refine ⟨hq.trans hpending.1, ?_, fun w' b => ?_, ?_⟩
  · rw [decide_eq_false h]
    exact congrArg (· ++ _) (hhist.trans hpending.2.1)
  · have haddrs : pendingAddrs (record ((k.addPending ⟨a, k.clk, 0, w⟩).enqueue c
        ⟨a, k.clk, 0, w⟩) (.accept a w false)) w' =
        (k.addPending ⟨a, k.clk, 0, w⟩).pendingAddrs w' := by
      cases w'
      · exact congrArg (List.map _) hrd
      · exact congrArg (List.map _) hwr
    rw [haddrs, pendingAddrs_addPending]
    by_cases hw : w' = w
    · simp [hw, h]
    · simp [hw]
  · rw [← hpending.2.2]
    change ∃ new, ((k.addPending ⟨a, k.clk, 0, w⟩).enqueue c ⟨a, k.clk, 0, w⟩).unifiedQueue =
      _ ++ new ∧ _
    rw [enqueue]
    by_cases hc : c.unifiedQueue
    · rw [if_pos hc]
      exact ⟨[⟨a, k.clk, 0, w⟩], rfl, by simp, by simp⟩
    · rw [if_neg hc]
      refine ⟨[], ?_, by simp, fun hc' => absurd hc' hc⟩
      split_ifs <;> simp

theorem accepted_addTransaction (a : ℕ) (w : Bool) :
    Accepted c k a w (k.addTransaction c a w) := by
  by_cases h : a ∈ k.pendingAddrs true
  · rw [addTransaction_of_mem h]
    refine ⟨rfl, ?_, fun w' b => ?_, [], by simp [record], by simp, fun _ h' => absurd h h'⟩
    · rw [decide_eq_true h]
      rfl
    · rw [or_iff_left fun h' => h'.1 h]
      rfl
  · cases w with
    | true =>
      rw [addTransaction_write h]
      obtain ⟨hq, hhist, hpending, hunified⟩ := accepted_enqueue (c := c) (w := true) h
      exact ⟨hq, hhist, hpending, hunified⟩
    | false =>
      rw [addTransaction_read h]
      split_ifs with hmem
      · refine ⟨rfl, ?_, fun w' b => ?_, [], by simp [record, addPending], by simp,
          fun _ _ h' => absurd hmem h'⟩
        · rw [decide_eq_false h]
          rfl
        · change b ∈ (k.addPending ⟨a, k.clk, 0, false⟩).pendingAddrs w' ↔ _
          rw [pendingAddrs_addPending]
          by_cases hw : w' = false
          · simp [hw, h]
          · simp [hw]
      · exact accepted_enqueue h

theorem decide_mem_update {l l' : List ℕ} (h : ∀ b, b ∈ l' ↔ b ∈ l ∨ b = a) :
    (fun b => decide (b ∈ l')) = update (fun b => decide (b ∈ l)) a true := by
  funext b
  by_cases hb : b = a
  · subst hb
    simp [h]
  · simp [h, hb]

theorem decide_mem_update_false {l l' : List ℕ} (h : ∀ b, b ∈ l' ↔ b ∈ l ∧ b ≠ a) :
    (fun b => decide (b ∈ l')) = update (fun b => decide (b ∈ l)) a false := by
  funext b
  by_cases hb : b = a
  · subst hb
    simp [h]
  · simp [h, hb]

theorem decide_mem_congr {l l' : List ℕ} (h : ∀ b, b ∈ l' ↔ b ∈ l) :
    (fun b => decide (b ∈ l')) = fun b => decide (b ∈ l) := by
  funext b
  exact decide_eq_decide.mpr (h b)

theorem Accepted.step (h : Accepted c k a w k') : Lib.WriteBuffer.step k.buffers
    (if w then .write a else .read a (decide (a ∈ k.pendingAddrs true))) = some k'.buffers := by
  cases w with
  | true =>
    refine congrArg some ?_
    have hbuffered (b : ℕ) : b ∈ k'.pendingAddrs true ↔ b ∈ k.pendingAddrs true ∨ b = a := by
      rw [h.pendingAddrs]
      by_cases hb : b = a
      · subst hb
        simp only [and_true, or_true, iff_true]
        exact Classical.em _
      · simp [hb]
    have hwaiting (b : ℕ) : b ∈ k'.pendingAddrs false ↔ b ∈ k.pendingAddrs false := by
      simp [h.pendingAddrs]
    simp only [buffers, decide_mem_update hbuffered, decide_mem_congr hwaiting]
  | false =>
    have hbuffered (b : ℕ) : b ∈ k'.pendingAddrs true ↔ b ∈ k.pendingAddrs true := by
      simp [h.pendingAddrs]
    have hguard : decide (a ∈ k.pendingAddrs true) = k.buffers.buffered a := rfl
    change (if decide (a ∈ k.pendingAddrs true) = k.buffers.buffered a then some _ else none) = _
    rw [if_pos hguard]
    refine congrArg some ?_
    by_cases hhit : a ∈ k.pendingAddrs true
    · have hwaiting (b : ℕ) : b ∈ k'.pendingAddrs false ↔ b ∈ k.pendingAddrs false := by
        simp [h.pendingAddrs, hhit]
      rw [if_pos (decide_eq_true hhit)]
      simp only [buffers, decide_mem_congr hbuffered, decide_mem_congr hwaiting]
    · have hwaiting (b : ℕ) : b ∈ k'.pendingAddrs false ↔ b ∈ k.pendingAddrs false ∨ b = a := by
        simp [h.pendingAddrs, hhit]
      rw [if_neg (by simpa using hhit)]
      simp only [buffers, decide_mem_congr hbuffered, decide_mem_update hwaiting]

theorem Accepted.transfers (h : Accepted c k a w k') : k'.transfers = k.transfers ++
    [if w then .write a else .read a (decide (a ∈ k.pendingAddrs true))] := by
  rw [Controller.transfers, h.history, List.filterMap_append]
  cases w <;> rfl

/-- A read becomes pending only while no write of its address is on its way. -/
theorem Accepted.ordered (h : Accepted c k a w k') (hk : Good c k) (ho : Ordered c k) :
    Ordered c k' := by
  -- the read that has become pending, if one has
  have hcases {b : ℕ} (hb : b ∈ k'.pendingAddrs false) : b ∈ k.pendingAddrs false ∨
      b ∉ k.pendingAddrs false ∧ a ∉ k.pendingAddrs true ∧ w = false ∧ b = a := by
    by_cases hold : b ∈ k.pendingAddrs false
    · exact .inl hold
    · have hnew := ((h.pendingAddrs false b).mp hb).resolve_left hold
      exact .inr ⟨hold, hnew.1, hnew.2.1.symm, hnew.2.2⟩
  constructor
  · intro hc b hb
    rw [h.cmdQueue]
    rcases hcases hb with hold | ⟨-, hwrite, -, rfl⟩
    · exact ho.split hc b hold
    · exact hk.not_mem_queue hwrite
  · intro hc b hb
    obtain ⟨new, hnew, hof, hne⟩ := h.unifiedQueue
    have hline : k'.line c b = k.line c b ++ (new.filter (·.addr = b)).map (·.isWrite) := by
      rw [line, line, h.cmdQueue, hnew, List.filter_append, List.map_append, List.append_assoc]
    rw [hline, List.head?_append]
    rcases hcases hb with hold | ⟨hread, hwrite, rfl, rfl⟩
    · rw [ho.unified hc b hold]
      rfl
    · obtain ⟨t, rest, rfl⟩ := List.exists_cons_of_ne_nil (hne hc hwrite hread)
      obtain ⟨haddr, hisWrite⟩ := hof t List.mem_cons_self
      rw [hk.line_eq_nil hread hwrite, List.filter_cons_of_pos (by simpa using haddr),
        List.map_cons, hisWrite]
      rfl

/-! ### A command -/

/-- A column write is issued only when no read of its address is pending. -/
theorem Ordered.not_mem_of_write (ho : Ordered c k) (hk : Good c k) {pre post : List Command}
    (hqueue : k.cmdQueue.queues (c.queueOf (c.addressMapping a)) = pre ++ c.column a true :: post)
    (hdep : CommandQueue.hasRWDependency pre (c.column a true) = false) :
    a ∉ k.pendingAddrs false := by
  intro hmem
  cases hc : c.unifiedQueue with
  | false => exact ho.split hc a hmem (by simp [hqueue])
  | true =>
    have hhead := ho.unified hc a hmem
    rw [line, hqueue, List.filter_append, List.filter_cons_of_pos (by simp), List.map_append,
      List.append_assoc, List.head?_append, List.map_cons, c.isWrite_column] at hhead
    cases hpre : pre.filter (·.hexAddr = a) with
    | nil =>
      rw [hpre] at hhead
      cases hhead
    | cons cmd rest =>
      -- the first command of the address is a read, on which the write depends
      rw [hpre] at hhead
      have hwrite : cmd.cmdType.isWrite = false := Option.some.inj hhead
      obtain ⟨hcmd, haddr⟩ := List.mem_filter.mp (hpre ▸ List.mem_cons_self : cmd ∈ _)
      obtain rfl : cmd.hexAddr = a := by simpa using haddr
      have hmem : cmd ∈ k.cmdQueue.queues (c.queueOf (c.addressMapping cmd.hexAddr)) := by
        simp [hqueue, hcmd]
      have hcolumn := hk.eq_column hmem
      rw [hwrite] at hcolumn
      have hany : CommandQueue.hasRWDependency pre (c.column cmd.hexAddr true) = true := by
        refine List.any_eq_true.mpr ⟨cmd, hcmd, ?_⟩
        have hread : cmd.cmdType.isRead = true := by
          rw [hcolumn, c.isRead_column]
          rfl
        have hcmdAddr : cmd.addr = c.addressMapping cmd.hexAddr := by
          rw [hcolumn, c.column_addr, c.column_hexAddr]
        simp [hread, hcmdAddr]
      rw [hdep] at hany
      cases hany

/-- The commands of an address in its queue. -/
def commandsOf (c : Config) (k : Controller) (a : ℕ) : List Command :=
  (k.cmdQueue.queues (c.queueOf (c.addressMapping a))).filter (·.hexAddr = a)

/-- The order is about pending reads and the commands of their addresses only. -/
theorem Ordered.of_commandsOf (ho : Ordered c k)
    (hpending : ∀ b ∈ k'.pendingAddrs false, b ∈ k.pendingAddrs false)
    (hcommands : ∀ b ∈ k'.pendingAddrs false, k'.commandsOf c b = k.commandsOf c b)
    (hunified : k'.unifiedQueue = k.unifiedQueue) : Ordered c k' := by
  constructor
  · intro hc b hb hmem
    have hof : c.column b true ∈ k'.commandsOf c b := List.mem_filter.mpr ⟨hmem, by simp⟩
    rw [hcommands b hb] at hof
    exact ho.split hc b (hpending b hb) (List.mem_filter.mp hof).1
  · intro hc b hb
    have hhead := ho.unified hc b (hpending b hb)
    have hcommands := hcommands b hb
    rw [line] at hhead ⊢
    rw [commandsOf, commandsOf] at hcommands
    rwa [hcommands, hunified]

theorem commandsOf_taken {b : ℕ} {q : CommandQueue} {pre post : List Command}
    (hqueue : k.cmdQueue.queues (c.queueOf (c.addressMapping a)) = pre ++ c.column a w :: post)
    (hq : q.queues = update k.cmdQueue.queues (c.queueOf (c.addressMapping a))
      (pre ++ post)) (hb : b ≠ a) :
    (q.queues (c.queueOf (c.addressMapping b))).filter (·.hexAddr = b) = k.commandsOf c b := by
  rw [commandsOf, hq]
  by_cases hidx : c.queueOf (c.addressMapping b) = c.queueOf (c.addressMapping a)
  · rw [hidx, update_self, hqueue, List.filter_append, List.filter_append,
      List.filter_cons_of_neg (by simp [Ne.symm hb])]
  · rw [update_of_ne hidx]

theorem Follows.issue (hf : Follows c k) (hk : Good c k) (hpicked : Picked c k (some cmd) k')
    (hserved : Served c k' k'' cmd) : Follows c k'' := by
  have htransfers : k''.transfers = k'.transfers ++
      [Event.issue k'.clk cmd].filterMap Event.transfer := by
    rw [transfers, hserved.history, List.filterMap_append]
    rfl
  cases hpicked with
  | @row q cmd hq hclk hcmd hexec hrefresh =>
    have hcolumn (w : Bool) (b : ℕ) : cmd ≠ c.column b w := by
      rintro rfl
      exact hcmd (c.isReadWrite_column b w)
    have hpending (w : Bool) (b : ℕ) : b ∈ k''.pendingAddrs w ↔ b ∈ k.pendingAddrs w :=
      (hserved.pendingAddrs w b).trans (and_iff_left (hcolumn w b))
    have hnone : Event.transfer (.issue k.clk cmd) = none := by
      simp only [CommandType.isReadWrite, Bool.or_eq_true, not_or, Bool.not_eq_true] at hcmd
      simp [Event.transfer, hcmd.1, hcmd.2]
    refine ⟨hf.of_commandsOf (fun b hb => (hpending false b).mp hb) (fun b _ => ?_)
      hserved.unifiedQueue, ?_⟩
    · rw [commandsOf, commandsOf, hserved.queues, hq]
    · have hbuffers : k''.buffers = k.buffers := by
        simp only [buffers, decide_mem_congr (hpending true), decide_mem_congr (hpending false)]
      rw [hbuffers, htransfers, List.filterMap_cons_none hnone, List.filterMap_nil,
        List.append_nil]
      exact hf.reaches
  | @column q a w pre post hqueue hq hclk hexec hdep =>
    have hpending (w' : Bool) (b : ℕ) : b ∈ k''.pendingAddrs w' ↔
        b ∈ k.pendingAddrs w' ∧ ¬ (w' = w ∧ b = a) := by
      refine (hserved.pendingAddrs w' b).trans (and_congr_right' (not_congr ⟨fun h => ?_, ?_⟩))
      · obtain ⟨rfl, rfl⟩ := column_injective h
        exact ⟨rfl, rfl⟩
      · rintro ⟨rfl, rfl⟩
        rfl
    have hnot : w = true → a ∉ k.pendingAddrs false := by
      rintro rfl
      exact hf.not_mem_of_write hk hqueue (hdep rfl)
    -- a read that is still pending is of another address
    have hother (b : ℕ) (hb : b ∈ k''.pendingAddrs false) : b ≠ a := by
      rintro rfl
      obtain ⟨hmem, hserved⟩ := (hpending false b).mp hb
      cases w with
      | false => exact hserved ⟨rfl, rfl⟩
      | true => exact hnot rfl hmem
    refine ⟨hf.of_commandsOf (fun b hb => ((hpending false b).mp hb).1) (fun b hb => ?_)
      hserved.unifiedQueue, ?_⟩
    · rw [commandsOf, hserved.queues]
      exact commandsOf_taken hqueue hq (hother b hb)
    · rw [htransfers]
      cases w with
      | false =>
        have htransfer : Event.transfer (.issue k.clk (c.column a false)) = some (.fetch a) := by
          simp [Event.transfer]
        rw [List.filterMap_cons_some htransfer, List.filterMap_nil]
        refine Lib.WriteBuffer.Reaches.step hf.reaches (congrArg some ?_)
        have hwaiting (b : ℕ) : b ∈ k''.pendingAddrs false ↔ b ∈ k.pendingAddrs false ∧ b ≠ a := by
          simp [hpending]
        have hbuffered (b : ℕ) : b ∈ k''.pendingAddrs true ↔ b ∈ k.pendingAddrs true := by
          simp [hpending]
        simp only [buffers, decide_mem_congr hbuffered, decide_mem_update_false hwaiting]
      | true =>
        have htransfer : Event.transfer (.issue k.clk (c.column a true)) = some (.store a) := by
          simp [Event.transfer]
        rw [List.filterMap_cons_some htransfer, List.filterMap_nil]
        refine Lib.WriteBuffer.Reaches.step hf.reaches ?_
        have hwaiting (b : ℕ) : b ∈ k''.pendingAddrs false ↔ b ∈ k.pendingAddrs false := by
          simp [hpending]
        have hbuffered (b : ℕ) : b ∈ k''.pendingAddrs true ↔ b ∈ k.pendingAddrs true ∧ b ≠ a := by
          simp [hpending]
        rw [Lib.WriteBuffer.step, if_neg (by simpa [buffers] using hnot rfl)]
        refine congrArg some ?_
        simp only [buffers, decide_mem_congr hwaiting, decide_mem_update_false hbuffered]

/-! ### Scheduling -/

/-- On its way from the unified queue to its command queue, a transaction passes no other one of its
address. -/
theorem line_move {before after : List Transaction} {t : Transaction} {q : CommandQueue}
    (hsched : k.unifiedQueue = before ++ t :: after)
    (hq : q.queues = update k.cmdQueue.queues (c.queueOf (c.addressMapping t.addr))
      (k.cmdQueue.queues (c.queueOf (c.addressMapping t.addr)) ++ [c.column t.addr t.isWrite]))
    (hfirst : ∀ t' ∈ before,
      c.queueOf (c.addressMapping t'.addr) ≠ c.queueOf (c.addressMapping t.addr)) (b : ℕ) :
    ((q.queues (c.queueOf (c.addressMapping b))).filter (·.hexAddr = b)).map (·.cmdType.isWrite) ++
      ((before ++ after).filter (·.addr = b)).map (·.isWrite) = k.line c b := by
  rw [line, hsched, hq]
  by_cases hb : t.addr = b
  · subst hb
    have hbefore : before.filter (·.addr = t.addr) = [] := by
      refine List.filter_eq_nil_iff.mpr fun t' ht' haddr => hfirst t' ht' ?_
      rw [show t'.addr = t.addr by simpa using haddr]
    rw [update_self, List.filter_append, List.filter_append, List.filter_append, hbefore,
      List.filter_cons_of_pos (by simp), List.filter_cons_of_pos (by simp)]
    simp
  · have hqueue : (update k.cmdQueue.queues (c.queueOf (c.addressMapping t.addr))
        (k.cmdQueue.queues (c.queueOf (c.addressMapping t.addr)) ++
          [c.column t.addr t.isWrite]) (c.queueOf (c.addressMapping b))).filter (·.hexAddr = b) =
        (k.cmdQueue.queues (c.queueOf (c.addressMapping b))).filter (·.hexAddr = b) := by
      by_cases hidx : c.queueOf (c.addressMapping b) = c.queueOf (c.addressMapping t.addr)
      · rw [hidx, update_self, List.filter_append,
          List.filter_cons_of_neg (by simp [hb]), List.filter_nil, List.append_nil]
      · rw [update_of_ne hidx]
    rw [hqueue, List.filter_append, List.filter_append, List.filter_cons_of_neg (by simpa using hb)]

theorem Ordered.scheduled (ho : Ordered c k) (h : Scheduled c k k') : Ordered c k' := by
  cases h with
  | full hfull => exact ho
  | blocked hsched hfull hroom hc hwrite hread => exact ⟨ho.split, ho.unified⟩
  | @move before after t q d hsched hfull hroom hq hclk hdep =>
    have hrd := (setScheduled_frame (c := c) k (before ++ after)).2.2.2.1
    have hpending : pendingAddrs { k.setScheduled c (before ++ after) with
        cmdQueue := q, writeDraining := d } false = k.pendingAddrs false :=
      congrArg (List.map _) hrd
    constructor
    · intro hc b hb hmem
      rw [hpending] at hb
      simp only [hq, (perm_update_append ..).mem_iff] at hmem
      split_ifs at hmem
      · rcases List.mem_cons.mp hmem with hmem | hmem
        · obtain ⟨rfl, hwrite⟩ := column_injective hmem
          exact hdep hc hwrite.symm hb
        · exact ho.split hc b hb hmem
      · exact ho.split hc b hb hmem
    · intro hc b hb
      rw [hpending] at hb
      rw [Controller.scheduled, if_pos hc] at hsched
      have hline : line c { k.setScheduled c (before ++ after) with
          cmdQueue := q, writeDraining := d } b = k.line c b := by
        rw [← line_move hsched hq (fun t' ht' => hroom.queueOf_ne (hfull t' ht')) b, line,
          setScheduled, if_pos hc]
      rw [hline]
      exact ho.unified hc b hb

theorem Follows.scheduled (hf : Follows c k) (h : Scheduled c k k') : Follows c k' := by
  refine ⟨hf.toOrdered.scheduled h, ?_⟩
  cases h with
  | full hfull => exact hf.reaches
  | blocked hsched hfull hroom hc hwrite hread => exact hf.reaches
  | @move before after t q d hsched hfull hroom hq hclk hdep =>
    obtain ⟨-, -, -, hrd, hwr, -, -, hhist⟩ := setScheduled_frame (c := c) k (before ++ after)
    have hbuffers : buffers { k.setScheduled c (before ++ after) with
        cmdQueue := q, writeDraining := d } = k.buffers := by
      simp only [buffers, pendingAddrs_true, pendingAddrs_false, hrd, hwr]
      rfl
    have htransfers : transfers { k.setScheduled c (before ++ after) with
        cmdQueue := q, writeDraining := d } = k.transfers := by
      simp only [transfers, hhist]
    rw [hbuffers, htransfers]
    exact hf.reaches

/-! ### Runs -/

theorem follows_init : Follows c .init := by
  refine ⟨⟨fun _ a ha => ?_, fun _ a ha => ?_⟩, ?_⟩
  · simp [pendingAddrs, pending, init] at ha
  · simp [pendingAddrs, pending, init] at ha
  · have hbuffers : buffers .init = ⟨fun _ => false, fun _ => false⟩ := by
      simp [buffers, pendingAddrs, pending, init]
    rw [hbuffers]
    exact .init _ _

theorem Follows.same (hf : Follows c k) (h : SameBooks k k') : Follows c k' := by
  have hpending := pendingAddrs_congr h.pendingRdQ h.pendingWrQ
  refine ⟨hf.of_commandsOf (fun b hb => hpending false ▸ hb) (fun b _ => ?_) h.unifiedQueue, ?_⟩
  · rw [commandsOf, commandsOf, h.queues]
  · have hbuffers : k'.buffers = k.buffers := by simp only [buffers, hpending]
    rw [hbuffers, transfers, h.history]
    exact hf.reaches

/-- **A controller refines the memory behind a write buffer.** -/
theorem follows_invariant : Invariant c (Follows c) where
  same hsame hf := hf.same hsame.toSameBooks
  accept {k} a w hk hf _ := by
    have haccepted := accepted_addTransaction (c := c) (k := k) a w
    refine ⟨haccepted.ordered hk hf.toOrdered, ?_⟩
    rw [haccepted.transfers]
    exact Lib.WriteBuffer.Reaches.step hf.reaches haccepted.step
  refresh _ hf hrefresh := hf.same (sameBooks_tickRefresh hrefresh)
  issue hk hf hpicked hserved := hf.issue hk hpicked hserved
  schedule {k k'} _ hf hsched := by
    obtain ⟨d, hd⟩ := startDraining_eq c k
    rw [hd] at hsched
    have hdraining : Follows c { k with writeDraining := d } :=
      ⟨⟨hf.split, hf.unified⟩, hf.reaches⟩
    exact hdraining.scheduled hsched

end Controller

/-- **Every read is served with the newest write of its address before it.** The transfers of a
channel are its accepted transactions and its column commands. If a read found no pending write,
then the next column read of its address finds in the devices the newest write that was accepted
before the read; and if it found one, then the newest write before it is still on its way, and the
read is answered from it. -/
theorem read_newest_write {c : Config} (hc : c.Plain) {s : JedecDRAMSystem}
    (h : (dram c).Reaches Lib.System.anyStep s) (i a : ℕ) :
    (∀ pre mid post, (s.ctrls i).transfers = pre ++ .read a false :: mid ++ .fetch a :: post →
      .fetch a ∉ mid → (Lib.WriteBuffer.contents a (pre ++ .read a false :: mid)).stored =
        (Lib.WriteBuffer.contents a pre).newest) ∧
    (∀ pre post, (s.ctrls i).transfers = pre ++ .read a true :: post →
      (Lib.WriteBuffer.contents a pre).stored < (Lib.WriteBuffer.contents a pre).newest) := by
  have hsound := JedecDRAMSystem.sound_of_reaches hc (fun _ => Controller.follows_invariant)
    (fun _ => Controller.follows_init) h
  have hcoherent := Lib.WriteBuffer.coherent (hsound.good i).2.reaches
  exact ⟨hcoherent.fetched a, hcoherent.forwarded a⟩

-- a read that waits, a write behind it, the column read, and a read that is answered from the write
theorem read_newest_write_ddr4 : ∃ s, (dram ddr4).Reaches Lib.System.anyStep s ∧
    (s.ctrls 0).transfers = [.read 4096 false, .write 4096, .fetch 4096, .read 4096 true] ∧
    (Lib.WriteBuffer.contents 4096 [.read 4096 false, .write 4096]).stored =
      (Lib.WriteBuffer.contents 4096 []).newest ∧
    (Lib.WriteBuffer.contents 4096 [.read 4096 false, .write 4096, .fetch 4096]).stored <
      (Lib.WriteBuffer.contents 4096 [.read 4096 false, .write 4096, .fetch 4096]).newest := by
  obtain ⟨s, hs, htransfers⟩ := Lib.System.exists_reaches (dram ddr4) Lib.System.anyStep
    (fun s => (s.ctrls 0).transfers =
      [.read 4096 false, .write 4096, .fetch 4096, .read 4096 true])
    (.addTransaction 4096 false :: .addTransaction 4096 true ::
      (List.replicate 24 .clockTick ++ [.addTransaction 4096 false])) (by decide +kernel)
  obtain ⟨hfetched, hforwarded⟩ := read_newest_write plain_ddr4 hs 0 4096
  exact ⟨s, hs, htransfers, hfetched [] [.write 4096] [.read 4096 true] htransfers (by decide),
    hforwarded [.read 4096 false, .write 4096, .fetch 4096] [] htransfers⟩

end Beethoven.Dram
