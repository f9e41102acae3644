import Beethoven.DataServer.Server
import Beethoven.Lib.Rendezvous

/-!
# Calls of clients to the data server

`fpga_handle_t::malloc`, `free`, `copy_to_fpga` and `copy_from_fpga` of any number of clients, with
the data server (`libbeethoven/src/fpga_handle_impl/fpga_handle_discrete.cc`, the simulation paths
of `fpga_handle_zynq.cc`, `runtime/src/core/data_server.cc`). On the silicon of a Zynq device these
calls do not use the data server.

A step is one operation on a mutex or what the source does between two such operations; `malloc` has
a step for `shm_open` and one for `mmap`. A mutex is a binary semaphore: `true` means locked,
locking waits for `false`, unlocking sets `false`. A client that takes `data_cmd_send_lock` has the
shared file for itself until it unlocks it. If no `shm_open` or `mmap` of a client fails, the calls
are a rendezvous with the server. A `malloc` in which one of them fails throws without unlocking
`data_cmd_send_lock`, and no call gets the lock after that (`malloc_failure_blocks`).
-/

namespace Beethoven.Client.DataCalls

open Lib DataServer Function

/-! ### The system -/

/-- A call of a client, with the address and the length of the remote pointer given to it. -/
inductive Call where
  | malloc (len : UInt64)
  | free (fpgaAddr : UInt64)
  | copyToFpga (fpgaAddr len : UInt64)
  | copyFromFpga (fpgaAddr len : UInt64)
  deriving DecidableEq, Repr

/-- What a call writes to the shared file. -/
def Call.write (file : DataServerFile) : Call → DataServerFile
  | .malloc len => { file with opArgument := len, operation := .alloc }
  | .free fpgaAddr => { file with opArgument := fpgaAddr, operation := .free }
  | .copyToFpga fpgaAddr len =>
    { file with operation := .moveToFpga, opArgument := fpgaAddr, op3Argument := len }
  | .copyFromFpga fpgaAddr len =>
    { file with operation := .moveFromFpga, op2Argument := fpgaAddr, op3Argument := len }

/-- Where a client is. `t` is the number of its call `c`, `y` the shared file as it has read it. -/
inductive ClientPc where
  | idle
  | lock (c : Call)
  | write (t : ℕ) (c : Call)
  | post (t : ℕ) (c : Call)
  | await (t : ℕ) (c : Call)
  | read (t : ℕ) (c : Call)
  | shmOpen (t : ℕ) (c : Call) (y : DataServerFile)
  | mmap (t : ℕ) (c : Call) (y : DataServerFile)
  | unlock (t : ℕ) (c : Call) (y : DataServerFile)
  | leave (t : ℕ) (c : Call) (y : DataServerFile)
  deriving DecidableEq, Repr

/-- Where the data server is. -/
inductive ServerPc where
  | lockServerMut
  | serve
  | unlockResp
  | stopped
  deriving DecidableEq, Repr

/-- What happened so far. -/
structure History (ι : Type) where
  /-- The calls in the order in which they acquired `data_cmd_send_lock`. -/
  acquired : List (ι × Call) := []
  /-- The request in the shared file, with the number of its call. -/
  request : Option ℕ × Call := (none, .malloc 0)
  /-- The requests that the server replied to. -/
  served : List (Option ℕ × Call) := []
  /-- The shared file as the server left it after each of them. -/
  answers : List (Option ℕ × DataServerFile) := []
  /-- The last one of these. -/
  answer : DataServerFile := {}
  /-- The calls that returned, each with what it read. -/
  returned : List (ι × ℕ × DataServerFile) := []

/-- The shared file, the server and the clients. -/
structure State (ι : Type) extends History ι where
  serverMut : Bool := true
  dataCmdSendLock : Bool := false
  dataCmdRecieveRespLock : Bool := true
  file : DataServerFile := {}
  serverPc : ServerPc := .lockServerMut
  server : Server := {}
  client : ι → ClientPc := fun _ => .idle

variable {ι : Type} [DecidableEq ι]

/-- The next step of client `i` inside a call; `ok` is whether `shm_open` or `mmap` succeeds. Only
`malloc` reads the shared file after the reply. -/
def clientStep (ok : Bool) (s : State ι) (i : ι) : Option (State ι) :=
  match s.client i with
  | .idle => none
  | .lock c =>
    if s.dataCmdSendLock then none
    else some { s with
      client := update s.client i (.write s.acquired.length c)
      dataCmdSendLock := true, acquired := s.acquired ++ [(i, c)] }
  | .write t c =>
    some { s with
      client := update s.client i (.post t c)
      file := c.write s.file, request := (some t, c) }
  | .post t c =>
    some { s with client := update s.client i (.await t c), serverMut := false }
  | .await t c =>
    if s.dataCmdRecieveRespLock then none
    else some { s with
      client := update s.client i (.read t c), dataCmdRecieveRespLock := true }
  | .read t c =>
    match c with
    | .malloc _ => some { s with client := update s.client i (.shmOpen t c s.file) }
    | _ => some { s with client := update s.client i (.unlock t c s.file) }
  | .shmOpen t c y =>
    -- the exception leaves `data_cmd_send_lock` locked
    some { s with client := update s.client i (if ok then .mmap t c y else .idle) }
  | .mmap t c y =>
    some { s with client := update s.client i (if ok then .unlock t c y else .idle) }
  | .unlock t c y =>
    some { s with client := update s.client i (.leave t c y), dataCmdSendLock := false }
  | .leave t _ y =>
    some { s with
      client := update s.client i .idle
      returned := s.returned ++ [(i, t, y)] }

omit [DecidableEq ι] in
/-- The next step of the data server. -/
def serverStep (b : Build) (e : Answers) (s : State ι) : Option (State ι) :=
  match s.serverPc with
  | .lockServerMut =>
    if s.serverMut then none else some { s with serverMut := true, serverPc := .serve }
  | .serve =>
    let r := serve b e s.server s.file
    if r.served = .replied then
      some { s with
        server := r.server, file := r.file, serverPc := .unlockResp
        served := s.served ++ [s.request]
        answers := s.answers ++ [(s.request.1, r.file)], answer := r.file }
    else some { s with server := r.server, file := r.file, serverPc := .stopped }
  | .unlockResp =>
    some { s with dataCmdRecieveRespLock := false, serverPc := .lockServerMut }
  | .stopped => none

/-- The steps of a run, with the choices of the environment. -/
inductive Action (ι : Type) where
  | call (i : ι) (c : Call)
  | client (i : ι) (ok : Bool)
  | server (e : Answers)

/-- One step: an idle client makes a call, a client goes on with its call, or the server goes on. -/
def step (b : Build) (s : State ι) : Action ι → Option (State ι)
  | .call i c =>
    match s.client i with
    | .idle => some { s with client := update s.client i (.lock c) }
    | _ => none
  | .client i ok => clientStep ok s i
  | .server e => serverStep b e s

/-- The clients and the data server. -/
def dataCalls (ι : Type) [DecidableEq ι] (b : Build) : System (State ι) (Action ι) :=
  ⟨{}, step b⟩

/-- Client `i` is about to call `shm_open` or `mmap`. -/
def ClientPc.Maps : ClientPc → Prop
  | .shmOpen .. | .mmap .. => True
  | _ => False

instance : DecidablePred ClientPc.Maps
  | .shmOpen .. | .mmap .. => isTrue trivial
  | .idle | .lock _ | .write .. | .post .. | .await .. | .read .. | .unlock .. | .leave .. =>
    isFalse id

omit [DecidableEq ι] in
/-- No `shm_open` or `mmap` of a client fails. -/
def Succeeds (s : State ι) : Action ι → Prop
  | .client i ok => (s.client i).Maps → ok = true
  | _ => True

instance (s : State ι) : DecidablePred (Succeeds s)
  | .call .. => isTrue trivial
  | .client .. => inferInstanceAs (Decidable (_ → _))
  | .server _ => isTrue trivial

/-! ### What a step does -/

/-- One constructor for each way in which a step can be taken. -/
inductive StepCase (b : Build) (s : State ι) : Action ι → State ι → Prop
  | call {i c} (hpc : s.client i = .idle) :
      StepCase b s (.call i c) { s with client := update s.client i (.lock c) }
  | lock {i c ok} (hpc : s.client i = .lock c) (hfree : s.dataCmdSendLock = false) :
      StepCase b s (.client i ok) { s with
        client := update s.client i (.write s.acquired.length c)
        dataCmdSendLock := true, acquired := s.acquired ++ [(i, c)] }
  | write {i t c ok} (hpc : s.client i = .write t c) :
      StepCase b s (.client i ok) { s with
        client := update s.client i (.post t c)
        file := c.write s.file, request := (some t, c) }
  | post {i t c ok} (hpc : s.client i = .post t c) :
      StepCase b s (.client i ok) { s with
        client := update s.client i (.await t c), serverMut := false }
  | await {i t c ok} (hpc : s.client i = .await t c) (hfree : s.dataCmdRecieveRespLock = false) :
      StepCase b s (.client i ok) { s with
        client := update s.client i (.read t c), dataCmdRecieveRespLock := true }
  | readMalloc {i t c ok} (hpc : s.client i = .read t c) :
      StepCase b s (.client i ok) { s with
        client := update s.client i (.shmOpen t c s.file) }
  | readNothing {i t c ok} (hpc : s.client i = .read t c) :
      StepCase b s (.client i ok) { s with
        client := update s.client i (.unlock t c s.file) }
  | shmOpen {i t c y} (hpc : s.client i = .shmOpen t c y) :
      StepCase b s (.client i true) { s with client := update s.client i (.mmap t c y) }
  | mmap {i t c y} (hpc : s.client i = .mmap t c y) :
      StepCase b s (.client i true) { s with client := update s.client i (.unlock t c y) }
  | fail {i} (hpc : (s.client i).Maps) :
      StepCase b s (.client i false) { s with client := update s.client i .idle }
  | unlock {i t c y ok} (hpc : s.client i = .unlock t c y) :
      StepCase b s (.client i ok) { s with
        client := update s.client i (.leave t c y), dataCmdSendLock := false }
  | leave {i t c y ok} (hpc : s.client i = .leave t c y) :
      StepCase b s (.client i ok) { s with
        client := update s.client i .idle, returned := s.returned ++ [(i, t, y)] }
  | take {e} (hpc : s.serverPc = .lockServerMut) (hfree : s.serverMut = false) :
      StepCase b s (.server e) { s with serverMut := true, serverPc := .serve }
  | serve {e} (hpc : s.serverPc = .serve) (y : DataServerFile) (x : Server) :
      StepCase b s (.server e) { s with
        server := x, file := y, serverPc := .unlockResp
        served := s.served ++ [s.request]
        answers := s.answers ++ [(s.request.1, y)], answer := y }
  | stop {e} (hpc : s.serverPc = .serve) (y : DataServerFile) (x : Server) :
      StepCase b s (.server e) { s with server := x, file := y, serverPc := .stopped }
  | answer {e} (hpc : s.serverPc = .unlockResp) :
      StepCase b s (.server e) { s with
        dataCmdRecieveRespLock := false, serverPc := .lockServerMut }

variable {b : Build} {s t : State ι} {a : Action ι}

private theorem stepCase_client {i : ι} {ok : Bool} (h : clientStep ok s i = some t) :
    StepCase b s (.client i ok) t := by
  unfold clientStep at h
  split at h
  case h_1 => cases h
  case h_2 c hpc =>
    split_ifs at h with hlock
    cases h
    exact .lock hpc (Bool.eq_false_iff.mpr hlock)
  case h_3 hpc =>
    cases h
    exact .write hpc
  case h_4 hpc =>
    cases h
    exact .post hpc
  case h_5 hpc =>
    split_ifs at h with hlock
    cases h
    exact .await hpc (Bool.eq_false_iff.mpr hlock)
  case h_6 n c hpc =>
    cases c with
    | malloc len =>
      cases h
      exact .readMalloc hpc
    | _ =>
      cases h
      exact .readNothing hpc
  case h_7 hpc =>
    cases h
    cases ok with
    | true => exact .shmOpen hpc
    | false => exact .fail (by rw [hpc]; trivial)
  case h_8 hpc =>
    cases h
    cases ok with
    | true => exact .mmap hpc
    | false => exact .fail (by rw [hpc]; trivial)
  case h_9 hpc =>
    cases h
    exact .unlock hpc
  case h_10 hpc =>
    cases h
    exact .leave hpc

/-- **Every step** is one of the cases. -/
theorem step_cases (h : step b s a = some t) : StepCase b s a t := by
  cases a with
  | call i c =>
    simp only [step] at h
    split at h
    case h_1 hpc =>
      cases h
      exact .call hpc
    case h_2 => cases h
  | client i ok => exact stepCase_client h
  | server e =>
    simp only [step, serverStep] at h
    split at h
    case h_1 hpc =>
      split_ifs at h with hlock
      cases h
      exact .take hpc (Bool.eq_false_iff.mpr hlock)
    case h_2 hpc =>
      split_ifs at h
      · cases h
        exact .serve hpc _ _
      · cases h
        exact .stop hpc _ _
    case h_3 hpc =>
      cases h
      exact .answer hpc
    case h_4 => cases h

/-! ### The rendezvous -/

/-- The phase of the rendezvous in which the server is. A server that has stopped has taken a
request. -/
def ServerPc.phase : ServerPc → Rendezvous.ServerPhase
  | .lockServerMut => .resting
  | .serve | .stopped => .taken
  | .unlockResp => .pushed

/-- The phase of the rendezvous in which a client is. -/
def ClientPc.phase : ClientPc → Rendezvous.ClientPhase Call DataServerFile
  | .idle | .lock _ => .out
  | .write t c => .entered t c
  | .post t c => .written t c
  | .await t c => .waiting t c
  | .read t c => .woken t c
  | .shmOpen t c y | .mmap t c y | .unlock t c y => .replied t c y
  | .leave t c y => .leaving t c y

omit [DecidableEq ι] in
/-- The rendezvous in a state. -/
def view (s : State ι) : Rendezvous.State ι Call DataServerFile where
  wake := !s.serverMut
  answer := !s.dataCmdRecieveRespLock
  slot := s.request
  reply := s.answer
  server := s.serverPc.phase
  entered := s.acquired
  replies := s.answers
  pushed := s.served
  lock := s.dataCmdSendLock
  client i := (s.client i).phase
  returned := s.returned

private theorem phase_client_update (f : ι → ClientPc) (i : ι) (pc : ClientPc) :
    (fun j => (update f i pc j).phase) =
      update (fun j => (f j).phase) i pc.phase := by
  funext j
  exact apply_update (fun _ => ClientPc.phase) f i pc j

/-- The shared file is as the server left it from its reply until the client has read it. -/
def FileOk (s : State ι) : Prop :=
  (s.serverPc = .unlockResp ∨ s.dataCmdRecieveRespLock = false ∨ ∃ i t c, s.client i = .read t c) →
    s.file = s.answer

/-- The invariant of the calls that succeed. -/
structure Orderly (s : State ι) : Prop where
  inv : Rendezvous.Inv (view s)
  file : FileOk s

/-- A step of client `i` is a step of the rendezvous if its new phase makes it one. -/
private theorem inv_of_update {i : ι} {pc : ClientPc} (hs : Rendezvous.Inv (view s))
    (ht : t.client = update s.client i pc)
    (hstep : Rendezvous.Step (view s)
      { view t with client := update (view s).client i pc.phase }) :
    Rendezvous.Inv (view t) := by
  have hview : view t = { view t with client := update (view s).client i pc.phase } := by
    simp only [view, ht, phase_client_update]
  rw [hview]
  exact hs.step hstep

private theorem view_of_phase_eq {i : ι} {pc : ClientPc} (h : pc.phase = (s.client i).phase) :
    view { s with client := update s.client i pc } = view s := by
  simp only [view, phase_client_update, h, update_eq_self]

omit [DecidableEq ι] in
private theorem view_client {i : ι} {pc : ClientPc} (hpc : s.client i = pc) :
    (view s).client i = pc.phase :=
  congrArg ClientPc.phase hpc

/-- **Refinement.** Every step that succeeds is a step of the rendezvous, or two of them, or leaves
it as it is; so it keeps the invariant of the rendezvous. -/
theorem inv_step (hs : Orderly s) (h : StepCase b s a t) (hok : Succeeds s a) :
    Rendezvous.Inv (view t) := by
  cases h with
  | call hpc =>
    rw [view_of_phase_eq (by rw [hpc]; rfl)]
    exact hs.inv
  | @lock _ c _ hpc hfree =>
    exact inv_of_update hs.inv rfl
      (Rendezvous.Step.enter (s := view s) (x := c) (view_client hpc) hfree)
  | write hpc =>
    exact inv_of_update hs.inv rfl (Rendezvous.Step.write (s := view s) (view_client hpc))
  | post hpc =>
    exact inv_of_update hs.inv rfl (Rendezvous.Step.post (s := view s) (view_client hpc))
  | await hpc hfree =>
    exact inv_of_update hs.inv rfl
      (Rendezvous.Step.resume (s := view s) (view_client hpc) (by simp [view, hfree]))
  | readMalloc hpc | readNothing hpc =>
    have hfile : s.file = s.answer := hs.file (.inr (.inr ⟨_, _, _, hpc⟩))
    refine inv_of_update hs.inv rfl ?_
    rw [hfile]
    exact Rendezvous.Step.read (s := view s) (view_client hpc)
  | shmOpen hpc | mmap hpc =>
    rw [view_of_phase_eq (by rw [hpc]; rfl)]
    exact hs.inv
  | fail hpc => exact absurd (hok hpc) (by simp)
  | unlock hpc =>
    exact inv_of_update hs.inv rfl (Rendezvous.Step.leave (s := view s) (view_client hpc))
  | leave hpc =>
    exact inv_of_update hs.inv rfl (Rendezvous.Step.finish (s := view s) (view_client hpc))
  | take hpc hfree =>
    have hstep := Rendezvous.Step.take (s := view s) (by simp [view, hpc, ServerPc.phase])
      (by simp [view, hfree])
    simpa [view, ServerPc.phase] using hs.inv.step hstep
  | serve hpc y x =>
    -- the server stores its answer and pushes the request in one step
    have hstore := Rendezvous.Step.store (s := view s) y (by simp [view, hpc, ServerPc.phase])
    have hpush := Rendezvous.Step.push (ι := ι) (κ := Call) (ρ := DataServerFile)
      (s := { view s with
        reply := y, replies := (view s).replies ++ [((view s).slot.1, y)], server := .stored }) rfl
    simpa [view, ServerPc.phase] using (hs.inv.step hstore).step hpush
  | stop hpc y x =>
    have hview : view { s with server := x, file := y, serverPc := .stopped } = view s := by
      simp [view, hpc, ServerPc.phase]
    exact hview ▸ hs.inv
  | answer hpc =>
    have hstep := Rendezvous.Step.answer (s := view s) (by simp [view, hpc, ServerPc.phase])
    simpa [view, ServerPc.phase] using hs.inv.step hstep

private theorem read_of_update {f : ι → ClientPc} {i j : ι} {pc : ClientPc} {n : ℕ} {c : Call}
    (hpc : ∀ n c, pc ≠ .read n c) (h : update f i pc j = .read n c) :
    f j = .read n c := by
  by_cases hj : j = i
  · subst hj
    rw [update_self] at h
    exact absurd h (hpc n c)
  · rwa [update_of_ne hj] at h

/-- The file stays as it is in a step of client `i` that does not touch it. -/
private theorem fileOk_of_update {i : ι} {pc : ClientPc} (hs : FileOk s)
    (hclient : t.client = update s.client i pc) (hpc : ∀ n c, pc ≠ .read n c)
    (hfile : t.file = s.file) (hanswer : t.answer = s.answer) (hserver : t.serverPc = s.serverPc)
    (hresp : t.dataCmdRecieveRespLock = s.dataCmdRecieveRespLock) : FileOk t := by
  intro hread
  rw [hfile, hanswer]
  apply hs
  rw [hserver, hresp, hclient] at hread
  exact hread.imp_right (Or.imp_right fun ⟨j, n, c, hj⟩ => ⟨j, n, c, read_of_update hpc hj⟩)

omit [DecidableEq ι] in
/-- While a client writes its request, or the server serves one, nobody reads the file. -/
private theorem not_read (hs : Rendezvous.Inv (view s)) {i : ι} (hi : ((view s).client i).Holds)
    (hnot : ∀ n c, s.client i ≠ .read n c) : ¬∃ j n c, s.client j = .read n c := by
  rintro ⟨j, n, c, hj⟩
  have hholds : ((view s).client j).Holds := by
    change ((s.client j).phase).Holds
    rw [hj]
    trivial
  obtain rfl := hs.unique j i hholds hi
  exact hnot n c hj

omit [DecidableEq ι] in
/-- While a client writes its request, the server rests and nobody has a reply to read. -/
private theorem unread_of_write (hs : Rendezvous.Inv (view s)) {i : ι} {n : ℕ} {c : Call}
    (hpc : s.client i = .write n c) :
    s.serverPc ≠ .unlockResp ∧ s.dataCmdRecieveRespLock = true ∧
      ¬∃ j n c, s.client j = .read n c := by
  have hi := view_client hpc
  have hok : Rendezvous.ClientOk (view s).toShared i ((view s).client i) := hs.client i
  rw [hi] at hok
  have hrest : s.serverPc.phase = .resting := hok.2.server
  have hlocked : (!s.dataCmdRecieveRespLock) = false := hok.2.answer
  refine ⟨fun hserver => ?_, by simpa using hlocked, not_read hs (by rw [hi]; trivial) ?_⟩
  · rw [hserver] at hrest
    cases hrest
  · simp [hpc]

omit [DecidableEq ι] in
/-- While the server serves a request, nobody has a reply to read. -/
private theorem unread_of_serve (hs : Rendezvous.Inv (view s)) (hpc : s.serverPc = .serve) :
    s.dataCmdRecieveRespLock = true ∧ ¬∃ j n c, s.client j = .read n c := by
  have hphase : s.serverPc.phase = .taken := by rw [hpc]; rfl
  obtain ⟨i, n, c, hi, -, hservice, -⟩ := hs.exists_waiting (by simp [view, hphase])
  refine ⟨?_, not_read hs (by rw [hi]; trivial) fun m d hm => ?_⟩
  · cases hservice with
    | taken _ hanswer => simpa [view] using hanswer
    | posted _ _ hserver | stored _ _ hserver | pushed _ _ hserver | answered _ _ hserver =>
      simp [view, hphase] at hserver
  · have hwoken := view_client hm
    rw [hi] at hwoken
    cases hwoken

theorem fileOk_step (hs : Orderly s) (h : StepCase b s a t) : FileOk t := by
  cases h with
  | call | lock | post | readMalloc | readNothing | shmOpen | mmap | fail | unlock | leave =>
    exact fileOk_of_update hs.file rfl (by simp) rfl rfl rfl rfl
  | write hpc =>
    obtain ⟨hserver, hlocked, hnone⟩ := unread_of_write hs.inv hpc
    rintro (hserver' | hfree | ⟨j, m, d, hj⟩)
    · exact absurd hserver' hserver
    · exact absurd (hlocked.symm.trans hfree) (by simp)
    · exact absurd ⟨j, m, d, read_of_update (by simp) hj⟩ hnone
  | await hpc hfree => exact fun _ => hs.file (.inr (.inl hfree))
  | take hpc hfree => exact fun hread => hs.file (.inr (by simpa using hread))
  | serve hpc y x => exact fun _ => rfl
  | stop hpc y x =>
    obtain ⟨hlocked, hnone⟩ := unread_of_serve hs.inv hpc
    rintro (hserver | hfree | hread)
    · cases hserver
    · exact absurd (hlocked.symm.trans hfree) (by simp)
    · exact absurd hread hnone
  | answer hpc => exact fun _ => hs.file (.inl hpc)

theorem orderly_of_reaches (h : (dataCalls ι b).Reaches Succeeds s) : Orderly s := by
  refine System.Reaches.invariant (I := Orderly) ⟨?_, fun _ => rfl⟩ ?_ h
  · refine ⟨fun i j hi => hi.elim, fun i hi => hi.elim, fun hlock => ?_, fun i => trivial,
      fun _ => ⟨rfl, rfl, rfl, rfl, rfl⟩, ?_⟩
    · cases hlock
    · simp [view, dataCalls]
  · intro s a t hs hok hstep
    exact ⟨inv_step hs (step_cases hstep) hok, fileOk_step hs (step_cases hstep)⟩

/-! ### The lock -/

/-- **The lock is free while no call is in progress**, if no `shm_open` or `mmap` fails; any client
can then take it for its next call. -/
theorem send_lock_free (h : (dataCalls ι b).Reaches Succeeds s)
    (hidle : ∀ i, s.client i = .idle) :
    s.dataCmdSendLock = false ∧
      ∀ i c, ∃ t, (dataCalls ι b).Run Succeeds s [.call i c, .client i true] t := by
  have hfree : s.dataCmdSendLock = false := by
    by_contra hlock
    obtain ⟨i, hi⟩ := (orderly_of_reaches h).inv.held (Bool.eq_true_of_not_eq_false hlock)
    have hout : (view s).client i = .out := congrArg ClientPc.phase (hidle i)
    rw [hout] at hi
    exact hi
  refine ⟨hfree, fun i c => ?_⟩
  have hcall : (dataCalls ι b).step s (.call i c) =
      some { s with client := update s.client i (.lock c) } := by
    simp [dataCalls, step, hidle i]
  obtain ⟨t, ht⟩ : ∃ t, (dataCalls ι b).step
      { s with client := update s.client i (.lock c) } (.client i true) = some t := by
    simp [dataCalls, step, clientStep, hfree]
  exact ⟨t, .cons trivial hcall (.cons (fun _ => rfl) ht (.nil t))⟩

/-- An allocation of one of two clients. -/
def allocation : List (Action Bool) :=
  [.call false (.malloc 0x100000), .client false true, .client false true, .client false true,
    .server allocHalf.2, .server allocHalf.2, .server allocHalf.2, .client false true,
    .client false true]

/-- One client has allocated memory and the other one has not called. -/
theorem send_lock_free_allocated :
    ∃ s : State Bool, (dataCalls Bool simulated).Reaches Succeeds s ∧ s.returned.length = 1 ∧
      (∀ i, s.client i = .idle) ∧ s.dataCmdSendLock = false := by
  obtain ⟨s, hs, hreturned, hidle⟩ := (dataCalls Bool simulated).exists_reaches Succeeds
    (fun s => s.returned.length = 1 ∧ ∀ i, s.client i = .idle)
    (allocation ++
      [.client false true, .client false true, .client false true, .client false true])
    (by decide +kernel)
  exact ⟨s, hs, hreturned, hidle, (send_lock_free hs hidle).1⟩

/-- The `shm_open` of the client fails. -/
theorem not_send_lock_free :
    ¬∀ (b : Build) (s : State Bool), (dataCalls Bool b).Reaches System.anyStep s →
      (∀ i, s.client i = .idle) → s.dataCmdSendLock = false := by
  intro h
  obtain ⟨s, hs, hlock, hidle⟩ := (dataCalls Bool simulated).exists_reaches System.anyStep
    (fun s => s.dataCmdSendLock = true ∧ ∀ i, s.client i = .idle)
    (allocation ++ [.client false false]) (by decide +kernel)
  rw [h simulated s hs hidle] at hlock
  cases hlock

/-! ### After a failure -/

/-- The lock is locked and no client will unlock it. -/
structure Orphaned (s : State ι) : Prop where
  locked : s.dataCmdSendLock = true
  not_holds : ∀ i, ¬((s.client i).phase).Holds

private theorem not_holds_update {f : ι → ClientPc} {i : ι} {pc : ClientPc}
    (hf : ∀ j, ¬((f j).phase).Holds) (hpc : ¬pc.phase.Holds) (j : ι) :
    ¬((update f i pc j).phase).Holds := by
  by_cases hj : j = i
  · subst hj
    rwa [update_self]
  · rw [update_of_ne hj]
    exact hf j

theorem Orphaned.step (hs : Orphaned s) (h : StepCase b s a t) :
    Orphaned t ∧ t.acquired = s.acquired := by
  have hholds : ∀ {i pc}, s.client i = pc → pc.phase.Holds → False := by
    rintro i _ rfl hpc
    exact hs.not_holds i hpc
  cases h with
  | call hpc => exact ⟨⟨hs.locked, not_holds_update hs.not_holds id⟩, rfl⟩
  | lock hpc hfree =>
    rw [hs.locked] at hfree
    cases hfree
  | write hpc | post hpc | await hpc | readMalloc hpc | readNothing hpc | shmOpen hpc | mmap hpc
  | unlock hpc => exact (hholds hpc trivial).elim
  | fail hpc | leave hpc => exact ⟨⟨hs.locked, not_holds_update hs.not_holds id⟩, rfl⟩
  | take hpc | serve hpc | stop hpc | answer hpc => exact ⟨⟨hs.locked, hs.not_holds⟩, rfl⟩

theorem ClientPc.Maps.holds {pc : ClientPc} (h : pc.Maps) : pc.phase.Holds := by
  cases pc with
  | shmOpen | mmap => trivial
  | _ => exact h.elim

/-- A failure of `shm_open` or `mmap` orphans the lock. -/
theorem orphaned_of_failure (hs : Orderly s) {i : ι} (hmaps : (s.client i).Maps)
    (h : step b s (.client i false) = some t) : Orphaned t := by
  have hholds : ((view s).client i).Holds := hmaps.holds
  cases step_cases h with
  | fail =>
    refine ⟨hs.inv.locked i hholds, fun j hj => ?_⟩
    by_cases hji : j = i
    · subst hji
      simp [ClientPc.phase, Rendezvous.ClientPhase.Holds] at hj
    · simp only [update_of_ne hji] at hj
      exact hs.inv.not_holds hholds j hji hj
  | lock hpc | write hpc | post hpc | await hpc | readMalloc hpc | readNothing hpc | unlock hpc
  | leave hpc =>
    rw [hpc] at hmaps
    exact hmaps.elim

/-- **A failed `malloc` blocks all later calls.** After the first failure of `shm_open` or `mmap`
the lock stays locked, and no call acquires it. -/
theorem malloc_failure_blocks (hs : (dataCalls ι b).Reaches Succeeds s) {i : ι}
    (hmaps : (s.client i).Maps) (h : step b s (.client i false) = some t) {u : State ι}
    {l : List (Action ι)} (hrun : (dataCalls ι b).Run System.anyStep t l u) :
    u.dataCmdSendLock = true ∧ u.acquired = t.acquired := by
  have horphaned : Orphaned u ∧ u.acquired = t.acquired := by
    refine hrun.invariant (I := fun v => Orphaned v ∧ v.acquired = t.acquired) ?_
      ⟨orphaned_of_failure (orderly_of_reaches hs) hmaps h, rfl⟩
    rintro v a w ⟨hv, hacquired⟩ - hstep
    obtain ⟨hw, hsame⟩ := hv.step (step_cases hstep)
    exact ⟨hw, hsame.trans hacquired⟩
  exact ⟨horphaned.1.locked, horphaned.2⟩

end Beethoven.Client.DataCalls
