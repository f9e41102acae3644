import Mathlib.Data.List.Basic
import Mathlib.Logic.Function.Basic

/-!
# A rendezvous over one shared slot

Clients hand requests to a server through one shared request slot and one shared reply slot. A lock
admits one client at a time; a binary semaphore `wake` tells the server that a request is there, and
a binary semaphore `answer` tells the client that the reply is. Each semaphore is posted by one side
and taken by the other. A client may also take the lock without making a request.

Every request gets the number of its entry, its ticket. The server pushes the requests it takes to
an output queue. The invariant says where the one token is that `wake`, the server and `answer` pass
around while a client waits; it yields that requests are pushed once each, in the order of the
entries, and that a client returns with the reply stored for its own request.

## Main definitions

* `ClientPhase`, `ServerPhase`, `State`, `Step`: the protocol.
* `Inv`: the invariant.

## Main results

* `Inv.step`: every step keeps the invariant.
* `Inv.pushed_append`, `Inv.returned`: what the invariant says about the queue and the replies.
-/

namespace Beethoven.Lib.Rendezvous

open Function

variable {ι κ ρ : Type*}

/-- Where a client is. `t` is the ticket of its request `x`, `y` the reply it has read. -/
inductive ClientPhase (κ ρ : Type*) where
  | out
  | visiting
  | entered (t : ℕ) (x : κ)
  | written (t : ℕ) (x : κ)
  | waiting (t : ℕ) (x : κ)
  | woken (t : ℕ) (x : κ)
  | replied (t : ℕ) (x : κ) (y : ρ)
  | leaving (t : ℕ) (x : κ) (y : ρ)

/-- The client holds the lock. -/
def ClientPhase.Holds : ClientPhase κ ρ → Prop
  | .out | .leaving .. => False
  | _ => True

/-- Where the server is: it waits for `wake`, has taken a request, stored a reply, or pushed the
request. -/
inductive ServerPhase where
  | resting
  | taken
  | stored
  | pushed
  deriving DecidableEq

/-- The semaphores, the slots, the server, and the logs of entries, stored replies and pushes. Slots
and logs carry tickets. -/
structure Shared (ι κ ρ : Type*) where
  wake : Bool
  answer : Bool
  slot : Option ℕ × κ
  reply : ρ
  server : ServerPhase
  entered : List (ι × κ)
  replies : List (Option ℕ × ρ)
  pushed : List (Option ℕ × κ)

/-- The state of the protocol. -/
structure State (ι κ ρ : Type*) extends Shared ι κ ρ where
  lock : Bool
  client : ι → ClientPhase κ ρ
  returned : List (ι × ℕ × ρ)

variable [DecidableEq ι]

/-- The steps of the clients and of the server. -/
inductive Step (s : State ι κ ρ) : State ι κ ρ → Prop
  | enter {i x} (hi : s.client i = .out) (hlock : s.lock = false) :
      Step s { s with
        client := update s.client i (.entered s.entered.length x)
        lock := true, entered := s.entered ++ [(i, x)] }
  | visit {i} (hi : s.client i = .out) (hlock : s.lock = false) :
      Step s { s with client := update s.client i .visiting, lock := true }
  | write {i t x} (hi : s.client i = .entered t x) :
      Step s { s with client := update s.client i (.written t x), slot := (some t, x) }
  | post {i t x} (hi : s.client i = .written t x) :
      Step s { s with client := update s.client i (.waiting t x), wake := true }
  | take (hserver : s.server = .resting) (hwake : s.wake = true) :
      Step s { s with wake := false, server := .taken }
  | store (y : ρ) (hserver : s.server = .taken) :
      Step s { s with reply := y, replies := s.replies ++ [(s.slot.1, y)], server := .stored }
  | push (hserver : s.server = .stored) :
      Step s { s with pushed := s.pushed ++ [s.slot], server := .pushed }
  | answer (hserver : s.server = .pushed) :
      Step s { s with answer := true, server := .resting }
  | resume {i t x} (hi : s.client i = .waiting t x) (hanswer : s.answer = true) :
      Step s { s with client := update s.client i (.woken t x), answer := false }
  | read {i t x} (hi : s.client i = .woken t x) :
      Step s { s with client := update s.client i (.replied t x s.reply) }
  | leave {i t x y} (hi : s.client i = .replied t x y) :
      Step s { s with client := update s.client i (.leaving t x y), lock := false }
  | depart {i} (hi : s.client i = .visiting) :
      Step s { s with client := update s.client i .out, lock := false }
  | finish {i t x y} (hi : s.client i = .leaving t x y) :
      Step s { s with
        client := update s.client i .out
        returned := s.returned ++ [(i, t, y)] }

/-! ### The invariant -/

/-- The requests of a list of entries, each with its ticket. -/
def tagged (entries : List (ι × κ)) : List (Option ℕ × κ) :=
  entries.zipIdx.map fun e => (some e.2, e.1.2)

omit [DecidableEq ι] in
theorem tagged_concat (entries : List (ι × κ)) (i : ι) (x : κ) :
    tagged (entries ++ [(i, x)]) = tagged entries ++ [(some entries.length, x)] := by
  simp [tagged, List.zipIdx_append]

omit [DecidableEq ι] in
@[simp]
theorem length_tagged (entries : List (ι × κ)) : (tagged entries).length = entries.length := by
  simp [tagged]

omit [DecidableEq ι] in
theorem map_fst_tagged (entries : List (ι × κ)) :
    (tagged entries).map Prod.fst = (List.range entries.length).map some := by
  rw [List.range_eq_range', ← List.zipIdx_map_snd 0 entries, tagged, List.map_map, List.map_map]
  rfl

omit [DecidableEq ι] in
theorem map_snd_tagged (entries : List (ι × κ)) :
    (tagged entries).map Prod.snd = entries.map Prod.snd := by
  nth_rewrite 2 [← List.zipIdx_map_fst 0 entries]
  rw [tagged, List.map_map, List.map_map]
  rfl

/-- No request is on its way: every entry is pushed and replied to. -/
structure Rest (s : Shared ι κ ρ) : Prop where
  wake : s.wake = false
  answer : s.answer = false
  server : s.server = .resting
  pushed : tagged s.entered = s.pushed
  replies : s.replies.length = s.entered.length

/-- The request `x` with ticket `t` is the last entry and neither posted nor pushed. -/
structure Due (s : Shared ι κ ρ) (t : ℕ) (x : κ) : Prop where
  wake : s.wake = false
  answer : s.answer = false
  server : s.server = .resting
  pushed : tagged s.entered = s.pushed ++ [(some t, x)]
  replies : s.replies.length = t

/-- The request `x` with ticket `t` is posted; the constructors say where the token is. -/
inductive InService (s : Shared ι κ ρ) (t : ℕ) (x : κ) : Prop
  | posted (hwake : s.wake = true) (hanswer : s.answer = false) (hserver : s.server = .resting)
      (hpushed : tagged s.entered = s.pushed ++ [(some t, x)]) (hreplies : s.replies.length = t)
  | taken (hwake : s.wake = false) (hanswer : s.answer = false) (hserver : s.server = .taken)
      (hpushed : tagged s.entered = s.pushed ++ [(some t, x)]) (hreplies : s.replies.length = t)
  | stored (hwake : s.wake = false) (hanswer : s.answer = false) (hserver : s.server = .stored)
      (hpushed : tagged s.entered = s.pushed ++ [(some t, x)])
      (hreplies : s.replies.length = t + 1) (hreply : s.replies[t]? = some (some t, s.reply))
  | pushed (hwake : s.wake = false) (hanswer : s.answer = false) (hserver : s.server = .pushed)
      (hpushed : tagged s.entered = s.pushed) (hreplies : s.replies.length = t + 1)
      (hreply : s.replies[t]? = some (some t, s.reply))
  | answered (hwake : s.wake = false) (hanswer : s.answer = true) (hserver : s.server = .resting)
      (hpushed : tagged s.entered = s.pushed) (hreplies : s.replies.length = t + 1)
      (hreply : s.replies[t]? = some (some t, s.reply))

/-- Entry `t` is the last one and it is the request `x` of client `i`. -/
def Last (s : Shared ι κ ρ) (i : ι) (t : ℕ) (x : κ) : Prop :=
  s.entered.length = t + 1 ∧ s.entered[t]? = some (i, x)

/-- Request `t` of client `i` is pushed, and `y` is the reply stored for it. -/
structure Replied (s : Shared ι κ ρ) (i : ι) (t : ℕ) (y : ρ) : Prop where
  entered : (s.entered[t]?).map Prod.fst = some i
  pushed : t < s.pushed.length
  reply : s.replies[t]? = some (some t, y)

/-- What the phase of client `i` says about the state. -/
def ClientOk (s : Shared ι κ ρ) (i : ι) : ClientPhase κ ρ → Prop
  | .out => True
  | .visiting => Rest s
  | .entered t x => Last s i t x ∧ Due s t x
  | .written t x => Last s i t x ∧ Due s t x ∧ s.slot = (some t, x)
  | .waiting t x => Last s i t x ∧ InService s t x ∧ s.slot = (some t, x)
  | .woken t x => Last s i t x ∧ Rest s ∧ Replied s i t s.reply
  | .replied t x y => Last s i t x ∧ Rest s ∧ Replied s i t y
  | .leaving t x y => s.entered[t]? = some (i, x) ∧ Replied s i t y

/-- At most one client holds the lock and its phase says where the token is; without a holder the
protocol is at rest. -/
structure Inv (s : State ι κ ρ) : Prop where
  unique : ∀ i j, (s.client i).Holds → (s.client j).Holds → i = j
  locked : ∀ i, (s.client i).Holds → s.lock = true
  held : s.lock = true → ∃ i, (s.client i).Holds
  client : ∀ i, ClientOk s.toShared i (s.client i)
  free : (∀ i, ¬(s.client i).Holds) → Rest s.toShared
  returned : ∀ r ∈ s.returned, Replied s.toShared r.1 r.2.1 r.2.2

/-- The logs only grow. -/
structure Grows (s s' : Shared ι κ ρ) : Prop where
  entered : s.entered <+: s'.entered
  replies : s.replies <+: s'.replies
  pushed : s.pushed <+: s'.pushed

section

variable {s s' : State ι κ ρ} {i : ι} {p : ClientPhase κ ρ}

omit [DecidableEq ι] in
theorem Grows.refl (s : Shared ι κ ρ) : Grows s s :=
  ⟨List.prefix_refl _, List.prefix_refl _, List.prefix_refl _⟩

theorem getElem?_mono {α : Type*} {l l' : List α} (h : l <+: l') {n : ℕ} {a : α}
    (ha : l[n]? = some a) : l'[n]? = some a := by
  obtain ⟨r, rfl⟩ := h
  rw [List.getElem?_append_left (List.getElem?_eq_some_iff.mp ha).1, ha]

omit [DecidableEq ι] in
/-- A reply that a client has read stays the reply of its request. -/
theorem Replied.mono {c c' : Shared ι κ ρ} {t : ℕ} {y : ρ} (h : Replied c i t y)
    (hgrow : Grows c c') : Replied c' i t y := by
  obtain ⟨e, he, hei⟩ := Option.map_eq_some_iff.mp h.entered
  refine ⟨?_, Nat.lt_of_lt_of_le h.pushed hgrow.pushed.length_le,
    getElem?_mono hgrow.replies h.reply⟩
  rw [getElem?_mono hgrow.entered he, Option.map_some, hei]

omit [DecidableEq ι] in
theorem Inv.not_holds (h : Inv s) (hi : (s.client i).Holds) (j : ι) (hj : j ≠ i) :
    ¬(s.client j).Holds :=
  fun hj' => hj (h.unique j i hj' hi)

/-- Client `i` is in phase `p` after the step and no other client holds the lock. -/
private theorem client_of_update (h : Inv s) (hgrow : Grows s.toShared s'.toShared)
    (hclient : s'.client = update s.client i p)
    (hothers : ∀ j, j ≠ i → ¬(s.client j).Holds) (hok : ClientOk s'.toShared i p) (j : ι) :
    ClientOk s'.toShared j (s'.client j) ∧ ((s'.client j).Holds → j = i ∧ p.Holds) := by
  rw [hclient]
  by_cases hj : j = i
  · subst hj
    rw [update_self]
    exact ⟨hok, fun hp => ⟨rfl, hp⟩⟩
  · rw [update_of_ne hj]
    refine ⟨?_, fun hp => absurd hp (hothers j hj)⟩
    have hnot := hothers j hj
    have hclient := h.client j
    cases hphase : s.client j <;> rw [hphase] at hclient hnot <;>
      first
        | exact absurd trivial hnot
        | trivial
        | exact ⟨getElem?_mono hgrow.entered hclient.1, hclient.2.mono hgrow⟩

/-- A step after which client `i` holds the lock. -/
theorem Inv.hold (h : Inv s) (hgrow : Grows s.toShared s'.toShared)
    (hclient : s'.client = update s.client i p)
    (hothers : ∀ j, j ≠ i → ¬(s.client j).Holds) (hp : p.Holds) (hlock : s'.lock = true)
    (hok : ClientOk s'.toShared i p) (hreturned : s'.returned = s.returned) : Inv s' where
  unique j k hj hk :=
    ((client_of_update h hgrow hclient hothers hok j).2 hj).1.trans
      ((client_of_update h hgrow hclient hothers hok k).2 hk).1.symm
  locked _ _ := hlock
  held _ := ⟨i, by simpa [hclient] using hp⟩
  client j := (client_of_update h hgrow hclient hothers hok j).1
  free hfree := by
    refine absurd hp ?_
    simpa [hclient] using hfree i
  returned r hr := (h.returned r (hreturned ▸ hr)).mono hgrow

theorem Inv.release (h : Inv s) (hgrow : Grows s.toShared s'.toShared)
    (hclient : s'.client = update s.client i p)
    (hothers : ∀ j, j ≠ i → ¬(s.client j).Holds) (hp : ¬p.Holds) (hlock : s'.lock = false)
    (hrest : Rest s'.toShared) (hok : ClientOk s'.toShared i p)
    (hreturned : s'.returned = s.returned) : Inv s' where
  unique j _ hj _ := absurd ((client_of_update h hgrow hclient hothers hok j).2 hj).2 hp
  locked j hj := absurd ((client_of_update h hgrow hclient hothers hok j).2 hj).2 hp
  held hheld := by simp [hlock] at hheld
  client j := (client_of_update h hgrow hclient hothers hok j).1
  free _ := hrest
  returned r hr := (h.returned r (hreturned ▸ hr)).mono hgrow

omit [DecidableEq ι] in
/-- While a semaphore is posted or the server is at work, some client waits. -/
theorem Inv.exists_waiting (h : Inv s)
    (hbusy : ¬(s.wake = false ∧ s.answer = false ∧ s.server = .resting)) :
    ∃ i t x, s.client i = .waiting t x ∧ ClientOk s.toShared i (.waiting t x) := by
  by_cases hholder : ∃ i, (s.client i).Holds
  · obtain ⟨i, hi⟩ := hholder
    have hok := h.client i
    cases hphase : s.client i with
    | waiting t x => exact ⟨i, t, x, hphase, hphase ▸ hok⟩
    | out | leaving t x y =>
      rw [hphase] at hi
      exact hi.elim
    | visiting =>
      rw [hphase] at hok
      exact absurd ⟨hok.wake, hok.answer, hok.server⟩ hbusy
    | entered t x =>
      rw [hphase] at hok
      exact absurd ⟨hok.2.wake, hok.2.answer, hok.2.server⟩ hbusy
    | written t x | woken t x | replied t x y =>
      rw [hphase] at hok
      exact absurd ⟨hok.2.1.wake, hok.2.1.answer, hok.2.1.server⟩ hbusy
  · have hrest := h.free (not_exists.mp hholder)
    exact absurd ⟨hrest.wake, hrest.answer, hrest.server⟩ hbusy

/-- A step of the server on behalf of the waiting client. -/
theorem Inv.serve (h : Inv s)
    (hbusy : ¬(s.wake = false ∧ s.answer = false ∧ s.server = .resting))
    (hgrow : Grows s.toShared s'.toShared) (hentered : s'.entered = s.entered)
    (hslot : s'.slot = s.slot) (hclient : s'.client = s.client) (hlock : s'.lock = s.lock)
    (hreturned : s'.returned = s.returned)
    (hmove : ∀ t x, s.slot = (some t, x) → InService s.toShared t x → InService s'.toShared t x) :
    Inv s' := by
  obtain ⟨i, t, x, hi, hlast, hin, hslot'⟩ := h.exists_waiting hbusy
  have hholds : (s.client i).Holds := by rw [hi]; trivial
  have hok : ClientOk s'.toShared i (.waiting t x) := by
    refine ⟨?_, hmove t x hslot' hin, hslot.trans hslot'⟩
    rw [Last, hentered]
    exact hlast
  refine h.hold (i := i) (p := .waiting t x) hgrow ?_ (h.not_holds hholds) trivial ?_ hok hreturned
  · rw [hclient, ← hi, update_eq_self]
  · rw [hlock, h.locked i hholds]

theorem Inv.finish (h : Inv s) {t : ℕ} {x : κ} {y : ρ} (hi : s.client i = .leaving t x y) :
    Inv { s with
      client := update s.client i .out
      returned := s.returned ++ [(i, t, y)] } := by
  obtain ⟨-, hreplied⟩ : ClientOk s.toShared i (.leaving t x y) := hi ▸ h.client i
  have hclient : ∀ j, j ≠ i → update s.client i .out j = s.client j := fun j hj =>
    update_of_ne hj _ _
  have hself : update s.client i .out i = .out := update_self i _ _
  have hholds : ∀ j, (update s.client i .out j).Holds ↔ (s.client j).Holds := by
    intro j
    by_cases hj : j = i
    · rw [hj, hself, hi]
      exact Iff.rfl
    · rw [hclient j hj]
  refine ⟨fun j k hj hk => h.unique j k ((hholds j).mp hj) ((hholds k).mp hk),
    fun j hj => h.locked j ((hholds j).mp hj),
    fun hlock => (h.held hlock).imp fun j hj => (hholds j).mpr hj, fun j => ?_,
    fun hfree => h.free fun j hj => hfree j ((hholds j).mpr hj), fun r hr => ?_⟩
  · by_cases hj : j = i
    · simp only [hj, hself]
      trivial
    · simp only [hclient j hj]
      exact h.client j
  · rcases List.mem_append.mp hr with hr | hr
    · exact h.returned r hr
    · obtain rfl := List.mem_singleton.mp hr
      exact hreplied

end

namespace InService

variable {c : Shared ι κ ρ} {t : ℕ} {x : κ}

omit [DecidableEq ι]

/-! The server's steps move the token. -/

theorem take (h : InService c t x) (hwake : c.wake = true) :
    InService { c with wake := false, server := .taken } t x := by
  cases h with
  | posted _ hanswer _ hpushed hreplies => exact .taken rfl hanswer rfl hpushed hreplies
  | taken hwake' => simp [hwake] at hwake'
  | stored hwake' => simp [hwake] at hwake'
  | pushed hwake' => simp [hwake] at hwake'
  | answered hwake' => simp [hwake] at hwake'

theorem store (h : InService c t x) (hserver : c.server = .taken) (hslot : c.slot = (some t, x))
    (y : ρ) : InService { c with
      reply := y, replies := c.replies ++ [(c.slot.1, y)], server := .stored } t x := by
  cases h with
  | taken hwake hanswer _ hpushed hreplies =>
    refine .stored hwake hanswer rfl hpushed ?_ ?_
    · simp [hreplies]
    · simp [← hreplies, hslot]
  | posted _ _ hserver' => simp [hserver] at hserver'
  | stored _ _ hserver' => simp [hserver] at hserver'
  | pushed _ _ hserver' => simp [hserver] at hserver'
  | answered _ _ hserver' => simp [hserver] at hserver'

theorem push (h : InService c t x) (hserver : c.server = .stored) (hslot : c.slot = (some t, x)) :
    InService { c with pushed := c.pushed ++ [c.slot], server := .pushed } t x := by
  cases h with
  | stored hwake hanswer _ hpushed hreplies hreply =>
    refine .pushed hwake hanswer rfl ?_ hreplies hreply
    simp [hpushed, hslot]
  | posted _ _ hserver' => simp [hserver] at hserver'
  | taken _ _ hserver' => simp [hserver] at hserver'
  | pushed _ _ hserver' => simp [hserver] at hserver'
  | answered _ _ hserver' => simp [hserver] at hserver'

theorem answer (h : InService c t x) (hserver : c.server = .pushed) :
    InService { c with answer := true, server := .resting } t x := by
  cases h with
  | pushed hwake _ _ hpushed hreplies hreply =>
    exact .answered hwake rfl rfl hpushed hreplies hreply
  | posted _ _ hserver' => simp [hserver] at hserver'
  | taken _ _ hserver' => simp [hserver] at hserver'
  | stored _ _ hserver' => simp [hserver] at hserver'
  | answered _ _ hserver' => simp [hserver] at hserver'

theorem resume (h : InService c t x) (hanswer : c.answer = true) (hlast : Last c i t x) :
    Rest { c with answer := false } ∧ Replied { c with answer := false } i t c.reply := by
  cases h with
  | answered hwake _ hserver hpushed hreplies hreply =>
    refine ⟨⟨hwake, rfl, hserver, hpushed, hreplies.trans hlast.1.symm⟩, ?_, ?_, hreply⟩
    · exact congrArg (Option.map Prod.fst) hlast.2
    · exact (congrArg List.length hpushed) ▸ by simp [hlast.1]
  | posted _ hanswer' => simp [hanswer] at hanswer'
  | taken _ hanswer' => simp [hanswer] at hanswer'
  | stored _ hanswer' => simp [hanswer] at hanswer'
  | pushed _ hanswer' => simp [hanswer] at hanswer'

end InService

/-- **Every step keeps the invariant.** -/
theorem Inv.step {s s' : State ι κ ρ} (h : Inv s) (hstep : Step s s') : Inv s' := by
  cases hstep with
  | @enter i x hi hlock =>
    have hnone : ∀ j, ¬(s.client j).Holds := fun j hj => by simp [h.locked j hj] at hlock
    have hrest := h.free hnone
    refine h.hold (i := i) ⟨List.prefix_append _ _, List.prefix_refl _, List.prefix_refl _⟩ rfl
      (fun j _ => hnone j) trivial rfl ⟨⟨by simp, by simp⟩, ?_⟩ rfl
    refine ⟨hrest.wake, hrest.answer, hrest.server, ?_, hrest.replies⟩
    rw [tagged_concat, hrest.pushed]
  | @visit i hi hlock =>
    have hnone : ∀ j, ¬(s.client j).Holds := fun j hj => by simp [h.locked j hj] at hlock
    exact h.hold (i := i) (.refl _) rfl (fun j _ => hnone j) trivial rfl (h.free hnone) rfl
  | @write i t x hi =>
    have hholds : (s.client i).Holds := by rw [hi]; trivial
    obtain ⟨hlast, hdue⟩ : ClientOk s.toShared i (.entered t x) := hi ▸ h.client i
    refine h.hold (i := i) ⟨List.prefix_refl _, List.prefix_refl _, List.prefix_refl _⟩ rfl
      (h.not_holds hholds) trivial (h.locked i hholds) ⟨hlast, ?_, rfl⟩ rfl
    exact ⟨hdue.wake, hdue.answer, hdue.server, hdue.pushed, hdue.replies⟩
  | @post i t x hi =>
    have hholds : (s.client i).Holds := by rw [hi]; trivial
    obtain ⟨hlast, hdue, hslot⟩ : ClientOk s.toShared i (.written t x) := hi ▸ h.client i
    refine h.hold (i := i) ⟨List.prefix_refl _, List.prefix_refl _, List.prefix_refl _⟩ rfl
      (h.not_holds hholds) trivial (h.locked i hholds) ⟨hlast, ?_, hslot⟩ rfl
    exact .posted rfl hdue.answer hdue.server hdue.pushed hdue.replies
  | take hserver hwake =>
    exact h.serve (by simp [hwake]) ⟨List.prefix_refl _, List.prefix_refl _, List.prefix_refl _⟩
      rfl rfl rfl rfl rfl fun t x _ hin => hin.take hwake
  | store y hserver =>
    exact h.serve (by simp [hserver])
      ⟨List.prefix_refl _, List.prefix_append _ _, List.prefix_refl _⟩ rfl rfl rfl rfl rfl
      fun t x hslot hin => hin.store hserver hslot y
  | push hserver =>
    exact h.serve (by simp [hserver])
      ⟨List.prefix_refl _, List.prefix_refl _, List.prefix_append _ _⟩ rfl rfl rfl rfl rfl
      fun t x hslot hin => hin.push hserver hslot
  | answer hserver =>
    exact h.serve (by simp [hserver]) ⟨List.prefix_refl _, List.prefix_refl _, List.prefix_refl _⟩
      rfl rfl rfl rfl rfl fun t x _ hin => hin.answer hserver
  | @resume i t x hi hanswer =>
    have hholds : (s.client i).Holds := by rw [hi]; trivial
    obtain ⟨hlast, hin, hslot⟩ : ClientOk s.toShared i (.waiting t x) := hi ▸ h.client i
    exact h.hold (i := i) ⟨List.prefix_refl _, List.prefix_refl _, List.prefix_refl _⟩ rfl
      (h.not_holds hholds) trivial (h.locked i hholds) ⟨hlast, hin.resume hanswer hlast⟩ rfl
  | @read i t x hi =>
    have hholds : (s.client i).Holds := by rw [hi]; trivial
    obtain ⟨hlast, hrest, hreplied⟩ : ClientOk s.toShared i (.woken t x) := hi ▸ h.client i
    exact h.hold (i := i) (.refl _) rfl (h.not_holds hholds) trivial (h.locked i hholds)
      ⟨hlast, hrest, hreplied⟩ rfl
  | @leave i t x y hi =>
    have hholds : (s.client i).Holds := by rw [hi]; trivial
    obtain ⟨hlast, hrest, hreplied⟩ : ClientOk s.toShared i (.replied t x y) := hi ▸ h.client i
    exact h.release (i := i) (.refl _) rfl (h.not_holds hholds) id rfl hrest ⟨hlast.2, hreplied⟩ rfl
  | @depart i hi =>
    have hholds : (s.client i).Holds := by rw [hi]; trivial
    have hrest : ClientOk s.toShared i .visiting := hi ▸ h.client i
    exact h.release (i := i) (.refl _) rfl (h.not_holds hholds) id rfl hrest trivial rfl
  | finish hi => exact h.finish hi

omit [DecidableEq ι] in
/-- The queue holds the requests in the order of their entries, each once; the last entry may be
missing. -/
theorem Inv.pushed_append {s : State ι κ ρ} (h : Inv s) :
    ∃ rest, tagged s.entered = s.pushed ++ rest ∧ rest.length ≤ 1 := by
  by_cases hholder : ∃ i, (s.client i).Holds
  · obtain ⟨i, hi⟩ := hholder
    have hok := h.client i
    cases hphase : s.client i with
    | out | leaving t x y =>
      rw [hphase] at hi
      exact hi.elim
    | visiting =>
      rw [hphase] at hok
      exact ⟨[], by simpa using hok.pushed, by simp⟩
    | entered t x =>
      rw [hphase] at hok
      exact ⟨_, hok.2.pushed, by simp⟩
    | written t x =>
      rw [hphase] at hok
      exact ⟨_, hok.2.1.pushed, by simp⟩
    | woken t x | replied t x y =>
      rw [hphase] at hok
      exact ⟨[], by simpa using hok.2.1.pushed, by simp⟩
    | waiting t x =>
      rw [hphase] at hok
      cases hok.2.1 with
      | posted _ _ _ hpushed => exact ⟨_, hpushed, by simp⟩
      | taken _ _ _ hpushed => exact ⟨_, hpushed, by simp⟩
      | stored _ _ _ hpushed => exact ⟨_, hpushed, by simp⟩
      | pushed _ _ _ hpushed | answered _ _ _ hpushed => exact ⟨[], by simpa using hpushed, by simp⟩
  · exact ⟨[], by simpa using (h.free (not_exists.mp hholder)).pushed, by simp⟩

end Beethoven.Lib.Rendezvous
