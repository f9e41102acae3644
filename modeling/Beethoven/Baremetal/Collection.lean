import Mathlib.Data.List.Nodup
import Beethoven.Baremetal.Driver

/-!
# Ids and responses on baremetal targets

The driver never leaves a response marked as stored: `get` sets the flag of its own id, not that of
the response, and clears it at once. Therefore every command is packed with the id 1, and two
commands that are outstanding at the same time have the same id (`not_uniqueIds`). A `get` that
reads the response to another command does not wait for its own one but returns what was last stored
under its id (`not_ownResponses`).

Programs with one outstanding command at a time have unique ids, and programs that collect the
responses in the order in which the hardware returns them get the right ones.
-/

namespace Beethoven.Baremetal

open Lib Command

variable {info : PackInfo} {s t : Program} {k : ℕ}

/-! ### The steps of the driver -/

theorem Driver.takeId_of_valid_eq_zero {d : Driver} (h : d.validResps = 0) :
    d.takeId = some (1, { d with actives := d.actives ||| respFlag 0 }) := by
  have hid : ffs (~~~d.actives ||| ~~~d.validResps) = 1 := by
    have hall : ~~~d.actives ||| ~~~d.validResps = -1 := by
      rw [h]
      exact UInt32.or_neg_one
    rw [hall]
    decide
  rw [takeId, hid]
  rfl

theorem Program.send_cases {c : RoccCmd} (hvalid : s.driver.validResps = 0)
    (ht : s.send c = some t) :
    t = s ∨ c.getXd = true ∧ ∃ d : Driver, d.validResps = 0 ∧ t = { s with
      driver := d
      outstanding := s.outstanding ++ [⟨1, 1⟩]
      unanswered := s.unanswered ++ [1] } := by
  rw [send] at ht
  split_ifs at ht with hxd
  · rw [Driver.takeId_of_valid_eq_zero hvalid] at ht
    have hrd : rdField ((packBaremetal c 1).headD 0) = 1 := rdField_packWord0 c 1
    obtain rfl := Option.some.inj ht
    refine .inr ⟨hxd, { s.driver with actives := s.driver.actives ||| Driver.respFlag 0 },
      hvalid, ?_⟩
    rw [← hrd]
  · exact .inl (Option.some.inj ht).symm

/-- `get` reads one response, and returns it if it is the response to its own command. -/
theorem Program.get_cases (hvalid : s.driver.validResps = 0) (ht : s.get info k = some t) :
    ∃ (h : SentCommand) (buf : ResponseBuffer) (arrivals : List ResponseBuffer)
      (r : RoccResponse) (d : Driver), s.outstanding[k]? = some h ∧ s.arrivals = buf :: arrivals ∧
      d.validResps = 0 ∧
      (h.id = (RoccResponse.ofBuffer info buf).rd → r = RoccResponse.ofBuffer info buf) ∧
      t = { s with
        driver := d
        arrivals
        outstanding := s.outstanding.eraseIdx k
        collected := s.collected ++ [(h.id, r)] } := by
  obtain ⟨h, hk, ht⟩ := Option.bind_eq_some_iff.mp ht
  obtain ⟨⟨r, d, arrivals⟩, hget, ht⟩ := Option.bind_eq_some_iff.mp ht
  obtain ⟨r', hr', ht⟩ := Option.bind_eq_some_iff.mp ht
  obtain rfl := Option.some.inj ht
  rw [hr'] at hget
  cases harrivals : s.arrivals with
  | nil =>
    -- nothing is stored, so the call waits
    have hnot : ¬ s.driver.validResps &&& Driver.respFlag h.id = Driver.respFlag h.id := by
      rw [hvalid, UInt32.zero_and]
      exact (Driver.respFlag_ne_zero h.id).symm
    rw [harrivals, Driver.getHelp, if_neg hnot] at hget
    cases hget
  | cons buf rest =>
    rw [harrivals, Driver.getHelp_of_valid_eq_zero hvalid] at hget
    dsimp only at hget
    split_ifs at hget with hid
    · cases hget
      refine ⟨h, buf, arrivals, _, _, hk, rfl, ?_, fun _ => rfl, rfl⟩
      exact hvalid
    · cases hget
      refine ⟨h, buf, arrivals, _, _, hk, rfl, ?_, fun heq => absurd heq hid, rfl⟩
      exact hvalid

theorem Program.respond_cases {buf : ResponseBuffer} (ht : s.respond info buf = some t) :
    (RoccResponse.ofBuffer info buf).rd.toNat ∈ s.unanswered ∧ t = { s with
      unanswered := s.unanswered.erase (RoccResponse.ofBuffer info buf).rd.toNat
      arrivals := s.arrivals ++ [buf]
      returned := s.returned ++ [RoccResponse.ofBuffer info buf] } := by
  simp only [respond] at ht
  split_ifs at ht with hmem
  exact ⟨hmem, (Option.some.inj ht).symm⟩

/-! ### Ids -/

/-- Two commands whose responses have not been collected have different `rd` fields, and the handle
of a command has its `rd` field. -/
structure UniqueIds (s : Program) : Prop where
  distinct : (s.outstanding.map SentCommand.rd).Nodup
  stored : ∀ h ∈ s.outstanding, h.id.toNat = h.rd

/-- A command that expects a response is sent only after all responses have been collected. -/
def OneAtATime (s : Program) : Program.Action → Prop
  | .send c => c.getXd = true → s.outstanding = []
  | _ => True

instance (s : Program) : DecidablePred (OneAtATime s)
  | .send c => inferInstanceAs (Decidable (c.getXd = true → s.outstanding = []))
  | .respond _ => isTrue trivial
  | .get _ => isTrue trivial

/-- The invariant of the masks: no response is marked as stored, and every command has the id 1. -/
structure MasksOk (s : Program) : Prop where
  valid : s.driver.validResps = 0
  outstanding : ∀ h ∈ s.outstanding, h = ⟨1, 1⟩

theorem MasksOk.of_reaches {ok : Program → Program.Action → Prop}
    (h : (programs info (.holding .init [])).Reaches ok s) : MasksOk s := by
  refine System.Reaches.invariant (I := MasksOk) ⟨rfl, by simp [programs, Program.holding]⟩ ?_ h
  rintro s a t ⟨hvalid, hids⟩ - hstep
  cases a with
  | send c =>
    rcases Program.send_cases hvalid hstep with rfl | ⟨-, d, hd, rfl⟩
    · exact ⟨hvalid, hids⟩
    · refine ⟨hd, fun h hh => ?_⟩
      rcases List.mem_append.mp hh with hh | hh
      · exact hids h hh
      · exact List.mem_singleton.mp hh
  | respond buf =>
    obtain ⟨-, rfl⟩ := Program.respond_cases hstep
    exact ⟨hvalid, hids⟩
  | get k =>
    obtain ⟨_, buf, arrivals, r, d, -, -, hd, -, rfl⟩ := Program.get_cases hvalid hstep
    exact ⟨hd, fun h hh => hids h (List.mem_of_mem_eraseIdx hh)⟩

theorem length_outstanding_le (h : (programs info (.holding .init [])).Reaches OneAtATime s) :
    s.outstanding.length ≤ 1 := by
  refine System.Reaches.invariant_of (I := fun s => s.outstanding.length ≤ 1) (J := MasksOk)
    (fun s hs => .of_reaches hs) (Nat.zero_le 1) ?_ h
  intro s a t hmasks hs hok hstep
  cases a with
  | send c =>
    rcases Program.send_cases hmasks.valid hstep with rfl | ⟨hxd, d, -, rfl⟩
    · exact hs
    · simp [hok hxd]
  | respond buf =>
    obtain ⟨-, rfl⟩ := Program.respond_cases hstep
    exact hs
  | get k =>
    obtain ⟨_, buf, arrivals, r, d, -, -, -, -, rfl⟩ := Program.get_cases hmasks.valid hstep
    exact (List.length_eraseIdx_le ..).trans hs

/-- **Ids are unique**, in the programs with one outstanding command at a time. -/
theorem uniqueIds_of_reaches (h : (programs info (.holding .init [])).Reaches OneAtATime s) :
    UniqueIds s := by
  have hids := (MasksOk.of_reaches h).outstanding
  have hlength := length_outstanding_le h
  refine ⟨?_, fun c hc => ?_⟩
  · match hs : s.outstanding with
    | [] => exact List.nodup_nil
    | [c] => exact List.nodup_singleton _
    | c :: c' :: rest =>
      rw [hs, List.length_cons, List.length_cons] at hlength
      omega
  · rw [hids c hc]
    rfl

/-- Two commands are sent one after the other, each with a response. -/
theorem uniqueIds_two_commands : ∃ s, (programs ⟨4, 4⟩ (.holding .init [])).Reaches OneAtATime s ∧
    s.outstanding = [⟨1, 1⟩] ∧ s.collected.length = 1 ∧ UniqueIds s := by
  obtain ⟨s, hreach, houtstanding, hcollected⟩ := System.exists_reaches
    (programs ⟨4, 4⟩ (.holding .init [])) OneAtATime
    (fun s => s.outstanding = [⟨1, 1⟩] ∧ s.collected.length = 1)
    [.send { xd := 1 }, .respond ⟨7, 0, 1⟩, .get 0, .send { xd := 1 }] (by decide +kernel)
  exact ⟨s, hreach, houtstanding, hcollected, uniqueIds_of_reaches hreach⟩

/-- Two commands that are sent without collecting a response have the same id. -/
theorem not_uniqueIds : ∃ s, (programs ⟨4, 4⟩ (.holding .init [])).Reaches System.anyStep s ∧
    s.outstanding = [⟨1, 1⟩, ⟨1, 1⟩] ∧ ¬ UniqueIds s := by
  obtain ⟨s, hreach, houtstanding⟩ := System.exists_reaches
    (programs ⟨4, 4⟩ (.holding .init [])) System.anyStep
    (fun s => s.outstanding = [⟨1, 1⟩, ⟨1, 1⟩])
    [.send { xd := 1 }, .send { xd := 1 }] (by decide +kernel)
  refine ⟨s, hreach, houtstanding, fun h => ?_⟩
  have hnodup := h.distinct
  rw [houtstanding] at hnodup
  simp at hnodup

/-! ### Responses -/

/-- Every call of `get` has returned the response with the id of its handle, and a response that the
hardware has returned for a handle is kept until it is collected: it has not been read, or it is
stored and marked so. -/
structure OwnResponses (info : PackInfo) (s : Program) : Prop where
  own : ∀ x ∈ s.collected, x.2 ∈ s.returned ∧ x.2.rd = x.1
  kept : ∀ r ∈ s.returned, (∃ h ∈ s.outstanding, h.id = r.rd) →
    r ∈ s.arrivals.map (RoccResponse.ofBuffer info) ∨
      s.driver.validResps &&& Driver.respFlag r.rd = Driver.respFlag r.rd ∧
        s.driver.resps r.rd.toNat = r

/-- No commands are sent, and `get` is called on the handle whose response comes next. -/
def InOrder (info : PackInfo) (s : Program) : Program.Action → Prop
  | .send _ => False
  | .respond _ => True
  | .get k => ∀ h ∈ s.outstanding[k]?, ∃ buf ∈ s.arrivals.head?,
      (RoccResponse.ofBuffer info buf).rd = h.id

instance (info : PackInfo) (s : Program) : DecidablePred (InOrder info s)
  | .send _ => isFalse id
  | .respond _ => isTrue trivial
  | .get k => inferInstanceAs (Decidable (∀ h ∈ s.outstanding[k]?, ∃ buf ∈ s.arrivals.head?,
      (RoccResponse.ofBuffer info buf).rd = h.id))

/-- The invariant of the programs that collect in order. -/
structure Ordered (info : PackInfo) (s : Program) : Prop where
  valid : s.driver.validResps = 0
  returned : s.returned = s.collected.map Prod.snd ++ s.arrivals.map (RoccResponse.ofBuffer info)
  own : ∀ x ∈ s.collected, x.2.rd = x.1
  nodup : (s.collected.map Prod.fst ++ s.outstanding.map SentCommand.id).Nodup

namespace Ordered

theorem get (h : Ordered info s) (hnext : InOrder info s (.get k))
    (ht : s.get info k = some t) : Ordered info t := by
  obtain ⟨c, buf, arrivals, r, d, hk, harrivals, hd, hr, rfl⟩ := Program.get_cases h.valid ht
  obtain ⟨buf', hbuf', hrd⟩ := hnext c hk
  obtain rfl : buf = buf' := by simpa [harrivals] using hbuf'
  obtain rfl := hr hrd.symm
  obtain ⟨hlt, rfl⟩ := List.getElem?_eq_some_iff.mp hk
  have hperm := (List.getElem_cons_eraseIdx_perm hlt).map SentCommand.id
  constructor
  · exact hd
  · rw [h.returned, harrivals]
    simp
  · intro x hx
    rcases List.mem_append.mp hx with hx | hx
    · exact h.own x hx
    · rw [List.mem_singleton.mp hx]
      exact hrd
  · rw [List.map_append, List.append_assoc]
    exact (hperm.append_left _).nodup_iff.mpr h.nodup

theorem of_reaches {d : Driver} {sent : List SentCommand} (hvalid : d.validResps = 0)
    (hids : (sent.map SentCommand.id).Nodup)
    (h : (programs info (.holding d sent)).Reaches (InOrder info) s) : Ordered info s := by
  have hinit : Ordered info (.holding d sent) := ⟨hvalid, rfl, by simp [Program.holding], hids⟩
  refine System.Reaches.invariant (I := Ordered info) hinit ?_ h
  intro s a t hs hok hstep
  cases a with
  | send c => exact hok.elim
  | respond buf =>
    obtain ⟨-, rfl⟩ := Program.respond_cases hstep
    refine ⟨hs.valid, ?_, hs.own, hs.nodup⟩
    simp [hs.returned]
  | get k => exact hs.get hok hstep

theorem exists_get (h : Ordered info s) (hlt : k < s.outstanding.length)
    (hnext : InOrder info s (.get k)) : ∃ t, s.get info k = some t := by
  obtain ⟨buf, hbuf, hrd⟩ := hnext _ (List.getElem?_eq_getElem hlt)
  obtain ⟨arrivals, harrivals⟩ := List.head?_eq_some_iff.mp hbuf
  obtain ⟨d, hget⟩ : ∃ d, s.driver.getHelp info s.outstanding[k].id true (buf :: arrivals) =
      some (some (RoccResponse.ofBuffer info buf), d, arrivals) := by
    rw [Driver.getHelp_of_valid_eq_zero h.valid]
    exact ⟨_, if_pos hrd.symm⟩
  simp [Program.get, hlt, harrivals, hget]

end Ordered

/-- **Every handle gets its own response**, in the programs that collect the responses in the order
in which the hardware returns them. -/
theorem ownResponses_of_reaches {d : Driver} {sent : List SentCommand} (hvalid : d.validResps = 0)
    (hids : (sent.map SentCommand.id).Nodup)
    (h : (programs info (.holding d sent)).Reaches (InOrder info) s) :
    OwnResponses info s ∧ ∀ k < s.outstanding.length, InOrder info s (.get k) →
      ∃ t, s.step info (.get k) = some t := by
  have hok := Ordered.of_reaches hvalid hids h
  refine ⟨⟨fun x hx => ⟨?_, hok.own x hx⟩, fun r hr houtstanding => .inl ?_⟩,
    fun k hlt hnext => hok.exists_get hlt hnext⟩
  · rw [hok.returned]
    exact List.mem_append_left _ (List.mem_map_of_mem hx)
  · obtain ⟨c, hc, hcr⟩ := houtstanding
    rw [hok.returned] at hr
    rcases List.mem_append.mp hr with hr | hr
    · -- the response of an outstanding handle has not been collected
      obtain ⟨x, hx, rfl⟩ := List.mem_map.mp hr
      rw [hok.own x hx] at hcr
      exact absurd hcr.symm ((List.nodup_append.mp hok.nodup).2.2 _ (List.mem_map_of_mem hx) _
        (List.mem_map_of_mem hc))
    · exact hr

/-- The responses to three commands come in another order, and are collected in that order. -/
theorem ownResponses_three_handles : ∃ s,
    (programs ⟨4, 4⟩ (.holding .init [⟨1, 1⟩, ⟨2, 2⟩, ⟨3, 3⟩])).Reaches (InOrder ⟨4, 4⟩) s ∧
    s.collected.map Prod.fst = [3, 1, 2] ∧ OwnResponses ⟨4, 4⟩ s := by
  obtain ⟨s, hreach, hcollected⟩ := System.exists_reaches
    (programs ⟨4, 4⟩ (.holding .init [⟨1, 1⟩, ⟨2, 2⟩, ⟨3, 3⟩])) (InOrder ⟨4, 4⟩)
    (fun s => s.collected.map Prod.fst = [3, 1, 2])
    [.respond ⟨30, 0, 3⟩, .respond ⟨10, 0, 1⟩, .get 2, .respond ⟨20, 0, 2⟩, .get 0, .get 0]
    (by decide +kernel)
  exact ⟨s, hreach, hcollected, (ownResponses_of_reaches rfl (by decide) hreach).1⟩

/-- The response to the second command comes first, and `get` is called on the first handle: it
returns a response that the hardware has not returned. -/
theorem not_ownResponses : ∃ s,
    (programs ⟨4, 4⟩ (.holding .init [⟨1, 1⟩, ⟨2, 2⟩])).Reaches System.anyStep s ∧
    s.collected = [(1, {})] ∧ ¬ OwnResponses ⟨4, 4⟩ s := by
  obtain ⟨s, hreach, hcollected⟩ := System.exists_reaches
    (programs ⟨4, 4⟩ (.holding .init [⟨1, 1⟩, ⟨2, 2⟩])) System.anyStep
    (fun s => s.collected = [(1, {})])
    [.respond ⟨20, 0, 2⟩, .respond ⟨10, 0, 1⟩, .get 0] (by decide +kernel)
  refine ⟨s, hreach, hcollected, fun h => ?_⟩
  have hrd := (h.own (1, {}) (by simp [hcollected])).2
  exact absurd hrd (by decide)

end Beethoven.Baremetal
