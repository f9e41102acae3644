import Mathlib.Data.Set.Insert
import Mathlib.Logic.Function.Basic

/-!
# Mailboxes in shared slots

Owners hold slots. Each slot has a box for an answer and a binary semaphore that says that the
answer is there. An owner's answer is written to the box of its slot and signalled; a reader takes
the semaphore, reads the box, releases the slot and returns the answer. Slots are allocated again
after their release.

An owner is pending from the allocation of its slot until its answer is signalled. As long as a slot
is allocated to one owner at a time, answers are written and signalled for pending owners only, and
an owner has one reader, every reader returns an answer to its own owner.

## Main definitions

* `Mailboxes`, `Mailboxes.Step`, `Mailboxes.Inv`.

## Main results

* `Mailboxes.Inv.step`: every step keeps the invariant.
-/

namespace Beethoven.Lib

open Function

/-- Where a reader is. -/
inductive Reader (τ σ ρ : Type*) where
  | out
  | taken (t : τ) (sl : σ)
  | read (t : τ) (sl : σ) (y : ρ)
  | released (t : τ) (y : ρ)

variable {ι τ σ ρ : Type*}

/-- The owner for which a reader reads. -/
def Reader.owner : Reader τ σ ρ → Option τ
  | .out => none
  | .taken t _ | .read t _ _ | .released t _ => some t

/-- The slots held by owners, the owners whose answer is not signalled, the semaphores and boxes,
the answers that exist, the readers and what they returned. -/
structure Mailboxes (ι τ σ ρ : Type*) where
  held : List (τ × σ)
  pending : Set τ
  ready : σ → Bool
  box : σ → ρ
  answers : List (τ × ρ)
  reader : ι → Reader τ σ ρ
  returned : List (τ × ρ)

namespace Mailboxes

/-- No reader reads for `t`. -/
def Unread (s : Mailboxes ι τ σ ρ) (t : τ) : Prop := ∀ i, (s.reader i).owner ≠ some t

/-- The steps of the owners, of the writer and of the readers. -/
inductive Step [DecidableEq ι] [DecidableEq σ] [BEq (τ × σ)] (s : Mailboxes ι τ σ ρ) :
    Mailboxes ι τ σ ρ → Prop
  | answer (t : τ) (y : ρ) : Step s { s with answers := s.answers ++ [(t, y)] }
  | alloc (t : τ) (sl : σ) (hslot : ∀ t', (t', sl) ∉ s.held) (howner : ∀ sl', (t, sl') ∉ s.held)
      (hunread : s.Unread t) :
      Step s { s with held := s.held ++ [(t, sl)], pending := insert t s.pending }
  | write {t sl y} (hpending : t ∈ s.pending) (hheld : (t, sl) ∈ s.held)
      (hanswer : (t, y) ∈ s.answers) :
      Step s { s with box := update s.box sl y }
  | signal {t sl} (hpending : t ∈ s.pending) (hheld : (t, sl) ∈ s.held)
      (hanswer : (t, s.box sl) ∈ s.answers) :
      Step s { s with ready := update s.ready sl true, pending := s.pending \ {t} }
  | take {i t sl} (hi : s.reader i = .out) (hheld : (t, sl) ∈ s.held) (hready : s.ready sl = true)
      (hunread : s.Unread t) :
      Step s { s with
        ready := update s.ready sl false
        reader := update s.reader i (.taken t sl) }
  | read {i t sl} (hi : s.reader i = .taken t sl) :
      Step s { s with reader := update s.reader i (.read t sl (s.box sl)) }
  | release {i t sl y} (hi : s.reader i = .read t sl y) :
      Step s { s with
        held := s.held.erase (t, sl), reader := update s.reader i (.released t y) }
  | finish {i t y} (hi : s.reader i = .released t y) :
      Step s { s with
        reader := update s.reader i .out, returned := s.returned ++ [(t, y)] }

/-- What a reader knows. -/
def ReaderOk (s : Mailboxes ι τ σ ρ) : Reader τ σ ρ → Prop
  | .out => True
  | .taken t sl => (t, sl) ∈ s.held ∧ (t, s.box sl) ∈ s.answers
  | .read t sl y => (t, sl) ∈ s.held ∧ (t, y) ∈ s.answers
  | .released t y => (t, y) ∈ s.answers

/-- A slot has one owner and an owner one slot and one reader. The semaphore of a pending owner is
locked; a posted semaphore belongs to an owner whose answer is in the box. -/
structure Inv (s : Mailboxes ι τ σ ρ) : Prop where
  slot_unique : ∀ t t' sl, (t, sl) ∈ s.held → (t', sl) ∈ s.held → t = t'
  owner_unique : ∀ t sl sl', (t, sl) ∈ s.held → (t, sl') ∈ s.held → sl = sl'
  reader_unique : ∀ i j t, (s.reader i).owner = some t → (s.reader j).owner = some t → i = j
  pending : ∀ t ∈ s.pending, s.Unread t ∧ ∃ sl, (t, sl) ∈ s.held ∧ s.ready sl = false
  ready : ∀ sl, s.ready sl = true →
    ∃ t, (t, sl) ∈ s.held ∧ (t, s.box sl) ∈ s.answers ∧ s.Unread t
  reader : ∀ i, s.ReaderOk (s.reader i)
  returned : ∀ r ∈ s.returned, r ∈ s.answers

variable {s s' : Mailboxes ι τ σ ρ}

theorem ReaderOk.mono {p : Reader τ σ ρ} (h : s.ReaderOk p)
    (hheld : ∀ t sl, p.owner = some t → (t, sl) ∈ s.held → (t, sl) ∈ s'.held)
    (hbox : ∀ t sl, p = .taken t sl → s'.box sl = s.box sl)
    (hanswers : ∀ r ∈ s.answers, r ∈ s'.answers) : s'.ReaderOk p := by
  cases p with
  | out => trivial
  | taken t sl =>
    refine ⟨hheld t sl rfl h.1, ?_⟩
    rw [hbox t sl rfl]
    exact hanswers _ h.2
  | read t sl y => exact ⟨hheld t sl rfl h.1, hanswers _ h.2⟩
  | released t y => exact hanswers _ h

theorem Inv.ready_eq_false (h : Inv s) {t : τ} {sl : σ} (hpending : t ∈ s.pending)
    (hheld : (t, sl) ∈ s.held) : s.ready sl = false := by
  obtain ⟨-, sl', hheld', hready⟩ := h.pending t hpending
  obtain rfl := h.owner_unique t sl sl' hheld hheld'
  exact hready

section

variable [DecidableEq ι]

/-- A reader that changes phase and keeps or drops its owner. -/
private theorem owner_update {i j : ι} {p : Reader τ σ ρ} {t : τ}
    (hp : p.owner = none ∨ p.owner = (s.reader i).owner)
    (h : (update s.reader i p j).owner = some t) : (s.reader j).owner = some t := by
  by_cases hj : j = i
  · subst hj
    rw [update_self] at h
    rcases hp with hp | hp
    · simp [hp] at h
    · rw [← hp, h]
  · rwa [update_of_ne hj] at h

/-- A step of a reader that touches neither semaphores nor boxes. -/
private theorem Inv.advance {i : ι} {p : Reader τ σ ρ} (h : Inv s)
    (howner : p.owner = none ∨ p.owner = (s.reader i).owner)
    (hheld : ∀ x ∈ s'.held, x ∈ s.held)
    (hkeep : ∀ t sl, (s.reader i).owner ≠ some t → (t, sl) ∈ s.held → (t, sl) ∈ s'.held)
    (hpending : s'.pending = s.pending) (hready : s'.ready = s.ready) (hbox : s'.box = s.box)
    (hanswers : s'.answers = s.answers)
    (hreader : s'.reader = update s.reader i p) (hok : s'.ReaderOk p)
    (hreturned : ∀ r ∈ s'.returned, r ∈ s'.answers) : Inv s' := by
  have hunread : ∀ t, s.Unread t → s'.Unread t := fun t ht j hj =>
    ht j (owner_update howner (hreader ▸ hj))
  refine ⟨fun t t' sl ht ht' => h.slot_unique t t' sl (hheld _ ht) (hheld _ ht'),
    fun t sl sl' ht ht' => h.owner_unique t sl sl' (hheld _ ht) (hheld _ ht'),
    fun j k t hj hk => ?_, fun t ht => ?_, fun sl hsl => ?_, fun j => ?_, hreturned⟩
  · rw [hreader] at hj hk
    exact h.reader_unique j k t (owner_update howner hj) (owner_update howner hk)
  · rw [hpending] at ht
    obtain ⟨hunread', sl, hsl, hlocked⟩ := h.pending t ht
    exact ⟨hunread t hunread', sl, hkeep t sl (hunread' i) hsl, hready ▸ hlocked⟩
  · rw [hready] at hsl
    obtain ⟨t, ht, hanswer, hunread'⟩ := h.ready sl hsl
    exact ⟨t, hkeep t sl (hunread' i) ht, by rwa [hanswers, hbox], hunread t hunread'⟩
  · rw [hreader]
    by_cases hj : j = i
    · subst hj
      rwa [update_self]
    · rw [update_of_ne hj]
      refine (h.reader j).mono (fun t sl ht hmem => hkeep t sl (fun hi => ?_) hmem)
        (fun _ _ _ => by rw [hbox]) (fun _ hr => hanswers ▸ hr)
      exact hj (h.reader_unique j i t ht hi)

end

namespace Inv

theorem answer (h : Inv s) (t : τ) (y : ρ) : Inv { s with answers := s.answers ++ [(t, y)] } := by
  have hgrow : ∀ r ∈ s.answers, r ∈ s.answers ++ [(t, y)] := fun r hr => List.mem_append_left _ hr
  refine ⟨h.slot_unique, h.owner_unique, h.reader_unique, h.pending, fun sl hsl => ?_,
    fun i => (h.reader i).mono (fun _ _ _ => id) (fun _ _ _ => rfl) hgrow,
    fun r hr => hgrow r (h.returned r hr)⟩
  obtain ⟨t', ht', hanswer, hunread⟩ := h.ready sl hsl
  exact ⟨t', ht', hgrow _ hanswer, hunread⟩

theorem alloc (h : Inv s) {t : τ} {sl : σ} (hslot : ∀ t', (t', sl) ∉ s.held)
    (howner : ∀ sl', (t, sl') ∉ s.held) (hunread : s.Unread t) :
    Inv { s with held := s.held ++ [(t, sl)], pending := insert t s.pending } := by
  have hlocked : s.ready sl = false := by
    by_contra hne
    obtain ⟨t', ht', -⟩ := h.ready sl (by simpa using hne)
    exact hslot t' ht'
  have hslot_unique := h.slot_unique
  have howner_unique := h.owner_unique
  refine ⟨by grind, by grind, h.reader_unique, fun t' ht' => ?_, fun sl' hsl' => ?_,
    fun i => (h.reader i).mono (fun _ _ _ => List.mem_append_left _) (fun _ _ _ => rfl)
      (fun _ => id), h.returned⟩
  · rcases ht' with rfl | ht'
    · exact ⟨hunread, sl, by simp, hlocked⟩
    · obtain ⟨hunread', sl', hsl', hlocked'⟩ := h.pending t' ht'
      exact ⟨hunread', sl', List.mem_append_left _ hsl', hlocked'⟩
  · obtain ⟨t', ht', hrest⟩ := h.ready sl' hsl'
    exact ⟨t', List.mem_append_left _ ht', hrest⟩

/-- The owner is pending, so its slot is not ready and has no reader. -/
theorem write [DecidableEq σ] (h : Inv s) {t : τ} {sl : σ} (y : ρ) (hmem : t ∈ s.pending)
    (hheld : (t, sl) ∈ s.held) : Inv { s with box := update s.box sl y } := by
  have hlocked := h.ready_eq_false hmem hheld
  refine ⟨h.slot_unique, h.owner_unique, h.reader_unique, h.pending, fun sl' hsl' => ?_,
    fun i => ?_, h.returned⟩
  · have hne : sl' ≠ sl := by
      rintro rfl
      exact Bool.false_ne_true (hlocked.symm.trans hsl')
    simp only [update_of_ne hne]
    exact h.ready sl' hsl'
  · refine (h.reader i).mono (fun _ _ _ => id) (fun t' sl' ht' => ?_) (fun _ => id)
    have hi := h.reader i
    rw [ht'] at hi
    refine update_of_ne (fun heq => ?_) _ _
    have htt' : t' = t := h.slot_unique t' t sl (heq ▸ hi.1) hheld
    exact (h.pending t hmem).1 i (by rw [ht', htt']; rfl)

theorem signal [DecidableEq σ] (h : Inv s) {t : τ} {sl : σ} (hmem : t ∈ s.pending)
    (hheld : (t, sl) ∈ s.held) (hanswer : (t, s.box sl) ∈ s.answers) :
    Inv { s with ready := update s.ready sl true, pending := s.pending \ {t} } := by
  refine ⟨h.slot_unique, h.owner_unique, h.reader_unique, fun t' ht' => ?_, fun sl' hsl' => ?_,
    h.reader, h.returned⟩
  · obtain ⟨hunread, sl', hsl', hlocked⟩ := h.pending t' ht'.1
    have hne : sl' ≠ sl := fun heq => ht'.2 (h.slot_unique t' t sl (heq ▸ hsl') hheld)
    exact ⟨hunread, sl', hsl', by simpa [update_of_ne hne] using hlocked⟩
  · by_cases heq : sl' = sl
    · subst heq
      exact ⟨t, hheld, hanswer, (h.pending t hmem).1⟩
    · exact h.ready sl' (by simpa [update_of_ne heq] using hsl')

/-- The semaphore is posted, so the owner is not pending and the answer is in the box. -/
theorem take [DecidableEq ι] [DecidableEq σ] (h : Inv s) {i : ι} {t : τ} {sl : σ}
    (hheld : (t, sl) ∈ s.held) (hready : s.ready sl = true) (hunread : s.Unread t) :
    Inv { s with
      ready := update s.ready sl false
      reader := update s.reader i (.taken t sl) } := by
  obtain ⟨t', ht', hanswer, -⟩ := h.ready sl hready
  obtain rfl := h.slot_unique t' t sl ht' hheld
  have htaken : ∀ j u, (update s.reader i (.taken t' sl) j).owner = some u →
      (j = i ∧ u = t') ∨ (s.reader j).owner = some u := by
    intro j u hj
    by_cases hji : j = i
    · subst hji
      rw [update_self] at hj
      exact .inl ⟨rfl, (Option.some.inj hj).symm⟩
    · exact .inr (by rwa [update_of_ne hji] at hj)
  have hunread' : ∀ u, u ≠ t' → s.Unread u →
      ∀ j, (update s.reader i (.taken t' sl) j).owner ≠ some u :=
    fun u hu hunread j hj => (htaken j u hj).elim (fun h => hu h.2) (hunread j)
  refine ⟨h.slot_unique, h.owner_unique, fun j k u hj hk => ?_, fun u hu => ?_, fun sl' hsl' => ?_,
    (forall_update_iff s.reader fun _ p => ReaderOk _ p).mpr
      ⟨⟨hheld, hanswer⟩, fun j _ => h.reader j⟩, h.returned⟩
  · rcases htaken j u hj with ⟨rfl, rfl⟩ | hj'
    · rcases htaken k u hk with ⟨rfl, -⟩ | hk'
      · rfl
      · exact absurd hk' (hunread k)
    · rcases htaken k u hk with ⟨rfl, rfl⟩ | hk'
      · exact absurd hj' (hunread j)
      · exact h.reader_unique j k u hj' hk'
  · obtain ⟨hunreadu, sl', hsl', hlocked⟩ := h.pending u hu
    have hne : sl' ≠ sl := fun heq => by simp [heq ▸ hlocked] at hready
    refine ⟨hunread' u ?_ hunreadu, sl', hsl', by simpa [update_of_ne hne] using hlocked⟩
    rintro rfl
    exact hne (h.owner_unique u sl' sl hsl' hheld)
  · have hne : sl' ≠ sl := fun heq => by simp [heq] at hsl'
    obtain ⟨u, hu, hanswer', hunreadu⟩ :=
      h.ready sl' (by simpa [update_of_ne hne] using hsl')
    refine ⟨u, hu, hanswer', hunread' u ?_ hunreadu⟩
    rintro rfl
    exact hne (h.owner_unique u sl' sl hu hheld)

/-- **Every step keeps the invariant.** -/
theorem step [DecidableEq ι] [DecidableEq σ] [BEq (τ × σ)] [LawfulBEq (τ × σ)] (h : Inv s)
    (hstep : Step s s') : Inv s' := by
  cases hstep with
  | answer t y => exact h.answer t y
  | alloc t sl hslot howner hunread => exact h.alloc hslot howner hunread
  | @write t sl y hmem hheld _ => exact h.write y hmem hheld
  | signal hmem hheld hanswer => exact h.signal hmem hheld hanswer
  | take _ hheld hready hunread => exact h.take hheld hready hunread
  | @read i t sl hi =>
    have hok : s.ReaderOk (.taken t sl) := hi ▸ h.reader i
    exact h.advance (i := i) (.inr (by rw [hi]; rfl)) (fun _ => id) (fun _ _ _ => id) rfl rfl rfl
      rfl rfl hok h.returned
  | @release i t sl y hi =>
    have hok : s.ReaderOk (.read t sl y) := hi ▸ h.reader i
    refine h.advance (i := i) (.inr (by rw [hi]; rfl)) (fun _ => List.mem_of_mem_erase)
      (fun t' sl' ht' hmem => ?_) rfl rfl rfl rfl rfl hok.2 h.returned
    have hne : t' ≠ t := by
      rintro rfl
      exact ht' (by rw [hi]; rfl)
    exact (List.mem_erase_of_ne (by simp [hne])).mpr hmem
  | @finish i t y hi =>
    have hok : s.ReaderOk (.released t y) := hi ▸ h.reader i
    refine h.advance (i := i) (.inl rfl) (fun _ => id) (fun _ _ _ => id) rfl rfl rfl rfl rfl trivial
      (fun r hr => ?_)
    rcases List.mem_append.mp hr with hr | hr
    · exact h.returned r hr
    · obtain rfl := List.mem_singleton.mp hr
      exact hok

end Inv

end Mailboxes

end Beethoven.Lib
