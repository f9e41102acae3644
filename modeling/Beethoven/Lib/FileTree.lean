import Mathlib.Data.List.AList
import Mathlib.Data.List.Induction
import Mathlib.Data.List.Infix

/-!
# Trees of files

A file system as a finite map from paths to nodes. A path is the list of names that lead to it from
the root; what has an entry lies in a directory. There are no links. Every operation is given by the
lookup after it. A path may also be given by components, which the file system follows one by one.

Removing directories takes away those that are empty at the time. If directories are tried before
those that contain them, then a directory is removed exactly if nothing else than such directories
is below it.

## Main definitions

* `FileTree`, with `FileTree.lookup`, `FileTree.removeFile`, `FileTree.removeDir` and
  `FileTree.put`.
* `FileTree.Adds`: one tree has what another one has and more.
* `FileTree.walk`: the path that components lead to.
* `FileTree.sweep`, `FileTree.Sweepable`.

## Main results

* `FileTree.lookup_erase`, `FileTree.lookup_put`: the lookups after the operations.
* `FileTree.walk_names`: plain names lead to themselves.
* `FileTree.lookup_sweep`: what is left after sweeping.
-/

namespace Beethoven.Lib

/-- What is at a path. -/
inductive Node (C : Type*)
  | dir
  | file (content : C)
  deriving DecidableEq, Repr

/-- Why an operation on files fails. -/
inductive IoError
  | notFound
  | notADirectory
  | isADirectory
  | alreadyExists
  | invalidUtf8
  | other (text : String)
  deriving DecidableEq, Repr

/-- A finite tree of directories and files. -/
structure FileTree (N C : Type*) [DecidableEq N] where
  entries : AList fun _ : List N => Node C
  root : entries.lookup [] = some .dir
  /-- What has an entry lies in a directory. -/
  parent : ∀ p n, p ++ [n] ∈ entries → entries.lookup p = some .dir

namespace FileTree

variable {N C : Type*} [DecidableEq N] (t : FileTree N C)

/-- The tree with no entry below the root. -/
def empty : FileTree N C where
  entries := AList.singleton [] .dir
  root := rfl
  parent p n h := by
    have hmem : p ++ [n] ∈ [([] : List N)] := h
    simp at hmem

/-- What is at a path. -/
def lookup (p : List N) : Option (Node C) := t.entries.lookup p

@[simp]
theorem lookup_root : t.lookup [] = some .dir := t.root

/-- A directory is at the path. -/
def IsDir (p : List N) : Prop := t.lookup p = some .dir

/-- A file is at the path. -/
def IsFile (p : List N) : Prop := ∃ c, t.lookup p = some (.file c)

instance (p : List N) : Decidable (t.IsDir p) :=
  match h : t.lookup p with
  | some .dir => isTrue h
  | some (.file _) => isFalse fun h' => by rw [IsDir, h] at h'; cases h'
  | none => isFalse fun h' => by rw [IsDir, h] at h'; cases h'

instance (p : List N) : Decidable (t.IsFile p) :=
  match h : t.lookup p with
  | some (.file c) => isTrue ⟨c, h⟩
  | some .dir => isFalse fun ⟨_, h'⟩ => by rw [h] at h'; cases h'
  | none => isFalse fun ⟨_, h'⟩ => by rw [h] at h'; cases h'

theorem mem_entries_iff {p : List N} : p ∈ t.entries ↔ t.lookup p ≠ none := by
  rw [lookup, Option.ne_none_iff_isSome, AList.lookup_isSome]

theorem lookup_parent {p : List N} {n : N} (h : t.lookup (p ++ [n]) ≠ none) :
    t.IsDir p := t.parent p n ((t.mem_entries_iff).mpr h)

theorem lookup_above {p q : List N} (hq : t.lookup q ≠ none) (hpq : p <+: q) (hne : p ≠ q) :
    t.IsDir p := by
  induction q using List.reverseRecOn with
  | nil => exact absurd (List.prefix_nil.mp hpq) hne
  | append_singleton q n ih =>
    have hdir := t.lookup_parent hq
    rcases List.prefix_concat_iff.mp hpq with h | h
    · exact absurd h hne
    · by_cases hpq' : p = q
      · rwa [hpq']
      · exact ih (by rw [hdir]; simp) h hpq'

theorem lookup_below_eq_none {p q : List N} (hp : t.lookup p = none) (hpq : p <+: q) :
    t.lookup q = none := by
  by_contra hq
  have hne : p ≠ q := fun h => hq (h ▸ hp)
  have hdir := t.lookup_above hq hpq hne
  rw [IsDir, hp] at hdir
  cases hdir

/-! ### Operations -/

/-- Something lies directly in the path. -/
def HasChild (p : List N) : Prop := ∃ q ∈ t.entries.keys, q ≠ [] ∧ q.dropLast = p

instance (p : List N) : Decidable (t.HasChild p) := inferInstanceAs (Decidable (∃ q ∈ _, _))

theorem hasChild_iff {p : List N} : t.HasChild p ↔ ∃ n, t.lookup (p ++ [n]) ≠ none := by
  constructor
  · rintro ⟨q, hq, hne, rfl⟩
    refine ⟨q.getLast hne, ?_⟩
    rw [List.dropLast_append_getLast]
    exact t.mem_entries_iff.mp (AList.mem_keys.mpr hq)
  · rintro ⟨n, hn⟩
    exact ⟨p ++ [n], AList.mem_keys.mp (t.mem_entries_iff.mpr hn), by simp, List.dropLast_concat⟩

/-- Remove the entry of a path, unless it is the root or something lies in it. -/
def erase (p : List N) : FileTree N C :=
  if h : p ≠ [] ∧ ¬ t.HasChild p then
    { entries := t.entries.erase p
      root := by rw [AList.lookup_erase_ne h.1.symm]; exact t.root
      parent := by
        intro q n hq
        rw [AList.mem_erase] at hq
        have hne : q ≠ p := by
          rintro rfl
          exact h.2 (t.hasChild_iff.mpr ⟨n, t.mem_entries_iff.mp hq.2⟩)
        rw [AList.lookup_erase_ne hne]
        exact t.parent q n hq.2 }
  else t

theorem lookup_erase (p q : List N) :
    (t.erase p).lookup q =
      if q = p ∧ p ≠ [] ∧ ¬ t.HasChild p then none else t.lookup q := by
  rw [erase]
  split_ifs with h hq hq
  · rw [hq.1]
    exact AList.lookup_erase _ _
  · exact AList.lookup_erase_ne fun hqp => hq ⟨hqp, h⟩
  · exact absurd hq.2 h
  · rfl

/-- Remove a file. -/
def removeFile (p : List N) : FileTree N C := if t.IsFile p then t.erase p else t

/-- Remove an empty directory. -/
def removeDir (p : List N) : FileTree N C := if t.IsDir p then t.erase p else t

/-- Put a node where a directory leads and no directory is. -/
def put (p : List N) (node : Node C) : FileTree N C :=
  if h : p ≠ [] ∧ t.IsDir p.dropLast ∧ ¬ t.IsDir p then
    { entries := t.entries.insert p node
      root := by rw [AList.lookup_insert_ne h.1.symm]; exact t.root
      parent := by
        intro q n hq
        rw [AList.mem_insert] at hq
        have hqp : q ≠ p := by
          rintro rfl
          rcases hq with hq | hq
          · simp at hq
          · exact h.2.2 (t.parent q n hq)
        rw [AList.lookup_insert_ne hqp]
        rcases hq with hq | hq
        · have hdir := h.2.1
          rwa [← hq, List.dropLast_concat] at hdir
        · exact t.parent q n hq }
  else t

theorem lookup_put (p q : List N) (node : Node C) :
    (t.put p node).lookup q =
      if q = p ∧ p ≠ [] ∧ t.IsDir p.dropLast ∧ ¬ t.IsDir p then some node else t.lookup q := by
  rw [put]
  split_ifs with h hq hq
  · rw [hq.1]
    exact AList.lookup_insert _
  · exact AList.lookup_insert_ne fun hqp => hq ⟨hqp, h⟩
  · exact absurd hq.2 h
  · rfl

theorem IsFile.not_hasChild {t : FileTree N C} {p : List N} (h : t.IsFile p) :
    ¬ t.HasChild p := by
  obtain ⟨c, hc⟩ := h
  rw [hasChild_iff]
  rintro ⟨n, hn⟩
  have hdir := t.lookup_parent hn
  rw [IsDir, hc] at hdir
  cases hdir

theorem IsFile.ne_nil {t : FileTree N C} {p : List N} (h : t.IsFile p) : p ≠ [] := by
  rintro rfl
  obtain ⟨c, hc⟩ := h
  rw [lookup_root] at hc
  cases hc

theorem lookup_removeFile (p q : List N) :
    (t.removeFile p).lookup q = if q = p ∧ t.IsFile p then none else t.lookup q := by
  rw [removeFile]
  split_ifs with h hq hq
  · rw [lookup_erase, if_pos ⟨hq.1, h.ne_nil, h.not_hasChild⟩]
  · rw [lookup_erase, if_neg fun hq' => hq ⟨hq'.1, h⟩]
  · exact absurd hq.2 h
  · rfl

theorem lookup_removeDir (p q : List N) :
    (t.removeDir p).lookup q =
      if q = p ∧ p ≠ [] ∧ t.IsDir p ∧ ¬ t.HasChild p then none else t.lookup q := by
  rw [removeDir]
  split_ifs with h hq hq
  · rw [lookup_erase, if_pos ⟨hq.1, hq.2.1, hq.2.2.2⟩]
  · rw [lookup_erase, if_neg fun hq' => hq ⟨hq'.1, hq'.2.1, h, hq'.2.2⟩]
  · exact absurd hq.2.2.1 h
  · rfl

/-! ### Adding without overwriting -/

/-- The second tree has what the first one has, and more only at paths with the property. -/
def Adds (P : List N → Prop) (t t' : FileTree N C) : Prop :=
  ∀ p, t'.lookup p = t.lookup p ∨ t.lookup p = none ∧ P p

namespace Adds

variable {P Q : List N → Prop} {t t' t'' : FileTree N C}

theorem refl (t : FileTree N C) : Adds P t t := fun _ => .inl rfl

theorem mono (hPQ : ∀ p, P p → Q p) (h : Adds P t t') : Adds Q t t' :=
  fun p => (h p).imp_right fun h => ⟨h.1, hPQ p h.2⟩

theorem trans (h : Adds P t t') (h' : Adds P t' t'') : Adds P t t'' := by
  intro p
  rcases h' p with hsame | ⟨hnone, hp⟩
  · rw [hsame]
    exact h p
  · rcases h p with hsame | hadded
    · exact .inr ⟨hsame ▸ hnone, hp⟩
    · exact .inr hadded

theorem lookup_eq_some (h : Adds P t t') {p : List N} {node : Node C}
    (hp : t.lookup p = some node) : t'.lookup p = some node := by
  rcases h p with hsame | ⟨hnone, -⟩
  · rw [hsame, hp]
  · rw [hnone] at hp
    cases hp

theorem lookup_eq_none (h : Adds P t t') {p : List N} (hp : t'.lookup p = none) :
    t.lookup p = none := by
  rcases h p with hsame | ⟨hnone, -⟩
  · rw [← hsame, hp]
  · exact hnone

theorem put (t : FileTree N C) {p : List N} (hp : t.lookup p = none) (node : Node C) :
    Adds (· = p) t (t.put p node) := by
  intro q
  rw [lookup_put]
  split_ifs with h
  · exact .inr ⟨h.1 ▸ hp, h.1⟩
  · exact .inl rfl

theorem of_removeFile (t : FileTree N C) (p : List N) : Adds (· = p) (t.removeFile p) t := by
  intro q
  rw [lookup_removeFile]
  split_ifs with h
  · exact .inr ⟨rfl, h.1⟩
  · exact .inl rfl

theorem of_removeDir (t : FileTree N C) (p : List N) : Adds (· = p) (t.removeDir p) t := by
  intro q
  rw [lookup_removeDir]
  split_ifs with h
  · exact .inr ⟨rfl, h.1⟩
  · exact .inl rfl

end Adds

/-! ### Removing many files and directories -/

/-- Remove the files of a list. -/
def removeFiles (ps : List (List N)) : FileTree N C := ps.foldl removeFile t

theorem lookup_removeFiles (ps : List (List N)) (q : List N) :
    (t.removeFiles ps).lookup q = if q ∈ ps ∧ t.IsFile q then none else t.lookup q := by
  induction ps generalizing t with
  | nil => simp [removeFiles]
  | cons p ps ih =>
    have hcons : t.removeFiles (p :: ps) = (t.removeFile p).removeFiles ps := rfl
    rw [hcons, ih]
    by_cases hq : q = p ∧ t.IsFile p
    · obtain ⟨rfl, hfile⟩ := hq
      have hnone : (t.removeFile q).lookup q = none := by
        rw [lookup_removeFile, if_pos ⟨rfl, hfile⟩]
      rw [hnone, ite_self, if_pos ⟨List.mem_cons_self, hfile⟩]
    · have hsame : (t.removeFile p).lookup q = t.lookup q := by
        rw [lookup_removeFile, if_neg hq]
      have hfile : (t.removeFile p).IsFile q ↔ t.IsFile q := by
        rw [IsFile, IsFile, hsame]
      rw [hsame]
      congr 1
      rw [hfile, List.mem_cons, eq_iff_iff, and_congr_left_iff]
      intro hq'
      refine ⟨.inr, fun h => h.resolve_left ?_⟩
      rintro rfl
      exact hq ⟨rfl, hq'⟩

theorem removeFiles_eq_self {ps : List (List N)} (h : ∀ p ∈ ps, t.lookup p = none) :
    t.removeFiles ps = t := by
  induction ps with
  | nil => rfl
  | cons p ps ih =>
    have hp : t.removeFile p = t := by
      refine if_neg ?_
      rintro ⟨c, hc⟩
      rw [h p List.mem_cons_self] at hc
      cases hc
    have hcons : t.removeFiles (p :: ps) = (t.removeFile p).removeFiles ps := rfl
    rw [hcons, hp, ih fun q hq => h q (List.mem_cons_of_mem p hq)]

/-- Remove the directories of a list that are empty when their turn comes. -/
def sweep (ds : List (List N)) : FileTree N C := ds.foldl removeDir t

/-- There is nothing at the path or below it, other than directories of the list. -/
def Sweepable (ds : List (List N)) (p : List N) : Prop :=
  ∀ q, p <+: q → t.lookup q ≠ none → q ∈ ds ∧ t.IsDir q

theorem sweepable_of_lookup_eq_none {p : List N} (h : t.lookup p = none) (ds : List (List N)) :
    t.Sweepable ds p := fun _ hpq hq => absurd (t.lookup_below_eq_none h hpq) hq

/-- A directory that has its turn before everything that contains it can be swept if it is empty,
and whether another one can be swept does not depend on its having been removed. -/
theorem sweepable_removeDir {d : List N} {ds : List (List N)} (hd : d ≠ [])
    (hds : ∀ b ∈ ds, ¬ (d <+: b ∧ d ≠ b)) (p : List N) :
    (t.removeDir d).Sweepable ds p ↔ t.Sweepable (d :: ds) p := by
  constructor
  · intro h q hpq hq
    by_cases hrem : q = d ∧ d ≠ [] ∧ t.IsDir d ∧ ¬ t.HasChild d
    · obtain ⟨rfl, -, hdir, -⟩ := hrem
      exact ⟨List.mem_cons_self, hdir⟩
    · have hsame : (t.removeDir d).lookup q = t.lookup q := by
        rw [lookup_removeDir, if_neg hrem]
      obtain ⟨hmem, hdir⟩ := h q hpq (by rwa [hsame])
      rw [IsDir, hsame] at hdir
      exact ⟨List.mem_cons_of_mem d hmem, hdir⟩
  · intro h q hpq hq
    have hrem : ¬ (q = d ∧ d ≠ [] ∧ t.IsDir d ∧ ¬ t.HasChild d) := by
      intro hrem
      rw [lookup_removeDir, if_pos hrem] at hq
      exact hq rfl
    rw [lookup_removeDir, if_neg hrem] at hq
    obtain ⟨hmem, hdir⟩ := h q hpq hq
    refine ⟨?_, by rwa [IsDir, lookup_removeDir, if_neg hrem]⟩
    rcases List.mem_cons.mp hmem with rfl | hmem
    · -- it was not empty: what lies in it would have had its turn earlier
      have hchild : t.HasChild q := by
        by_contra hchild
        exact hrem ⟨rfl, hd, hdir, hchild⟩
      obtain ⟨n, hn⟩ := t.hasChild_iff.mp hchild
      have hne : q ≠ q ++ [n] := by simp
      have hchild' := (h (q ++ [n]) (hpq.trans (List.prefix_append q [n])) hn).1
      exact absurd ⟨List.prefix_append q [n], hne⟩
        (hds _ ((List.mem_cons.mp hchild').resolve_left hne.symm))
    · exact hmem

/-- If directories are tried before those that contain them, then what can be swept is removed and
everything else stays. -/
theorem lookup_sweep {ds : List (List N)} (hroot : [] ∉ ds)
    (horder : ds.Pairwise fun a b => ¬ (a <+: b ∧ a ≠ b)) (p : List N) :
    (t.Sweepable ds p → (t.sweep ds).lookup p = none) ∧
      (¬ t.Sweepable ds p → (t.sweep ds).lookup p = t.lookup p) := by
  induction ds generalizing t with
  | nil =>
    refine ⟨fun h => ?_, fun _ => rfl⟩
    by_contra hp
    exact List.not_mem_nil (h p (List.prefix_refl p) hp).1
  | cons d ds ih =>
    obtain ⟨hds, horder⟩ := List.pairwise_cons.mp horder
    rw [List.mem_cons, not_or] at hroot
    have hcons : t.sweep (d :: ds) = (t.removeDir d).sweep ds := rfl
    rw [hcons, ← t.sweepable_removeDir (Ne.symm hroot.1) hds p]
    obtain ⟨hremoved, hkept⟩ := ih (t.removeDir d) hroot.2 horder
    refine ⟨hremoved, fun h => (hkept h).trans ?_⟩
    rw [lookup_removeDir, if_neg]
    rintro ⟨rfl, hp, hdir, hchild⟩
    exact h (sweepable_of_lookup_eq_none _
      (by rw [lookup_removeDir, if_pos ⟨rfl, hp, hdir, hchild⟩]) ds)

theorem lookup_sweep_of_notMem {ds : List (List N)} (hroot : [] ∉ ds)
    (horder : ds.Pairwise fun a b => ¬ (a <+: b ∧ a ≠ b)) {p : List N} (hp : p ∉ ds) :
    (t.sweep ds).lookup p = t.lookup p := by
  by_cases hnone : t.lookup p = none
  · rw [(t.lookup_sweep hroot horder p).1 (t.sweepable_of_lookup_eq_none hnone ds), hnone]
  · exact (t.lookup_sweep hroot horder p).2 fun h => hp (h p (List.prefix_refl p) hnone).1

theorem lookup_sweep_sweep {ds : List (List N)} (hroot : [] ∉ ds)
    (horder : ds.Pairwise fun a b => ¬ (a <+: b ∧ a ≠ b)) (p : List N) :
    ((t.sweep ds).sweep ds).lookup p = (t.sweep ds).lookup p := by
  by_cases hagain : (t.sweep ds).Sweepable ds p
  swap
  · exact ((t.sweep ds).lookup_sweep hroot horder p).2 hagain
  rw [((t.sweep ds).lookup_sweep hroot horder p).1 hagain]
  refine ((t.lookup_sweep hroot horder p).1 fun q hpq hq => ?_).symm
  -- what was in the way the first time is still there
  by_contra hblock
  have hkept : (t.sweep ds).lookup q = t.lookup q :=
    (t.lookup_sweep hroot horder q).2 fun h => hblock (h q (List.prefix_refl q) hq)
  have hswept := hagain q hpq (by rwa [hkept])
  rw [IsDir, hkept] at hswept
  exact hblock hswept

end FileTree

/-! ### Following components -/

/-- A component of a path as it is written. -/
inductive Component (N : Type*)
  | here
  | up
  | name (n : N)
  deriving DecidableEq, Repr

namespace Component

variable {N : Type*}

/-- Where a component leads from a path. -/
def next (p : List N) : Component N → List N
  | here => p
  | up => p.dropLast
  | name n => p ++ [n]

/-- Where components lead from a path, whatever they lead through. -/
def follow (p : List N) (cs : List (Component N)) : List N := cs.foldl next p

theorem follow_append (p : List N) (cs cs' : List (Component N)) :
    follow p (cs ++ cs') = follow (follow p cs) cs' := List.foldl_append

@[simp]
theorem follow_concat_here (p : List N) (cs : List (Component N)) :
    follow p (cs ++ [here]) = follow p cs := follow_append p cs [here]

theorem isPrefix_follow (p : List N) {cs : List (Component N)} (h : up ∉ cs) :
    p <+: follow p cs := by
  induction cs generalizing p with
  | nil => exact List.prefix_refl p
  | cons c cs ih =>
    rw [List.mem_cons, not_or] at h
    refine List.IsPrefix.trans ?_ (ih (c.next p) h.2)
    cases c with
    | name n => exact List.prefix_append p [n]
    | here => exact List.prefix_refl p
    | up => exact absurd rfl h.1

theorem follow_names (p ns : List N) : follow p (ns.map name) = p ++ ns := by
  induction ns generalizing p with
  | nil => rw [List.map_nil, follow, List.foldl_nil, List.append_nil]
  | cons n ns ih =>
    have hcons : follow p ((n :: ns).map name) = follow (p ++ [n]) (ns.map name) := rfl
    rw [hcons, ih, List.append_assoc, List.singleton_append]

end Component

namespace FileTree

variable {N C : Type*} [DecidableEq N] (t : FileTree N C)

/-- Follow components from a path. What is followed has to be a directory; where the last component
leads need not exist. -/
def walk : List N → List (Component N) → Except IoError (List N)
  | p, [] => .ok p
  | p, c :: cs =>
    match t.lookup p with
    | none => .error .notFound
    | some (.file _) => .error .notADirectory
    | some .dir => walk (c.next p) cs

theorem isDir_of_walk_cons {p q : List N} {c : Component N} {cs : List (Component N)}
    (h : t.walk p (c :: cs) = .ok q) : t.IsDir p ∧ t.walk (c.next p) cs = .ok q := by
  rw [walk] at h
  split at h
  · cases h
  · cases h
  next hdir => exact ⟨hdir, h⟩

theorem walk_eq_follow {p q : List N} {cs : List (Component N)} (h : t.walk p cs = .ok q) :
    q = Component.follow p cs := by
  induction cs generalizing p with
  | nil => exact (Except.ok.inj h).symm
  | cons c cs ih => exact ih (t.isDir_of_walk_cons h).2

theorem walk_concat_name {p q : List N} {cs : List (Component N)} {n : N}
    (h : t.walk p (cs ++ [.name n]) = .ok q) :
    ∃ r, t.walk p cs = .ok r ∧ t.IsDir r ∧ q = r ++ [n] := by
  induction cs generalizing p with
  | nil =>
    obtain ⟨hdir, hq⟩ := t.isDir_of_walk_cons h
    exact ⟨p, rfl, hdir, (Except.ok.inj hq).symm⟩
  | cons c cs ih =>
    obtain ⟨hdir, hq⟩ := t.isDir_of_walk_cons h
    obtain ⟨r, hr, hrest⟩ := ih hq
    exact ⟨r, by rwa [walk, hdir], hrest⟩

@[simp]
theorem walk_here {p : List N} (hp : t.IsDir p) (cs : List (Component N)) :
    t.walk p (.here :: cs) = t.walk p cs := by
  rw [walk, hp]
  rfl

theorem walk_concat_here {p q : List N} {cs : List (Component N)} (h : t.walk p cs = .ok q)
    (hq : t.IsDir q) : t.walk p (cs ++ [.here]) = .ok q := by
  induction cs generalizing p with
  | nil =>
    obtain rfl : p = q := Except.ok.inj h
    exact t.walk_here hq []
  | cons c cs ih =>
    obtain ⟨hdir, hrest⟩ := t.isDir_of_walk_cons h
    rw [List.cons_append, walk, hdir]
    exact ih hrest

/-- What can be followed in a tree can be followed in a tree that has more. -/
theorem walk_of_subtree {t t' : FileTree N C}
    (hsub : ∀ p, t'.lookup p = none ∨ t'.lookup p = t.lookup p) {p q : List N}
    {cs : List (Component N)} (h : t'.walk p cs = .ok q) : t.walk p cs = .ok q := by
  induction cs generalizing p with
  | nil => exact h
  | cons c cs ih =>
    obtain ⟨hdir, hq⟩ := t'.isDir_of_walk_cons h
    have hdir' : t.lookup p = some .dir := by
      rcases hsub p with hnone | hsame
      · rw [IsDir, hnone] at hdir
        cases hdir
      · rw [← hsame, hdir]
    rw [walk, hdir']
    exact ih hq

/-- Names lead to the path that they are, or through something that is not a directory; then nothing
is there. -/
theorem walk_names (p ns : List N) :
    t.walk p (ns.map .name) = .ok (p ++ ns) ∨
      (∃ e, t.walk p (ns.map .name) = .error e) ∧ t.lookup (p ++ ns) = none := by
  induction ns generalizing p with
  | nil => exact .inl (by rw [List.map_nil, walk, List.append_nil])
  | cons n ns ih =>
    rw [List.map_cons, walk]
    split
    next h => exact .inr ⟨⟨_, rfl⟩, t.lookup_below_eq_none h (List.prefix_append p _)⟩
    next c h =>
      refine .inr ⟨⟨_, rfl⟩, ?_⟩
      by_contra hne
      have hdir := t.lookup_above hne (List.prefix_append p _) (by simp)
      rw [IsDir, h] at hdir
      cases hdir
    next => simpa [Component.next] using ih (p ++ [n])

end FileTree

end Beethoven.Lib
