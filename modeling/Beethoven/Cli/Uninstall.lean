import Beethoven.Cli.Files
import Beethoven.Lib.OrderedSet
import Mathlib.Data.List.Sort

/-!
# Uninstalling

`cmake --install` leaves a list of the files that it has written. Uninstalling removes these files
and then tries to remove the directories between the prefix and the files, the deepest first
(`cli/src/tools/cmake.rs`). A directory that is not empty stays.

A line of the list is trimmed before it is taken for a path, so a path that ends in white space is
not the one that is removed (`not_uninstall_removes_own_tree`).
-/

namespace Beethoven.Cli

open Lib

/-! ### The manifest -/

/-- The characters that `str::trim` removes. -/
def isWhitespace (c : Char) : Bool :=
  let n := c.toNat
  (0x09 ≤ n && n ≤ 0x0D) || n == 0x20 || n == 0x85 || n == 0xA0 || n == 0x1680 ||
    (0x2000 ≤ n && n ≤ 0x200A) || n == 0x2028 || n == 0x2029 || n == 0x202F || n == 0x205F ||
    n == 0x3000

/-- `str::trim`. -/
def trim (s : Text) : Text := ((s.dropWhile isWhitespace).reverse.dropWhile isWhitespace).reverse

/-- `str::lines`: what stands before each line feed, without a carriage return at its end, and what
stands behind the last one, if anything does. -/
def lines (s : Text) : List Text :=
  let pieces := s.splitOn '\n'
  let pieces := if pieces.getLast? = some [] then pieces.dropLast else pieces
  pieces.map fun line => if line.getLast? = some '\r' then line.dropLast else line

/-- The paths of a manifest: the trimmed lines that are not empty. -/
def manifestPaths (body : Text) : List Text := ((lines body).map trim).filter (· ≠ [])

/-- The text of a manifest that lists paths, one in a line. `ended` tells whether the last line has
a line feed. -/
def manifestText (paths : List Text) (ended : Bool) : Text :=
  List.intercalate ['\n'] (if ended then paths ++ [[]] else paths)

/-- A path that can be read back from its line: it has no line feed and does not end in white
space. -/
def OneLine (path : Text) : Prop :=
  '\n' ∉ path ∧ ∀ c ∈ path.getLast?, isWhitespace c = false

instance (path : Text) : Decidable (OneLine path) :=
  @instDecidableAnd _ _ _ (Option.decidableForallMem path.getLast?)

theorem dropWhile_of_head? {l : Text} (h : ∀ c ∈ l.head?, isWhitespace c = false) :
    l.dropWhile isWhitespace = l := by
  cases l with
  | nil => rfl
  | cons c l => rw [List.dropWhile_cons, h c rfl, if_neg (by simp)]

theorem trim_of_ends {path : Text} (hhead : ∀ c ∈ path.head?, isWhitespace c = false)
    (hlast : ∀ c ∈ path.getLast?, isWhitespace c = false) : trim path = path := by
  rw [trim, dropWhile_of_head? hhead, dropWhile_of_head? (by rwa [List.head?_reverse]),
    List.reverse_reverse]

theorem lines_manifestText {paths : List Text} (h : ∀ path ∈ paths, path ≠ [] ∧ OneLine path)
    (ended : Bool) : lines (manifestText paths ended) = paths := by
  have hline : ∀ path ∈ paths,
      (if path.getLast? = some '\r' then path.dropLast else path) = path := by
    intro path hpath
    refine if_neg fun hr => ?_
    have hspace := (h path hpath).2.2 '\r' hr
    simp [isWhitespace] at hspace
  have hmap : (paths.map fun line => if line.getLast? = some '\r' then line.dropLast else line) =
      paths := (List.map_congr_left hline).trans (List.map_id' paths)
  have hbreak : ∀ path ∈ paths, '\n' ∉ path := fun path hpath => (h path hpath).2.1
  by_cases hnil : paths = []
  · subst hnil
    cases ended <;> rfl
  · cases ended with
    | false =>
      have hlast : paths.getLast? ≠ some [] := fun hlast =>
        (h [] (List.mem_of_getLast? hlast)).1 rfl
      simp only [lines, manifestText, Bool.false_eq_true, if_false,
        List.splitOn_intercalate '\n' hbreak hnil, if_neg hlast, hmap]
    | true =>
      have hbreak' : ∀ path ∈ paths ++ [[]], '\n' ∉ path := by
        simpa [or_imp, forall_and] using hbreak
      simp only [lines, manifestText, if_true, List.splitOn_intercalate '\n' hbreak' (by simp),
        List.getLast?_concat, List.dropLast_concat, hmap]

theorem manifestPaths_manifestText {paths : List Text} {files : List (List Text)}
    (hfiles : List.Forall₂ Normalized paths files) (h : ∀ path ∈ paths, OneLine path)
    (ended : Bool) : manifestPaths (manifestText paths ended) = paths := by
  have hhead : ∀ path ∈ paths, path.head? = some '/' :=
    ((List.forall₂_and_left _ _).mp (hfiles.imp fun _ _ hnormal => ⟨hnormal.head?_eq, hnormal⟩)).1
  have hne : ∀ path ∈ paths, path ≠ [] := by
    rintro path hpath rfl
    exact nomatch hhead [] hpath
  have htrim : ∀ path ∈ paths, trim path = path := by
    intro path hpath
    refine trim_of_ends (fun c hc => ?_) (h path hpath).2
    rw [hhead path hpath] at hc
    obtain rfl := Option.some.inj hc
    decide
  rw [manifestPaths, lines_manifestText fun path hpath => ⟨hne path hpath, h path hpath⟩,
    (List.map_congr_left htrim).trans (List.map_id' paths), List.filter_eq_self]
  simpa using hne

/-! ### Removing what it lists -/

/-- The loop over the parents of a path, given by its components in reverse order: they are
collected up to the prefix. -/
def collectParents (pre : List PathComponent) :
    List PathComponent → OrderedSet (List PathComponent) → OrderedSet (List PathComponent)
  | [], dirs => dirs
  | c :: rest, dirs =>
    if c = .rootDir then dirs
    else if rest.reverse = pre ∨ ¬ pre <+: rest.reverse then dirs
    else collectParents pre rest (dirs.emplace rest.reverse)

/-- The directories that are tried, in the order of the tries: by the number of components, the
largest first. -/
def sweepOrder (dirs : OrderedSet (List PathComponent)) : List (List PathComponent) :=
  dirs.toList.insertionSort fun p q => q.length ≤ p.length

variable {C : Type*} (decode : C → Option Text)

/-- `uninstall_from_manifest`. -/
def uninstallFromManifest (disk : Disk C) (cwd : List Text) (manifest pre : Text) :
    Except CliError Unit × Disk C :=
  match readToString decode disk cwd manifest with
  | .error e =>
    (.error (.config ("cannot read manifest at ".toList ++ manifest ++ ": ".toList ++
      ioErrorText e)), disk)
  | .ok body =>
    let (disk, dirs) := (manifestPaths body).foldl
      (fun (disk, dirs) path =>
        (removeFile disk cwd path,
          collectParents (pathComponents pre) (pathComponents path).reverse dirs))
      (disk, OrderedSet.empty)
    (.ok (), (sweepOrder dirs).foldl (fun disk dir => removeDir disk cwd dir) disk)

theorem uninstallFromManifest_of_error {disk : Disk C} {cwd : List Text} {manifest : Text}
    {e : IoError} (h : readToString decode disk cwd manifest = .error e) (pre : Text) :
    ∃ e', uninstallFromManifest decode disk cwd manifest pre = (.error e', disk) := by
  rw [uninstallFromManifest, h]
  exact ⟨_, rfl⟩

/-- What is left was there before, whatever the manifest says. -/
theorem adds_uninstallFromManifest {disk : Disk C} {cwd : List Text} {manifest body : Text}
    (h : readToString decode disk cwd manifest = .ok body) (pre : Text) :
    ∃ disk', uninstallFromManifest decode disk cwd manifest pre = (.ok (), disk') ∧
      FileTree.Adds (fun _ => True) disk' disk := by
  have hfiles : ∀ (paths : List Text) (disk : Disk C) (dirs : OrderedSet (List PathComponent)),
      FileTree.Adds (fun _ => True) (paths.foldl
        (fun (disk, dirs) path =>
          (removeFile disk cwd path,
            collectParents (pathComponents pre) (pathComponents path).reverse dirs))
        (disk, dirs)).1 disk := by
    intro paths
    induction paths with
    | nil => exact fun disk _ => FileTree.Adds.refl disk
    | cons path paths ih => exact fun disk dirs => (ih _ _).trans (adds_removeFile disk cwd path)
  have hdirs : ∀ (dirs : List (List PathComponent)) (disk : Disk C),
      FileTree.Adds (fun _ => True) (dirs.foldl (fun disk dir => removeDir disk cwd dir) disk)
        disk := by
    intro dirs
    induction dirs with
    | nil => exact fun disk => FileTree.Adds.refl disk
    | cons dir dirs ih => exact fun disk => (ih _).trans (adds_removeDir disk cwd dir)
  rw [uninstallFromManifest, h]
  exact ⟨_, rfl, (hdirs _ _).trans (hfiles _ disk OrderedSet.empty)⟩

/-! ### Normalized paths -/

/-- A place strictly between the prefix and a listed file. -/
def Between (pre : List Text) (files : List (List Text)) (d : List Text) : Prop :=
  pre <+: d ∧ d ≠ pre ∧ ∃ f ∈ files, d <+: f ∧ d ≠ f

theorem absolute_prefix_iff {p q : List Text} : absolute p <+: absolute q ↔ p <+: q := by
  have hinj : Function.Injective PathComponent.normal := fun _ _ h => PathComponent.normal.inj h
  rw [absolute, absolute, List.cons_prefix_cons, List.prefix_map_iff_of_injective hinj]
  exact and_iff_right rfl

/-- A path is strictly before the end of `f ++ [n]` if it is `f` or strictly before its end. -/
theorem prefix_concat_ne_iff {d f : List Text} {n : Text} :
    d <+: f ++ [n] ∧ d ≠ f ++ [n] ↔ d = f ∨ d <+: f ∧ d ≠ f := by
  rw [List.prefix_concat_iff]
  constructor
  · rintro ⟨h | h, hne⟩
    · exact absurd h hne
    · exact (eq_or_ne d f).imp_right fun hdf => ⟨h, hdf⟩
  · intro h
    have hdf : d <+: f := h.elim (fun h => h ▸ List.prefix_refl f) And.left
    refine ⟨.inr hdf, ?_⟩
    rintro rfl
    have hlen := hdf.length_le
    rw [List.length_append, List.length_singleton] at hlen
    omega

/-- The loop over the parents of a file collects what is between the prefix and the file. -/
theorem mem_collectParents (pre f : List Text) (dirs : OrderedSet (List PathComponent))
    (x : List PathComponent) :
    x ∈ collectParents (absolute pre) (absolute f).reverse dirs ↔
      x ∈ dirs ∨ ∃ d, x = absolute d ∧ pre <+: d ∧ d ≠ pre ∧ d <+: f ∧ d ≠ f := by
  induction f using List.reverseRecOn generalizing dirs with
  | nil =>
    have hstop : collectParents (absolute pre) (absolute []).reverse dirs = dirs := rfl
    rw [hstop, or_iff_left]
    rintro ⟨d, -, -, -, hd, hne⟩
    exact hne (List.prefix_nil.mp hd)
  | append_singleton f n ih =>
    have hrev : (absolute (f ++ [n])).reverse = .normal n :: (absolute f).reverse := by
      simp [absolute]
    rw [hrev, collectParents, if_neg (by simp), List.reverse_reverse]
    simp only [prefix_concat_ne_iff]
    split_ifs with hstop
    · -- the parent is the prefix or not below it, and nothing above it is between
      rw [or_iff_left]
      rintro ⟨d, -, hpd, hne, hdf⟩
      have hdf' : d <+: f := hdf.elim (fun h => h ▸ List.prefix_refl f) And.left
      rcases hstop with h | h
      · rw [absolute_injective h] at hdf'
        exact hne (hpd.eq_of_length_le hdf'.length_le).symm
      · exact h (absolute_prefix_iff.mpr (hpd.trans hdf'))
    · rw [not_or, not_not, absolute_prefix_iff] at hstop
      have hne : f ≠ pre := fun h => hstop.1 (congrArg absolute h)
      rw [ih, OrderedSet.mem_emplace]
      constructor
      · rintro ((rfl | h) | ⟨d, hx, hpd, hdp, hdf⟩)
        · exact .inr ⟨f, rfl, hstop.2, hne, .inl rfl⟩
        · exact .inl h
        · exact .inr ⟨d, hx, hpd, hdp, .inr hdf⟩
      · rintro (h | ⟨d, hx, hpd, hdp, rfl | hdf⟩)
        · exact .inl (.inr h)
        · exact .inl (.inl hx)
        · exact .inr ⟨d, hx, hpd, hdp, hdf⟩

/-- The loop over the lines removes the files and collects what is between the prefix and the
files. -/
theorem foldl_manifestPaths {paths : List Text} {files : List (List Text)}
    (hfiles : List.Forall₂ Normalized paths files) (cwd pre : List Text)
    (dirs : OrderedSet (List PathComponent)) :
    ∃ dirs' : OrderedSet (List PathComponent),
      (∀ x, x ∈ dirs' ↔ x ∈ dirs ∨ ∃ d, x = absolute d ∧ Between pre files d) ∧
      ∀ disk : Disk C,
        paths.foldl
          (fun (disk, dirs) path =>
            (removeFile disk cwd path,
              collectParents (absolute pre) (pathComponents path).reverse dirs))
          (disk, dirs) = (disk.removeFiles files, dirs') := by
  induction hfiles generalizing dirs with
  | nil => exact ⟨dirs, fun x => by simp [Between], fun disk => rfl⟩
  | @cons path f paths files hpath _ ih =>
    obtain ⟨dirs', hmem, hfold⟩ := ih (collectParents (absolute pre) (absolute f).reverse dirs)
    refine ⟨dirs', fun x => ?_, fun disk => ?_⟩
    · rw [hmem, mem_collectParents, or_assoc, ← exists_or]
      simp only [Between, List.mem_cons, exists_eq_or_imp, ← and_or_left]
    · rw [List.foldl_cons]
      simp only [hpath.removeFile_eq, hpath.pathComponents_eq]
      exact hfold (disk.removeFile f)

/-- The names of a path given by its components. -/
def namesOf (path : List PathComponent) : List Text :=
  path.filterMap fun c => match c with
    | .normal name => some name
    | _ => none

@[simp]
theorem namesOf_absolute (names : List Text) : namesOf (absolute names) = names := by
  rw [namesOf, absolute, List.filterMap_cons_none (by rfl), List.filterMap_map]
  exact List.filterMap_some

/-- Removing directories by their absolute paths is sweeping. -/
theorem foldl_removeDir {dirs : List (List PathComponent)} (hdirs : ∀ x ∈ dirs, ∃ d, x = absolute d)
    (disk : Disk C) (cwd : List Text) :
    dirs.foldl (fun disk dir => removeDir disk cwd dir) disk = disk.sweep (dirs.map namesOf) := by
  induction dirs generalizing disk with
  | nil => rfl
  | cons x dirs ih =>
    obtain ⟨d, rfl⟩ := hdirs x List.mem_cons_self
    rw [List.foldl_cons, removeDir_absolute, List.map_cons, namesOf_absolute,
      ih fun y hy => hdirs y (List.mem_cons_of_mem _ hy)]
    rfl

/-- For normalized paths, uninstalling removes the files and sweeps the directories between the
prefix and the files, each before those that contain it. -/
theorem uninstallFromManifest_eq (cwd : List Text) (manifest : Text) {body preText : Text}
    {pre : List Text} {files : List (List Text)} (hpre : Normalized preText pre)
    (hfiles : List.Forall₂ Normalized (manifestPaths body) files) :
    ∃ ds : List (List Text), (∀ d, d ∈ ds ↔ Between pre files d) ∧
      ds.Pairwise (fun a b => ¬ (a <+: b ∧ a ≠ b)) ∧
      ∀ disk : Disk C, readToString decode disk cwd manifest = .ok body →
        uninstallFromManifest decode disk cwd manifest preText =
          (.ok (), (disk.removeFiles files).sweep ds) := by
  obtain ⟨dirs, hmem, hfold⟩ := foldl_manifestPaths (C := C) hfiles cwd pre OrderedSet.empty
  have hmem' : ∀ x, x ∈ sweepOrder dirs ↔ ∃ d, x = absolute d ∧ Between pre files d := by
    intro x
    rw [sweepOrder, List.mem_insertionSort]
    exact (hmem x).trans (or_iff_right List.not_mem_nil)
  refine ⟨(sweepOrder dirs).map namesOf, fun d => ?_, ?_, fun disk hbody => ?_⟩
  · rw [List.mem_map]
    constructor
    · rintro ⟨x, hx, rfl⟩
      obtain ⟨d, rfl, hd⟩ := (hmem' x).mp hx
      rwa [namesOf_absolute]
    · exact fun hd => ⟨absolute d, (hmem' _).mpr ⟨d, rfl, hd⟩, namesOf_absolute d⟩
  · rw [List.pairwise_map]
    have hsorted := List.pairwise_insertionSort
      (fun p q : List PathComponent => q.length ≤ p.length) dirs.toList
    refine hsorted.imp_of_mem fun {x y} hx hy hle => ?_
    obtain ⟨d, rfl, -⟩ := (hmem' x).mp hx
    obtain ⟨e, rfl, -⟩ := (hmem' y).mp hy
    rw [namesOf_absolute, namesOf_absolute]
    rintro ⟨hde, hne⟩
    have hlen : e.length ≤ d.length := by simpa [absolute] using hle
    exact hne (hde.eq_of_length_le hlen)
  · rw [uninstallFromManifest, hbody]
    simp only [hpre.pathComponents_eq, hfold]
    rw [foldl_removeDir fun x hx => ((hmem' x).mp hx).imp fun d hd => hd.1]

/-! ### What is left -/

section Sweeping

variable {disk : Disk C} {pre : List Text} {files ds : List (List Text)}

theorem nil_notMem_of_between (hmem : ∀ d, d ∈ ds ↔ Between pre files d) : [] ∉ ds := by
  intro h
  obtain ⟨hpre, hne, -⟩ := (hmem []).mp h
  exact hne (List.prefix_nil.mp hpre).symm

theorem lookup_removeFiles_listed {f : List Text} (hf : f ∈ files) (hdir : ¬ disk.IsDir f) :
    (disk.removeFiles files).lookup f = none := by
  rw [FileTree.lookup_removeFiles]
  split_ifs with h
  · rfl
  · match hlookup : disk.lookup f with
    | none => rfl
    | some .dir => exact absurd hlookup hdir
    | some (.file c) => exact absurd ⟨hf, c, hlookup⟩ h

theorem lookup_removeFiles_unlisted (disk : Disk C) {q : List Text} (hq : q ∉ files) :
    (disk.removeFiles files).lookup q = disk.lookup q := by
  rw [FileTree.lookup_removeFiles, if_neg fun h => hq h.1]

theorem lookup_removeFiles_dir (files : List (List Text)) {q : List Text} (hq : disk.IsDir q) :
    (disk.removeFiles files).lookup q = some .dir := by
  rw [FileTree.lookup_removeFiles, if_neg]
  · exact hq
  · rintro ⟨-, c, hc⟩
    rw [FileTree.IsDir, hc] at hq
    cases hq

/-- Whether a directory between is swept depends on what is below it at first. -/
theorem sweepable_iff (hmem : ∀ d, d ∈ ds ↔ Between pre files d) {d : List Text}
    (hd : Between pre files d) (hdir : disk.IsDir d) :
    (disk.removeFiles files).Sweepable ds d ↔ ∀ q, d <+: q → q ≠ d →
      (disk.IsFile q → q ∈ files) ∧ (disk.IsDir q → ∃ f ∈ files, q <+: f ∧ q ≠ f) := by
  constructor
  · intro h q hdq _
    constructor
    · rintro ⟨c, hc⟩
      by_contra hq
      have hsame := lookup_removeFiles_unlisted disk hq
      have hswept := (h q hdq (by rw [hsame, hc]; simp)).2
      rw [FileTree.IsDir, hsame, hc] at hswept
      cases hswept
    · intro hq
      have hdir' := lookup_removeFiles_dir files hq
      exact ((hmem q).mp (h q hdq (by rw [hdir']; simp)).1).2.2
  · intro h q hdq hq
    match hlookup : disk.lookup q with
    | none =>
      rw [FileTree.lookup_removeFiles, hlookup, ite_self] at hq
      exact absurd rfl hq
    | some (.file c) =>
      have hne : q ≠ d := by
        rintro rfl
        rw [FileTree.IsDir, hlookup] at hdir
        cases hdir
      have hlisted := (h q hdq hne).1 ⟨c, hlookup⟩
      rw [FileTree.lookup_removeFiles, if_pos ⟨hlisted, c, hlookup⟩] at hq
      exact absurd rfl hq
    | some .dir =>
      refine ⟨(hmem q).mpr ?_, lookup_removeFiles_dir files hlookup⟩
      by_cases hne : q = d
      · rwa [hne]
      · refine ⟨hd.1.trans hdq, ?_, (h q hdq hne).2 hlookup⟩
        rintro rfl
        exact hd.2.1 (hdq.eq_of_length_le hd.1.length_le)

theorem lookup_sweep_removeFiles (hroot : [] ∉ ds)
    (horder : ds.Pairwise fun a b => ¬ (a <+: b ∧ a ≠ b)) (p : List Text) :
    ((disk.removeFiles files).sweep ds).lookup p = none ∨
      ((disk.removeFiles files).sweep ds).lookup p = disk.lookup p := by
  by_cases h : (disk.removeFiles files).Sweepable ds p
  · exact .inl (((disk.removeFiles files).lookup_sweep hroot horder p).1 h)
  · rw [((disk.removeFiles files).lookup_sweep hroot horder p).2 h, FileTree.lookup_removeFiles]
    split_ifs
    · exact .inl rfl
    · exact .inr rfl

theorem lookup_uninstallFromManifest_again {cwd : List Text} {manifest body preText : Text}
    {after : Disk C} (hroot : [] ∉ ds) (horder : ds.Pairwise fun a b => ¬ (a <+: b ∧ a ≠ b))
    (hbody : readToString decode disk cwd manifest = .ok body)
    (hlisted : ∀ f ∈ files, after.lookup f = none)
    (hafter : after = (disk.removeFiles files).sweep ds)
    (hrun : ∀ disk : Disk C, readToString decode disk cwd manifest = .ok body →
      uninstallFromManifest decode disk cwd manifest preText =
        (.ok (), (disk.removeFiles files).sweep ds)) (p : List Text) :
    (uninstallFromManifest decode after cwd manifest preText).2.lookup p = after.lookup p := by
  match hread : readToString decode after cwd manifest with
  | .error e =>
    obtain ⟨e', hagain⟩ := uninstallFromManifest_of_error decode hread preText
    rw [hagain]
  | .ok body' =>
    -- the manifest is still there, and its contents are the same
    have hbody' : readToString decode disk cwd manifest = .ok body' := by
      refine readToString_of_subtree (fun q => ?_) hread
      rw [hafter]
      exact lookup_sweep_removeFiles hroot horder q
    obtain rfl : body = body' := Except.ok.inj (hbody.symm.trans hbody')
    rw [hrun after hread, after.removeFiles_eq_self hlisted, hafter]
    exact FileTree.lookup_sweep_sweep _ hroot horder p

end Sweeping

/-- Uninstalling removes exactly what was installed, if no listed path ends in white space. No
listed file is left, every other file and the prefix are as they were, and a directory between the
prefix and a listed file is removed if and only if everything below it was listed or led to
something listed. No other directory is removed. Uninstalling once more changes nothing, even if the
manifest was removed as well. -/
theorem uninstall_removes_own_tree (disk : Disk C) (cwd : List Text)
    {manifest preText : Text} {paths : List Text} {ended : Bool} {pre : List Text}
    {files : List (List Text)}
    (hbody : readToString decode disk cwd manifest = .ok (manifestText paths ended))
    (hlines : ∀ path ∈ paths, OneLine path) (hpre : Normalized preText pre)
    (hfiles : List.Forall₂ Normalized paths files)
    (hunder : ∀ f ∈ files, pre <+: f ∧ f ≠ pre ∧ ¬ disk.IsDir f) :
    let run := fun disk : Disk C => uninstallFromManifest decode disk cwd manifest preText
    let after := (run disk).2
    (run disk).1 = .ok () ∧
      (∀ f ∈ files, after.lookup f = none) ∧
      (∀ q c, q ∉ files → disk.lookup q = some (.file c) → after.lookup q = some (.file c)) ∧
      after.lookup pre = disk.lookup pre ∧
      (∀ d, Between pre files d → disk.IsDir d →
        (after.lookup d = none ↔ ∀ q, d <+: q → q ≠ d →
          (disk.IsFile q → q ∈ files) ∧ (disk.IsDir q → ∃ f ∈ files, q <+: f ∧ q ≠ f))) ∧
      (∀ d, ¬ Between pre files d → disk.IsDir d → after.IsDir d) ∧
      ∀ p, (run after).2.lookup p = after.lookup p := by
  obtain ⟨ds, hmem, horder, hrun⟩ := uninstallFromManifest_eq decode cwd manifest hpre
    ((manifestPaths_manifestText hfiles hlines ended).symm ▸ hfiles)
  have hroot := nil_notMem_of_between hmem
  have hsweep := (disk.removeFiles files).lookup_sweep hroot horder
  intro run after
  have hafter : after = (disk.removeFiles files).sweep ds := congrArg Prod.snd (hrun disk hbody)
  have hlisted : ∀ f ∈ files, after.lookup f = none := by
    intro f hf
    have hnone := lookup_removeFiles_listed hf (hunder f hf).2.2
    rw [hafter]
    exact (hsweep f).1 (FileTree.sweepable_of_lookup_eq_none _ hnone ds)
  have hother : ∀ q, q ∉ files → ¬ Between pre files q → after.lookup q = disk.lookup q := by
    intro q hq hbetween
    rw [hafter, FileTree.lookup_sweep_of_notMem _ hroot horder (mt (hmem q).mp hbetween),
      lookup_removeFiles_unlisted disk hq]
  refine ⟨congrArg Prod.fst (hrun disk hbody), hlisted, ?_, ?_, ?_, ?_, ?_⟩
  · intro q c hq hc
    have hfile : (disk.removeFiles files).lookup q = some (.file c) :=
      (lookup_removeFiles_unlisted disk hq).trans hc
    rw [hafter, (hsweep q).2, hfile]
    intro h
    have hdir := (h q (List.prefix_refl q) (by rw [hfile]; simp)).2
    rw [FileTree.IsDir, hfile] at hdir
    cases hdir
  · exact hother pre (fun h => (hunder pre h).2.1 rfl) fun h => h.2.1 rfl
  · intro d hd hdir
    rw [← sweepable_iff hmem hd hdir, hafter]
    refine ⟨fun hnone => ?_, (hsweep d).1⟩
    by_contra h
    rw [(hsweep d).2 h, lookup_removeFiles_dir files hdir] at hnone
    cases hnone
  · intro d hd hdir
    exact (hother d (fun h => (hunder d h).2.2 hdir) hd).trans hdir
  · intro p
    exact lookup_uninstallFromManifest_again decode hroot horder hbody hlisted hafter hrun p

/-- A file is removed with its directory, and the file next to the directory stays. -/
theorem uninstall_removes_own_tree_lib :
    let disk : Disk Text := FileTree.empty
      |>.put ["m".toList] (.file "/usr/lib/a\n".toList)
      |>.put ["usr".toList] .dir
      |>.put ["usr".toList, "lib".toList] .dir
      |>.put ["usr".toList, "lib".toList, "a".toList] (.file [])
      |>.put ["usr".toList, "b".toList] (.file [])
    let run := fun disk : Disk Text =>
      uninstallFromManifest some disk [] "/m".toList "/usr".toList
    let after := (run disk).2
    after.lookup ["usr".toList, "lib".toList, "a".toList] = none ∧
      after.lookup ["usr".toList, "b".toList] = some (.file []) ∧
      after.lookup ["usr".toList] = some .dir ∧
      ∀ p, (run after).2.lookup p = after.lookup p := by
  intro disk run after
  have hfiles : List.Forall₂ Normalized ["/usr/lib/a".toList]
      [["usr".toList, "lib".toList, "a".toList]] :=
    .cons ⟨by decide, by decide⟩ .nil
  have hbody : readToString some disk [] "/m".toList =
      .ok (manifestText ["/usr/lib/a".toList] true) := by decide
  have hpre : Normalized "/usr".toList ["usr".toList] := ⟨by decide, by decide⟩
  obtain ⟨-, hlisted, hfile, hpre, -, -, hagain⟩ :=
    uninstall_removes_own_tree some disk [] hbody (by decide) hpre hfiles (by decide)
  exact ⟨hlisted _ (by decide), hfile _ [] (by decide) (by decide), hpre, hagain⟩

/-- The manifest lists a file whose name ends in a space. The file is left, and the one with the
trimmed name is removed, which is not listed. -/
theorem not_uninstall_removes_own_tree :
    let listed := ["usr".toList, "a ".toList]
    let disk : Disk Text := FileTree.empty
      |>.put ["m".toList] (.file (manifestText ["/usr/a ".toList] true))
      |>.put ["usr".toList] .dir
      |>.put listed (.file [])
      |>.put ["usr".toList, "a".toList] (.file [])
    let after := (uninstallFromManifest some disk [] "/m".toList "/usr".toList).2
    Normalized "/usr/a ".toList listed ∧ after.lookup listed = some (.file []) ∧
      after.lookup ["usr".toList, "a".toList] = none := by
  refine ⟨⟨by decide, by decide⟩, by decide, by decide⟩

end Beethoven.Cli
