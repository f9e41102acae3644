import Beethoven.Cli.Uninstall

/-!
# Updating the library

The command `update` removes the library and installs it anew (`cli/src/commands/update.rs`). The
removal takes the files of the manifest, the manifest and the entries of the package registry that
point into the prefix (`uninstall.rs`, `cli/src/tools/cmake.rs`). The installation first checks the
option `--from` and the tools, then clones, configures and builds, and only then installs
(`setup.rs`). Everything up to the installation happens in a scratch directory of its own, which is
not part of the files here; what the external programs answer is given.

An error before the removal leaves everything as it was. After it, whatever has been removed is
gone.
-/

namespace Beethoven.Cli

open Lib

/-! ### The steps -/

/-- What the external programs answer, and what installing does to the files. -/
structure Tools (C : Type*) where
  /-- `which::which`. -/
  which : Text → Bool
  /-- `dirs::home_dir`. -/
  home : Option Text
  /-- Reading the directory of the registry fails. -/
  readRegistry : Option IoError
  /-- The scratch directory, or why it cannot be created. -/
  tempdir : Except Text Text
  clone : Except CliError Unit
  refExists : Text → Bool
  checkout : Text → Except CliError Unit
  configure : Except CliError Unit
  build : Except CliError Unit
  install : Disk C → Except CliError Unit × Disk C
  /-- The manifest that installing leaves in the scratch directory. -/
  buildManifest : Except IoError C
  currentBranch : Option Text
  /-- `toml::to_string_pretty`. -/
  serialize : UserConfig → Option Text

/-- The options of `update`. The number of jobs is only passed on. -/
structure UpdateArgs where
  gitRef : Option Text
  fromPath : Option Text
  deriving DecidableEq, Repr

section Steps

variable {C : Type*} (env : Env C) (tools : Tools C)

/-- `env::manifest_path`. -/
def manifestPath : Except CliError Text :=
  match env.configDir with
  | none => .error (.config "cannot resolve config dir; set $XDG_CONFIG_HOME or $HOME".toList)
  | some dir =>
    .ok (joinPath (joinPath dir "beethoven".toList) "install_manifest.txt".toList)

/-- The path of the package registry. -/
def registryPath : Option Text :=
  tools.home.map fun home => joinPath home ".cmake/packages/beethoven".toList

/-- The directory of the package registry, if it is there. -/
def registryDir (disk : Disk C) : Option (List Text) :=
  match registryPath tools with
  | none => none
  | some path =>
    match resolve disk env.cwd path with
    | .error _ => none
    | .ok dir => if disk.IsDir dir then some dir else none

/-- An entry of the registry is a text that points into the prefix. -/
def pointsInto (pre : Text) (disk : Disk C) (entry : List Text) : Bool :=
  match disk.lookup entry with
  | some (.file c) =>
    match env.decode c with
    | some content => decide (pathComponents pre <+: pathComponents (trim content))
    | none => false
  | _ => false

/-- The loop over the entries of the registry. -/
def sweepRegistry (pre : Text) (disk : Disk C) (entries : List (List Text)) : Disk C :=
  entries.foldl (fun disk entry =>
    if pointsInto env pre disk entry then disk.removeFile entry else disk) disk

/-- `remove_registry_entries_for`. -/
def removeRegistryEntriesFor (pre : Text) (disk : Disk C) : Except CliError Unit × Disk C :=
  match registryDir env tools disk with
  | none => (.ok (), disk)
  | some dir =>
    match tools.readRegistry with
    | some e =>
      (.error (.config ("cannot read ".toList ++ (registryPath tools).getD [] ++ ": ".toList ++
        ioErrorText e)), disk)
    | none =>
      let entries := disk.entries.keys.filter fun q => q ≠ [] ∧ q.dropLast = dir
      (.ok (), (sweepRegistry env pre disk entries).removeDir dir)

/-- `do_uninstall`, as `update` calls it: the configuration and the cache are left alone. -/
def doUninstall (pre : Text) (disk : Disk C) : Except CliError Unit × Disk C :=
  match manifestPath env with
  | .error e => (.error e, disk)
  | .ok manifest =>
    andThen
      (if isFile disk env.cwd manifest then
        andThen (uninstallFromManifest env.decode disk env.cwd manifest pre)
          fun disk => (.ok (), removeFile disk env.cwd manifest)
      else (.ok (), disk))
      (removeRegistryEntriesFor env tools pre)

/-- `validate_from_path`. -/
def validateFromPath (path : Text) (disk : Disk C) : Except CliError Unit :=
  let marker := joinPath (joinPath path "libbeethoven".toList) "CMakeLists.txt".toList
  if isFile disk env.cwd marker then .ok ()
  else .error (.config
    ("--from path doesn't look like a Beethoven-Software clone: missing ".toList ++ marker))

/-- `exec::require_tool`. -/
def requireTool (name : String) (hint : Option String) : Except CliError Unit :=
  if tools.which name.toList then .ok ()
  else .error (.missingTool name.toList (hint.map String.toList))

/-- `pre_flight`. -/
def preFlight (fromPath : Option Text) : Except CliError Unit := do
  if fromPath = none then
    requireTool tools "git" (some "install via your package manager")
  requireTool tools "cmake" (some "install via your package manager (cmake ≥ 3.16)")
  if !tools.which "g++".toList && !tools.which "clang++".toList then
    .error (.missingTool "g++ or clang++".toList
      (some "install build-essential / xcode-select / similar".toList))

/-- `do_setup`, up to the installation: the result is the scratch directory. -/
def prepareSetup (gitRef fromPath : Option Text) (disk : Disk C) : Except CliError Text := do
  if let some path := fromPath then
    validateFromPath env path disk
  preFlight tools fromPath
  match tools.tempdir with
  | .error e => .error (.config ("cannot create scratch tempdir: ".toList ++ e))
  | .ok scratch =>
    if fromPath = none then
      tools.clone
      if let some r := gitRef then
        if tools.refExists r then tools.checkout r
    tools.configure
    tools.build
    return scratch

/-- Create the directory that a file is written into. -/
def makeParent (context : String) (path : Text) (disk : Disk C) : Except CliError Unit × Disk C :=
  orConfig (fun e => context.toList ++ parentText path ++ ": ".toList ++ e)
    (createDirAll env.faults env.cwd (pathComponents path).reverse.tail disk)

/-- `copy_manifest`. -/
def copyManifest (scratch dst : Text) (disk : Disk C) : Except CliError Unit × Disk C :=
  let src := joinPath (joinPath scratch "build".toList) "install_manifest.txt".toList
  let describe := fun e => "cannot copy install manifest from ".toList ++ src ++ " to ".toList ++
    dst ++ ": ".toList ++ e
  andThen (makeParent env "cannot create manifest dir " dst disk) fun disk =>
    match tools.buildManifest with
    | .error e => (.error (.config (describe (ioErrorText e))), disk)
    | .ok content => orConfig describe (writeFile env.faults disk env.cwd dst content)

/-- `persist_config`. -/
def persistConfig (pre gitRef : Text) (disk : Disk C) : Except CliError Unit × Disk C :=
  match UserConfig.load env disk, UserConfig.path env with
  | .error e, _ => (.error e, disk)
  | .ok _, .error e => (.error e, disk)
  | .ok cfg, .ok path =>
    andThen (makeParent env "cannot create config dir " path disk) fun disk =>
      match tools.serialize { cfg with installPrefix := some pre, gitRef := some gitRef } with
      | none => (.error .other, disk)
      | some body =>
        orConfig (fun e => "cannot write user config to ".toList ++ path ++ ": ".toList ++ e)
          (writeFile env.faults disk env.cwd path (env.encode body))

/-- `do_setup`. -/
def doSetup (pre : Text) (gitRef fromPath : Option Text) (disk : Disk C) :
    Except CliError Unit × Disk C :=
  match prepareSetup env tools gitRef fromPath disk with
  | .error e => (.error e, disk)
  | .ok scratch =>
    andThen (tools.install disk) fun disk =>
      match manifestPath env with
      | .error e => (.error e, disk)
      | .ok dst =>
        andThen (copyManifest env tools scratch dst disk)
          (persistConfig env tools pre (tools.currentBranch.getD (gitRef.getD "master".toList)))

/-- The prefix and the branch that `update` takes from the configuration. -/
def updatePlan (args : UpdateArgs) (disk : Disk C) : Except CliError (Text × Option Text) :=
  match UserConfig.load env disk with
  | .error e => .error e
  | .ok cfg =>
    match cfg.installPrefix with
    | none =>
      .error (.config ("update needs `setup` to have been run first " ++
        "(no install prefix recorded)").toList)
    | some pre => .ok (pre, args.gitRef.orElse fun _ => cfg.gitRef)

/-- `update::run`. -/
def Update.run (args : UpdateArgs) (disk : Disk C) : Except CliError Unit × Disk C :=
  match updatePlan env args disk with
  | .error e => (.error e, disk)
  | .ok (pre, gitRef) =>
    andThen (doUninstall env tools pre disk) (doSetup env tools pre gitRef args.fromPath)

end Steps

/-! ### What a failed update is expected to keep -/

section Failure

variable {C : Type*} (env : Env C) (tools : Tools C) (args : UpdateArgs) (disk : Disk C)

/-- The manifest, the files that it records and the entries of the registry, if the directory of the
registry exists before the update; an update may create the directory with its entries. -/
def Protected (p : List Text) : Prop :=
  (∃ manifest, manifestPath env = .ok manifest ∧
    (resolve disk env.cwd manifest = .ok p ∨
      ∃ body, readToString env.decode disk env.cwd manifest = .ok body ∧
        ∃ path ∈ manifestPaths body, resolve disk env.cwd path = .ok p)) ∨
    ∃ dir, registryDir env tools disk = some dir ∧ ∃ name, p = dir ++ [name]

/-- Everything that is protected is as it was. -/
def Kept (disk' : Disk C) : Prop :=
  ∀ p, Protected env tools disk p → disk'.lookup p = disk.lookup p

/-- The update stops before it removes anything, or there is nothing that it would remove: no
manifest and no entry of the registry that points into the prefix. -/
def NothingToRemove : Prop :=
  ∀ pre gitRef manifest, updatePlan env args disk = .ok (pre, gitRef) →
    manifestPath env = .ok manifest →
    if isFile disk env.cwd manifest then
      ∃ e, readToString env.decode disk env.cwd manifest = .error e
    else tools.readRegistry = none → ∀ dir, registryDir env tools disk = some dir →
      ∀ name, pointsInto env pre disk (dir ++ [name]) = false

/-- If the update gets as far as installing, then installing fails and leaves alone what is
protected. -/
def FailsUpToInstall : Prop :=
  ∀ pre gitRef disk' scratch, updatePlan env args disk = .ok (pre, gitRef) →
    doUninstall env tools pre disk = (.ok (), disk') →
    prepareSetup env tools gitRef args.fromPath disk' = .ok scratch →
    (∃ e, (tools.install disk').1 = .error e) ∧
      ∀ p, Protected env tools disk p → (tools.install disk').2.lookup p = disk'.lookup p

variable {env tools args disk}

/-! ### The registry -/

theorem pointsInto_congr {pre : Text} {disk disk' : Disk C} {entry : List Text}
    (h : disk'.lookup entry = disk.lookup entry) :
    pointsInto env pre disk' entry = pointsInto env pre disk entry := by
  rw [pointsInto, pointsInto, h]

theorem isFile_of_pointsInto {pre : Text} {entry : List Text}
    (h : pointsInto env pre disk entry = true) : disk.IsFile entry := by
  rw [pointsInto] at h
  split at h
  next c hc => exact ⟨c, hc⟩
  next => cases h

theorem lookup_sweepRegistry (pre : Text) (disk : Disk C) (entries : List (List Text))
    (q : List Text) :
    (sweepRegistry env pre disk entries).lookup q =
      if q ∈ entries ∧ pointsInto env pre disk q = true then none else disk.lookup q := by
  induction entries generalizing disk with
  | nil => simp [sweepRegistry]
  | cons entry entries ih =>
    have hcons : sweepRegistry env pre disk (entry :: entries) =
        sweepRegistry env pre
          (if pointsInto env pre disk entry then disk.removeFile entry else disk) entries := rfl
    rw [hcons, ih]
    by_cases hq : q = entry ∧ pointsInto env pre disk entry = true
    · obtain ⟨rfl, hpoints⟩ := hq
      have hnone : (disk.removeFile q).lookup q = none := by
        rw [FileTree.lookup_removeFile, if_pos ⟨rfl, isFile_of_pointsInto hpoints⟩]
      rw [if_pos hpoints, hnone, ite_self, if_pos ⟨List.mem_cons_self, hpoints⟩]
    · have hsame :
          (if pointsInto env pre disk entry then disk.removeFile entry else disk).lookup q =
            disk.lookup q := by
        split_ifs with hpoints
        · rw [FileTree.lookup_removeFile, if_neg fun h => hq ⟨h.1, hpoints⟩]
        · rfl
      rw [hsame, pointsInto_congr hsame]
      congr 1
      rw [List.mem_cons, eq_iff_iff, and_congr_left_iff]
      intro hpoints
      refine ⟨.inr, fun h => h.resolve_left ?_⟩
      rintro rfl
      exact hq ⟨rfl, hpoints⟩

theorem registryDir_eq_some {dir : List Text} (h : registryDir env tools disk = some dir) :
    disk.IsDir dir ∧ ∃ r, dir = r ++ ["beethoven".toList] := by
  rw [registryDir] at h
  split at h
  next => cases h
  next path hpath =>
    split at h
    next => cases h
    next p hp =>
      split_ifs at h with hdir
      obtain rfl := Option.some.inj h
      refine ⟨hdir, ?_⟩
      obtain ⟨home, -, rfl⟩ := Option.map_eq_some_iff.mp hpath
      have hrelative : ".cmake/packages/beethoven".toList.head? ≠ some '/' := by decide
      have hnames : osComponents ".cmake/packages/beethoven".toList =
          [.name ".cmake".toList, .name "packages".toList] ++ [.name "beethoven".toList] := by
        decide
      obtain ⟨cs, hjoin, -⟩ := osComponents_joinPath home hrelative
      rw [resolve, hjoin, hnames, ← List.append_assoc] at hp
      obtain ⟨r, -, -, hr⟩ := disk.walk_concat_name hp
      exact ⟨r, hr⟩

theorem lookup_removeRegistryEntriesFor {dir : List Text}
    (hdir : registryDir env tools disk = some dir) (hread : tools.readRegistry = none) (pre : Text)
    {q : List Text} (hq : q ≠ dir) :
    (removeRegistryEntriesFor env tools pre disk).2.lookup q =
      if (q ≠ [] ∧ q.dropLast = dir) ∧ pointsInto env pre disk q = true then none
      else disk.lookup q := by
  have hmem : ∀ hpoints : pointsInto env pre disk q = true, q ∈ disk.entries.keys := by
    intro hpoints
    obtain ⟨c, hc⟩ := isFile_of_pointsInto hpoints
    exact AList.mem_keys.mp (disk.mem_entries_iff.mpr (by rw [hc]; simp))
  rw [removeRegistryEntriesFor, hdir, hread]
  simp only
  rw [FileTree.lookup_removeDir, if_neg fun h => hq h.1, lookup_sweepRegistry]
  congr 1
  rw [List.mem_filter, decide_eq_true_eq, eq_iff_iff, and_congr_left_iff]
  exact fun hpoints => and_iff_right (hmem hpoints)

theorem adds_removeRegistryEntriesFor (pre : Text) (disk : Disk C) :
    FileTree.Adds (fun _ => True) (removeRegistryEntriesFor env tools pre disk).2 disk := by
  rw [removeRegistryEntriesFor]
  split
  next => exact FileTree.Adds.refl disk
  next dir _ =>
    split
    next => exact FileTree.Adds.refl disk
    next =>
      refine ((FileTree.Adds.of_removeDir _ dir).mono fun _ _ => trivial).trans fun q => ?_
      rw [lookup_sweepRegistry]
      split_ifs
      · exact .inr ⟨rfl, trivial⟩
      · exact .inl rfl

/-! ### Failing updates -/

theorem run_of_plan_error {e : CliError} (h : updatePlan env args disk = .error e) :
    Update.run env tools args disk = (.error e, disk) := by
  rw [Update.run, h]

/-- Behind the removal, a failing update changes nothing that is protected. -/
theorem lookup_run {pre : Text} {gitRef : Option Text}
    (hplan : updatePlan env args disk = .ok (pre, gitRef))
    (hinstall : FailsUpToInstall env tools args disk) :
    (∃ e, (Update.run env tools args disk).1 = .error e) ∧
      ∀ p, Protected env tools disk p →
        (Update.run env tools args disk).2.lookup p =
          (doUninstall env tools pre disk).2.lookup p := by
  have hrun : Update.run env tools args disk =
      andThen (doUninstall env tools pre disk) (doSetup env tools pre gitRef args.fromPath) := by
    rw [Update.run, hplan]
  rw [hrun]
  match huninstall : doUninstall env tools pre disk with
  | (.error e, disk') => exact ⟨⟨e, rfl⟩, fun p _ => rfl⟩
  | (.ok (), disk') =>
    rw [andThen_ok, doSetup]
    match hprepare : prepareSetup env tools gitRef args.fromPath disk' with
    | .error e => exact ⟨⟨e, rfl⟩, fun p _ => rfl⟩
    | .ok scratch =>
      obtain ⟨⟨e, he⟩, hkept⟩ := hinstall pre gitRef disk' scratch hplan huninstall hprepare
      match hresult : tools.install disk' with
      | (.ok (), disk'') =>
        rw [hresult] at he
        cases he
      | (.error e, disk'') =>
        rw [hresult] at hkept
        exact ⟨⟨e, rfl⟩, hkept⟩

/-- If there is no manifest, then the removal is that of the entries of the registry. -/
theorem doUninstall_of_not_isFile {manifest : Text} (hmanifest : manifestPath env = .ok manifest)
    (hfile : isFile disk env.cwd manifest = false) (pre : Text) :
    doUninstall env tools pre disk = removeRegistryEntriesFor env tools pre disk := by
  rw [doUninstall, hmanifest]
  simp only [hfile, Bool.false_eq_true, if_false, andThen_ok]

theorem manifest_name {manifest : Text} (hmanifest : manifestPath env = .ok manifest)
    {p : List Text} (hp : resolve disk env.cwd manifest = .ok p) :
    ∃ r, p = r ++ ["install_manifest.txt".toList] := by
  rw [manifestPath] at hmanifest
  split at hmanifest
  next => cases hmanifest
  next dir _ =>
    obtain rfl := Except.ok.inj hmanifest
    have hplain : Plain "install_manifest.txt".toList := by decide
    obtain ⟨r, -, -, hr⟩ := hplain.resolve_joinPath hp
    exact ⟨r, hr⟩

theorem isFile_of_readToString {path body : Text}
    (h : readToString env.decode disk env.cwd path = .ok body) :
    isFile disk env.cwd path = true := by
  rw [readToString] at h
  rw [isFile]
  split at h
  next => cases h
  next p hp =>
    rw [hp]
    split at h
    next => cases h
    next => cases h
    next c hc => exact decide_eq_true ⟨c, hc⟩

/-- If there is no manifest, then nothing that is protected is the directory of the registry. -/
theorem ne_registryDir_of_protected {manifest : Text} (hmanifest : manifestPath env = .ok manifest)
    (hfile : isFile disk env.cwd manifest = false) {dir p : List Text}
    (hdir : registryDir env tools disk = some dir) (hp : Protected env tools disk p) : p ≠ dir := by
  obtain ⟨-, r, hr⟩ := registryDir_eq_some hdir
  rcases hp with ⟨manifest', hmanifest', hp⟩ | ⟨dir', hdir', name, rfl⟩
  · obtain rfl : manifest = manifest' := Except.ok.inj (hmanifest.symm.trans hmanifest')
    rcases hp with hp | ⟨body, hbody, -⟩
    · -- the last names differ
      obtain ⟨r', rfl⟩ := manifest_name hmanifest hp
      rw [hr]
      intro h
      exact absurd (List.append_inj_right' h rfl) (by decide)
    · rw [isFile_of_readToString hbody] at hfile
      cases hfile
  · obtain rfl : dir = dir' := Option.some.inj (hdir.symm.trans hdir')
    simp

/-- Nothing that is protected is removed if there is nothing to remove. -/
theorem kept_doUninstall {pre : Text} {gitRef : Option Text}
    (hplan : updatePlan env args disk = .ok (pre, gitRef))
    (h : NothingToRemove env tools args disk) :
    Kept env tools disk (doUninstall env tools pre disk).2 := by
  match hmanifest : manifestPath env with
  | .error e =>
    rw [doUninstall, hmanifest]
    exact fun p _ => rfl
  | .ok manifest =>
    have h' := h pre gitRef manifest hplan hmanifest
    match hfile : isFile disk env.cwd manifest with
    | true =>
      rw [if_pos hfile] at h'
      obtain ⟨e, he⟩ := h'
      obtain ⟨e', huninstall⟩ := uninstallFromManifest_of_error env.decode he pre
      rw [doUninstall, hmanifest]
      simp only [hfile, if_true, huninstall, andThen_error]
      exact fun p _ => rfl
    | false =>
      rw [if_neg (by simp [hfile])] at h'
      rw [doUninstall_of_not_isFile hmanifest hfile]
      intro p hp
      match hdir : registryDir env tools disk, hread : tools.readRegistry with
      | none, _ => rw [removeRegistryEntriesFor, hdir]
      | some dir, some e => rw [removeRegistryEntriesFor, hdir, hread]
      | some dir, none =>
        have hne := ne_registryDir_of_protected hmanifest hfile hdir hp
        rw [lookup_removeRegistryEntriesFor hdir hread pre hne, if_neg]
        rintro ⟨⟨hnil, hdrop⟩, hpoints⟩
        have hname := h' hread dir hdir (p.getLast hnil)
        rw [← hdrop, List.dropLast_append_getLast] at hname
        rw [hname] at hpoints
        cases hpoints

theorem lookup_doUninstall_manifest {manifest body : Text}
    (hmanifest : manifestPath env = .ok manifest)
    (hbody : readToString env.decode disk env.cwd manifest = .ok body) {names : List Text}
    (hnames : Normalized manifest names) (hfile : disk.IsFile names) (pre : Text) :
    (doUninstall env tools pre disk).2.lookup names = none := by
  obtain ⟨disk', huninstall, hadds⟩ := adds_uninstallFromManifest env.decode hbody pre
  have hremoved : (disk'.removeFile names).lookup names = none := by
    rw [FileTree.lookup_removeFile]
    split_ifs with h
    · rfl
    · obtain ⟨c, hc⟩ := hfile
      rcases hadds names with hsame | ⟨hnone, -⟩
      · exact absurd ⟨rfl, c, hsame ▸ hc⟩ h
      · exact hnone
  rw [doUninstall, hmanifest]
  simp only [isFile_of_readToString hbody, if_true, huninstall, andThen_ok, hnames.removeFile_eq]
  have hentries : FileTree.Adds _
      (removeRegistryEntriesFor env tools pre (disk'.removeFile names)).2
      (disk'.removeFile names) := adds_removeRegistryEntriesFor pre _
  rcases hentries names with hsame | ⟨hnone, -⟩
  · rw [← hsame, hremoved]
  · exact hnone

/-- If everything that is protected is kept, then there was nothing to remove. -/
theorem nothingToRemove_of_kept {pre : Text} {gitRef : Option Text}
    (hplan : updatePlan env args disk = .ok (pre, gitRef))
    (hnormalized : ∀ manifest, manifestPath env = .ok manifest → ∃ names, Normalized manifest names)
    (h : Kept env tools disk (doUninstall env tools pre disk).2) :
    NothingToRemove env tools args disk := by
  intro pre' gitRef' manifest hplan' hmanifest
  obtain ⟨rfl, -⟩ := Prod.mk.inj (Except.ok.inj (hplan.symm.trans hplan'))
  obtain ⟨names, hnames⟩ := hnormalized manifest hmanifest
  split_ifs with hfile
  · match hread : readToString env.decode disk env.cwd manifest with
    | .error e => exact ⟨e, rfl⟩
    | .ok body =>
      obtain ⟨hresolve, c, hc⟩ := hnames.of_isFile hfile
      have hkept := h names (.inl ⟨manifest, hmanifest, .inl hresolve⟩)
      rw [lookup_doUninstall_manifest hmanifest hread hnames ⟨c, hc⟩, hc] at hkept
      cases hkept
  · intro hread dir hdir name
    rw [doUninstall_of_not_isFile hmanifest (by simpa using hfile)] at h
    by_contra hpoints
    rw [Bool.not_eq_false] at hpoints
    have hkept := h (dir ++ [name]) (.inr ⟨dir, hdir, name, rfl⟩)
    rw [lookup_removeRegistryEntriesFor hdir hread pre (by simp),
      if_pos ⟨⟨by simp, List.dropLast_concat⟩, hpoints⟩] at hkept
    obtain ⟨c, hc⟩ := isFile_of_pointsInto hpoints
    rw [hc] at hkept
    cases hkept

/-- A failed update keeps the manifest, the files that it records and the entries of the registry if
it stops before the removal or if there is nothing to remove; for a manifest with a normalized path,
only then. -/
theorem update_keeps_install (env : Env C) (tools : Tools C) (args : UpdateArgs) (disk : Disk C)
    (hinstall : FailsUpToInstall env tools args disk) :
    let result := Update.run env tools args disk
    (∃ e, result.1 = .error e) ∧
      (NothingToRemove env tools args disk → Kept env tools disk result.2) ∧
      ((∀ manifest, manifestPath env = .ok manifest → ∃ names, Normalized manifest names) →
        Kept env tools disk result.2 → NothingToRemove env tools args disk) := by
  intro result
  match hplan : updatePlan env args disk with
  | .error e =>
    have hresult : result = (.error e, disk) := run_of_plan_error hplan
    rw [hresult]
    refine ⟨⟨e, rfl⟩, fun _ _ _ => rfl, fun _ _ pre gitRef manifest hplan' => ?_⟩
    rw [hplan] at hplan'
    cases hplan'
  | .ok (pre, gitRef) =>
    obtain ⟨herror, hsame⟩ := lookup_run hplan hinstall
    refine ⟨herror, fun h p hp => ?_, fun hnormalized h => ?_⟩
    · rw [hsame p hp]
      exact kept_doUninstall hplan h p hp
    · refine nothingToRemove_of_kept hplan hnormalized fun p hp => ?_
      rw [← hsame p hp]
      exact h p hp

/-- Tools that answer everything with success, except that installing fails. -/
def Tools.plain : Tools Text where
  which _ := true
  home := some "/home".toList
  readRegistry := none
  tempdir := .ok "/tmp/beethoven-setup".toList
  clone := .ok ()
  refExists _ := true
  checkout _ := .ok ()
  configure := .ok ()
  build := .ok ()
  install disk := (.error .other, disk)
  buildManifest := .ok []
  currentBranch := none
  serialize _ := some []

/-- The user's configuration records a prefix. -/
def Env.installed : Env Text :=
  { Env.plain [] (by simp) with
    parseConfig := fun _ => .ok { UserConfig.default with installPrefix := some "/usr".toList } }

theorem update_keeps_install_uninstalled :
    let disk : Disk Text := FileTree.empty |>.put ["config".toList] .dir
      |>.put ["config".toList, "beethoven".toList] .dir
      |>.put ["config".toList, "beethoven".toList, "config.toml".toList] (.file [])
    let result := Update.run Env.installed Tools.plain ⟨none, none⟩ disk
    (∃ e, result.1 = .error e) ∧ Kept Env.installed Tools.plain disk result.2 := by
  intro disk result
  have hinstall : FailsUpToInstall Env.installed Tools.plain ⟨none, none⟩ disk :=
    fun _ _ _ _ _ _ _ => ⟨⟨.other, rfl⟩, fun _ _ => rfl⟩
  obtain ⟨herror, hkept, -⟩ :=
    update_keeps_install Env.installed Tools.plain ⟨none, none⟩ disk hinstall
  refine ⟨herror, hkept fun pre gitRef manifest _ hmanifest => ?_⟩
  obtain rfl := Except.ok.inj hmanifest
  rw [if_neg (by decide +kernel)]
  intro _ dir hdir
  have hnone : registryDir Env.installed Tools.plain disk = none := by decide +kernel
  rw [hnone] at hdir
  cases hdir

/-- With a path after `--from` that does not exist, the update fails when the library has been
removed. -/
theorem not_update_keeps_install :
    let disk : Disk Text := FileTree.empty |>.put ["config".toList] .dir
      |>.put ["config".toList, "beethoven".toList] .dir
      |>.put ["config".toList, "beethoven".toList, "config.toml".toList] (.file [])
      |>.put ["config".toList, "beethoven".toList, "install_manifest.txt".toList]
        (.file "/usr/a\n".toList)
      |>.put ["usr".toList] .dir
      |>.put ["usr".toList, "a".toList] (.file [])
    let result := Update.run Env.installed Tools.plain ⟨none, some "/missing".toList⟩ disk
    result.1 = .error (.config
        ("--from path doesn't look like a Beethoven-Software clone: missing ".toList ++
          "/missing/libbeethoven/CMakeLists.txt".toList)) ∧
      disk.lookup ["usr".toList, "a".toList] = some (.file []) ∧
      result.2.lookup ["usr".toList, "a".toList] = none ∧
      result.2.lookup ["config".toList, "beethoven".toList, "install_manifest.txt".toList] =
        none :=
  ⟨by decide +kernel, by decide +kernel, by decide +kernel, by decide +kernel⟩

end Failure

end Beethoven.Cli
