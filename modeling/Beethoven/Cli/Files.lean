import Beethoven.Cli.Paths

/-!
# Files of the command line

The operations on files that the commands use, by the texts or the components of paths. An operation
fails if the path does not lead to what it needs, and for reasons that are not in the file tree,
which are a parameter.

The contents of files are abstract: `decode` gives the text of a file that is UTF-8.
-/

namespace Beethoven.Cli

open Lib

/-- The errors of the command line. -/
inductive CliError
  | usage (msg : Text)
  | config (msg : Text)
  | missingTool (name : Text) (hint : Option Text)
  | other
  deriving DecidableEq, Repr

/-- The files, with names that are texts and contents in `C`. -/
abbrev Disk (C : Type*) : Type _ := FileTree Text C

/-- The message of an error of the operating system. -/
def ioErrorText : IoError → Text
  | .notFound => "No such file or directory (os error 2)".toList
  | .notADirectory => "Not a directory (os error 20)".toList
  | .isADirectory => "Is a directory (os error 21)".toList
  | .alreadyExists => "File exists (os error 17)".toList
  | .invalidUtf8 => "stream did not contain valid UTF-8".toList
  | .other text => text.toList

/-! ### Steps that may fail -/

section Steps

variable {C : Type*}

/-- Continue with the files that a step has left, unless it has failed. -/
def andThen (result : Except CliError Unit × Disk C)
    (next : Disk C → Except CliError Unit × Disk C) : Except CliError Unit × Disk C :=
  match result with
  | (.error e, disk) => (.error e, disk)
  | (.ok (), disk) => next disk

/-- Describe the error of the operating system, if there is one. -/
def orConfig (describe : Text → Text) (result : Except IoError Unit × Disk C) :
    Except CliError Unit × Disk C :=
  match result with
  | (.error e, disk) => (.error (.config (describe (ioErrorText e))), disk)
  | (.ok (), disk) => (.ok (), disk)

@[simp]
theorem andThen_ok (disk : Disk C) (next : Disk C → Except CliError Unit × Disk C) :
    andThen (.ok (), disk) next = next disk := rfl

@[simp]
theorem andThen_error (e : CliError) (disk : Disk C)
    (next : Disk C → Except CliError Unit × Disk C) :
    andThen (.error e, disk) next = (.error e, disk) := rfl

@[simp]
theorem orConfig_snd (describe : Text → Text) (result : Except IoError Unit × Disk C) :
    (orConfig describe result).2 = result.2 := by
  obtain ⟨_ | _, disk⟩ := result <;> rfl

theorem adds_andThen {P : List Text → Prop} {disk : Disk C}
    {result : Except CliError Unit × Disk C} {next : Disk C → Except CliError Unit × Disk C}
    (hresult : FileTree.Adds P disk result.2)
    (hnext : ∀ disk, FileTree.Adds P disk (next disk).2) :
    FileTree.Adds P disk (andThen result next).2 := by
  obtain ⟨_ | _, disk'⟩ := result
  · exact hresult
  · exact hresult.trans (hnext disk')

end Steps

/-! ### Operations on files -/

section Operations

variable {C : Type*}

/-- The place that a path leads to. -/
def resolve (disk : Disk C) (cwd : List Text) (path : Text) : Except IoError (List Text) :=
  disk.walk (startOf cwd path) (osComponents path)

/-- `Path::exists`. -/
def pathExists (disk : Disk C) (cwd : List Text) (path : Text) : Bool :=
  match resolve disk cwd path with
  | .ok p => (disk.lookup p).isSome
  | .error _ => false

/-- `Path::is_file`. -/
def isFile (disk : Disk C) (cwd : List Text) (path : Text) : Bool :=
  match resolve disk cwd path with
  | .ok p => decide (disk.IsFile p)
  | .error _ => false

/-- How creating directories and writing files fails for reasons that are not in the tree. A write
that fails may have created the file and left something in it. -/
structure Faults (C : Type*) where
  createDir : List Text → Option IoError
  write : List Text → Option (IoError × Option C)

/-- No such failure. -/
def Faults.none : Faults C := ⟨fun _ => .none, fun _ => .none⟩

/-- `fs::write`. -/
def writeFile (faults : Faults C) (disk : Disk C) (cwd : List Text) (path : Text) (content : C) :
    Except IoError Unit × Disk C :=
  match resolve disk cwd path with
  | .error e => (.error e, disk)
  | .ok p =>
    if disk.IsDir p then (.error .isADirectory, disk)
    else
      match faults.write p with
      | some (e, some left) => (.error e, disk.put p (.file left))
      | some (e, none) => (.error e, disk)
      | none => (.ok (), disk.put p (.file content))

/-- `fs::remove_file`. -/
def removeFile (disk : Disk C) (cwd : List Text) (path : Text) : Disk C :=
  match resolve disk cwd path with
  | .ok p => disk.removeFile p
  | .error _ => disk

/-- `fs::read_to_string`. -/
def readToString (decode : C → Option Text) (disk : Disk C) (cwd : List Text) (path : Text) :
    Except IoError Text :=
  match resolve disk cwd path with
  | .error e => .error e
  | .ok p =>
    match disk.lookup p with
    | none => .error .notFound
    | some .dir => .error .isADirectory
    | some (.file content) =>
      match decode content with
      | some text => .ok text
      | none => .error .invalidUtf8

end Operations

theorem readToString_of_subtree {C : Type*} {decode : C → Option Text} {disk disk' : Disk C}
    {cwd : List Text} {path body : Text}
    (hsub : ∀ p, disk'.lookup p = none ∨ disk'.lookup p = disk.lookup p)
    (h : readToString decode disk' cwd path = .ok body) :
    readToString decode disk cwd path = .ok body := by
  rw [readToString] at h
  split at h
  · cases h
  next p hp =>
    have hp' : resolve disk cwd path = .ok p := FileTree.walk_of_subtree hsub hp
    rw [readToString, hp']
    rcases hsub p with hnone | hsame
    · rw [hnone] at h
      cases h
    · rwa [hsame] at h

/-! ### Operations on directories -/

section Directories

variable {C : Type*}

/-- The place that the components of a path lead to. -/
def resolveComponents (disk : Disk C) (cwd : List Text) (path : List PathComponent) :
    Except IoError (List Text) :=
  disk.walk (startOfComponents cwd path) (path.map PathComponent.toOs)

/-- `fs::remove_dir`, for a path given by its components. -/
def removeDir (disk : Disk C) (cwd : List Text) (path : List PathComponent) : Disk C :=
  match resolveComponents disk cwd path with
  | .ok p => disk.removeDir p
  | .error _ => disk

/-- `fs::create_dir`, for a path given by its components. -/
def createDir (faults : Faults C) (disk : Disk C) (cwd : List Text) (path : List PathComponent) :
    Except IoError (Disk C) :=
  match resolveComponents disk cwd path with
  | .error e => .error e
  | .ok p =>
    if (disk.lookup p).isSome then .error .alreadyExists
    else
      match faults.createDir p with
      | some e => .error e
      | none => .ok (disk.put p .dir)

/-- The end of `fs::create_dir_all`: a directory that is there already is not an error. -/
def orIsDir (disk : Disk C) (cwd : List Text) (path : List PathComponent) (e : IoError) :
    Except IoError Unit :=
  match resolveComponents disk cwd path with
  | .ok p => if disk.IsDir p then .ok () else .error e
  | .error _ => .error e

/-- `fs::create_dir_all`, with the components in reverse order. -/
def createDirAll (faults : Faults C) (cwd : List Text) :
    List PathComponent → Disk C → Except IoError Unit × Disk C
  | [], disk => (.ok (), disk)
  | c :: rest, disk =>
    match createDir faults disk cwd (c :: rest).reverse with
    | .ok disk => (.ok (), disk)
    | .error .notFound =>
      if c = .rootDir then (.error (.other "failed to create whole tree"), disk)
      else
        match createDirAll faults cwd rest disk with
        | (.error e, disk) => (.error e, disk)
        | (.ok (), disk) =>
          match createDir faults disk cwd (c :: rest).reverse with
          | .ok disk => (.ok (), disk)
          | .error e => (orIsDir disk cwd (c :: rest).reverse e, disk)
    | .error e => (orIsDir disk cwd (c :: rest).reverse e, disk)

end Directories

/-! ### The process and its configuration -/

/-- `UserConfig`. -/
structure UserConfig where
  installPrefix : Option Text
  gitRef : Option Text
  defaultPlatform : Option Text
  hardwareVersion : Option Text
  hardwareOrganization : Option Text
  hardwareArtifact : Option Text
  deriving DecidableEq, Repr

/-- `UserConfig::default`. -/
def UserConfig.default : UserConfig := ⟨none, none, none, none, none, none⟩

/-- What a command finds when it is started: how the contents of files are read as text and written,
the directories, and the failures to come. The contents are abstract. -/
structure Env (C : Type*) where
  decode : C → Option Text
  encode : Text → C
  /-- `toml::from_str`. -/
  parseConfig : Text → Except Text UserConfig
  /-- `dirs::config_dir`. -/
  configDir : Option Text
  /-- The names that lead to the working directory. -/
  cwd : List Text
  cwd_plain : ∀ name ∈ cwd, Plain name
  faults : Faults C

section Env

variable {C : Type*} (env : Env C)

/-- `env::current_dir`, for a working directory that may have been removed. -/
def Env.currentDir (disk : Disk C) : Except CliError Text :=
  if disk.IsDir env.cwd then .ok (absoluteText env.cwd)
  else .error (.config ("cannot read cwd: ".toList ++ ioErrorText .notFound))

/-- `UserConfig::path`. -/
def UserConfig.path : Except CliError Text :=
  match env.configDir with
  | none =>
    .error (.config "cannot resolve user config dir; set $XDG_CONFIG_HOME or $HOME".toList)
  | some dir => .ok (joinPath (joinPath dir "beethoven".toList) "config.toml".toList)

/-- `UserConfig::load`. -/
def UserConfig.load (disk : Disk C) : Except CliError UserConfig :=
  match UserConfig.path env with
  | .error e => .error e
  | .ok path =>
    match readToString env.decode disk env.cwd path with
    | .ok s =>
      match env.parseConfig s with
      | .ok cfg => .ok cfg
      | .error e =>
        .error (.config ("malformed user config at ".toList ++ path ++ ": ".toList ++ e))
    | .error .notFound => .ok UserConfig.default
    | .error e =>
      .error (.config ("cannot read user config at ".toList ++ path ++ ": ".toList ++
        ioErrorText e))

end Env

/-- An environment in which the contents of files are their texts and nothing fails. -/
def Env.plain (cwd : List Text) (h : ∀ name ∈ cwd, Plain name) : Env Text where
  decode := some
  encode := id
  parseConfig _ := .ok UserConfig.default
  configDir := some "/config".toList
  cwd := cwd
  cwd_plain := h
  faults := Faults.none

/-! ### What the operations add -/

section Adds

variable {C : Type*} {disk : Disk C} {cwd : List Text}

theorem place_of_resolve {path : Text} {p : List Text} (h : resolve disk cwd path = .ok p) :
    p = place cwd path := disk.walk_eq_follow h

/-- Whatever a removal by a path leaves was there before. -/
theorem adds_removeFile (disk : Disk C) (cwd : List Text) (path : Text) :
    FileTree.Adds (fun _ => True) (removeFile disk cwd path) disk := by
  rw [removeFile]
  split
  · exact (FileTree.Adds.of_removeFile disk _).mono fun _ _ => trivial
  · exact FileTree.Adds.refl disk

@[inherit_doc adds_removeFile]
theorem adds_removeDir (disk : Disk C) (cwd : List Text) (path : List PathComponent) :
    FileTree.Adds (fun _ => True) (removeDir disk cwd path) disk := by
  rw [removeDir]
  split
  · exact (FileTree.Adds.of_removeDir disk _).mono fun _ _ => trivial
  · exact FileTree.Adds.refl disk

theorem lookup_of_not_pathExists {path : Text} {p : List Text}
    (h : pathExists disk cwd path = false) (hp : resolve disk cwd path = .ok p) :
    disk.lookup p = none := by
  rw [pathExists, hp] at h
  simpa using h

theorem adds_writeFile (faults : Faults C) {path : Text} (h : pathExists disk cwd path = false)
    (content : C) :
    FileTree.Adds (· = place cwd path) disk (writeFile faults disk cwd path content).2 := by
  rw [writeFile]
  split
  next => exact FileTree.Adds.refl disk
  next p hp =>
    have hnone := lookup_of_not_pathExists h hp
    rw [← place_of_resolve hp]
    split_ifs
    · exact FileTree.Adds.refl disk
    · split
      · exact FileTree.Adds.put disk hnone _
      · exact FileTree.Adds.refl disk
      · exact FileTree.Adds.put disk hnone _

theorem adds_createDir {faults : Faults C} {path : List PathComponent} {disk' : Disk C}
    (h : createDir faults disk cwd path = .ok disk') :
    FileTree.Adds (· = placeOfComponents cwd path) disk disk' := by
  rw [createDir] at h
  split at h
  next => cases h
  next p hp =>
    have hplace : p = placeOfComponents cwd path := disk.walk_eq_follow hp
    rw [← hplace]
    split_ifs at h with hnone
    split at h
    · cases h
    · rw [← Except.ok.inj h]
      exact FileTree.Adds.put disk (by simpa using hnone) _

theorem adds_createDirAll (faults : Faults C) (path : List PathComponent) (disk : Disk C) :
    FileTree.Adds (OnTheWay cwd path.reverse) disk (createDirAll faults cwd path disk).2 := by
  induction path generalizing disk with
  | nil => exact FileTree.Adds.refl disk
  | cons c rest ih =>
    have hcreate : ∀ {disk disk' : Disk C},
        createDir faults disk cwd (c :: rest).reverse = .ok disk' →
          FileTree.Adds (OnTheWay cwd (c :: rest).reverse) disk disk' := fun h =>
      (adds_createDir h).mono fun q hq => ⟨_, by simp, List.prefix_refl _, hq⟩
    have hparent : FileTree.Adds (OnTheWay cwd (c :: rest).reverse) disk
        (createDirAll faults cwd rest disk).2 := by
      refine (ih disk).mono fun q hq => ?_
      obtain ⟨cs, hne, hcs, hq⟩ := hq
      rw [List.reverse_cons]
      exact ⟨cs, hne, hcs.trans (List.prefix_append _ _), hq⟩
    rw [createDirAll]
    split
    next h => exact hcreate h
    next =>
      split_ifs
      · exact FileTree.Adds.refl disk
      · split
        next h =>
          rw [h] at hparent
          exact hparent
        next h =>
          rw [h] at hparent
          split
          next h' => exact hparent.trans (hcreate h')
          next => exact hparent
    next => exact FileTree.Adds.refl disk

theorem createDirAll_of_isDir (faults : Faults C) {path : List PathComponent} {p : List Text}
    (hp : resolveComponents disk cwd path.reverse = .ok p) (hdir : disk.IsDir p) :
    createDirAll faults cwd path disk = (.ok (), disk) := by
  cases path with
  | nil => rfl
  | cons c rest =>
    have hcreate : createDir faults disk cwd (c :: rest).reverse = .error .alreadyExists := by
      rw [createDir, hp]
      exact if_pos (by rw [hdir]; rfl)
    have hisDir : orIsDir disk cwd (c :: rest).reverse .alreadyExists = .ok () := by
      rw [orIsDir, hp]
      exact if_pos hdir
    rw [createDirAll, hcreate]
    exact Prod.ext hisDir rfl

end Adds

/-! ### Operations on normalized paths -/

/-- A plain name that is joined to a path leads into the directory of the path. -/
theorem Plain.resolve_joinPath {C : Type*} {disk : Disk C} {cwd : List Text} {path name : Text}
    {p : List Text} (h : Plain name) (hp : resolve disk cwd (joinPath path name) = .ok p) :
    ∃ r, resolve disk cwd path = .ok r ∧ disk.IsDir r ∧ p = r ++ [name] := by
  obtain ⟨cs, hjoin, hpath⟩ := osComponents_joinPath path h.head?_ne
  rw [resolve, startOf_joinPath cwd path h.head?_ne, hjoin, h.osComponents_eq] at hp
  obtain ⟨r, hr, hdir, rfl⟩ := disk.walk_concat_name hp
  refine ⟨r, ?_, hdir, rfl⟩
  rw [resolve]
  rcases hpath with hpath | hpath
  · rwa [hpath]
  · rw [hpath]
    exact disk.walk_concat_here hr hdir

namespace Normalized

variable {path : Text} {names : List Text}

theorem resolve_eq {C : Type*} (h : Normalized path names) (disk : Disk C) (cwd : List Text) :
    resolve disk cwd path = disk.walk [] (names.map .name) := by
  rw [resolve, h.startOf_eq, h.osComponents_eq, FileTree.walk_here _ disk.lookup_root]
  split_ifs with hnil
  · rw [FileTree.walk_here _ disk.lookup_root, hnil, List.map_nil]
  · rfl

theorem pathExists_iff {C : Type*} (h : Normalized path names) (disk : Disk C) (cwd : List Text) :
    pathExists disk cwd path = true ↔ disk.lookup names ≠ none := by
  rw [pathExists, h.resolve_eq, ← Option.isSome_iff_ne_none]
  rcases disk.walk_names [] names with hok | ⟨⟨e, herror⟩, hnone⟩
  · rw [hok, List.nil_append]
  · rw [List.nil_append] at hnone
    rw [herror, hnone]
    simp

theorem of_isFile {C : Type*} (h : Normalized path names) {disk : Disk C} {cwd : List Text}
    (hfile : isFile disk cwd path = true) :
    resolve disk cwd path = .ok names ∧ disk.IsFile names := by
  rw [isFile, h.resolve_eq] at hfile
  rw [h.resolve_eq]
  rcases disk.walk_names [] names with hok | ⟨⟨e, herror⟩, -⟩
  · rw [hok] at hfile ⊢
    exact ⟨rfl, of_decide_eq_true hfile⟩
  · rw [herror] at hfile
    cases hfile

theorem lookup_writeFile {C : Type*} (h : Normalized path names) (hne : names ≠ [])
    {faults : Faults C} {disk disk' : Disk C} {cwd : List Text} {content : C}
    (hwrite : writeFile faults disk cwd path content = (.ok (), disk')) :
    disk'.lookup names = some (.file content) := by
  obtain ⟨init, last, rfl⟩ := (names.eq_nil_or_concat).resolve_left hne
  rw [List.concat_eq_append] at h ⊢
  rw [writeFile, h.resolve_eq, List.map_append] at hwrite
  split at hwrite
  next => simp at hwrite
  next p hp =>
    obtain ⟨r, hr, hdir, rfl⟩ := disk.walk_concat_name hp
    obtain rfl : r = init := by
      rw [disk.walk_eq_follow hr, Component.follow_names, List.nil_append]
    split_ifs at hwrite with hisDir
    · simp at hwrite
    · split at hwrite
      · simp at hwrite
      · simp at hwrite
      · rw [← (Prod.mk.inj hwrite).2, FileTree.lookup_put, List.dropLast_concat,
          if_pos ⟨rfl, by simp, hdir, hisDir⟩]

theorem removeFile_eq {C : Type*} (h : Normalized path names) (disk : Disk C) (cwd : List Text) :
    removeFile disk cwd path = disk.removeFile names := by
  rw [removeFile, h.resolve_eq]
  rcases disk.walk_names [] names with hok | ⟨⟨e, herror⟩, hnone⟩
  · rw [hok]
    rfl
  · rw [herror]
    refine (if_neg ?_).symm
    rintro ⟨c, hc⟩
    rw [← List.nil_append names, hnone] at hc
    cases hc

end Normalized

theorem resolveComponents_absolute {C : Type*} (disk : Disk C) (cwd names : List Text) :
    resolveComponents disk cwd (absolute names) = disk.walk [] (names.map .name) := by
  have hstart : (absolute names).head? = some .rootDir := rfl
  rw [resolveComponents, startOfComponents, if_pos hstart, absolute, List.map_cons, List.map_map,
    FileTree.walk, FileTree.lookup_root]
  rfl

theorem removeDir_absolute {C : Type*} (disk : Disk C) (cwd names : List Text) :
    removeDir disk cwd (absolute names) = disk.removeDir names := by
  rw [removeDir, resolveComponents_absolute]
  rcases disk.walk_names [] names with hok | ⟨⟨e, herror⟩, hnone⟩
  · rw [hok]
    rfl
  · rw [herror]
    refine (if_neg ?_).symm
    intro hdir
    rw [FileTree.IsDir, ← List.nil_append names, hnone] at hdir
    cases hdir

end Beethoven.Cli
