import Beethoven.Lib.Utf8

/-!
# The path of the lockfile

The command line and the daemon each compute the path of the lockfile from the environment, the user
and the root of the project (`cli/src/core/env.rs`, `runtime/src/core/singleton_lock.cc`). The
daemon takes the bytes as they are. The command line reads them as text: a variable that is not
UTF-8 counts as unset, and the root is hashed after everything in it that is not UTF-8 has been
replaced. A daemon that `sim` or `run` launches also has another working directory, where a relative
path leads elsewhere. When the directory and the root are UTF-8 and the directory is an absolute
path, the two paths lead to the same file; they may differ in repeated slashes.
-/

namespace Beethoven.Daemon

open Lib

/-! ### What both sides read -/

/-- The bytes of a string. -/
abbrev Bytes : Type := List UInt8

/-- A string of the operating system, which ends at its first zero byte. -/
structure OsString where
  bytes : Bytes
  zero_notMem : 0 ∉ bytes

/-- The variables that are read for the directory of the lockfile. -/
structure Env where
  xdgRuntimeDir : Option OsString
  tmpDir : Option OsString

/-- The variables, in the order in which they are tried. -/
def Env.vars (env : Env) : List (Option OsString) := [env.xdgRuntimeDir, env.tmpDir]

/-- `realpath` and `canonicalize`: the bytes of the canonical path, or the number of the error. -/
structure FileSystem where
  realpath : OsString → Except ℕ OsString
  /-- No file has the empty path. -/
  realpath_nil : ∀ (root canonical : OsString), root.bytes = [] → realpath root ≠ .ok canonical

/-- The daemon has no value for `BEETHOVEN_PROJECT_ROOT`, or the root has no canonical path. -/
inductive KeyError
  | rootNotSet
  | cannotCanonicalize (root : Bytes) (errno : ℕ)
  deriving DecidableEq, Repr

/-- The characters of an ASCII text. -/
def ascii (cs : List Char) : Bytes := cs.map fun c => c.toNat.toUInt8

/-- The number, in decimal. -/
def decimal (n : ℕ) : Bytes := ascii (Nat.toDigits 10 n)

/-- The format `016x`. -/
def hex16 (h : UInt64) : Bytes := ascii ((Nat.toDigits 16 h.toNat).leftpad 16 '0')

/-- The name of the lockfile. -/
def lockfileName (uid : UInt32) (key : Bytes) : Bytes :=
  ascii "beethoven-".toList ++ decimal uid.toNat ++ ascii ['-'] ++ key ++ ascii ".lock".toList

/-- The loop of `runtime_dir`: the first value that is read and not empty, or `/tmp`. -/
def firstDir (read : Option OsString → Option Bytes) : List (Option OsString) → Bytes
  | [] => ascii "/tmp".toList
  | var :: vars =>
    match read var with
    | some v => if v ≠ [] then v else firstDir read vars
    | none => firstDir read vars

/-- The offset basis and the prime of the hash. -/
def fnvBasis : UInt64 := 14695981039346656037

@[inherit_doc fnvBasis]
def fnvPrime : UInt64 := 1099511628211

/-- The slash. -/
def slash : UInt8 := 0x2F

/-! ### The daemon -/

/-- `getenv`. -/
def getenv (var : Option OsString) : Option Bytes := var.map OsString.bytes

/-- `runtime_dir` of the daemon. -/
def runtimeDir (env : Env) : Bytes := firstDir getenv env.vars

/-- The loop of `fnv1a64`, which stops at a zero byte. -/
def fnv1a64 (h : UInt64) : Bytes → UInt64
  | [] => h
  | b :: bs => if b = 0 then h else fnv1a64 ((h ^^^ b.toUInt64) * fnvPrime) bs

/-- `project_key` of the daemon. The buffer has room for 16 digits. -/
def projectKey (fs : FileSystem) (root : Option OsString) : Except KeyError Bytes :=
  match root with
  | none => .error .rootNotSet
  | some root =>
    if root.bytes = [] then .error .rootNotSet
    else match fs.realpath root with
      | .ok canonical => .ok ((hex16 (fnv1a64 fnvBasis canonical.bytes)).take 16)
      | .error errno => .error (.cannotCanonicalize root.bytes errno)

/-- `lockfile_path` of the daemon. -/
def lockfilePath (fs : FileSystem) (uid : UInt32) (env : Env) (root : Option OsString) :
    Except KeyError Bytes := do
  let key ← projectKey fs root
  return runtimeDir env ++ slash :: lockfileName uid key

/-! ### The command line -/

namespace Cli

/-- `env::var`. -/
def var (var : Option OsString) : Option Bytes :=
  match var with
  | some v => if Utf8.accepts v.bytes then some v.bytes else none
  | none => none

/-- `runtime_dir` of the command line. -/
def runtimeDir (env : Env) : Bytes := firstDir var env.vars

/-- `fnv1a64_hex`. -/
def fnv1a64Hex (s : Bytes) : Bytes :=
  hex16 (s.foldl (fun h b => (h ^^^ b.toUInt64) * fnvPrime) fnvBasis)

/-- `project_key` of the command line. -/
def projectKey (fs : FileSystem) (root : OsString) : Except KeyError Bytes :=
  match fs.realpath root with
  | .ok canonical => .ok (fnv1a64Hex (Utf8.lossy canonical.bytes))
  | .error errno => .error (.cannotCanonicalize (Utf8.lossy root.bytes) errno)

/-- `PathBuf::join`. -/
def join (dir path : Bytes) : Bytes :=
  if path.head? = some slash then path
  else if dir = [] ∨ dir.getLast? = some slash then dir ++ path
  else dir ++ slash :: path

/-- `lockfile_path` of the command line. -/
def lockfilePath (fs : FileSystem) (uid : UInt32) (env : Env) (root : OsString) :
    Except KeyError Bytes := do
  let key ← projectKey fs root
  return join (runtimeDir env) (lockfileName uid key)

end Cli

/-! ### Paths -/

/-- The names on a path. Repeated slashes count as one. -/
def components (path : Bytes) : List Bytes := (path.splitOn slash).filter (· ≠ [])

/-- The names on the way to the file that a process names by a path, from the root of the file
system. `cwd` is the working directory of the process. -/
def resolve (cwd path : Bytes) : List Bytes :=
  if path.head? = some slash then components path else components cwd ++ components path

theorem components_append (dir path : Bytes) :
    components (dir ++ slash :: path) = components dir ++ components path := by
  rw [components, List.splitOn_append_cons_self, List.filter_append, ← components, ← components]

@[simp]
theorem components_nil : components [] = [] := by
  simp [components]

/-- `join` leaves out a slash that is already there. -/
theorem components_join {dir path : Bytes} (hdir : dir ≠ []) (hpath : path.head? ≠ some slash) :
    components (Cli.join dir path) = components (dir ++ slash :: path) := by
  rw [Cli.join, if_neg hpath]
  by_cases hlast : dir.getLast? = some slash
  · obtain ⟨dir, rfl⟩ := List.getLast?_eq_some_iff.mp hlast
    rw [if_pos (.inr hlast), components_append, List.append_assoc, List.singleton_append,
      components_append, components_append, components_nil, List.append_nil]
  · rw [if_neg (not_or.mpr ⟨hdir, hlast⟩)]

theorem head?_join {dir path : Bytes} (hdir : dir ≠ []) (hpath : path.head? ≠ some slash) :
    (Cli.join dir path).head? = (dir ++ slash :: path).head? := by
  obtain ⟨b, bs, rfl⟩ := List.exists_cons_of_ne_nil hdir
  rw [Cli.join, if_neg hpath]
  split_ifs <;> rfl

/-- The two ways to append a name lead to the same file, from any working directories if the
directory is an absolute path. -/
theorem resolve_join {cwd cwd' dir path : Bytes} (hdir : dir ≠ []) (hpath : path.head? ≠ some slash)
    (hcwd : dir.head? = some slash ∨ components cwd = components cwd') :
    resolve cwd (Cli.join dir path) = resolve cwd' (dir ++ slash :: path) := by
  have hhead : (dir ++ slash :: path).head? = dir.head? := by
    obtain ⟨b, bs, rfl⟩ := List.exists_cons_of_ne_nil hdir
    rfl
  rw [resolve, resolve, components_join hdir hpath, head?_join hdir hpath, hhead]
  split_ifs with habs
  · rfl
  · rw [hcwd.resolve_left habs]

/-! ### Agreement -/

/-- The bytes encode a text. -/
def IsUtf8 (bs : Bytes) : Prop := bs.toByteArray.IsValidUTF8

section FirstDir

variable {read : Option OsString → Option Bytes} {var : Option OsString}
  {vars : List (Option OsString)}

private theorem firstDir_cons_of_ne_nil {v : Bytes} (h : read var = some v) (hv : v ≠ []) :
    firstDir read (var :: vars) = v := by
  simp only [firstDir, h, if_pos hv]

private theorem firstDir_cons_of_nil (h : read var = some []) :
    firstDir read (var :: vars) = firstDir read vars := by
  simp only [firstDir, h, ne_eq, not_true_eq_false, if_false]

private theorem firstDir_ne_nil : firstDir read vars ≠ [] := by
  induction vars with
  | nil => simp [firstDir, ascii]
  | cons var vars ih =>
    rw [firstDir]
    split
    · split_ifs with hv
      · exact hv
      · exact ih
    · exact ih

/-- The loops over the variables agree when the daemon finds text. -/
private theorem firstDir_eq (h : Utf8.accepts (firstDir getenv vars)) :
    firstDir Cli.var vars = firstDir getenv vars := by
  induction vars with
  | nil => rfl
  | cons var vars ih =>
    cases var with
    | none => exact ih h
    | some v =>
      by_cases hv : v.bytes = []
      · have hcli : Cli.var (some v) = some [] := by
          rw [Cli.var, hv]
          rfl
        have hdaemon : getenv (some v) = some [] := congrArg some hv
        rw [firstDir_cons_of_nil hdaemon] at h ⊢
        rw [firstDir_cons_of_nil hcli, ih h]
      · have hdaemon : firstDir getenv (some v :: vars) = v.bytes := firstDir_cons_of_ne_nil rfl hv
        rw [hdaemon] at h ⊢
        exact firstDir_cons_of_ne_nil (if_pos h) hv

private theorem accepts_firstDir : Utf8.accepts (firstDir Cli.var vars) := by
  induction vars with
  | nil => rfl
  | cons var vars ih =>
    rw [firstDir]
    split
    · next v hvar =>
      split_ifs
      · cases var with
        | none => cases hvar
        | some w =>
          simp only [Cli.var, Option.ite_none_right_eq_some, Option.some.injEq] at hvar
          exact hvar.2 ▸ hvar.1
      · exact ih
    · exact ih

end FirstDir

theorem runtimeDir_eq {env : Env} (h : IsUtf8 (runtimeDir env)) :
    Cli.runtimeDir env = runtimeDir env :=
  firstDir_eq (Utf8.accepts_of_isValidUTF8 h)

/-- The command line never takes a directory that is not text, which the daemon takes. -/
theorem runtimeDir_ne {env : Env} (h : ¬ Utf8.accepts (runtimeDir env)) :
    Cli.runtimeDir env ≠ runtimeDir env :=
  fun heq => h (heq ▸ accepts_firstDir)

/-- The command line hashes another string than the daemon for a root that is not text. -/
theorem hashed_ne {canonical : OsString} (h : ¬ Utf8.accepts canonical.bytes) :
    Utf8.lossy canonical.bytes ≠ canonical.bytes :=
  mt Utf8.lossy_eq_iff.mp h

theorem runtimeDir_ne_nil (env : Env) : runtimeDir env ≠ [] := firstDir_ne_nil

/-- The loops of the two hashes agree on a string with no zero byte. -/
theorem fnv1a64_eq_foldl (bs : Bytes) (hbs : 0 ∉ bs) (h : UInt64) :
    fnv1a64 h bs = bs.foldl (fun h b => (h ^^^ b.toUInt64) * fnvPrime) h := by
  induction bs generalizing h with
  | nil => rfl
  | cons b bs ih =>
    rw [List.mem_cons, not_or] at hbs
    rw [fnv1a64, if_neg (Ne.symm hbs.1), ih hbs.2, List.foldl_cons]

theorem length_hex16 (h : UInt64) : (hex16 h).length = 16 := by
  have hlen : (Nat.toDigits 16 h.toNat).length ≤ 16 :=
    (Nat.length_toDigits_le_iff (by decide) (by decide)).mpr h.toNat_lt
  rw [hex16, ascii, List.length_map, List.length_leftpad, max_eq_left hlen]

theorem projectKey_eq {fs : FileSystem} {root canonical : OsString}
    (hcanonical : fs.realpath root = .ok canonical) (hutf8 : IsUtf8 canonical.bytes) :
    ∃ key, Cli.projectKey fs root = .ok key ∧ projectKey fs (some root) = .ok key := by
  have hroot : root.bytes ≠ [] := fun hnil => fs.realpath_nil root canonical hnil hcanonical
  have hlossy := Utf8.lossy_of_accepts (Utf8.accepts_of_isValidUTF8 hutf8)
  refine ⟨hex16 (fnv1a64 fnvBasis canonical.bytes), ?_, ?_⟩
  · simp only [Cli.projectKey, hcanonical, Cli.fnv1a64Hex, hlossy]
    rw [fnv1a64_eq_foldl _ canonical.zero_notMem]
  · simp only [projectKey, if_neg hroot, hcanonical]
    rw [List.take_of_length_le (length_hex16 _).le]

theorem head?_lockfileName_ne (uid : UInt32) (key : Bytes) :
    (lockfileName uid key).head? ≠ some slash := by
  simp [lockfileName, ascii, slash]

/-- **One lockfile.** For every user, every root whose canonical path is UTF-8 and every environment
that gives the daemon a directory in UTF-8, as an absolute path unless the working directories
agree, the command line and the daemon compute paths of the same file. -/
theorem lockfile_agreement (fs : FileSystem) (uid : UInt32) (env : Env) (root canonical : OsString)
    (cwd cwd' : Bytes) (hcanonical : fs.realpath root = .ok canonical)
    (hutf8 : IsUtf8 canonical.bytes) (hdir : IsUtf8 (runtimeDir env))
    (hcwd : (runtimeDir env).head? = some slash ∨ components cwd = components cwd') :
    ∃ p q, Cli.lockfilePath fs uid env root = .ok p ∧
      lockfilePath fs uid env (some root) = .ok q ∧ resolve cwd p = resolve cwd' q := by
  obtain ⟨key, hcli, hdaemon⟩ := projectKey_eq hcanonical hutf8
  have hresolve := resolve_join (runtimeDir_ne_nil env) (head?_lockfileName_ne uid key) hcwd
  refine ⟨_, _, ?_, ?_, hresolve⟩
  · rw [Cli.lockfilePath, hcli, runtimeDir_eq hdir]
    rfl
  · rw [lockfilePath, hdaemon]
    rfl

/-- A file system in which every path but the empty one is canonical. -/
def FileSystem.plain : FileSystem where
  realpath root := if root.bytes = [] then .error 2 else .ok root
  realpath_nil root canonical hnil := by simp [hnil]

/-- The root `/p`, with a directory that ends in a slash, from two working directories. -/
theorem lockfile_agreement_slash :
    ∃ p q, Cli.lockfilePath .plain 0 ⟨none, some ⟨ascii ['/', 't', '/'], by decide⟩⟩
        ⟨ascii ['/', 'p'], by decide⟩ = .ok p ∧
      lockfilePath .plain 0 ⟨none, some ⟨ascii ['/', 't', '/'], by decide⟩⟩
        (some ⟨ascii ['/', 'p'], by decide⟩) = .ok q ∧
      resolve (ascii ['/', 'p']) p = resolve (ascii ['/', 'q']) q :=
  lockfile_agreement .plain 0 _ _ _ _ _ rfl ⟨['/', 'p'], rfl⟩ ⟨['/', 't', '/'], rfl⟩ (.inl rfl)

/-- The byte `0xFF` in the root is hashed as it is by the daemon and as the replacement character by
the command line. -/
theorem not_lockfile_agreement :
    ∃ (fs : FileSystem) (root : OsString) (p q : Bytes), fs.realpath root = .ok root ∧
      Cli.lockfilePath fs 0 ⟨none, none⟩ root = .ok p ∧
      lockfilePath fs 0 ⟨none, none⟩ (some root) = .ok q ∧ resolve [slash] p ≠ resolve [slash] q :=
  ⟨.plain, ⟨[slash, 0xFF], by decide⟩, _, _, rfl, rfl, rfl, by decide +kernel⟩

end Beethoven.Daemon
