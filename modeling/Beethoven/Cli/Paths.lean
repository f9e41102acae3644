import Beethoven.Lib.FileTree
import Mathlib.Data.List.Lex
import Mathlib.Data.Prod.Lex
import Mathlib.Data.Char

/-!
# Paths of the command line

Paths are texts. The operating system splits a path at its slashes and follows the pieces; the
library of Rust compares, shortens and orders paths by their components, where repeated slashes and
dots in the middle disappear. For a normalized absolute path both are the list of its names.
-/

namespace Beethoven.Cli

open Lib

/-- A text, and the name of a file. -/
abbrev Text : Type := List Char

/-! ### How the operating system reads a path -/

/-- What a piece of a path stands for. -/
def toComponent (piece : Text) : Component Text :=
  if piece = [] ∨ piece = ".".toList then .here
  else if piece = "..".toList then .up
  else .name piece

/-- The pieces between the slashes of a path. -/
def osComponents (path : Text) : List (Component Text) := (path.splitOn '/').map toComponent

/-- A name that stands for itself in a path. -/
def Plain (name : Text) : Prop :=
  name ≠ [] ∧ name ≠ ".".toList ∧ name ≠ "..".toList ∧ '/' ∉ name

instance (name : Text) : Decidable (Plain name) := inferInstanceAs (Decidable (_ ∧ _))

/-- Where a path begins. -/
def startOf (cwd : List Text) (path : Text) : List Text :=
  if path.head? = some '/' then [] else cwd

/-- The place that a path leads to, if everything on the way is a directory. -/
def place (cwd : List Text) (path : Text) : List Text :=
  Component.follow (startOf cwd path) (osComponents path)

/-! ### How the library reads a path -/

/-- `std::path::Component`. -/
inductive PathComponent
  | rootDir
  | curDir
  | parentDir
  | normal (name : Text)
  deriving DecidableEq, Repr

namespace PathComponent

/-- The place of a component in the order of components: first its kind, then its name. -/
def key : PathComponent → ℕ ×ₗ List Char
  | rootDir => toLex (0, [])
  | curDir => toLex (1, [])
  | parentDir => toLex (2, [])
  | normal name => toLex (3, name)

theorem key_injective : Function.Injective key := by
  intro a b h
  cases a <;> cases b <;> simp_all [key]

instance : LinearOrder PathComponent := LinearOrder.lift' key key_injective

/-- How the operating system follows a component. -/
def toOs : PathComponent → Component Text
  | rootDir => .here
  | curDir => .here
  | parentDir => .up
  | normal name => .name name

/-- The component of a piece behind the first one. -/
def ofPiece (piece : Text) : Option PathComponent :=
  if piece = [] ∨ piece = ".".toList then none
  else if piece = "..".toList then some .parentDir
  else some (.normal piece)

end PathComponent

/-- `Path::components`. -/
def pathComponents (path : Text) : List PathComponent :=
  let pieces := path.splitOn '/'
  let rest := pieces.filterMap PathComponent.ofPiece
  if path.head? = some '/' then .rootDir :: rest
  else if pieces.head? = some ".".toList then .curDir :: rest
  else rest

/-- `Path::file_name`. -/
def fileName (path : Text) : Option Text :=
  match (pathComponents path).getLast? with
  | some (.normal name) => some name
  | _ => none

/-- The text of `Path::parent`, for a path that ends with a name behind another one. -/
def parentText (path : Text) : Text := ((path.reverse.dropWhile (· ≠ '/')).drop 1).reverse

/-- `Path::join`. -/
def joinPath (path name : Text) : Text :=
  if name.head? = some '/' then name
  else if path = [] ∨ path.getLast? = some '/' then path ++ name
  else path ++ ['/'] ++ name

/-- Where a path begins that is given by its components. -/
def startOfComponents (cwd : List Text) (path : List PathComponent) : List Text :=
  if path.head? = some .rootDir then [] else cwd

/-- The place that the components of a path lead to, if everything on the way is a directory. -/
def placeOfComponents (cwd : List Text) (path : List PathComponent) : List Text :=
  Component.follow (startOfComponents cwd path) (path.map PathComponent.toOs)

/-- A place on the way to a path that is given by its components. -/
def OnTheWay (cwd : List Text) (path : List PathComponent) (p : List Text) : Prop :=
  ∃ cs, cs ≠ [] ∧ cs <+: path ∧ p = placeOfComponents cwd cs

/-! ### Joined paths -/

theorem splitOn_append_slash (path name : Text) :
    (path ++ '/' :: name).splitOn '/' = path.splitOn '/' ++ name.splitOn '/' :=
  List.splitOnP_append_cons path name (by decide)

/-- The components of a joined path are those of the path, but for a piece behind its last slash,
and those of the name. -/
theorem osComponents_joinPath (path : Text) {name : Text} (hname : name.head? ≠ some '/') :
    ∃ cs, osComponents (joinPath path name) = cs ++ osComponents name ∧
      (osComponents path = cs ∨ osComponents path = cs ++ [.here]) := by
  rw [joinPath, if_neg hname]
  split_ifs with hslash
  · rcases hslash with rfl | hslash
    · exact ⟨[], rfl, .inr rfl⟩
    · obtain ⟨path, rfl⟩ := List.getLast?_eq_some_iff.mp hslash
      refine ⟨osComponents path, ?_, .inr ?_⟩
      · rw [List.append_assoc, List.singleton_append, osComponents, splitOn_append_slash,
          List.map_append]
        rfl
      · rw [osComponents, splitOn_append_slash, List.map_append]
        rfl
  · refine ⟨osComponents path, ?_, .inl rfl⟩
    rw [List.append_assoc, List.singleton_append, osComponents, splitOn_append_slash,
      List.map_append]
    rfl

theorem startOf_joinPath (cwd : List Text) (path : Text) {name : Text}
    (hname : name.head? ≠ some '/') : startOf cwd (joinPath path name) = startOf cwd path := by
  have hhead : (joinPath path name).head? = some '/' ↔ path.head? = some '/' := by
    rw [joinPath, if_neg hname]
    cases path with
    | nil => simpa using hname
    | cons c path => split_ifs <;> rfl
  rw [startOf, startOf]
  simp only [hhead]

theorem place_joinPath (cwd : List Text) (path : Text) {name : Text}
    (hname : name.head? ≠ some '/') :
    place cwd (joinPath path name) = Component.follow (place cwd path) (osComponents name) := by
  obtain ⟨cs, hjoin, hpath⟩ := osComponents_joinPath path hname
  rw [place, place, startOf_joinPath cwd path hname, hjoin, Component.follow_append]
  rcases hpath with hpath | hpath <;> rw [hpath]
  rw [Component.follow_concat_here]

theorem splitOn_append_of_notMem (path : Text) {s : Text} (hs : '/' ∉ s) :
    ∃ pieces last, path.splitOn '/' = pieces ++ [last] ∧
      (path ++ s).splitOn '/' = pieces ++ [last ++ s] := by
  induction path with
  | nil => exact ⟨[], [], rfl, List.splitOn_eq_singleton hs⟩
  | cons c path ih =>
    obtain ⟨pieces, last, hpath, happend⟩ := ih
    by_cases hc : c = '/'
    · subst hc
      refine ⟨[] :: pieces, last, ?_, ?_⟩
      · exact (splitOn_append_slash [] path).trans (by rw [hpath]; rfl)
      · exact (splitOn_append_slash [] (path ++ s)).trans (by rw [happend]; rfl)
    · have hcons (t : Text) : (c :: t).splitOn '/' = (t.splitOn '/').modifyHead (c :: ·) := by
        rw [List.splitOn, List.splitOnP_cons_eq_if_modifyHead, if_neg (by simpa using hc)]
        rfl
      rw [List.cons_append, hcons, hcons, hpath, happend]
      cases pieces with
      | nil => exact ⟨[], c :: last, rfl, rfl⟩
      | cons piece pieces => exact ⟨(c :: piece) :: pieces, last, rfl, rfl⟩

/-! ### Normalized absolute paths -/

/-- The normalized absolute path with the names. -/
def absoluteText (names : List Text) : Text :=
  if names = [] then ['/'] else List.intercalate ['/'] ([] :: names)

/-- The text is the normalized absolute path with the names. -/
structure Normalized (path : Text) (names : List Text) : Prop where
  plain : ∀ name ∈ names, Plain name
  path_eq : path = absoluteText names

/-- The components of the absolute path with the names. -/
def absolute (names : List Text) : List PathComponent := .rootDir :: names.map .normal

theorem absolute_injective : Function.Injective absolute := by
  intro p q h
  have hinj : Function.Injective PathComponent.normal := fun _ _ h => PathComponent.normal.inj h
  exact List.map_injective_iff.mpr hinj (List.cons.inj h).2

theorem Plain.toComponent_eq {name : Text} (h : Plain name) : toComponent name = .name name := by
  rw [toComponent, if_neg (not_or.mpr ⟨h.1, h.2.1⟩), if_neg h.2.2.1]

theorem Plain.ofPiece_eq {name : Text} (h : Plain name) :
    PathComponent.ofPiece name = some (.normal name) := by
  rw [PathComponent.ofPiece, if_neg (not_or.mpr ⟨h.1, h.2.1⟩), if_neg h.2.2.1]

theorem Plain.head?_ne {name : Text} (h : Plain name) : name.head? ≠ some '/' :=
  fun hhead => h.2.2.2 (List.mem_of_head? hhead)

theorem Plain.osComponents_eq {name : Text} (h : Plain name) :
    osComponents name = [.name name] := by
  rw [osComponents, List.splitOn_eq_singleton h.2.2.2, List.map_singleton, h.toComponent_eq]

theorem intercalate_slash (name : Text) (names : List Text) :
    List.intercalate ['/'] (name :: names) = name ++ names.flatMap ('/' :: ·) := by
  induction names generalizing name with
  | nil => simp
  | cons name' names ih => simp [List.intercalate_cons_cons, ih]

namespace Normalized

variable {path : Text} {names : List Text}

theorem splitOn_eq (h : Normalized path names) :
    path.splitOn '/' = if names = [] then [[], []] else [] :: names := by
  rw [h.path_eq, absoluteText]
  split_ifs with hnil
  · rfl
  · refine List.splitOn_intercalate '/' ?_ (List.cons_ne_nil _ _)
    intro name hname
    rcases List.mem_cons.mp hname with rfl | hname
    · exact List.not_mem_nil
    · exact (h.plain name hname).2.2.2

theorem head?_eq (h : Normalized path names) : path.head? = some '/' := by
  rw [h.path_eq, absoluteText]
  split_ifs with hnil
  · rfl
  · obtain ⟨name, rest, rfl⟩ := List.exists_cons_of_ne_nil hnil
    rw [List.intercalate_cons_cons]
    rfl

theorem startOf_eq (h : Normalized path names) (cwd : List Text) : startOf cwd path = [] := by
  rw [startOf, if_pos h.head?_eq]

theorem pathComponents_eq (h : Normalized path names) :
    pathComponents path = absolute names := by
  have hnormal : names.filterMap PathComponent.ofPiece = names.map .normal := by
    rw [← List.filterMap_eq_map]
    exact List.filterMap_congr fun name hname => (h.plain name hname).ofPiece_eq
  rw [pathComponents, if_pos h.head?_eq, h.splitOn_eq, absolute]
  split_ifs with hnil
  · subst hnil
    rfl
  · rw [List.filterMap_cons_none (by rfl), hnormal]

theorem osComponents_eq (h : Normalized path names) :
    osComponents path = .here :: if names = [] then [.here] else names.map .name := by
  have hnames : names.map toComponent = names.map .name :=
    List.map_congr_left fun name hname => (h.plain name hname).toComponent_eq
  rw [osComponents, h.splitOn_eq]
  split_ifs with hnil
  · rfl
  · rw [List.map_cons, hnames]
    rfl

theorem place_eq (h : Normalized path names) (cwd : List Text) : place cwd path = names := by
  rw [place, h.startOf_eq, h.osComponents_eq]
  split_ifs with hnil
  · rw [hnil]
    rfl
  · exact (Component.follow_names [] names).trans (List.nil_append names)

/-- A path other than the root ends with its last name, which has no slash. -/
theorem getLast?_ne (h : Normalized path names) (hne : names ≠ []) :
    path.getLast? ≠ some '/' := by
  have hlast : Plain (names.getLast hne) := h.plain _ (List.getLast_mem hne)
  rw [h.path_eq, absoluteText, if_neg hne, intercalate_slash, List.nil_append,
    ← List.dropLast_append_getLast hne, List.flatMap_append, List.flatMap_singleton,
    List.getLast?_append_of_ne_nil _ (List.cons_ne_nil _ _),
    List.getLast?_cons_of_ne_nil hlast.1]
  exact fun hslash => hlast.2.2.2 (List.mem_of_getLast? hslash)

theorem join (h : Normalized path names) {name : Text} (hname : Plain name) :
    Normalized (joinPath path name) (names ++ [name]) := by
  refine ⟨fun n hn => ?_, ?_⟩
  · rcases List.mem_append.mp hn with hn | hn
    · exact h.plain n hn
    · rwa [List.mem_singleton.mp hn]
  · rw [absoluteText, if_neg (by simp), intercalate_slash, List.nil_append,
      List.flatMap_append, List.flatMap_singleton, joinPath, if_neg hname.head?_ne]
    by_cases hnil : names = []
    · obtain rfl : path = ['/'] := by rw [h.path_eq, absoluteText, if_pos hnil]
      rw [hnil]
      rfl
    · have hpath : path = names.flatMap ('/' :: ·) := by
        rw [h.path_eq, absoluteText, if_neg hnil, intercalate_slash, List.nil_append]
      have hne : path ≠ [] := fun hpath => by
        have hhead := h.head?_eq
        rw [hpath] at hhead
        cases hhead
      rw [if_neg (not_or.mpr ⟨hne, h.getLast?_ne hnil⟩), ← hpath, List.append_assoc]
      rfl

end Normalized

theorem prefix_of_onTheWay {cwd names p : List Text} (h : OnTheWay cwd (absolute names) p) :
    p <+: names := by
  obtain ⟨cs, hne, hcs, rfl⟩ := h
  obtain ⟨c, cs, rfl⟩ := List.exists_cons_of_ne_nil hne
  obtain ⟨hc, hrest⟩ := List.cons_prefix_cons.mp hcs
  obtain ⟨ns, hns, hmap⟩ := List.prefix_map_iff.mp hrest
  subst hc hmap
  have hplace : placeOfComponents cwd (.rootDir :: ns.map .normal) =
      Component.follow [] (ns.map .name) := by
    simp [placeOfComponents, startOfComponents, PathComponent.toOs, Component.follow,
      Component.next, Function.comp_def]
  rwa [hplace, Component.follow_names, List.nil_append]

end Beethoven.Cli
