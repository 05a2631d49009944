import Mathlib.Data.List.DropRight
import ProotDistro.Posix.Chroot

/-!
# Paths as strings

A relative path is written with a slash between its components. For components that are
names of entries the string says it all: `splitPath_joinPath` reads the components back,
and the string operations a program takes paths apart with give the parts they are meant to
give (`basename_joinPath`, `dirname_joinPath`, `rpartition_joinPath`).
-/

namespace Posix

/-- Components with a slash between them. -/
def joinPath (p : Path) : List Char := List.intercalate ['/'] p

/-- Components with a slash after each: what stands in front of a name below them. -/
def joinDir (p : Path) : List Char := p.flatMap (· ++ ['/'])

/-- `os.path.basename` -/
def basename (path : List Char) : Name := (splitPath path).getLastD []

/-- What stands in front of the basename. -/
def pathHead (path : List Char) : List Char := path.take (path.length - (basename path).length)

/-- `os.path.dirname` -/
def dirname (path : List Char) : List Char :=
  let head := pathHead path
  if head.all (· = '/') then head else head.rdropWhile (· = '/')

/-- `path.rpartition("/")`, its two outer parts. -/
def rpartition (path : List Char) : List Char × Name := ((pathHead path).dropLast, basename path)

/-- `os.path.join(a, b)` -/
def osJoin (a b : List Char) : List Char :=
  if b.head? = some '/' then b
  else if a = [] ∨ a.getLast? = some '/' then a ++ b
  else a ++ '/' :: b

/-- The components `os.path.normpath` keeps. -/
def normComps (rooted : Bool) (comps : List Name) : List Name :=
  comps.foldl (fun kept c =>
    if c = [] ∨ c = ['.'] then kept
    else if c ≠ ['.', '.'] ∨ (rooted = false ∧ kept = []) ∨ kept.getLast? = some ['.', '.'] then
      kept ++ [c]
    else kept.dropLast) []

/-- `os.path.normpath`; two leading slashes stay two. -/
def normPath (path : List Char) : List Char :=
  let slashes := path.takeWhile (· = '/')
  let start := if slashes.length = 2 then slashes else slashes.take 1
  let result := start ++ joinPath (normComps (start ≠ []) (splitPath path))
  if result = [] then ['.'] else result

section Join

variable {p q r : Path} {x : Name}

@[simp] theorem joinPath_nil : joinPath [] = [] := rfl

@[simp] theorem joinDir_nil : joinDir [] = [] := rfl

@[simp] theorem joinDir_append (p q : Path) : joinDir (p ++ q) = joinDir p ++ joinDir q := by
  simp [joinDir]

@[simp] theorem joinDir_singleton (x : Name) : joinDir [x] = x ++ ['/'] := by
  simp [joinDir]

/-- The text of a path through a directory. -/
theorem joinPath_append (p : Path) (hr : r ≠ []) : joinPath (p ++ r) = joinDir p ++ joinPath r := by
  induction p with
  | nil => simp
  | cons c p ih =>
    have hne : p ++ r ≠ [] := by simp [hr]
    unfold joinPath at ih ⊢
    rw [List.cons_append, List.intercalate_cons_of_ne_nil hne, ih]
    simp [joinDir]

/-- That of a member of a directory. -/
theorem joinPath_concat (p : Path) (x : Name) : joinPath (p ++ [x]) = joinDir p ++ x := by
  rw [joinPath_append p (by simp)]
  simp [joinPath]

/-- A path with a slash behind it names its directory. -/
theorem joinPath_slash (hp : p ≠ []) : joinPath p ++ ['/'] = joinDir p := by
  obtain ⟨init, last, rfl⟩ := (List.eq_nil_or_concat' p).resolve_left hp
  rw [joinPath_concat, joinDir_append, joinDir_singleton, List.append_assoc]

theorem joinPath_dropLast (p : Path) : (joinDir p).dropLast = joinPath p := by
  cases hp : p with
  | nil => rfl
  | cons c p =>
    rw [← joinPath_slash (by simp), List.dropLast_concat]

/-- A path above another is a prefix of its text. -/
theorem isPrefix_joinPath (h : p <+: q) : joinPath p <+: joinPath q := by
  obtain ⟨r, rfl⟩ := h
  by_cases hr : r = []
  · rw [hr, List.append_nil]
  · rw [joinPath_append p hr, ← joinPath_dropLast]
    exact (List.dropLast_prefix _).trans (List.prefix_append _ _)

/-- In the order strings sort by, a prefix comes first. -/
theorem le_of_prefix {s t : List Char} (h : s <+: t) : s ≤ t := by
  obtain ⟨u, rfl⟩ := h
  cases u with
  | nil => rw [List.append_nil]
  | cons y u =>
    have hlt : List.Lex (· < ·) (s ++ []) (s ++ y :: u) :=
      List.Lex.append_left _ List.Lex.nil s
    rw [List.append_nil] at hlt
    exact le_of_lt hlt

end Join

/-! ## Reading a path back -/

section Read

variable {p q : Path} {x : Name}

/-- Paths are read back from their text. -/
theorem splitPath_joinPath (hne : p ≠ []) (hp : ∀ c ∈ p, Fs.NoSlash c) :
    splitPath (joinPath p) = p :=
  List.splitOn_intercalate '/' hp hne

theorem joinPath_inj (hp : p ≠ []) (hq : q ≠ []) (hp' : ∀ c ∈ p, Fs.NoSlash c)
    (hq' : ∀ c ∈ q, Fs.NoSlash c) (h : joinPath p = joinPath q) : p = q := by
  rw [← splitPath_joinPath hp hp', h, splitPath_joinPath hq hq']

/-- The last name of a text is the last of the path. -/
theorem basename_joinPath (h : ∀ c ∈ p ++ [x], Fs.NoSlash c) :
    basename (joinPath (p ++ [x])) = x := by
  unfold basename
  rw [splitPath_joinPath (by simp) h]
  simp

/-- The head is the directory, with its slash. -/
theorem pathHead_joinPath (h : ∀ c ∈ p ++ [x], Fs.NoSlash c) :
    pathHead (joinPath (p ++ [x])) = joinDir p := by
  unfold pathHead
  rw [basename_joinPath h, joinPath_concat, List.length_append, Nat.add_sub_cancel,
    List.take_left]

/-- The text is cut at the last name. -/
theorem rpartition_joinPath (h : ∀ c ∈ p ++ [x], Fs.NoSlash c) :
    rpartition (joinPath (p ++ [x])) = (joinPath p, x) := by
  unfold rpartition
  rw [pathHead_joinPath h, basename_joinPath h, joinPath_dropLast]

/-- No path has the empty text but the empty one. -/
theorem joinPath_ne_nil (hne : p ≠ []) (hv : ∀ c ∈ p, ValidName c) : joinPath p ≠ [] := by
  intro hnil
  have hsplit := splitPath_joinPath hne fun c hc => (hv c hc).no_slash
  rw [hnil] at hsplit
  have hempty : ([] : Name) ∈ p := by
    rw [← hsplit]
    exact List.mem_singleton.mpr rfl
  exact (hv [] hempty).nonempty rfl

/-- A path of ordinary names neither begins nor ends with a slash. -/
theorem joinPath_ends (hne : p ≠ []) (hv : ∀ c ∈ p, ValidName c) :
    (joinPath p).dropWhile (· = '/') = joinPath p ∧
      (joinPath p).rdropWhile (· = '/') = joinPath p := by
  have hslash : ∀ c ∈ p, ∀ y ∈ c, y ≠ '/' := fun c hc y hy hyeq =>
    (hv c hc).no_slash (hyeq ▸ hy)
  constructor
  · obtain ⟨c, r, rfl⟩ := List.exists_cons_of_ne_nil hne
    obtain ⟨y, c', rfl⟩ := List.exists_cons_of_ne_nil (hv c (by simp)).nonempty
    have hy : y ≠ '/' := hslash (y :: c') (by simp) y (by simp)
    have happ : joinPath ((y :: c') :: r) = y :: joinPath (c' :: r) := by
      unfold joinPath
      exact List.intercalate_cons_cons_left
    rw [happ, List.dropWhile_cons_of_neg (by simpa using hy)]
  · obtain ⟨init, c, rfl⟩ := (List.eq_nil_or_concat' p).resolve_left hne
    obtain ⟨c', y, rfl⟩ := (List.eq_nil_or_concat' c).resolve_left (hv c (by simp)).nonempty
    have hy : y ≠ '/' := hslash (c' ++ [y]) (by simp) y (by simp)
    rw [joinPath_concat, ← List.append_assoc, List.rdropWhile_concat_neg _ _ _ (by simpa using hy)]

/-- The directory of a text is that of the path. -/
theorem dirname_joinPath (h : ∀ c ∈ p ++ [x], ValidName c) :
    dirname (joinPath (p ++ [x])) = joinPath p := by
  have hslash : ∀ c ∈ p ++ [x], Fs.NoSlash c := fun c hc => (h c hc).no_slash
  unfold dirname
  simp only [pathHead_joinPath hslash]
  by_cases hp : p = []
  · subst hp
    rfl
  · have hv : ∀ c ∈ p, ValidName c := fun c hc => h c (by simp [hc])
    obtain ⟨hfirst, hlast⟩ := joinPath_ends hp hv
    rw [← joinPath_slash hp, List.rdropWhile_concat_pos _ _ _ (by simp), hlast, if_neg]
    -- the path begins with a character of its first name
    intro hall
    rw [List.all_eq_true] at hall
    have hempty : (joinPath p).dropWhile (· = '/') = [] :=
      List.dropWhile_eq_nil_iff.mpr fun y hy => hall y (by simp [hy])
    rw [hfirst] at hempty
    exact joinPath_ne_nil hp hv hempty

end Read

end Posix
