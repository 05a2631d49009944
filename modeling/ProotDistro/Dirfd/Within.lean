import ProotDistro.Dirfd

/-!
# What an operation under a name may change

An operation named as (directory, name) changes nothing but what lies at or below that entry: it either
makes or removes it, or writes a file whose inode it has made itself. A procedure put together from such
operations keeps all that is outside a set of paths.

* **`Within`** — the tree differs from an earlier one only in a set of paths.
* **`Fresh`** — a file whose inode has one name; what is written to it is seen nowhere else.
* the `_within` lemmas, one for each operation.
-/

namespace ProotDistro

open Posix

namespace Dirfd

/-- The tree differs from `before` only at the paths of `S`. -/
def Within (S : Path → Prop) (before fs : Fs) : Prop := ∀ q, ¬ S q → fs.get q = before.get q

/-- A file stands under the name, and its inode has no other. -/
def Fresh (d : Path) (name : Name) (fs : Fs) : Prop :=
  ∃ ino data, fs.get (d ++ [name]) = some (.file ino data) ∧
    ∀ q data', fs.get q = some (.file ino data') → q = d ++ [name]

section Operations

variable {S : Path → Prop} {before fs fs' : Fs} {umask mode : Mode} {d : Path} {name : Name}
  {parts : List Name} {content : Bytes}

/-- A tree differs from itself nowhere. -/
theorem Within.refl (S : Path → Prop) (fs : Fs) : Within S fs fs := fun _ _ => rfl

/-- A further change at the same places. -/
theorem Within.of_get (h : Within S before fs) (hget : ∀ q, ¬ S q → fs'.get q = fs.get q) :
    Within S before fs' :=
  fun q hq => (hget q hq).trans (h q hq)

/-- A change at one path only. -/
theorem Within.of_ite (h : Within S before fs) {p : Path} {o : Option Entry} (hp : S p)
    (hget : ∀ q, fs'.get q = if q = p then o else fs.get q) : Within S before fs' := by
  apply h.of_get
  intro q hq
  rw [hget, if_neg]
  intro heq
  exact hq (heq ▸ hp)

/-! ## Making and removing -/

/-- A new directory changes its place alone. -/
theorem mkdirAt_within (hS : S (d ++ [name])) :
    Proc.Keeps (Within S before) (Proc.change (·.mkdirAt d name mode) : Sys Unit) fun _ => True := by
  apply Proc.Keeps.change
  intro fs fs' h hfs'
  obtain ⟨-, -, -, hget⟩ := Fs.mknodAt_ok hfs'
  exact h.of_ite hS hget

theorem symlinkAt_within {target : List Char} (hS : S (d ++ [name])) :
    Proc.Keeps (Within S before) (Proc.change (·.symlinkAt target d name) : Sys Unit) fun _ => True := by
  apply Proc.Keeps.change
  intro fs fs' h hfs'
  obtain ⟨-, -, -, hget⟩ := Fs.mknodAt_ok hfs'
  exact h.of_ite hS hget

theorem unlinkAt_within (hv : ValidName name) (hS : S (d ++ [name])) :
    Proc.Keeps (Within S before) (unlinkAt d name) fun _ => True := by
  apply Proc.Keeps.change
  intro fs fs' h hfs'
  obtain ⟨-, hget⟩ := Fs.unlinkAt_ok hfs'
  rw [Fs.locate_valid hv] at hget
  exact h.of_ite hS hget

/-- A removal changes the entry and what is below it. -/
theorem rmtreeAt_within (hv : ValidName name) (hS : ∀ r, S (d ++ name :: r)) :
    Proc.Keeps (Within S before) (rmtreeAt d name) fun _ => True := by
  intro fs h
  obtain ⟨fs', hrun, hget⟩ := rmtreeAt_spec fs d hv
  rw [hrun]
  refine ⟨h.of_get fun q hq => ?_, trivial⟩
  rw [hget, if_neg]
  rintro ⟨r, rfl⟩
  rw [List.append_assoc] at hq
  exact hq (hS r)

/-- A look changes nothing. -/
theorem lstatAt_within : Proc.Keeps (Within S before) (lstatAt d name) fun _ => True :=
  Proc.Keeps.look fun _ _ _ _ => trivial

/-! ## Walking -/

/-- A step down changes nothing but the directory it may make. -/
theorem descendLevel_within {create : Bool} (hv : ValidName name) (hS : create = true → S (d ++ [name])) :
    Proc.Keeps (Within S before) (descendLevel umask create d name) fun fd => fd = d ++ [name] := by
  have hopen : Proc.Keeps (Within S before) (opendirAt d name) fun fd => fd = d ++ [name] := by
    apply Proc.Keeps.look
    intro fs fd _ hfd
    unfold Fs.openDirAt at hfd
    rw [Fs.locate_valid hv] at hfd
    split at hfd
    · exact (Except.ok.inj hfd).symm
    · cases hfd
    · cases hfd
  apply hopen.handle
  intro e
  split
  · rename_i hcond
    exact (mkdirAt_within (hS hcond.2)).ignoring.bind fun _ _ => hopen
  · exact Proc.Keeps.fail

/-- A walk makes nothing but levels of its own path. -/
theorem descendAt_within {create : Bool} (hv : ∀ c ∈ parts, ValidName c)
    (hS : create = true → ∀ r, r ≠ [] → r <+: parts → S (d ++ r)) :
    Proc.Keeps (Within S before) (descendAt umask create d parts) fun fd => fd = d ++ parts := by
  induction parts generalizing d with
  | nil => exact Proc.Keeps.pure (List.append_nil d).symm
  | cons part parts ih =>
    unfold descendAt
    apply (descendLevel_within (hv part List.mem_cons_self) fun hc =>
      hS hc [part] (by simp) ⟨parts, rfl⟩).bind
    rintro fd rfl
    have hrest := ih (d := d ++ [part]) (fun c hc => hv c (List.mem_cons_of_mem part hc)) fun hc r hr hpre => by
      rw [List.append_assoc]
      exact hS hc (part :: r) (by simp) ((List.prefix_cons_inj part).mpr hpre)
    apply hrest.mono
    intro fd hfd
    rw [hfd, List.append_assoc]
    rfl

/-! ## Writing -/

/-- Nothing is opened in what is no directory. -/
theorem openNewAt_of_no_dir (hv : ValidName name) (h : ¬ fs.IsDir d) :
    openNewAt umask d name mode fs = (.error .ENOENT, fs) := by
  have hcreate : createAt umask d name mode fs = (.error .ENOENT, fs) :=
    Proc.change_of_error (Fs.mknodAt_of_no_dir hv h)
  unfold openNewAt
  rw [Proc.handle_of_error hcreate, if_neg (by decide)]
  rfl

/-- A file that was made has an inode of its own. -/
theorem openNewAt_within (hv : ValidName name) (hS : S (d ++ [name])) :
    Proc.Triple (Within S before) (openNewAt umask d name mode)
      (fun _ fs => Within S before fs ∧ Fresh d name fs) (Within S before) := by
  intro fs h
  by_cases hd : fs.IsDir d
  · by_cases hnew : fs.IsDir (d ++ [name])
    · rw [openNewAt_of_isDir hnew]
      exact h
    · obtain ⟨fs', ino, hrun, hget, hunique⟩ := openNewAt_of_not_isDir umask mode hv hd hnew
      rw [hrun]
      refine ⟨h.of_ite hS hget, ino, _, by rw [hget, if_pos rfl], fun q data' hq => ?_⟩
      by_contra hne
      rw [hget, if_neg hne] at hq
      exact hne (hunique q data' hq)
  · rw [openNewAt_of_no_dir hv hd]
    exact h

/-- What is written to such a file changes nothing else, and is never refused. -/
theorem modifyAt_within {f : FileData → FileData} {E : Fs → Prop} (hS : S (d ++ [name])) :
    Proc.Triple (fun fs => Within S before fs ∧ Fresh d name fs)
      (Proc.change (·.modifyAt d name f) : Sys Unit)
      (fun _ fs => Within S before fs ∧ Fresh d name fs) E := by
  rintro fs ⟨h, ino, data, hfile, hunique⟩
  obtain ⟨fs', hrun, hget⟩ := change_modifyAt (f := f) hfile hunique
  rw [hrun]
  refine ⟨h.of_ite hS hget, ino, _, by rw [hget, if_pos rfl], fun q data' hq => ?_⟩
  by_contra hne
  rw [hget, if_neg hne] at hq
  exact hne (hunique q data' hq)

end Operations

end Dirfd

end ProotDistro
