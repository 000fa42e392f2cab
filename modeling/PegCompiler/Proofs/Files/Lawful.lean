import PegCompiler.Files.Tree

/-!
What a command may rely on where files are. `Files.Lawful` says it of any state that files are kept in;
a file tree is lawful (`FileTree.lawful`). That what is written to a tree can be read again rests on the
new file being below a directory: so no path leads elsewhere than before (`FileTree.follow_put`).
-/

namespace PegCompiler

/-- What there is at a path. -/
def Files.content {σ : Type} [Files (StateM σ)] (s : σ) (path : Path) : Except FileTrouble Bytes :=
  ((Files.read path : StateM σ _).run s).1

/-- Looking changes nothing, a new directory leaves the files as they are, and what was written can be
read. `held` is what the files hold. -/
structure Files.Lawful {σ α : Type} [Files (StateM σ)] (held : σ → α) : Prop where
  read (path : Path) (s : σ) : ((Files.read path : StateM σ _).run s).2 = s
  isDirectory (path : Path) (s : σ) : ((Files.isDirectory path : StateM σ Bool).run s).2 = s
  makeDirectory (path : Path) (s : σ) : held ((Files.makeDirectory path : StateM σ _).run s).2 = held s
  written {path : Path} {bytes : Bytes} {s after : σ} :
    (Files.write path bytes : StateM σ _).run s = (.ok (), after) → Files.content after path = .ok bytes

namespace Files

variable {σ α β γ : Type} {held : σ → α}

/-- An action leaves what the files hold as it is. -/
def Keeps (held : σ → α) (action : StateM σ β) : Prop := ∀ s, held (action.run s).2 = held s

theorem Keeps.pure (b : β) : Keeps held (pure b) := fun _ => rfl

theorem Keeps.bind {action : StateM σ β} {next : β → StateM σ γ} (first : Keeps held action)
    (then' : ∀ b, Keeps held (next b)) : Keeps held (action >>= next) :=
  fun s => (then' _ _).trans (first s)

variable [Files (StateM σ)] (lawful : Files.Lawful held)

include lawful

theorem ensure_keeps (path : Path) (answer : Except FileTrouble Unit) :
    Keeps held (ensure path answer) := by
  unfold ensure
  split
  · exact .pure _
  · refine .bind (fun s => congrArg held (lawful.isDirectory path s)) fun directory => ?_
    split
    · exact .pure _
    · exact .pure _

/-- Making directories leaves the files as they are. -/
theorem makeAll_keeps (slashes : Nat) (reversed : List Text) : Keeps held (makeAll slashes reversed) := by
  induction reversed with
  | nil => exact .bind (lawful.makeDirectory _) fun answer => ensure_keeps lawful _ answer
  | cons name above ih =>
    refine .bind (lawful.makeDirectory _) fun answer => ?_
    split
    · refine .bind ih fun made => ?_
      split
      · exact .pure _
      · exact .bind (lawful.makeDirectory _) fun answer => ensure_keeps lawful _ answer
    · exact ensure_keeps lawful _ answer

theorem makeDirectories_keeps (path : Path) : Keeps held (makeDirectories path) :=
  makeAll_keeps lawful _ _

end Files

namespace FileTree

variable {tree : FileTree} {place other : FilePlace} {bytes : Bytes}

theorem isDirectory_above (above : other <+: place) (directory : tree.isDirectory place = true) :
    tree.isDirectory other = true := by
  simp only [isDirectory, Bool.or_eq_true, List.any_eq_true, Bool.and_eq_true, List.isPrefixOf_iff_prefix,
    decide_eq_true_eq] at directory ⊢
  rcases directory with (working | ⟨below, member, leads⟩) | ⟨file, member, leads, longer⟩
  · exact .inl (.inl (above.trans working))
  · exact .inl (.inr ⟨below, member, above.trans leads⟩)
  · exact .inr ⟨file, member, above.trans leads, Nat.lt_of_le_of_lt above.length_le longer⟩

/-- A place that can be reached: a directory, or something that is or could be in one. -/
def Reachable (tree : FileTree) (place : FilePlace) : Prop :=
  tree.isDirectory place = true ∨ ∃ above name, place = above ++ [name] ∧ tree.isDirectory above = true

theorem follow_reachable {names : List Text} {target : FilePlace} (start : tree.Reachable place)
    (leads : tree.follow place names = .ok target) : tree.Reachable target := by
  induction names generalizing place with
  | nil =>
    cases leads
    exact start
  | cons name rest ih =>
    rw [follow] at leads
    split at leads
    · rename_i directory
      refine ih ?_ leads
      split
      · exact .inl (isDirectory_above (List.dropLast_prefix place) directory)
      · exact .inr ⟨place, name, rfl, directory⟩
    · split at leads <;> cases leads

theorem resolve_reachable {path : Path} {target : FilePlace} (leads : tree.resolve path = .ok target) :
    tree.Reachable target := by
  unfold resolve at leads
  split at leads
  · refine follow_reachable (.inl ?_) leads
    split <;> simp [isDirectory]
  · cases leads

theorem any_put (holds : FilePlace → Bool) (files : List (FilePlace × Bytes)) :
    (put place bytes files).any (fun (file, _) => holds file) =
      (holds place || files.any fun (file, _) => holds file) := by
  induction files with
  | nil => rfl
  | cons entry rest ih =>
    by_cases same : entry.1 = place
    · simp [put, same]
    · simp only [put, same, if_false, List.any_cons, ih]
      exact Bool.or_left_comm ..

/-- A file in a directory makes no new directories. -/
theorem isDirectory_put {above : FilePlace} {name : Text} (directory : tree.isDirectory above = true) :
    isDirectory { tree with files := put (above ++ [name]) bytes tree.files } other =
      tree.isDirectory other := by
  have known : (other.isPrefixOf (above ++ [name]) && other.length < (above ++ [name]).length) = true →
      tree.isDirectory other = true := by
    rw [Bool.and_eq_true, List.isPrefixOf_iff_prefix, decide_eq_true_eq]
    rintro ⟨leads, longer⟩
    refine isDirectory_above ((List.prefix_concat_iff.mp leads).resolve_left ?_) directory
    rintro rfl
    exact Nat.lt_irrefl _ longer
  simp only [isDirectory, any_put fun file => other.isPrefixOf file && other.length < file.length]
    at known ⊢
  cases new : other.isPrefixOf (above ++ [name]) && decide (other.length < (above ++ [name]).length) with
  | false => rw [Bool.false_or]
  | true => rw [Bool.true_or, Bool.or_true, known new]

/-- A path leads to the same place as before. -/
theorem follow_put {above : FilePlace} {name : Text} (directory : tree.isDirectory above = true)
    {start target : FilePlace} {names : List Text} (leads : tree.follow start names = .ok target) :
    follow { tree with files := put (above ++ [name]) bytes tree.files } start names = .ok target := by
  induction names generalizing start with
  | nil => exact leads
  | cons next rest ih =>
    rw [follow] at leads ⊢
    rw [isDirectory_put directory]
    split at leads
    · rw [if_pos ‹_›]
      exact ih leads
    · split at leads <;> cases leads

/-- What was written can be read. -/
theorem read_of_write {after : FileTree} {path : Path} (written : tree.write path bytes = .ok after) :
    after.read path = .ok bytes := by
  unfold write at written
  cases leads : tree.resolve path with
  | error trouble =>
    rw [leads] at written
    cases written
  | ok place =>
    rw [leads] at written
    cases free : tree.isDirectory place with
    | true =>
      simp only [bind, Except.bind, free, if_true] at written
      cases written
    | false =>
      obtain directory | ⟨above, name, rfl, directory⟩ := resolve_reachable leads
      · exact absurd (directory.symm.trans free) nofun
      · simp only [bind, Except.bind, free, Bool.false_eq_true, if_false] at written
        cases written
        have again : resolve { tree with files := put (above ++ [name]) bytes tree.files } path =
            .ok (above ++ [name]) := by
          unfold resolve at leads ⊢
          split at leads
          · rw [if_pos ‹_›]
            exact follow_put directory leads
          · cases leads
        simp only [read, again, bind, Except.bind, isDirectory_put directory, free, file?, lookup_put_self,
          Bool.false_eq_true, if_false]
        rfl

theorem files_of_makeDirectory {after : FileTree} {path : Path}
    (made : tree.makeDirectory path = .ok after) : after.files = tree.files := by
  unfold makeDirectory at made
  cases leads : tree.resolve path with
  | error trouble =>
    rw [leads] at made
    cases made
  | ok place =>
    simp only [leads, bind, Except.bind] at made
    split at made
    · cases made
    · cases made
      rfl

/-- A file tree is a place to rely on. -/
theorem lawful : Files.Lawful FileTree.files where
  read _ _ := rfl
  isDirectory path tree := by
    simp only [Files.isDirectory, StateT.run_bind, StateT.run_get, pure_bind]
    split <;> rfl
  makeDirectory path tree := by
    change (step (·.makeDirectory path) tree).2.files = tree.files
    unfold step
    split
    · exact files_of_makeDirectory ‹_›
    · rfl
  written {path bytes tree after} written := by
    change step (·.write path bytes) tree = _ at written
    unfold step at written
    split at written
    · cases written
      exact read_of_write ‹_›
    · cases written

end FileTree

end PegCompiler
