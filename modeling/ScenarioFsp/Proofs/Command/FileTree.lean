import ScenarioFsp.Command.FileTree

/-!
# Writing a file and reading it back

A path leads a writer to a location, and it leads a reader there as soon as the file has
been put down, if readers may open it (`read_put_of_target`). The file may be a new one: the
names in front of the last lead through directories that were there before, and a file that
is added takes none of them away. At every other location the tree is as it was
(`DiffersAt`).
-/

namespace ScenarioFsp

namespace Command

namespace FileTree

variable {t : FileTree} {location other added : Location} {name path : String}
  {content : ByteArray} {access : Access}

/-- Only what is kept at one location may differ. -/
structure DiffersAt (t t' : FileTree) (location : Location) : Prop where
  nodes : ∀ other, other ≠ location → t'.nodes.get? other = t.nodes.get? other
  workingDirectory : t'.workingDirectory = t.workingDirectory
  directories : t'.directories = t.directories
  barring : t'.barring = t.barring
  making : t'.making = t.making

theorem differsAt_put (t : FileTree) (location : Location) (content : ByteArray)
    (access : Access) : t.DiffersAt (t.put location content access) location where
  nodes other hne := (OrderedMap.get?_insert location other _ t.nodes).trans (if_neg hne)
  workingDirectory := rfl
  directories := rfl
  barring := rfl
  making := rfl

theorem get?_put (t : FileTree) (location : Location) (content : ByteArray) (access : Access) :
    (t.put location content access).nodes.get? location = some (.file content access) :=
  (OrderedMap.get?_insert location location _ t.nodes).trans (if_pos rfl)

theorem mem_keys_put (h : other ∈ t.nodes.keys) :
    other ∈ (t.put location content access).nodes.keys := by
  rw [OrderedMap.mem_keys_iff] at h ⊢
  unfold OrderedMap.hasKey at h ⊢
  by_cases hother : other = location
  · rw [hother, get?_put]
    rfl
  · rw [(differsAt_put t location content access).nodes other hother]
    exact h

/-! ## The way to a file -/

theorem exists_of_bind_eq_ok {ε α β : Type} {x : Except ε α} {f : α → Except ε β} {b : β}
    (h : (x >>= f) = .ok b) : ∃ a, x = .ok a ∧ f a = .ok b := by
  cases x with
  | error e => exact absurd h (by simp [bind, Except.bind])
  | ok a => exact ⟨a, rfl, h⟩

theorem isDirectory_iff : t.isDirectory location = true ↔
    leadsTo location t.workingDirectory = true ∨
      (∃ directory ∈ t.directories, leadsTo location directory = true) ∨
      ∃ key ∈ t.nodes.keys, leadsTo location key = true ∧ key ≠ location := by
  unfold isDirectory
  simp only [Bool.or_eq_true, List.any_eq_true, Bool.and_eq_true, decide_eq_true_eq, or_assoc]

theorem step_eq_ok_iff : t.step location name = .ok other ↔
    Nat.ble name.utf8ByteSize Path.maxNameBytes = true ∧ follow location name = other ∧
      (t.isDirectory other || t.nodes.hasKey other) = true := by
  unfold step
  cases hsize : Nat.ble name.utf8ByteSize Path.maxNameBytes with
  | false => simp
  | true =>
      rw [if_neg (by simp)]
      dsimp only
      split
      · rename_i hthere
        simp only [Except.ok.injEq, true_and]
        exact ⟨fun h => ⟨h, h ▸ hthere⟩, fun h => h.1⟩
      · rename_i hmissing
        simp only [reduceCtorEq, true_and, false_iff, not_and]
        exact fun h => h ▸ hmissing

theorem enter_eq_ok_iff : t.enter location = .ok other ↔
    t.isDirectory location = true ∧ t.barring location = none ∧ location = other := by
  unfold enter
  split
  · rename_i hdirectory
    cases t.barring location <;> simp [hdirectory]
  · rename_i hfile
    simp [hfile]

theorem descend_eq_ok_iff : t.descend location name = .ok other ↔
    Nat.ble name.utf8ByteSize Path.maxNameBytes = true ∧ follow location name = other ∧
      t.isDirectory other = true ∧ t.barring other = none := by
  refine ⟨fun h => ?_, fun ⟨hsize, hfollow, hdirectory, hopen⟩ => ?_⟩
  · obtain ⟨next, hstep, henter⟩ := exists_of_bind_eq_ok h
    obtain ⟨hdirectory, hopen, rfl⟩ := enter_eq_ok_iff.mp henter
    obtain ⟨hsize, hfollow, -⟩ := step_eq_ok_iff.mp hstep
    exact ⟨hsize, hfollow, hdirectory, hopen⟩
  · unfold descend
    rw [step_eq_ok_iff.mpr ⟨hsize, hfollow, by rw [hdirectory]; rfl⟩]
    exact enter_eq_ok_iff.mpr ⟨hdirectory, hopen, rfl⟩

/-! ## A file is added -/

theorem isDirectory_put (h : t.isDirectory other = true) :
    (t.put location content access).isDirectory other = true := by
  obtain hworking | hlisted | ⟨key, hkey, hleads⟩ := isDirectory_iff.mp h
  · exact isDirectory_iff.mpr (Or.inl hworking)
  · exact isDirectory_iff.mpr (Or.inr (Or.inl hlisted))
  · exact isDirectory_iff.mpr (Or.inr (Or.inr ⟨key, mem_keys_put hkey, hleads⟩))

/-- Whoever came into a directory still does. -/
theorem foldlM_descend_put {names : List String} {start : Location}
    (h : names.foldlM t.descend start = .ok other) :
    names.foldlM (t.put location content access).descend start = .ok other := by
  induction names generalizing start with
  | nil => exact h
  | cons name names ih =>
      rw [List.foldlM_cons] at h ⊢
      obtain ⟨next, hfirst, hrest⟩ := exists_of_bind_eq_ok h
      obtain ⟨hsize, hfollow, hdirectory, hopen⟩ := descend_eq_ok_iff.mp hfirst
      have hstill : (t.put location content access).descend start name = .ok next :=
        descend_eq_ok_iff.mpr ⟨hsize, hfollow, isDirectory_put hdirectory, hopen⟩
      rw [hstill]
      exact ih hrest

theorem parentOf_put {p : Path} (h : t.parentOf p = .ok other) :
    (t.put location content access).parentOf p = .ok other := by
  obtain ⟨start, henter, hnames⟩ := exists_of_bind_eq_ok h
  obtain ⟨hdirectory, hopen, hstart⟩ := enter_eq_ok_iff.mp henter
  have hstill : (t.put location content access).enter (t.startOf p) = .ok start :=
    enter_eq_ok_iff.mpr ⟨isDirectory_put hdirectory, hopen, hstart⟩
  show ((t.put location content access).enter (t.startOf p)).bind _ = _
  rw [hstill]
  exact foldlM_descend_put hnames

/-! ## The target of a path -/

theorem location_of_openAt (h : t.openAt other = .ok (.location location access)) :
    other = location := by
  unfold openAt at h
  split at h
  · cases hmaking : t.making other with
    | error e =>
        rw [hmaking] at h
        exact absurd h (by simp [Except.map])
    | ok made =>
        rw [hmaking] at h
        exact (Target.location.inj (Except.ok.inj h)).1
  · rename_i writing _ _
    cases writing <;> exact absurd h (by simp [Except.map])
  · split at h
    · exact (Target.location.inj (Except.ok.inj h)).1
    · exact absurd h (by simp)

/-- A path to a location ends in a name of its own in a directory that is there. -/
theorem target_eq_location (h : t.target path = .ok (.location location access)) :
    ∃ p parent name, Path.parse path = .ok p ∧ t.parentOf p = .ok parent ∧
      p.names.getLast? = some name ∧ p.endsInSlash = false ∧
      Nat.ble name.utf8ByteSize Path.maxNameBytes = true ∧
      follow parent name = parent ++ [name] ∧ location = parent ++ [name] := by
  obtain ⟨p, hparse, h⟩ := exists_of_bind_eq_ok h
  obtain ⟨parent, hparent, h⟩ := exists_of_bind_eq_ok h
  cases hname : p.names.getLast? with
  | none =>
      rw [hname] at h
      exact absurd h (by simp)
  | some name =>
      rw [hname] at h
      dsimp only at h
      split at h
      · exact absurd h (by simp)
      rename_i hplain
      simp only [Bool.or_eq_true, decide_eq_true_eq, not_or, Bool.not_eq_true] at hplain
      split at h
      · exact absurd h (by simp)
      rename_i hsize
      split at h
      · exact absurd h (by simp)
      -- neither `.` nor `..`, so that the last name is one of its own
      have hfollow : follow parent name = parent ++ [name] := by
        unfold follow
        rw [if_neg hplain.1.2, if_neg hplain.2]
      exact ⟨p, parent, name, hparse, hparent, hname, hplain.1.1, by simpa using hsize, hfollow,
        (location_of_openAt h).symm⟩

/-- **What is written to a path is read from it**, unless readers may not open the file. -/
theorem read_put_of_target (h : t.target path = .ok (.location location access))
    (hreading : access.reading = none) (content : ByteArray) :
    (t.put location content access).read path = .ok content := by
  obtain ⟨p, parent, name, hparse, hparent, hname, hslash, hsize, hfollow, rfl⟩ :=
    target_eq_location h
  have hget := get?_put t (parent ++ [name]) content access
  have hstep : (t.put (parent ++ [name]) content access).step parent name =
      .ok (parent ++ [name]) := by
    refine step_eq_ok_iff.mpr ⟨hsize, hfollow, ?_⟩
    unfold OrderedMap.hasKey
    rw [hget, Option.isSome_some, Bool.or_true]
  have hfind : (t.put (parent ++ [name]) content access).find path =
      .ok (.file content access) := by
    unfold find
    simp only [hparse, parentOf_put hparent, hname, hstep, hget, hslash, bind, Except.bind]
    rfl
  unfold read
  rw [hfind]
  exact Node.read_file content hreading

end FileTree

end Command

end ScenarioFsp
