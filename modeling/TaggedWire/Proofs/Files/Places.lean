import Mathlib.Logic.Function.Basic
import TaggedWire.Files.Tree
import TaggedWire.Proofs.Results

/-!
# Where paths lead

Which place a path leads to does not depend on what is there, only on where relative paths start:
a walk that succeeds ends at the place that the steps of the path spell.  So every operation on a
tree can be said by places, in terms of the texts found at them.

* `goal_join`: a name in a directory is at the place of the directory with the name behind it.
* `text?_of_read`, `write_eq_ok`, `remove_eq_ok`: what an operation that succeeds has found and
  what it leaves.
* `sameFiles_createDirectories`: making directories changes no file.
-/

namespace TaggedWire

namespace Path

/-! ### Steps of a path

A path is taken apart at its slashes, and each step leads on from the place that the steps before it
have led to. -/

theorem splitOn_ne_nil (separator : Char) (cs : List Char) : splitOn separator cs ≠ [] := by
  cases cs with
  | nil => simp [splitOn]
  | cons c cs =>
    unfold splitOn
    split
    · simp
    · split <;> simp

theorem splitOn_append (separator : Char) (xs ys : List Char) :
    splitOn separator (xs ++ separator :: ys) = splitOn separator xs ++ splitOn separator ys := by
  induction xs with
  | nil => simp [splitOn]
  | cons c cs ih =>
    rw [List.cons_append, splitOn, splitOn]
    by_cases h : c = separator
    · rw [if_pos h, if_pos h, ih, List.cons_append]
    · rw [if_neg h, if_neg h, ih]
      cases hcs : splitOn separator cs with
      | nil => exact absurd hcs (splitOn_ne_nil separator cs)
      | cons part parts => rfl

theorem splitOn_of_notMem {separator : Char} {cs : List Char} (h : separator ∉ cs) :
    splitOn separator cs = [cs] := by
  induction cs with
  | nil => rfl
  | cons c cs ih =>
    rw [List.mem_cons, not_or] at h
    obtain ⟨hc, hcs⟩ := h
    rw [splitOn, if_neg (Ne.symm hc), ih hcs]

/-- The text can stand in a directory as the name of a file: it is one step, and that leads down. -/
structure IsName (name : String) : Prop where
  single : '/' ∉ name.toList
  nonempty : name ≠ ""
  notHere : name ≠ "."
  notUp : name ≠ ".."

theorem IsName.isAbsolute {name : String} (h : IsName name) : isAbsolute name = false := by
  have hsingle := h.single
  unfold Path.isAbsolute
  cases hcs : name.toList with
  | nil => rfl
  | cons c cs =>
    rw [hcs, List.mem_cons, not_or] at hsingle
    simpa using Ne.symm hsingle.1

theorem IsName.steps {name : String} (h : IsName name) : steps name = [name] := by
  rw [Path.steps, splitOn_of_notMem h.single]
  simp [h.nonempty]

theorem steps_append (xs ys : List Char) :
    steps (String.ofList (xs ++ '/' :: ys)) =
      steps (String.ofList xs) ++ steps (String.ofList ys) := by
  simp only [steps, String.toList_ofList, splitOn_append, List.map_append, List.filter_append]

theorem steps_join (directory : String) {name : String} (h : IsName name) :
    steps (join directory name) = steps directory ++ [name] := by
  unfold join
  rw [h.isAbsolute]
  by_cases hempty : directory = ""
  · subst hempty
    rw [if_pos (by simp), h.steps]
    rfl
  · rw [if_neg (by simpa using hempty)]
    split
    · next hlast =>
      -- the solidus at the end of the directory is the one between the two
      obtain ⟨cs, hcs⟩ := List.getLast?_eq_some_iff.1 hlast
      have hdirectory : directory = String.ofList (cs ++ '/' :: []) := by
        rw [← String.toList_inj, String.toList_ofList, hcs]
      have happend : directory ++ name = String.ofList (cs ++ '/' :: name.toList) := by
        rw [← String.toList_inj, String.toList_append, hcs, String.toList_ofList]
        simp
      rw [happend, steps_append, String.ofList_toList, h.steps, hdirectory, steps_append]
      simp [steps, splitOn]
    · have happend : directory ++ "/" ++ name =
          String.ofList (directory.toList ++ '/' :: name.toList) := by
        rw [← String.toList_inj]
        simp
      rw [happend, steps_append, String.ofList_toList, String.ofList_toList, h.steps]

theorem isAbsolute_append {xs : String} (h : xs ≠ "") (ys : String) :
    isAbsolute (xs ++ ys) = isAbsolute xs := by
  unfold isAbsolute
  have hxs : xs.toList ≠ [] := by simpa using h
  rw [String.toList_append, List.head?_append_of_ne_nil _ hxs]

theorem isAbsolute_join (directory : String) {name : String} (h : IsName name) :
    isAbsolute (join directory name) = isAbsolute directory := by
  unfold join
  rw [h.isAbsolute]
  by_cases hempty : directory = ""
  · subst hempty
    rw [if_pos (by simp), h.isAbsolute]
    rfl
  · rw [if_neg (by simpa using hempty)]
    split
    · exact isAbsolute_append hempty name
    · rw [String.append_assoc, isAbsolute_append hempty]

end Path

namespace FileTree

variable {t u : FileTree} {path text : String} {place other : List String}

/-! ### Goals

The goal of a path is the place it leads to, whether there is a file or not. -/

/-- The place that a path leads to if it leads anywhere. -/
def goal (t : FileTree) (path : String) : List String := (Path.steps path).foldl step (t.start path)

theorem goal_congr (h : t.here = u.here) (path : String) : t.goal path = u.goal path := by
  unfold goal start
  rw [h]

theorem start_join (t : FileTree) (directory : String) {name : String} (h : Path.IsName name) :
    t.start (Path.join directory name) = t.start directory := by
  unfold start
  rw [Path.isAbsolute_join directory h]

theorem goal_join (t : FileTree) (directory : String) {name : String} (h : Path.IsName name) :
    t.goal (Path.join directory name) = t.goal directory ++ [name] := by
  unfold goal
  rw [start_join t directory h, Path.steps_join directory h, List.foldl_append]
  simp [step, h.notUp, h.notHere]

theorem walk_cons_eq_ok {name : String} {names : List String} :
    t.walk place (name :: names) = .ok other ↔
      t.get? place = some .directory ∧ name.utf8ByteSize ≤ maxNameSize ∧
        t.walk (step place name) names = .ok other := by
  rw [walk]
  split
  · simp_all
  · simp_all
  · next hplace => rw [guard_eq_ok_iff, Nat.not_lt, hplace]; simp

theorem walk_eq_ok {names : List String} (h : t.walk place names = .ok other) :
    other = names.foldl step place := by
  induction names generalizing place with
  | nil => exact (Except.ok.inj h).symm
  | cons name names ih => exact ih (walk_cons_eq_ok.1 h).2.2

theorem walk_append (t : FileTree) (place : List String) (names rest : List String) :
    t.walk place (names ++ rest) = t.walk place names >>= fun p => t.walk p rest := by
  induction names generalizing place with
  | nil => rfl
  | cons name names ih =>
    rw [List.cons_append, walk, walk]
    split
    · rfl
    · rfl
    · split
      · rfl
      · exact ih _

theorem locate_eq_ok (h : t.locate path = .ok place) :
    admits path = .ok () ∧ t.walk (t.start path) (Path.steps path) = .ok place := by
  unfold locate at h
  obtain ⟨⟨⟩, hadmits, h⟩ := bind_eq_ok_iff.1 h
  obtain ⟨found, hwalk, h⟩ := bind_eq_ok_iff.1 h
  refine ⟨hadmits, ?_⟩
  split at h
  · obtain ⟨-, h⟩ := guard_eq_ok_iff.1 h
    cases h
    exact hwalk
  · cases h
    exact hwalk

theorem goal_of_locate (h : t.locate path = .ok place) : place = t.goal path :=
  walk_eq_ok (locate_eq_ok h).2

/-! ### Texts at places

A request for a path is a request for its goal, so the files are a function of places. -/

/-- The text of the file at a place. -/
def text? (t : FileTree) (place : List String) : Option String :=
  match t.get? place with
  | some (.file text) => some text
  | some .directory | none => none

theorem text?_eq_some : t.text? place = some text ↔ t.get? place = some (.file text) := by
  unfold text?
  cases t.get? place with
  | none => simp
  | some entry => cases entry <;> simp

theorem text?_put (t : FileTree) (hplace : place ≠ []) (text : String) :
    (t.put place (.file text)).text? = Function.update t.text? place (some text) := by
  funext other
  unfold text?
  rw [get?_put t place other _ hplace]
  by_cases h : place = other
  · subst h
    simp
  · rw [if_neg h, Function.update_of_ne (Ne.symm h)]

theorem text?_erase (t : FileTree) (hplace : place ≠ []) :
    (t.erase place).text? = Function.update t.text? place none := by
  funext other
  unfold text?
  rw [get?_erase t place other hplace]
  by_cases h : place = other
  · subst h
    simp
  · rw [if_neg h, Function.update_of_ne (Ne.symm h)]

theorem text?_of_read (h : t.read path = .ok text) : t.text? (t.goal path) = some text := by
  unfold read at h
  obtain ⟨place, hlocate, h⟩ := bind_eq_ok_iff.1 h
  rw [← goal_of_locate hlocate, text?_eq_some]
  split at h
  · next found hget =>
    cases h
    exact hget
  · cases h
  · cases h

/-- Writing that succeeds changes the place that the path leads to, and no other, -/
theorem write_eq_ok (h : t.write path text = .ok u) : u = t.put (t.goal path) (.file text) := by
  unfold write at h
  obtain ⟨place, hlocate, h⟩ := bind_eq_ok_iff.1 h
  rw [← goal_of_locate hlocate]
  split at h
  · cases h
  · cases h
    rfl
  · obtain ⟨-, h⟩ := guard_eq_ok_iff.1 h
    cases h
    rfl

/-- and so does removing. -/
theorem remove_eq_ok (h : t.remove path = .ok u) : u = t.erase (t.goal path) := by
  unfold remove at h
  obtain ⟨place, hlocate, h⟩ := bind_eq_ok_iff.1 h
  rw [← goal_of_locate hlocate]
  split at h
  · cases h
    rfl
  · cases h
  · cases h

/-! ### Beside another file

The name of a file in a directory is one step more. -/

/-- The way to the directory of a path that leads somewhere is clear. -/
theorem walk_of_locate {directory name : String} (hname : Path.IsName name)
    (h : t.locate (Path.join directory name) = .ok place) :
    t.walk (t.start directory) (Path.steps directory) = .ok (t.goal directory) ∧
      t.get? (t.goal directory) = some .directory := by
  obtain ⟨-, hwalk⟩ := locate_eq_ok h
  rw [Path.steps_join directory hname, start_join t directory hname, walk_append] at hwalk
  obtain ⟨base, hbase, hstep⟩ := bind_eq_ok_iff.1 hwalk
  have hgoal : base = t.goal directory := walk_eq_ok hbase
  subst hgoal
  exact ⟨hbase, (walk_cons_eq_ok.1 hstep).1⟩

/-- No path to a name in a directory is refused as the empty path is. -/
theorem admits_join_ne_absent (directory : String) {name : String} (h : Path.IsName name) :
    admits (Path.join directory name) ≠ .error .absent := by
  intro hadmits
  unfold admits at hadmits
  split at hadmits
  · next hempty =>
    have hsteps := Path.steps_join directory h
    rw [hempty] at hsteps
    simp [Path.steps, Path.splitOn] at hsteps
  · split at hadmits <;> cases hadmits

/-- When the way to a directory is clear, nothing is missing on the way to a name in it. -/
theorem locate_ne_absent {directory name : String} (hname : Path.IsName name)
    (hwalk : t.walk (t.start directory) (Path.steps directory) = .ok (t.goal directory))
    (hdirectory : t.get? (t.goal directory) = some .directory) :
    t.locate (Path.join directory name) ≠ .error .absent := by
  intro h
  have hadmits := admits_join_ne_absent directory hname
  unfold locate at h
  rw [Path.steps_join directory hname, start_join t directory hname, walk_append, hwalk] at h
  cases hresult : admits (Path.join directory name) with
  | error fault =>
    rw [hresult] at h hadmits
    exact hadmits (by simpa [bind, Except.bind] using h)
  | ok =>
    rw [hresult] at h
    by_cases hsize : name.utf8ByteSize > maxNameSize
    · simp [walk, hdirectory, hsize, bind, Except.bind] at h
    · simp only [walk, hdirectory, hsize, if_false, bind, Except.bind] at h
      split at h
      · split at h <;> cases h
      · cases h

/-- A file that is not there for removing, beside one that can be written, is not there at all: the
way to it is clear, so nothing but its absence is in question. -/
theorem get?_of_remove_absent {directory name sibling : String} (hname : Path.IsName name)
    (hsibling : Path.IsName sibling)
    (hwrite : t.write (Path.join directory sibling) text = .ok u)
    (hremove : t.remove (Path.join directory name) = .error .absent) :
    t.get? (t.goal directory ++ [name]) = none := by
  obtain ⟨found, hlocate, -⟩ := bind_eq_ok_iff.1 hwrite
  obtain ⟨hwalk, hdirectory⟩ := walk_of_locate hsibling hlocate
  have habsent := locate_ne_absent hname hwalk hdirectory
  rw [← goal_join t directory hname]
  unfold remove at hremove
  -- the directory is there, as a file beside can be written to; so the place is known
  cases hlocate : t.locate (Path.join directory name) with
  | error fault =>
    rw [hlocate] at hremove habsent
    exact absurd (by simpa [bind, Except.bind] using hremove) habsent
  | ok place =>
    rw [hlocate] at hremove
    rw [← goal_of_locate hlocate]
    cases hget : t.get? place with
    | none => rfl
    | some entry =>
      simp only [bind, Except.bind, hget] at hremove
      cases entry <;> cases hremove

/-! ### Making directories

Directories are made from the root downwards, and where there is one it is left alone. -/

/-- The files of a tree are those of another, and relative paths start in the same directory. -/
structure SameFiles (t u : FileTree) : Prop where
  here : u.here = t.here
  texts : u.text? = t.text?

theorem SameFiles.refl (t : FileTree) : t.SameFiles t := ⟨rfl, rfl⟩

theorem SameFiles.trans {v : FileTree} (h : t.SameFiles u) (h' : u.SameFiles v) : t.SameFiles v :=
  ⟨h'.here.trans h.here, h'.texts.trans h.texts⟩

theorem sameFiles_put_directory (h : t.get? place = none) :
    t.SameFiles (t.put place .directory) := by
  have hplace : place ≠ [] := by
    rintro rfl
    simp [get?] at h
  refine ⟨rfl, ?_⟩
  funext other
  unfold text?
  rw [get?_put t place other _ hplace]
  by_cases hother : place = other
  · subst hother
    simp [h]
  · simp [hother]

theorem sameFiles_makeWay (t : FileTree) (place : List String) (names : List String) :
    t.SameFiles (t.makeWay place names).1 := by
  induction names generalizing t place with
  | nil => exact .refl t
  | cons name names ih =>
    unfold makeWay
    split
    · exact .refl t
    · dsimp only
      split
      · exact ih t _
      · exact .refl t
      · next hnone => exact (sameFiles_put_directory hnone).trans (ih _ _)

theorem sameFiles_createDirectories (t : FileTree) (path : String) :
    t.SameFiles (t.createDirectories path).1 := by
  unfold createDirectories
  split
  · exact .refl t
  · split
    · exact .refl t
    · split
      · have hway := sameFiles_makeWay t (t.start path) (Path.leading path)
        split <;> next heq => rwa [heq] at hway
      · exact sameFiles_makeWay t _ _

end FileTree
end TaggedWire
