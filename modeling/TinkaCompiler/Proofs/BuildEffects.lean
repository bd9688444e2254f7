import Mathlib.Data.List.Basic
import TinkaCompiler.Build

/-! What a build does to the files.

Paths are followed through directories, and a build neither makes nor removes one. So every
path leads to the same location during the whole build, and the only locations that can
change are those of the output and of the staging file beside it. -/

set_option autoImplicit false

namespace TinkaCompiler

namespace FileTree

open Statement (bind_eq_ok)

/-! Following paths. -/

theorem walk_ordinary {tree : FileTree} {location last : Location} {name : String}
    {rest : List String} (ordinary : name ≠ "." ∧ name ≠ "..") :
    tree.walk location (name :: rest) = .ok last ↔
      tree.find? (location ++ [name]) = some .directory ∧
      tree.walk (location ++ [name]) rest = .ok last := by
  rw [walk, if_neg ordinary.1, if_neg ordinary.2]
  cases found : tree.find? (location ++ [name]) with
  | none => simp
  | some entry => cases entry <;> simp

theorem walk_append (tree : FileTree) (location : Location) (first second : List String) :
    tree.walk location (first ++ second) = tree.walk location first >>= (tree.walk · second) := by
  induction first generalizing location with
  | nil => rfl
  | cons name rest ih =>
      simp only [List.cons_append, walk, ih]
      split
      · rfl
      · split
        · rfl
        · cases tree.find? (location ++ [name]) with
          | none => rfl
          | some entry => cases entry <;> rfl

theorem walk_filter (tree : FileTree) (location : Location) (names : List String) :
    tree.walk location (names.filter (· ≠ ".")) = tree.walk location names := by
  induction names generalizing location with
  | nil => rfl
  | cons name rest ih =>
      by_cases still : name = "."
      · rw [List.filter_cons_of_neg (by simpa using still), ih, walk, if_pos still]
      · rw [List.filter_cons_of_pos (by simpa using still), walk, walk, if_neg still, if_neg still]
        simp only [ih]

def Spot.ofSegment (parent : Location) (last : String) : Spot :=
  if last = "." then .place parent else if last = ".." then .place parent.dropLast
  else .child parent last

theorem resolve_of_nil (tree : FileTree) {path : Path} (segments : path.segments = []) :
    tree.resolve path = if path.fromRoot then .ok (.place []) else .error .missing := by
  rw [resolve, segments]
  rfl

theorem resolve_eq_ok {tree : FileTree} {path : Path} {init : List String}
    {last : String} {spot : Spot} (segments : path.segments = init ++ [last]) :
    tree.resolve path = .ok spot ↔
      ∃ parent, tree.walk (tree.start path) init = .ok parent ∧
        Spot.ofSegment parent last = spot := by
  rw [resolve, segments, List.getLast?_concat, List.dropLast_concat]
  simp only [bind_eq_ok, Spot.ofSegment]
  refine exists_congr fun parent => and_congr_right fun _ => ?_
  split
  · simp
  · split <;> simp

def Spot.location : Spot → Location
  | .child parent name => parent ++ [name]
  | .place location => location

/-- The location that a path leads to, whether or not something is there. -/
def location? (tree : FileTree) (path : Path) : Option Location :=
  (tree.resolve path).toOption.map Spot.location

theorem location?_eq_some {tree : FileTree} {path : Path} {location : Location} :
    tree.location? path = some location ↔
      ∃ spot, tree.resolve path = .ok spot ∧ spot.location = location := by
  unfold location?
  cases tree.resolve path <;> simp [Except.toOption]

/-! Trees with the same directories. -/

structure SameDirectories (tree other : FileTree) : Prop where
  current : other.current = tree.current
  directory : ∀ location, other.find? location = some .directory ↔
    tree.find? location = some .directory

namespace SameDirectories

variable {tree other third : FileTree}

theorem refl (tree : FileTree) : SameDirectories tree tree :=
  ⟨rfl, fun _ => Iff.rfl⟩

theorem trans (first : SameDirectories tree other) (second : SameDirectories other third) :
    SameDirectories tree third :=
  ⟨second.current.trans first.current,
    fun location => (second.directory location).trans (first.directory location)⟩

theorem walk (same : SameDirectories tree other) {location last : Location} {names : List String} :
    other.walk location names = .ok last ↔ tree.walk location names = .ok last := by
  induction names generalizing location with
  | nil => exact Iff.rfl
  | cons name rest ih =>
      by_cases still : name = "."
      · rw [FileTree.walk, FileTree.walk, if_pos still, if_pos still, ih]
      · by_cases up : name = ".."
        · rw [FileTree.walk, FileTree.walk, if_neg still, if_neg still, if_pos up, if_pos up, ih]
        · -- Only an ordinary name is looked up, and it leads on only into a directory.
          rw [walk_ordinary ⟨still, up⟩, walk_ordinary ⟨still, up⟩, same.directory, ih]

theorem resolve (same : SameDirectories tree other) {path : Path} {spot : Spot} :
    other.resolve path = .ok spot ↔ tree.resolve path = .ok spot := by
  have start : other.start path = tree.start path := by
    rw [FileTree.start, same.current, FileTree.start]
  rcases path.segments.eq_nil_or_concat' with none | ⟨init, last, segments⟩
  · rw [resolve_of_nil other none, resolve_of_nil tree none]
  · rw [resolve_eq_ok segments, resolve_eq_ok segments, start]
    simp only [same.walk]

theorem location? (same : SameDirectories tree other) (path : Path) :
    other.location? path = tree.location? path := by
  apply Option.ext
  intro location
  simp only [location?_eq_some, same.resolve]

end SameDirectories

theorem sameDirectories_insert {tree : FileTree} {location : Location}
    (free : tree.find? location ≠ some .directory) (contents : ByteArray) :
    SameDirectories tree (tree.insert location (.file contents)) := by
  refine ⟨rfl, fun other => ?_⟩
  by_cases same : other = location
  · subst same
    have below : other ≠ [] := fun root => free (root ▸ tree.find?_root)
    rw [find?_insert_self tree _ below]
    exact iff_of_false nofun free
  · rw [find?_insert_of_ne tree _ same]

theorem sameDirectories_erase {tree : FileTree} {location : Location}
    (free : tree.find? location ≠ some .directory) :
    SameDirectories tree (tree.erase location) := by
  refine ⟨rfl, fun other => ?_⟩
  by_cases same : other = location
  · subst same
    have below : other ≠ [] := fun root => free (root ▸ tree.find?_root)
    rw [find?_erase_self tree below]
    exact iff_of_false nofun free
  · rw [find?_erase_of_ne tree same]

/-! What the operations need and do. -/

structure Takes (tree : FileTree) (path : Path) (location : Location) : Prop where
  leads : ∃ parent name, tree.resolve path = .ok (.child parent name) ∧ parent ++ [name] = location
  named : path.endsInSlash = false
  free : tree.find? location ≠ some .directory

section Operations

variable {tree after : FileTree} {path : Path} {location : Location} {contents : ByteArray}

theorem Takes.location? (takes : tree.Takes path location) :
    tree.location? path = some location := by
  obtain ⟨parent, name, resolved, rfl⟩ := takes.leads
  exact location?_eq_some.mpr ⟨_, resolved, rfl⟩

theorem Takes.ne_root (takes : tree.Takes path location) : location ≠ [] :=
  fun root => takes.free (root ▸ tree.find?_root)

theorem SameDirectories.takes {other : FileTree} (same : SameDirectories tree other) :
    other.Takes path location ↔ tree.Takes path location := by
  have free := not_congr (same.directory location)
  constructor
  · rintro ⟨⟨parent, name, resolved, leads⟩, named, clear⟩
    exact ⟨⟨parent, name, same.resolve.mp resolved, leads⟩, named, free.mp clear⟩
  · rintro ⟨⟨parent, name, resolved, leads⟩, named, clear⟩
    exact ⟨⟨parent, name, same.resolve.mpr resolved, leads⟩, named, free.mpr clear⟩

theorem Takes.write (takes : tree.Takes path location) (contents : ByteArray) :
    tree.write path contents = .ok (tree.insert location (.file contents)) := by
  obtain ⟨⟨parent, name, resolved, rfl⟩, named, free⟩ := takes
  refine bind_eq_ok.mpr ⟨_, resolved, ?_⟩
  simp only [named]
  split
  · contradiction
  · split
    · contradiction
    · rfl
    · rfl

theorem takes_of_write (written : tree.write path contents = .ok after) :
    ∃ location, tree.Takes path location := by
  obtain ⟨spot, resolved, rest⟩ := bind_eq_ok.mp written
  cases spot with
  | place location => cases rest
  | child parent name =>
      dsimp only at rest
      split at rest
      · cases rest
      · rename_i named
        refine ⟨_, ⟨parent, name, resolved, rfl⟩, eq_false_of_ne_true named, fun directory => ?_⟩
        rw [directory] at rest
        cases rest

theorem Takes.remove (takes : tree.Takes path location)
    (found : tree.find? location = some (.file contents)) :
    tree.remove path = .ok (tree.erase location) := by
  obtain ⟨⟨parent, name, resolved, rfl⟩, named, free⟩ := takes
  refine bind_eq_ok.mpr ⟨_, resolved, ?_⟩
  simp only [found, named]
  rfl

theorem takes_of_remove (removed : tree.remove path = .ok after) :
    ∃ location, tree.Takes path location ∧ after = tree.erase location := by
  obtain ⟨spot, resolved, rest⟩ := bind_eq_ok.mp removed
  cases spot with
  | place location => cases rest
  | child parent name =>
      dsimp only at rest
      split at rest
      · cases rest
      · cases rest
      · rename_i contents found
        split at rest
        · cases rest
        · rename_i named
          cases rest
          exact ⟨_, ⟨⟨parent, name, resolved, rfl⟩, eq_false_of_ne_true named, by simp [found]⟩,
            rfl⟩

theorem Takes.rename {target : Path} {destination : Location} (takes : tree.Takes path location)
    (found : tree.find? location = some (.file contents))
    (takesTarget : tree.Takes target destination) :
    tree.rename path target = .ok ((tree.erase location).insert destination (.file contents)) := by
  obtain ⟨⟨parent, name, resolved, rfl⟩, named, free⟩ := takes
  obtain ⟨⟨targetParent, targetName, targetResolved, rfl⟩, targetNamed, targetFree⟩ := takesTarget
  refine bind_eq_ok.mpr ⟨_, resolved, bind_eq_ok.mpr ⟨_, targetResolved, ?_⟩⟩
  simp only [found, named, targetNamed]
  split
  · rename_i slash
    simp at slash
  · split
    · contradiction
    · rfl
    · rfl

theorem takes_of_rename {target : Path} (renamed : tree.rename path target = .ok after) :
    ∃ destination, tree.Takes target destination := by
  obtain ⟨spot, resolved, rest⟩ := bind_eq_ok.mp renamed
  obtain ⟨targetSpot, targetResolved, rest⟩ := bind_eq_ok.mp rest
  cases spot with
  | place location => cases rest
  | child parent name =>
      cases targetSpot with
      | place location => cases rest
      | child targetParent targetName =>
          dsimp only at rest
          split at rest
          · cases rest
          · cases rest
          · split at rest
            · cases rest
            · rename_i slash
              refine ⟨_, ⟨targetParent, targetName, targetResolved, rfl⟩, ?_, fun directory => ?_⟩
              · exact eq_false_of_ne_true fun ends => slash (Or.inr ends)
              · rw [directory] at rest
                cases rest

/-- A change at one path: all directories are still there, and all other files are as they were. -/
structure Confined (path : Path) (tree after : FileTree) : Prop where
  directories : SameDirectories tree after
  others : ∀ location, tree.location? path ≠ some location →
    after.find? location = tree.find? location

theorem Confined.refl (path : Path) (tree : FileTree) : Confined path tree tree :=
  ⟨.refl tree, fun _ _ => rfl⟩

theorem Confined.trans {last : FileTree} (first : Confined path tree after)
    (second : Confined path after last) : Confined path tree last := by
  refine ⟨first.directories.trans second.directories, fun location other => ?_⟩
  rw [second.others location (first.directories.location? path ▸ other),
    first.others location other]

theorem Takes.confined_insert (takes : tree.Takes path location) (contents : ByteArray) :
    Confined path tree (tree.insert location (.file contents)) := by
  refine ⟨sameDirectories_insert takes.free contents, fun other elsewhere => ?_⟩
  refine find?_insert_of_ne tree _ fun same => ?_
  exact elsewhere (same ▸ takes.location?)

theorem Takes.confined_erase (takes : tree.Takes path location) :
    Confined path tree (tree.erase location) := by
  refine ⟨sameDirectories_erase takes.free, fun other elsewhere => ?_⟩
  refine find?_erase_of_ne tree fun same => ?_
  exact elsewhere (same ▸ takes.location?)

end Operations

/-! The staging file. -/

theorem append_stagingSuffix_ne {name short : String} (fits : short.length < 8) :
    name ++ Path.stagingSuffix ≠ short := by
  intro same
  have length := congrArg String.length same
  rw [String.length_append, show Path.stagingSuffix.length = 8 from rfl] at length
  omega

section Staging

variable {tree : FileTree} {path : Path} {location parent : Location} {init : List String}
  {name last : String}

theorem names_of_concat (segments : path.segments = init ++ [last]) :
    path.names = init.filter (· ≠ ".") ++ if last = "." then [] else [last] := by
  rw [Path.names, segments, List.filter_append]
  split <;> simp [*]

theorem names_of_fileName (ends : path.fileName? = some name) :
    path.names = path.names.dropLast ++ [name] ∧ name ≠ "." ∧ name ≠ ".." := by
  unfold Path.fileName? at ends
  split at ends
  · rename_i found
    split at ends
    · cases ends
    · rename_i down
      cases ends
      obtain ⟨rest, names⟩ := List.getLast?_eq_some_iff.mp found
      have member : name ∈ path.names := by simp [names]
      have moving := (List.mem_filter.mp member).2
      exact ⟨by rw [names, List.dropLast_concat], by simpa using moving, down⟩
  · cases ends

theorem fileName?_of_names (names : path.names = init ++ [name]) :
    path.fileName? = if name = ".." then none else some name := by
  rw [Path.fileName?, names, List.getLast?_concat]

/-- A path that ends in a name leads to that name in the directory before it. -/
theorem walk_of_fileName (ends : path.fileName? = some name)
    (found : tree.location? path = some location) :
    ∃ parent, tree.walk (tree.start path) path.names.dropLast = .ok parent ∧
      location = parent ++ [name] := by
  obtain ⟨names, ordinary⟩ := names_of_fileName ends
  obtain ⟨spot, resolved, rfl⟩ := location?_eq_some.mp found
  rcases path.segments.eq_nil_or_concat' with none | ⟨init, last, segments⟩
  · simp [Path.names, none] at names
  · obtain ⟨parent, walked, rfl⟩ := (resolve_eq_ok segments).mp resolved
    rw [← walk_filter] at walked
    have all := names_of_concat segments
    by_cases still : last = "."
    · -- The name comes before the end of the path, so it is the one of a directory.
      rw [if_pos still, List.append_nil] at all
      rw [← all, names, walk_append, bind_eq_ok] at walked
      obtain ⟨above, walked, entered⟩ := walked
      obtain ⟨_, same⟩ := (walk_ordinary ordinary).mp entered
      refine ⟨above, walked, ?_⟩
      rw [Spot.ofSegment, if_pos still]
      exact (Except.ok.inj same).symm
    · rw [if_neg still] at all
      rw [all, List.dropLast_concat]
      obtain rfl : last = name := by
        rw [fileName?_of_names all] at ends
        split at ends
        · cases ends
        · exact Option.some.inj ends
      refine ⟨parent, walked, ?_⟩
      rw [Spot.ofSegment, if_neg ordinary.1, if_neg ordinary.2]
      rfl

/-- A path that does not end in a name leads to a directory. -/
theorem walk_of_no_fileName (ends : path.fileName? = none)
    (found : tree.location? path = some location) :
    tree.walk (tree.start path) path.names = .ok location := by
  obtain ⟨spot, resolved, rfl⟩ := location?_eq_some.mp found
  rcases path.segments.eq_nil_or_concat' with none | ⟨init, last, segments⟩
  · rw [resolve_of_nil tree none] at resolved
    rw [Path.names, none, start]
    by_cases root : path.fromRoot
    · rw [if_pos root] at resolved ⊢
      cases resolved
      rfl
    · rw [if_neg root] at resolved
      cases resolved
  · obtain ⟨parent, walked, rfl⟩ := (resolve_eq_ok segments).mp resolved
    rw [← walk_filter] at walked
    have all := names_of_concat segments
    by_cases still : last = "."
    · rw [all, if_pos still, List.append_nil, walked, Spot.ofSegment, if_pos still]
      rfl
    · rw [if_neg still] at all
      obtain rfl : last = ".." := by
        rw [fileName?_of_names all] at ends
        by_contra down
        rw [if_neg down] at ends
        cases ends
      rw [all, walk_append, walked]
      rfl

theorem fileName?_of_child (resolved : tree.resolve path = .ok (.child parent name)) :
    path.fileName? = some name := by
  rcases path.segments.eq_nil_or_concat' with none | ⟨init, last, segments⟩
  · rw [resolve_of_nil tree none] at resolved
    split at resolved <;> cases resolved
  · obtain ⟨above, _, spot⟩ := (resolve_eq_ok segments).mp resolved
    rw [Spot.ofSegment] at spot
    split at spot
    · cases spot
    · rename_i moving
      split at spot
      · cases spot
      · rename_i down
        cases spot
        rw [fileName?_of_names ((names_of_concat segments).trans (by rw [if_neg moving])),
          if_neg down]

theorem staging_of_fileName (ends : path.fileName? = some name) :
    path.staging =
      ⟨path.fromRoot, path.names.dropLast ++ [name ++ Path.stagingSuffix], false⟩ := by
  rw [Path.staging, ends]

theorem staging_of_no_fileName (ends : path.fileName? = none) :
    path.staging = ⟨path.fromRoot, path.names ++ [Path.stagingSuffix], false⟩ := by
  rw [Path.staging, ends]

theorem resolve_staging_eq_ok {spot : Spot} (ends : path.fileName? = some name) :
    tree.resolve path.staging = .ok spot ↔
      ∃ parent, tree.walk (tree.start path) path.names.dropLast = .ok parent ∧
        .child parent (name ++ Path.stagingSuffix) = spot := by
  rw [staging_of_fileName ends, resolve_eq_ok rfl]
  simp only [Spot.ofSegment, if_neg (append_stagingSuffix_ne (show ".".length < 8 by decide)),
    if_neg (append_stagingSuffix_ne (show "..".length < 8 by decide))]
  exact Iff.rfl

theorem resolve_staging (resolved : tree.resolve path = .ok (.child parent name)) :
    tree.resolve path.staging = .ok (.child parent (name ++ Path.stagingSuffix)) := by
  have ends := fileName?_of_child resolved
  obtain ⟨above, walked, same⟩ := walk_of_fileName ends (location?_eq_some.mpr ⟨_, resolved, rfl⟩)
  obtain ⟨rfl, _⟩ := List.append_inj' same rfl
  exact (resolve_staging_eq_ok ends).mpr ⟨_, walked, rfl⟩

/-- Only a directory at the staging path keeps a file away from it. -/
theorem takes_staging (found : tree.location? path.staging = some location)
    (free : tree.find? location ≠ some .directory) : tree.Takes path.staging location := by
  obtain ⟨spot, resolved, rfl⟩ := location?_eq_some.mp found
  cases ends : path.fileName? with
  | none =>
      rw [staging_of_no_fileName ends] at resolved ⊢
      obtain ⟨parent, _, rfl⟩ := (resolve_eq_ok rfl).mp resolved
      exact ⟨⟨parent, Path.stagingSuffix, resolved, rfl⟩, rfl, free⟩
  | some name =>
      obtain ⟨parent, _, rfl⟩ := (resolve_staging_eq_ok ends).mp resolved
      exact ⟨⟨parent, _, resolved, rfl⟩, by rw [staging_of_fileName ends], free⟩

/-- The staging file is never where its path leads itself. -/
theorem location?_staging_ne (found : tree.location? path = some location) :
    tree.location? path.staging ≠ some location := by
  intro staged
  obtain ⟨spot, resolved, same⟩ := location?_eq_some.mp staged
  cases ends : path.fileName? with
  | none =>
      -- The path leads to a directory, and the staging file is inside it.
      rw [staging_of_no_fileName ends, resolve_eq_ok rfl] at resolved
      obtain ⟨parent, walked, rfl⟩ := resolved
      obtain rfl := Except.ok.inj ((walk_of_no_fileName ends found).symm.trans walked)
      have longer := congrArg List.length same
      simp [Spot.ofSegment, Spot.location, Path.stagingSuffix] at longer
  | some name =>
      -- Both lead to a name, and the one of the staging file is longer.
      obtain ⟨parent, walked, rfl⟩ := walk_of_fileName ends found
      obtain ⟨other, otherWalked, rfl⟩ := (resolve_staging_eq_ok ends).mp resolved
      obtain ⟨_, names⟩ := List.append_inj' same rfl
      have longer := congrArg String.length (List.singleton_inj.mp names)
      rw [String.length_append, show Path.stagingSuffix.length = 8 from rfl] at longer
      omega

end Staging
end FileTree

open FileTree

namespace Disk

/-! Operations that may be refused. -/

theorem confined_breakWrite (tree : FileTree) (path : Path) (broken : BrokenWrite) :
    ∃ cause after, Confined path tree after ∧
      tree.breakWrite path broken = (.error cause, after) := by
  unfold breakWrite
  cases broken.left with
  | none => exact ⟨_, tree, .refl path tree, rfl⟩
  | some left =>
      cases written : tree.write path left with
      | error cause => exact ⟨cause, tree, .refl path tree, by simp only [written]⟩
      | ok after =>
          obtain ⟨location, takes⟩ := takes_of_write written
          obtain rfl := Except.ok.inj ((takes.write left).symm.trans written)
          exact ⟨broken.cause, _, takes.confined_insert left, by simp only [written]⟩

section Operations

variable (disk : Disk) {path : Path} {location : Location} {contents : ByteArray}

/-- A write succeeds if the path takes a file and the system does not stop it. If it fails,
anything may be left at the path. -/
theorem write_cases (path : Path) (contents : ByteArray) :
    (∃ location, disk.tree.Takes path location ∧ Faults.next disk.faults.writes = none ∧
      disk.write path contents = (.ok (), ⟨disk.tree.insert location (.file contents),
        { disk.faults with writes := disk.faults.writes.tail }⟩)) ∨
    (¬ ((∃ location, disk.tree.Takes path location) ∧ Faults.next disk.faults.writes = none) ∧
      ∃ cause after, Confined path disk.tree after ∧
        disk.write path contents =
          (.error cause, ⟨after, { disk.faults with writes := disk.faults.writes.tail }⟩)) := by
  cases fault : Faults.next disk.faults.writes with
  | some broken =>
      obtain ⟨cause, after, confined, broke⟩ := confined_breakWrite disk.tree path broken
      refine Or.inr ⟨fun both => Option.some_ne_none broken both.2, cause, after, confined, ?_⟩
      simp only [Disk.write, fault, broke]
  | none =>
      cases written : disk.tree.write path contents with
      | ok after =>
          obtain ⟨location, takes⟩ := takes_of_write written
          obtain rfl := Except.ok.inj ((takes.write contents).symm.trans written)
          refine Or.inl ⟨location, takes, rfl, ?_⟩
          simp only [Disk.write, fault, written, settle]
      | error cause =>
          refine Or.inr ⟨?_, cause, disk.tree, .refl path disk.tree, ?_⟩
          · rintro ⟨⟨location, takes⟩, _⟩
            rw [takes.write] at written
            cases written
          · simp only [Disk.write, fault, written, settle]

/-- A file is renamed if the target takes a file and the system does not refuse it. Otherwise
nothing changes. -/
theorem rename_cases (takes : disk.tree.Takes path location)
    (holds : disk.tree.find? location = some (.file contents)) (target : Path) :
    (∃ destination, disk.tree.Takes target destination ∧ Faults.next disk.faults.renames = none ∧
      disk.rename path target =
        (.ok (), ⟨(disk.tree.erase location).insert destination (.file contents),
          { disk.faults with renames := disk.faults.renames.tail }⟩)) ∨
    (¬ ((∃ destination, disk.tree.Takes target destination) ∧
      Faults.next disk.faults.renames = none) ∧
      ∃ cause, disk.rename path target =
        (.error cause, ⟨disk.tree, { disk.faults with renames := disk.faults.renames.tail }⟩)) := by
  cases fault : Faults.next disk.faults.renames with
  | some cause =>
      refine Or.inr ⟨fun both => Option.some_ne_none cause both.2, cause, ?_⟩
      simp only [Disk.rename, Faults.guard, fault, settle]
  | none =>
      cases renamed : disk.tree.rename path target with
      | ok after =>
          obtain ⟨destination, takesTarget⟩ := takes_of_rename renamed
          obtain rfl := Except.ok.inj ((takes.rename holds takesTarget).symm.trans renamed)
          refine Or.inl ⟨destination, takesTarget, rfl, ?_⟩
          simp only [Disk.rename, Faults.guard, fault, renamed, settle]
      | error cause =>
          refine Or.inr ⟨?_, cause, ?_⟩
          · rintro ⟨⟨destination, takesTarget⟩, _⟩
            rw [takes.rename holds takesTarget] at renamed
            cases renamed
          · simp only [Disk.rename, Faults.guard, fault, renamed, settle]

theorem confined_remove (path : Path) : Confined path disk.tree (disk.remove path).2.tree := by
  simp only [Disk.remove]
  cases removed : Faults.guard disk.faults.removals (disk.tree.remove path) with
  | error cause => exact .refl path disk.tree
  | ok after =>
      unfold Faults.guard at removed
      split at removed
      · cases removed
      · obtain ⟨location, takes, rfl⟩ := takes_of_remove removed
        exact takes.confined_erase

/-- Unless the system refuses it, nothing is left where a file can be. -/
theorem find?_remove (takes : disk.tree.Takes path location)
    (allowed : Faults.next disk.faults.removals = none) :
    (disk.remove path).2.tree.find? location = none := by
  simp only [Disk.remove, Faults.guard, allowed]
  cases found : disk.tree.find? location with
  | none =>
      -- There is nothing to remove, and the tree stays.
      cases removed : disk.tree.remove path with
      | error cause => exact found
      | ok after =>
          obtain ⟨other, takesOther, rfl⟩ := takes_of_remove removed
          obtain rfl := Option.some.inj (takes.location?.symm.trans takesOther.location?)
          exact find?_erase_self disk.tree takes.ne_root
  | some entry =>
      cases entry with
      | directory => exact absurd found takes.free
      | file contents =>
          rw [takes.remove found]
          exact find?_erase_self disk.tree takes.ne_root

end Operations
end Disk

namespace Build

/-! Compiling only reads. -/

section Reading

variable {m n : Type → Type} [Monad m] [FileAccess m] [Monad n] [FileAccess n]

/-- A relation between actions on two systems that holds of reads and reports and of all that
is made of them. -/
structure Relates (related : (α : Type) → m α → n α → Prop) : Prop where
  pure : ∀ {α : Type} (value : α), related α (pure value) (pure value)
  bind : ∀ {α β : Type} {first : m α} {other : n α} {after : α → m β} {otherAfter : α → n β},
    related α first other → (∀ value, related β (after value) (otherAfter value)) →
      related β (first >>= after) (other >>= otherAfter)
  read : ∀ path, related _ (FileAccess.read path) (FileAccess.read path)
  report : ∀ event, related _ (FileAccess.report event) (FileAccess.report event)

namespace Relates

variable {related : (α : Type) → m α → n α → Prop} (relates : Relates related)
include relates

theorem reportAll (events : List Event) : related _ (reportAll events) (reportAll events) := by
  induction events with
  | nil => exact relates.pure ()
  | cons event rest ih => exact relates.bind (relates.report event) fun _ => ih

theorem readSource (input : String) : related _ (readSource input) (readSource input) := by
  refine relates.bind (relates.read _) fun found => ?_
  cases found with
  | error cause => exact relates.pure _
  | ok bytes =>
      dsimp only
      split <;> exact relates.pure _

theorem analyzeFiles (inputs : List String) :
    related _ (analyzeFiles inputs) (analyzeFiles inputs) := by
  induction inputs with
  | nil => exact relates.pure _
  | cons input rest ih =>
      refine relates.bind (relates.readSource input) fun read => ?_
      cases read with
      | error error => exact relates.pure _
      | ok source =>
          refine relates.bind (relates.reportAll _) fun _ => ?_
          split
          · exact relates.pure _
          · refine relates.bind ih fun others => ?_
            cases others <;> exact relates.pure _

theorem compile (inputs : List String) : related _ (compile inputs) (compile inputs) := by
  unfold Build.compile
  split
  · exact relates.pure _
  · refine relates.bind (relates.analyzeFiles inputs) fun units => ?_
    cases units with
    | error error => exact relates.pure _
    | ok units => exact relates.bind (relates.reportAll _) fun _ => relates.pure _

end Relates
end Reading

/-- A computation that leaves the files as they are, and asks for nothing but reads. -/
def Quiet {α : Type} (action : StateM Disk α) : Prop :=
  ∀ disk, ∃ reads, (action.run disk).2 = ⟨disk.tree, { disk.faults with reads }⟩

theorem Quiet.bind {α β : Type} {first : StateM Disk α} {after : α → StateM Disk β}
    (quiet : Quiet first) (behind : ∀ value, Quiet (after value)) : Quiet (first >>= after) := by
  intro disk
  obtain ⟨reads, kept⟩ := quiet disk
  obtain ⟨later, keptBehind⟩ := behind (first.run disk).1 (first.run disk).2
  rw [kept] at keptBehind
  refine ⟨later, ?_⟩
  rw [StateT.run_bind]
  exact (congrArg (fun disk => ((after (first.run _).1).run disk).2) kept).trans keptBehind

theorem quiet_compile (inputs : List String) : Quiet (compile inputs) :=
  have relates : Relates fun (α : Type) (action _ : StateM Disk α) => Quiet action :=
    { pure := fun _ disk => ⟨disk.faults.reads, rfl⟩
      bind := Quiet.bind
      read := fun _ disk => ⟨disk.faults.reads.tail, rfl⟩
      report := fun _ disk => ⟨disk.faults.reads, rfl⟩ }
  relates.compile inputs

/-! Writing the output. -/

/-- What a write that fails leaves behind. Nothing has changed but the staging file, which may
be gone. If it was not there before, it is not there now, unless the system has refused to
remove it. -/
structure Refused (disk : Disk) (after : FileTree) (target : Path) : Prop where
  leads : ∀ path, after.location? path = disk.tree.location? path
  others : ∀ location, disk.tree.location? target.staging ≠ some location →
    after.find? location = disk.tree.find? location
  output : ∀ location, disk.tree.location? target = some location →
    after.find? location = disk.tree.find? location
  staging : Faults.next disk.faults.removals = none →
    ∀ location, disk.tree.location? target.staging = some location →
      disk.tree.find? location = none → after.find? location = none

/-- What a write that succeeds leaves behind: the output, no staging file beside it, and
everything else as it was. -/
structure Written (tree after : FileTree) (target : Path) (contents : ByteArray) : Prop where
  leads : ∀ path, after.location? path = tree.location? path
  files : ∃ parent name, tree.location? target = some (parent ++ [name]) ∧
    tree.location? target.staging = some (parent ++ [name ++ Path.stagingSuffix]) ∧
    after.find? (parent ++ [name]) = some (.file contents) ∧
    after.find? (parent ++ [name ++ Path.stagingSuffix]) = none
  others : ∀ location, tree.location? target ≠ some location →
    tree.location? target.staging ≠ some location → after.find? location = tree.find? location

/-- Files can be put at a path and at its staging path, and the system stops neither the write
nor the rename. -/
structure Writable (disk : Disk) (target : Path) : Prop where
  staging : ∃ location, disk.tree.Takes target.staging location
  output : ∃ location, disk.tree.Takes target location
  writes : Faults.next disk.faults.writes = none
  renames : Faults.next disk.faults.renames = none

section Effects

variable {tree : FileTree} {target : Path} {staging : Location}

theorem Written.of_renamed {location : Location} (takesStaging : tree.Takes target.staging staging)
    (takes : tree.Takes target location) (contents : ByteArray) :
    Written tree (((tree.insert staging (.file contents)).erase staging).insert location
      (.file contents))
      target contents := by
  have inserted := takesStaging.confined_insert contents
  have erased := (inserted.directories.takes.mpr takesStaging).confined_erase
  have discarded := inserted.trans erased
  have free := (discarded.directories.takes.mpr takes).free
  obtain ⟨parent, name, resolved, rfl⟩ := takes.leads
  have beside : tree.location? target.staging = some (parent ++ [name ++ Path.stagingSuffix]) :=
    location?_eq_some.mpr ⟨_, resolve_staging resolved, rfl⟩
  obtain rfl := Option.some.inj (takesStaging.location?.symm.trans beside)
  -- Otherwise the rename would remove what it has put there.
  have apart : parent ++ [name ++ Path.stagingSuffix] ≠ parent ++ [name] :=
    fun same => location?_staging_ne takes.location? (same ▸ beside)
  refine ⟨?_, ⟨parent, name, takes.location?, beside, ?_, ?_⟩, ?_⟩
  · exact (discarded.directories.trans (sameDirectories_insert free contents)).location?
  · exact find?_insert_self _ _ takes.ne_root
  · rw [find?_insert_of_ne _ _ apart, find?_erase_self _ takesStaging.ne_root]
  · intro location other otherStaging
    have notOutput : location ≠ parent ++ [name] := fun same => other (same ▸ takes.location?)
    rw [find?_insert_of_ne _ _ notOutput, discarded.others location otherStaging]

/-- A change at the staging path and the attempt to remove what it has left there. -/
theorem Refused.of_confined {disk middle : Disk}
    (changed : Confined target.staging disk.tree middle.tree)
    (removals : middle.faults.removals = disk.faults.removals) :
    Refused disk (middle.remove target.staging).2.tree target := by
  have whole := changed.trans (middle.confined_remove target.staging)
  refine ⟨whole.directories.location?, whole.others, fun location found => ?_,
    fun allowed location found free => ?_⟩
  · exact whole.others location (location?_staging_ne found)
  · -- No directory has been made at the staging path.
    have noDirectory : middle.tree.find? location ≠ some .directory := by
      rw [Ne, changed.directories.directory, free]
      exact nofun
    rw [← changed.directories.location?] at found
    exact middle.find?_remove (takes_staging found noDirectory) (removals ▸ allowed)

end Effects

/-! The steps of a build on a disk. -/

section Runs

variable {α β : Type} {disk next : Disk} {target : Path} {contents : ByteArray}

theorem run_bind {first : StateM Disk α} {value : α} (ran : first.run disk = (value, next))
    (after : α → StateM Disk β) : (first >>= after).run disk = (after value).run next := by
  rw [StateT.run_bind, ran]
  rfl

theorem run_stage_of_unwritten {cause : FileError}
    (failed : disk.write target.staging contents = (.error cause, next)) :
    (stage target.staging target contents : StateM Disk _).run disk = (.error cause, next) := by
  have ran : (FileAccess.write target.staging contents : StateM Disk _).run disk = _ := failed
  rw [stage, run_bind ran]
  rfl

theorem run_stage_of_written (written : disk.write target.staging contents = (.ok (), next)) :
    (stage target.staging target contents : StateM Disk _).run disk =
      next.rename target.staging target := by
  have ran : (FileAccess.write target.staging contents : StateM Disk _).run disk = _ := written
  rw [stage, run_bind ran]
  rfl

theorem run_discard (disk : Disk) (staging : Path) :
    (discard staging : StateM Disk _).run disk = ((), (disk.remove staging).2) := by
  cases removed : disk.remove staging with
  | mk outcome after =>
      have ran : (FileAccess.remove staging : StateM Disk _).run disk = _ := removed
      rw [discard, run_bind ran]
      cases outcome with
      | ok => rfl
      | error cause => cases cause <;> rfl

/-- Staging either puts the output in place or changes nothing but the staging file. -/
theorem run_stage (disk : Disk) (target : Path) (contents : ByteArray) :
    (Writable disk target ∧ ∃ after,
      (stage target.staging target contents : StateM Disk _).run disk = (.ok (), after) ∧
        Written disk.tree after.tree target contents) ∨
    (¬ Writable disk target ∧ ∃ cause middle,
      (stage target.staging target contents : StateM Disk _).run disk = (.error cause, middle) ∧
        Confined target.staging disk.tree middle.tree ∧
        middle.faults.removals = disk.faults.removals) := by
  rcases disk.write_cases target.staging contents with
    ⟨staging, takesStaging, allowed, written⟩ | ⟨unmet, cause, after, confined, failed⟩
  · rw [run_stage_of_written written]
    -- The staging file holds the contents now, and the paths lead where they did.
    have inserted := takesStaging.confined_insert contents
    have holds := find?_insert_self disk.tree (.file contents) takesStaging.ne_root
    have takesWritten := inserted.directories.takes.mpr takesStaging
    let staged : Disk := ⟨disk.tree.insert staging (.file contents),
      { disk.faults with writes := disk.faults.writes.tail }⟩
    rcases staged.rename_cases takesWritten holds target with
      ⟨location, takes, granted, renamed⟩ | ⟨unmet, cause, failed⟩
    · have takes := inserted.directories.takes.mp takes
      exact Or.inl ⟨⟨⟨staging, takesStaging⟩, ⟨location, takes⟩, allowed, granted⟩,
        _, renamed, .of_renamed takesStaging takes contents⟩
    · refine Or.inr ⟨fun writable => unmet ⟨?_, writable.renames⟩, cause, _, failed, inserted, rfl⟩
      exact writable.output.imp fun _ => inserted.directories.takes.mpr
  · exact Or.inr ⟨fun writable => unmet ⟨writable.staging, writable.writes⟩, cause, _,
      run_stage_of_unwritten failed, confined, rfl⟩

theorem run_writeOutput (disk : Disk) (compilation : Compilation) (output : String) :
    let target := Path.ofString output
    let ran := (writeOutput compilation output : StateM Disk _).run disk
    Writable disk target ∧ ran.1 = .ok () ∧
        Written disk.tree ran.2.tree target compilation.assembly.toUTF8 ∨
      ¬ Writable disk target ∧ (∃ cause, ran.1 = .error (.unwritable output cause)) ∧
        Refused disk ran.2.tree target := by
  intro target ran
  rcases run_stage disk target compilation.assembly.toUTF8 with
    ⟨writable, after, staged, written⟩ | ⟨full, cause, middle, staged, confined, removals⟩
  · have result : ran = (.ok (), after) := run_bind staged _
    rw [result]
    exact Or.inl ⟨writable, rfl, written⟩
  · have result : ran = (.error (.unwritable output cause), (middle.remove target.staging).2) :=
      (run_bind staged _).trans (run_bind (run_discard middle target.staging) _)
    rw [result]
    exact Or.inr ⟨full, ⟨cause, rfl⟩, .of_confined confined removals⟩

end Runs

section Whole

variable {disk : Disk} {inputs : List String} {output : String}

theorem run_build_of_error {error : CompileError}
    (compiled : ((compile inputs : StateM Disk _).run disk).1 = .error error) :
    (build inputs output : StateM Disk _).run disk =
      (.error error, ((compile inputs : StateM Disk _).run disk).2) := by
  rw [build, run_bind (Prod.ext compiled rfl)]
  rfl

theorem run_build_of_ok {compilation : Compilation}
    (compiled : ((compile inputs : StateM Disk _).run disk).1 = .ok compilation) :
    let written := (writeOutput compilation output : StateM Disk _).run
      ((compile inputs : StateM Disk _).run disk).2
    (build inputs output : StateM Disk _).run disk =
      (written.1.map fun _ => compilation, written.2) := by
  intro written
  rw [build, run_bind (Prod.ext compiled rfl)]
  dsimp only
  rw [run_bind (show (writeOutput compilation output : StateM Disk _).run _ =
    (written.1, written.2) from rfl)]
  cases written.1 <;> rfl

end Whole

/-- A build changes all that it should or nothing, whatever the system refuses. If the inputs
do not compile, the files are as they were. If the output cannot be written, nothing has changed
but at the staging path, and a file that was not there before is not there now, unless the system
has refused to remove it. If the build succeeds, the output holds the program, and nothing else
has changed but that the staging path is free. It succeeds exactly if the inputs compile, there
is room for both files and the system stops neither the write nor the rename. -/
theorem build_all_or_nothing (disk : Disk) (inputs : List String) (output : String) :
    let target := Path.ofString output
    let compiled := ((compile inputs : StateM Disk _).run disk).1
    let built := (build inputs output : StateM Disk _).run disk
    (∀ error, compiled = .error error → built.1 = .error error ∧ built.2.tree = disk.tree) ∧
      (∀ compilation, compiled = .ok compilation →
        (∃ cause, built.1 = .error (.unwritable output cause)) ∧ Refused disk built.2.tree target ∨
          built.1 = .ok compilation ∧
            Written disk.tree built.2.tree target compilation.assembly.toUTF8) ∧
      ((∃ compilation, built.1 = .ok compilation) ↔
        (∃ compilation, compiled = .ok compilation) ∧ Writable disk target) := by
  intro target compiled built
  obtain ⟨reads, kept⟩ := quiet_compile inputs disk
  cases outcome : compiled with
  | error error =>
      have failed : built = _ := run_build_of_error outcome
      rw [failed, kept]
      refine ⟨fun _ same => ⟨by rw [Except.error.inj same], rfl⟩, nofun, ?_⟩
      exact iff_of_false nofun fun both => nomatch both.1
  | ok compilation =>
      have run : built = _ := run_build_of_ok outcome
      rw [kept] at run
      -- Reading does not change what the system does with the output.
      have same : Writable ⟨disk.tree, { disk.faults with reads }⟩ target ↔ Writable disk target :=
        ⟨fun writable => ⟨writable.staging, writable.output, writable.writes, writable.renames⟩,
          fun writable => ⟨writable.staging, writable.output, writable.writes, writable.renames⟩⟩
      rw [run, ← same]
      rcases run_writeOutput ⟨disk.tree, { disk.faults with reads }⟩ compilation output with
        ⟨writable, success, written⟩ | ⟨full, ⟨cause, failed⟩, refused⟩
      · rw [success]
        refine ⟨nofun, fun other equal => ?_, ?_⟩
        · obtain rfl := Except.ok.inj equal
          exact Or.inr ⟨rfl, written⟩
        · exact iff_of_true ⟨compilation, rfl⟩ ⟨⟨compilation, rfl⟩, writable⟩
      · rw [failed]
        refine ⟨nofun, fun _ _ => Or.inl ⟨⟨cause, rfl⟩, ?_⟩, ?_⟩
        · exact ⟨refused.leads, refused.others, refused.output, refused.staging⟩
        · exact iff_of_false nofun fun both => full both.2

/-! Builds in a tree. -/

/-- In a tree an action does what it does on a disk that refuses nothing. -/
def Agrees {α : Type} (inTree : StateM FileTree α) (onDisk : StateM Disk α) : Prop :=
  ∀ tree, onDisk.run ⟨tree, .empty⟩ = ((inTree.run tree).1, ⟨(inTree.run tree).2, .empty⟩)

section Agrees

variable {α β : Type}

theorem Agrees.bind {inTree : StateM FileTree α} {onDisk : StateM Disk α}
    {afterInTree : α → StateM FileTree β} {afterOnDisk : α → StateM Disk β}
    (agrees : Agrees inTree onDisk)
    (behind : ∀ value, Agrees (afterInTree value) (afterOnDisk value)) :
    Agrees (inTree >>= afterInTree) (onDisk >>= afterOnDisk) := by
  intro tree
  rw [run_bind (agrees tree)]
  exact behind _ _

theorem relates_agrees : Relates fun α => @Agrees α :=
  ⟨fun _ _ => rfl, Agrees.bind, fun _ _ => rfl, fun _ _ => rfl⟩

theorem agrees_discard (staging : Path) : Agrees (discard staging) (discard staging) := by
  refine Agrees.bind (fun _ => rfl) fun removed => ?_
  split <;> exact relates_agrees.pure _

theorem agrees_stage (staging target : Path) (contents : ByteArray) :
    Agrees (stage staging target contents) (stage staging target contents) := by
  refine Agrees.bind (fun _ => rfl) fun written => ?_
  cases written with
  | error cause => exact relates_agrees.pure _
  | ok => exact fun _ => rfl

theorem agrees_writeOutput (compilation : Compilation) (output : String) :
    Agrees (writeOutput compilation output) (writeOutput compilation output) := by
  refine (agrees_stage _ _ _).bind fun staged => ?_
  cases staged with
  | ok => exact relates_agrees.pure _
  | error cause => exact (agrees_discard _).bind fun _ => relates_agrees.pure _

theorem agrees_build (inputs : List String) (output : String) :
    Agrees (build inputs output) (build inputs output) := by
  refine (relates_agrees.compile inputs).bind fun compiled => ?_
  cases compiled with
  | error error => exact relates_agrees.pure _
  | ok compilation =>
      refine (agrees_writeOutput compilation output).bind fun written => ?_
      cases written with
      | error error => exact relates_agrees.pure _
      | ok => exact (relates_agrees.report _).bind fun _ => relates_agrees.pure _

end Agrees
end Build
end TinkaCompiler
