import Installer.Proofs.Directory.Erasure
import Installer.Proofs.Directory.Parts
import Installer.Proofs.Ident.Given

/-! # Generated directory ids

A directory for which no id is declared and which is no special folder takes its id from the pool.
By then all declared ids are in use, and so are those of the directories that shortcuts will call
for, because names lead to the same directories before and after ids are given out.  Special folders
need not be looked at: generated ids have a full stop, ids of special folders have none.
-/

namespace Installer

open IdPool LogicalPath

/-! ## The ids that directories take -/

/-- The id of the directory comes from the pool: none is declared, and it is no special folder. -/
def DirBody.IsGenerated (body : DirBody) : Prop :=
  body.id = none ∧ Folder.specialId? body.name = none

instance (body : DirBody) : Decidable body.IsGenerated :=
  inferInstanceAs (Decidable (body.id = none ∧ Folder.specialId? body.name = none))

/-- The ids that a directory may take inside the directory `parentId`. -/
inductive DirBody.Takes (parentId : String) (body : DirBody) : String → Prop where
  | declared {id : String} (given : body.id = some id) : Takes parentId body id
  | special {id : String} (none : body.id = none) (folder : Folder.specialId? body.name = some id) :
      Takes parentId body id
  | plain (generated : body.IsGenerated) :
      Takes parentId body (parentId ++ "." ++ Folder.identifier body.name)
  | numbered {n : Nat} (generated : body.IsGenerated) (positive : 0 < n) :
      Takes parentId body (numbered (parentId ++ "." ++ Folder.identifier body.name) n)

namespace DirBody

theorem takes_resolveId (parentId : String) (body : DirBody) (pool : IdPool) :
    body.Takes parentId ((body.resolveId parentId).run pool).1 := by
  rw [resolveId]
  cases given : body.id with
  | some id => exact .declared given
  | none =>
    cases folder : Folder.specialId? body.name with
    | some id => exact .special given folder
    | none =>
      cases claim_eq .directory (parentId ++ "." ++ Folder.identifier body.name) pool with
      | inl name =>
        simp only [name]
        exact .plain ⟨given, folder⟩
      | inr number =>
        obtain ⟨n, positive, numbered⟩ := number
        simp only [numbered]
        exact .numbered ⟨given, folder⟩ positive

/-- A generated id has a full stop in it. -/
theorem Takes.dot_mem {parentId id : String} {body : DirBody} (takes : body.Takes parentId id)
    (generated : body.IsGenerated) : '.' ∈ id.toList := by
  cases takes with
  | declared given => simp [generated.1] at given
  | special none folder => simp [generated.2] at folder
  | plain _ => simp
  | numbered _ _ => simp [IdPool.numbered]

/-- A declared id is taken as it is. -/
theorem Takes.eq_of_declared {parentId id id' : String} {body : DirBody}
    (takes : body.Takes parentId id) (given : body.id = some id') : id = id' := by
  cases takes with
  | declared given' => exact Option.some.inj (given'.symm.trans given)
  | special none _ => simp [given] at none
  | plain generated => simp [generated.1] at given
  | numbered generated _ => simp [generated.1] at given

/-- A directory whose id was not generated has a declared one or the one of a special folder. -/
theorem Takes.of_not_generated {parentId id : String} {body : DirBody}
    (takes : body.Takes parentId id) (other : ¬ body.IsGenerated) :
    body.id = some id ∨ Folder.IsFolderId id := by
  cases takes with
  | declared given => exact .inl given
  | special none folder => exact .inr (Folder.specialId?_eq_some folder).1
  | plain generated => exact absurd generated other
  | numbered generated _ => exact absurd generated other

theorem hands_resolveId (parentId : String) (body : DirBody) (pool : IdPool) :
    Hands .directory pool ((body.resolveId parentId).run pool).2
      (if body.IsGenerated then [((body.resolveId parentId).run pool).1] else []) := by
  rw [resolveId]
  cases given : body.id with
  | some id =>
    rw [if_neg fun generated => by simp [generated.1] at given]
    exact .refl pool
  | none =>
    cases folder : Folder.specialId? body.name with
    | some id =>
      rw [if_neg fun generated => by simp [generated.2] at folder]
      exact .refl pool
    | none =>
      rw [if_pos ⟨given, folder⟩]
      exact hands_claim _ _ _

end DirBody

/-! ## What else gets ids -/

section Keeps

variable {kind : IdKind}

theorem Shortcut.keeps_resolve (apart : kind ≠ .shortcut) (shortcut : Shortcut) :
    Keeps kind shortcut.resolve := by
  rw [resolve]
  cases shortcut.id with
  | some id => exact .pure _
  | none => exact (Keeps.claim apart _).bind fun _ => .pure _

theorem Permission.keeps_resolve (permission : Permission) : Keeps kind permission.resolve := by
  rw [resolve]
  cases permission.id with
  | some id => exact .pure _
  | none => exact (Keeps.number _ _).bind fun _ => .pure _

theorem MergeModule.keeps_resolve (apart : kind ≠ .mergeModule) (module : MergeModule) :
    Keeps kind module.resolve := by
  rw [resolve]
  cases module.id with
  | some id => exact .pure _
  | none => exact (Keeps.claim apart _).bind fun _ => .pure _

theorem File.keeps_resolve (apart : kind ≠ .file) (apart' : kind ≠ .shortcut) (file : File) :
    Keeps kind file.resolve := by
  have carried : ∀ id : String, Keeps kind (do
      let shortcuts ← file.shortcuts.mapM Shortcut.resolve
      let permissions ← file.permissions.mapM Permission.resolve
      return { file with id := some id, shortcuts, permissions } : StateM IdPool File) := fun id =>
    (Keeps.mapM (Shortcut.keeps_resolve apart') _).bind fun _ =>
      (Keeps.mapM Permission.keeps_resolve _).bind fun _ => .pure _
  rw [resolve]
  cases file.id with
  | some id => exact (Keeps.pure id).bind carried
  | none => exact (Keeps.claim apart _).bind carried

/-- What a directory holds takes no ids of other kinds. -/
theorem DirBody.keeps_resolve (apart : kind ∉ [IdKind.file, .shortcut, .mergeModule]) (id : String)
    (body : DirBody) : Keeps kind (body.resolve id) := by
  simp only [List.mem_cons, List.not_mem_nil, or_false, not_or] at apart
  obtain ⟨file, shortcut, module⟩ := apart
  rw [resolve]
  exact (Keeps.mapM (File.keeps_resolve file shortcut) _).bind fun _ =>
    (Keeps.mapM (Shortcut.keeps_resolve shortcut) _).bind fun _ =>
      (Keeps.mapM Permission.keeps_resolve _).bind fun _ =>
        (Keeps.mapM (MergeModule.keeps_resolve module) _).bind fun _ => .pure _

theorem DirBody.keeps_resolveId (apart : kind ≠ .directory) (outerId : String) (body : DirBody) :
    Keeps kind (body.resolveId outerId) := by
  rw [resolveId]
  split
  next => exact .pure _
  next => exact .pure _
  next => exact .claim apart _

end Keeps

/-! ## The walk over the directories -/

namespace Dir

/-- The id of the directory around the one at an id path, inside the directory `outerId`. -/
def parentId (outerId : String) (path : List String) : String :=
  path.dropLast.getLastD outerId

def generatedIds (pairs : List (Dir × List String × Dir)) : List String :=
  (pairs.filter fun pair => pair.1.IsGenerated).map fun pair => pair.2.2.finalId

/-- Between two pools the directories `dirs` inside the directory `outerId` got their ids and became
`dirs'`. -/
structure Identified (outerId : String) (before after : IdPool) (dirs dirs' : List Dir) : Prop where
  takes : List.Forall₂ (fun dir entry => entry.2.name = dir.name ∧
    ∃ id, entry.2.id = some id ∧ dir.Takes (parentId outerId entry.1) id) (all dirs) (located dirs')
  hands : Hands .directory before after (generatedIds ((all dirs).zip (located dirs')))

namespace Identified

variable {outerId : String} {before between after : IdPool}

theorem nil (pool : IdPool) : Identified outerId pool pool [] [] :=
  ⟨.nil, .refl pool⟩

theorem append {dirs₁ dirs₁' dirs₂ dirs₂' : List Dir}
    (first : Identified outerId before between dirs₁ dirs₁')
    (second : Identified outerId between after dirs₂ dirs₂') :
    Identified outerId before after (dirs₁ ++ dirs₂) (dirs₁' ++ dirs₂') where
  takes := by
    rw [all_append, located_append]
    exact List.rel_append first.takes second.takes
  hands := by
    rw [all_append, located_append, List.zip_append first.takes.length_eq, generatedIds,
      List.filter_append, List.map_append]
    exact first.hands.trans second.hands

/-- A directory takes its id, and the directories below it are inside the directory with this id. -/
theorem of_body {body body' : DirBody} {dirs dirs' : List Dir} {id : String}
    (name : body'.name = body.name) (given : body'.id = some id) (takes : body.Takes outerId id)
    (own : Hands .directory before between (if body.IsGenerated then [id] else []))
    (below : Identified id between after dirs dirs') :
    Identified outerId before after [⟨body, dirs⟩] [⟨body', dirs'⟩] := by
  have finalId_eq : finalId ⟨body', dirs'⟩ = id := by simp [finalId, given]
  constructor
  · rw [all_cons, all_nil, List.append_nil, located_singleton, finalId_eq]
    refine .cons ⟨name, id, given, takes⟩ ?_
    rw [List.forall₂_map_right_iff]
    obtain ⟨length, inner⟩ := List.forall₂_iff_zip.mp below.takes
    refine List.forall₂_iff_zip.mpr ⟨length, fun {dir entry} mem => ?_⟩
    obtain ⟨name, id', given', takes'⟩ := inner mem
    refine ⟨name, id', given', ?_⟩
    -- the path goes on below this directory, so that the parent is found behind its id
    have last := getLast?_of_mem_located (List.of_mem_zip mem).2
    obtain ⟨front, path⟩ := List.getLast?_eq_some_iff.mp last
    have parent : parentId outerId (id :: entry.1) = parentId id entry.1 := by
      rw [parentId, parentId, path, ← List.cons_append, List.dropLast_concat, List.dropLast_concat,
        List.getLastD_cons]
    rw [parent]
    exact takes'
  · rw [all_cons, all_nil, List.append_nil, located_singleton, finalId_eq, List.zip_cons_cons]
    have inner : generatedIds ((all dirs).zip
        ((located dirs').map fun entry => (id :: entry.1, entry.2))) =
          generatedIds ((all dirs).zip (located dirs')) := by
      rw [List.zip_map_right, generatedIds, generatedIds, List.filter_map, List.map_map]
      rfl
    have here : ∀ pairs, generatedIds ((⟨body, dirs⟩, [id], ⟨body', dirs'⟩) :: pairs) =
        (if body.IsGenerated then [id] else []) ++ generatedIds pairs := by
      intro pairs
      rw [generatedIds, List.filter_cons]
      by_cases generated : body.IsGenerated
      · simp [generated, finalId_eq, generatedIds]
      · simp [generated, generatedIds]
    rw [here, inner]
    exact own.trans below.hands

end Identified

mutual

theorem identified_resolve (outerId : String) :
    ∀ (dir : Dir) (pool : IdPool), Identified outerId pool ((dir.resolve outerId).run pool).2
      [dir] [((dir.resolve outerId).run pool).1]
  | ⟨body, dirs⟩, pool => by
    rw [resolve]
    have own := body.hands_resolveId outerId pool
    have held : Keeps .directory (body.resolve ((body.resolveId outerId).run pool).1) :=
      body.keeps_resolve (by decide) _
    have below := identified_resolveAll ((body.resolveId outerId).run pool).1 dirs
      ((body.resolve ((body.resolveId outerId).run pool).1).run
        ((body.resolveId outerId).run pool).2).2
    exact .of_body rfl rfl (body.takes_resolveId outerId pool)
      (own.trans_nil (.of_used (held.isUsed_eq _))) below

/-- Every directory takes an id, and those from the pool are handed out in order. -/
theorem identified_resolveAll (outerId : String) :
    ∀ (dirs : List Dir) (pool : IdPool), Identified outerId pool
      ((resolveAll outerId dirs).run pool).2 dirs ((resolveAll outerId dirs).run pool).1
  | [], pool => .nil pool
  | dir :: rest, pool => by
    rw [resolveAll]
    have first := identified_resolve outerId dir pool
    have others := identified_resolveAll outerId rest ((dir.resolve outerId).run pool).2
    exact first.append others

end

/-! ## Ids in use before the walk -/

mutual

theorem mem_declaredIds {id : String} : ∀ dir : Dir,
    (IdKind.directory, id) ∈ declaredIds dir ↔ ∃ x ∈ all [dir], x.id = some id
  | ⟨body, dirs⟩ => by
    have below : (IdKind.directory, id) ∈ declaredIdsIn dirs ↔ _ := mem_declaredIdsIn dirs
    rw [declaredIds, all_cons, all_nil, List.append_nil]
    simp only [List.mem_append, List.mem_map, List.mem_cons, below, exists_eq_or_imp]
    simp [eq_comm]

theorem mem_declaredIdsIn {id : String} : ∀ dirs : List Dir,
    (IdKind.directory, id) ∈ declaredIdsIn dirs ↔ ∃ x ∈ all dirs, x.id = some id
  | [] => by simp [declaredIdsIn]
  | dir :: rest => by
    rw [declaredIdsIn, List.mem_append, mem_declaredIds dir, mem_declaredIdsIn rest,
      ← List.singleton_append (l := rest), all_append]
    simp [or_and_right, exists_or]

end

mutual

theorem locations_eq : ∀ dir : Dir, locations dir =
    (((allFiles [dir]).flatMap File.shortcuts).map Shortcut.location).filter fun l => !l.isEmpty
  | ⟨body, dirs⟩ => by
    rw [locations, locationsIn_eq dirs, allFiles, allFiles, all_cons, all_nil, List.append_nil]
    simp

theorem locationsIn_eq : ∀ dirs : List Dir, locationsIn dirs =
    (((allFiles dirs).flatMap File.shortcuts).map Shortcut.location).filter fun l => !l.isEmpty
  | [] => rfl
  | dir :: rest => by
    have first := locations_eq dir
    have others := locationsIn_eq rest
    rw [locationsIn, first, others, ← List.singleton_append (l := rest)]
    simp only [allFiles, all_append, List.flatMap_append, List.map_append, List.filter_append]

end

/-- A location that a shortcut of a file names is among the locations. -/
theorem location_mem {dirs : List Dir} {file : File} {shortcut : Shortcut}
    (isFile : file ∈ allFiles dirs) (isShortcut : shortcut ∈ file.shortcuts)
    (elsewhere : shortcut.isElsewhere dirs = true) : shortcut.location ∈ locationsIn dirs := by
  rw [Shortcut.isElsewhere, Bool.and_eq_true] at elsewhere
  rw [locationsIn_eq, List.mem_filter]
  refine ⟨List.mem_map_of_mem ?_, elsewhere.1⟩
  exact List.mem_flatMap.mpr ⟨file, isFile, isShortcut⟩

/-- Names lead to a directory with ids just if they led to one without. -/
theorem find?_eq_none_of_withoutIds {shaped prepared : List Dir}
    (same : withoutIdsAll prepared = withoutIdsAll shaped) {path : String}
    (several : 2 ≤ (components path).length) (missing : find? prepared path = none) :
    find? shaped path = none := by
  rw [find?_of_several several] at missing ⊢
  have prepared_eq := followIn?_withoutIdsAll prepared (components path)
  have shaped_eq := followIn?_withoutIdsAll shaped (components path)
  rw [missing, same, shaped_eq, Option.map_none, Option.map_eq_none_iff] at prepared_eq
  exact prepared_eq

/-- The parts for which directories will be made are foreseen when there are no ids yet. -/
theorem identifier_mem_locationIds {shaped prepared : List Dir}
    (same : withoutIdsAll prepared = withoutIdsAll shaped) {location : String}
    (missing : find? prepared location = none) {m : Nat} (several : 2 ≤ m)
    (above : declaredLength prepared location < m) (bound : m ≤ (components location).length) :
    Folder.identifier (ofComponents ((components location).take m)) ∈
      locationIds shaped location := by
  rw [locationIds, initials, List.takeWhile_map, List.map_map]
  refine List.mem_map.mpr ⟨m - 1, mem_takeWhile_reverse_range (by omega) fun n least most => ?_, ?_⟩
  · have length : (components (ofComponents ((components location).take (n + 1)))).length =
        n + 1 := by
      rw [components_ofComponents_take, List.length_take]
      omega
    simp only [Function.comp_apply, length, Bool.and_eq_true, decide_eq_true_eq,
      Option.isNone_iff_eq_none]
    refine ⟨by omega, find?_eq_none_of_withoutIds same (by omega) ?_⟩
    -- the whole location is not declared, and neither are its parts above the declared one
    by_cases whole : n + 1 = (components location).length
    · rw [whole, List.take_length, find?_congr (components_ofComponents_components location)]
      exact missing
    · exact find?_eq_none_of_declaredLength_lt (by omega) (by omega)
  · simp only [Function.comp_apply, Nat.sub_add_cancel (show 1 ≤ m by omega)]

end Dir

/-! ## Generated ids keep apart -/

theorem pairwise_ne_of_filter {α : Type} {p : α → Bool} {f : α → String} {list : List α}
    (nodup : ((list.filter p).map f).Nodup)
    (other : ∀ x ∈ list, p x = true → ∀ y ∈ list, p y = false → f x ≠ f y) :
    list.Pairwise fun x y => p x = true ∨ p y = true → f x ≠ f y := by
  induction list with
  | nil => exact .nil
  | cons x rest ih =>
    have later : ((rest.filter p).map f).Nodup := by
      rw [List.filter_cons] at nodup
      split at nodup
      next => exact (List.nodup_cons.mp nodup).2
      next => exact nodup
    refine .cons (fun y mem either => ?_) (ih later fun a inA pa b inB pb =>
      other a (List.mem_cons_of_mem _ inA) pa b (List.mem_cons_of_mem _ inB) pb)
    have inY := List.mem_cons_of_mem x mem
    cases px : p x with
    | true =>
      cases py : p y with
      | true =>
        rw [List.filter_cons_of_pos px, List.map_cons, List.nodup_cons] at nodup
        exact fun equal => nodup.1 (equal ▸ List.mem_map_of_mem (List.mem_filter.mpr ⟨mem, py⟩))
      | false => exact other x (List.mem_cons_self ..) px y inY py
    | false =>
      have py : p y = true := by simpa [px] using either
      exact (other y inY py x (List.mem_cons_self ..) px).symm

/-- The directories `prepared` are those of `shaped` with final ids, and an id that was generated is
the id of one directory only. -/
structure Dir.GivesIds (shaped prepared : List Dir) : Prop where
  /-- Each directory has its name and takes an id inside the directory around it. -/
  takes : List.Forall₂ (fun dir entry => entry.2.name = dir.name ∧
    ∃ id, entry.2.id = some id ∧ dir.Takes (parentId rootId entry.1) id)
      (all shaped) (located prepared)
  /-- No other directory has a generated id, wherever it is declared. -/
  apart : ((all shaped).zip (located prepared)).Pairwise fun x y =>
    x.1.IsGenerated ∨ y.1.IsGenerated → x.2.2.finalId ≠ y.2.2.finalId
  /-- Neither has a directory that is made for a location without a directory, where the names up
  to it are two or more. -/
  reserved : ∀ pair ∈ (all shaped).zip (located prepared), pair.1.IsGenerated →
    ∀ file ∈ allFiles prepared, ∀ shortcut ∈ file.shortcuts, shortcut.isElsewhere prepared = true →
      ∀ feature, ∀ made ∈ located [chain (components shortcut.location)
        (declaredLength prepared shortcut.location) feature],
          2 ≤ declaredLength prepared shortcut.location + made.1.length →
            made.2.finalId ≠ pair.2.2.finalId

def Project.shapedDirs (project : Project) (options : Options) : List Dir :=
  (Dir.shape options.installDirDefaultId (project.withSomeDir.widened options).dirs).1

namespace Project

variable (project : Project) (options : Options)

/-- The walk over the directories starts with the reserved ids in use. -/
theorem identified_prepare : ∃ before after : IdPool,
    (∀ kind id, before.isUsed kind id = true ↔
      (kind, id) ∈ Dir.reservedIds (project.shapedDirs options)) ∧
    Dir.Identified Dir.rootId before after (project.shapedDirs options)
      (project.prepare options).project.dirs := by
  refine ⟨_, _, fun kind id => ?_, Dir.identified_resolveAll Dir.rootId _ _⟩
  exact isUsed_reserveAll.trans (or_iff_left (by simp [isUsed, lastNumber?]))

theorem withoutIds_prepare : Dir.withoutIdsAll (project.prepare options).project.dirs =
    Dir.withoutIdsAll (project.shapedDirs options) :=
  Dir.withoutIdsAll_resolveAll _ _ _

/-- A reading of what directories hold that does not see ids is the same for the prepared project.
-/
theorem readAll_prepare {α : Type} {read : DirBody → List α} (content : DirBody.IsContent read)
    (blind : ∀ body : DirBody, read body.withoutIds = read body) :
    Dir.readAll read (project.prepare options).project.dirs = Dir.readAll read project.dirs := by
  rw [← Dir.readAll_withoutIdsAll blind, project.withoutIds_prepare options,
    Dir.readAll_withoutIdsAll blind]
  exact project.readAll_shaped options content

/-- An id that is in use from the start is not generated. -/
theorem ne_of_reserved {pair : Dir × List String × Dir}
    (mem : pair ∈ (Dir.all (project.shapedDirs options)).zip
      (Dir.located (project.prepare options).project.dirs)) (generated : pair.1.IsGenerated)
    {id : String} (reserved : (.directory, id) ∈ Dir.reservedIds (project.shapedDirs options)) :
    id ≠ pair.2.2.finalId := by
  obtain ⟨before, after, inUse, identified⟩ := project.identified_prepare options
  intro equal
  have handed : id ∈ Dir.generatedIds ((Dir.all (project.shapedDirs options)).zip
      (Dir.located (project.prepare options).project.dirs)) := by
    rw [equal]
    exact List.mem_map_of_mem (List.mem_filter.mpr ⟨mem, by simpa using generated⟩)
  have unused := identified.hands.fresh id handed
  rw [(inUse .directory id).mpr reserved] at unused
  cases unused

theorem forall₂_takes : List.Forall₂ (fun dir entry => entry.2.name = dir.name ∧
    ∃ id, entry.2.id = some id ∧ dir.Takes (Dir.parentId Dir.rootId entry.1) id)
      (Dir.all (project.shapedDirs options))
      (Dir.located (project.prepare options).project.dirs) := by
  obtain ⟨before, after, -, identified⟩ := project.identified_prepare options
  exact identified.takes

theorem takes_finalId {pair : Dir × List String × Dir}
    (mem : pair ∈ (Dir.all (project.shapedDirs options)).zip
      (Dir.located (project.prepare options).project.dirs)) :
    pair.1.Takes (Dir.parentId Dir.rootId pair.2.1) pair.2.2.finalId := by
  obtain ⟨-, id, given, taken⟩ := (List.forall₂_iff_zip.mp (project.forall₂_takes options)).2 mem
  rw [show pair.2.2.finalId = id by simp [Dir.finalId, given]]
  exact taken

/-- A generated id is the id of one directory only. -/
theorem pairwise_finalId_ne : ((Dir.all (project.shapedDirs options)).zip
    (Dir.located (project.prepare options).project.dirs)).Pairwise fun x y =>
      x.1.IsGenerated ∨ y.1.IsGenerated → x.2.2.finalId ≠ y.2.2.finalId := by
  obtain ⟨before, after, -, identified⟩ := project.identified_prepare options
  refine (pairwise_ne_of_filter identified.hands.nodup fun x inX generated y inY other equal =>
    ?_).imp fun kept either => kept (by simpa using either)
  simp only [decide_eq_true_eq] at generated
  simp only [decide_eq_false_iff_not] at other
  cases (project.takes_finalId options inY).of_not_generated other with
  | inl declared =>
    -- declared ids are in use from the start
    refine project.ne_of_reserved options inX generated (List.mem_append_left _ ?_) equal.symm
    exact (Dir.mem_declaredIdsIn _).mpr ⟨y.1, (List.of_mem_zip inY).1, declared⟩
  | inr special =>
    have dotted := (project.takes_finalId options inX).dot_mem generated
    rw [equal] at dotted
    exact special.dot_notMem dotted

/-- A part with several names for which a directory will be made has no generated id. -/
theorem identifier_ne_of_generated {pair : Dir × List String × Dir}
    (mem : pair ∈ (Dir.all (project.shapedDirs options)).zip
      (Dir.located (project.prepare options).project.dirs)) (generated : pair.1.IsGenerated)
    {file : File} (isFile : file ∈ Dir.allFiles (project.prepare options).project.dirs)
    {shortcut : Shortcut} (isShortcut : shortcut ∈ file.shortcuts)
    (elsewhere : shortcut.isElsewhere (project.prepare options).project.dirs = true)
    {part : List String}
    (new : part ∈ Dir.newParts (project.prepare options).project.dirs shortcut.location)
    (several : 2 ≤ part.length) :
    Folder.identifier (ofComponents part) ≠ pair.2.2.finalId := by
  have same := project.withoutIds_prepare options
  have missing : Dir.find? (project.prepare options).project.dirs shortcut.location = none := by
    simp only [Shortcut.isElsewhere, Bool.and_eq_true, Option.isNone_iff_eq_none] at elsewhere
    exact elsewhere.2
  have location := Dir.location_mem isFile isShortcut elsewhere
  rw [← Dir.locationsIn_withoutIdsAll, same, Dir.locationsIn_withoutIdsAll] at location
  obtain ⟨m, above, bound, rfl⟩ := Dir.mem_newParts.mp new
  rw [List.length_take, Nat.min_eq_left bound] at several
  refine project.ne_of_reserved options mem generated (List.mem_append_right _ ?_)
  refine List.mem_flatMap.mpr ⟨_, location, List.mem_map_of_mem ?_⟩
  exact Dir.identifier_mem_locationIds same missing several above bound

/-- The generated ids of a prepared project are those of one directory each, and no shortcut calls
for a directory with such an id. -/
theorem givesIds_prepare :
    Dir.GivesIds (project.shapedDirs options) (project.prepare options).project.dirs := by
  refine ⟨project.forall₂_takes options, project.pairwise_finalId_ne options, ?_⟩
  intro pair mem generated file isFile shortcut isShortcut elsewhere feature made isMade several
  generalize length_eq : Dir.declaredLength (project.prepare options).project.dirs
    shortcut.location = start at isMade several
  -- a location without names has a chain of one directory only
  have named : components shortcut.location ≠ [] := by
    intro empty
    obtain ⟨-, -, follows⟩ := Dir.located_chain isMade
    have short := follows.length_le
    rw [Dir.declaredLength_of_nil empty] at length_eq
    rw [← length_eq] at several
    simp only [empty, Dir.chainIds, List.length_map, List.length_append, List.length_range',
      List.length_singleton, List.length_nil] at short
    omega
  have lt : Dir.declaredLength (project.prepare options).project.dirs shortcut.location <
      (components shortcut.location).length := Dir.declaredLength_lt named
  rw [length_eq] at lt
  obtain ⟨positive, bound, finalId_eq⟩ := Dir.finalId_of_mem_chain lt isMade
  rw [finalId_eq]
  refine project.identifier_ne_of_generated options mem generated isFile isShortcut elsewhere
    (Dir.mem_newParts.mpr ⟨_, by omega, bound, rfl⟩) ?_
  rw [List.length_take]
  omega

end Project

end Installer
