import Installer.Proofs.Component.Distinct
import Installer.Proofs.Directory.Distinct
import Installer.Proofs.Folder.Legal

/-! # Legal ids in the tree of directories

Files and shortcuts get ids that are made of their own names.  A directory that gets an id gets one
that goes on from that of the directory around it, so that its own name cannot spoil it: all ids of
declared directories are legal if the one that may be assigned to the installation directory is.
-/

namespace Installer

open IdPool
open Folder (IsLegal IsPlain IsHidden)

/-! ## What directories hold -/

def File.naming (file : File) : Naming :=
  ⟨file.id, file.fileName⟩

def Shortcut.naming (shortcut : Shortcut) : Naming :=
  ⟨shortcut.id, shortcut.name⟩

theorem File.takes_resolve (file : File) (pool : IdPool) :
    file.naming.Takes (file.resolve.run pool).1.finalId := by
  rw [Naming.Takes, naming, resolve]
  cases file.id with
  | some id => rfl
  | none => exact claim_eq .file _ pool

theorem Shortcut.takes_resolve (shortcut : Shortcut) (pool : IdPool) :
    shortcut.naming.Takes (shortcut.resolve.run pool).1.finalId := by
  rw [Naming.Takes, naming, resolve]
  cases declared : shortcut.id with
  | some id => exact congrArg (Option.getD · _) declared
  | none => exact claim_eq .shortcut _ pool

/-- A permission for which no id is declared is counted. -/
theorem Permission.isPlain_resolve (permission : Permission) (pool : IdPool)
    (undeclared : permission.id = none) : IsPlain (permission.resolve.run pool).1.finalId := by
  rw [resolve, undeclared]
  exact Folder.isPlain_append.mpr ⟨by decide, Folder.isPlain_toString _⟩

theorem forall₂_mapM {α β : Type} {step : α → StateM IdPool β} {R : α → β → Prop}
    (each : ∀ x pool, R x ((step x).run pool).1) (xs : List α) (pool : IdPool) :
    List.Forall₂ R xs ((xs.mapM step).run pool).1 := by
  induction xs generalizing pool with
  | nil => exact .nil
  | cons x rest ih =>
    rw [List.mapM_cons]
    exact .cons (each x pool) (ih _)

/-! ## The walk over the directories -/

namespace Dir

section

variable {α β : Type} {R : α → β → Prop} (read : DirBody → List α) (read' : DirBody → List β)

/-- However a directory gives ids to what it holds, this relates what is read. -/
def RelatesHeld (R : α → β → Prop) : Prop :=
  ∀ (body : DirBody) id pool, List.Forall₂ R (read body) (read' ((body.resolve id).run pool).1)

variable {read read'}

theorem forall₂_of_body {body body' : DirBody} {dirs dirs' : List Dir}
    (own : List.Forall₂ R (read body) (read' body'))
    (below : List.Forall₂ R (readAll read dirs) (readAll read' dirs')) :
    List.Forall₂ R (readAll read [⟨body, dirs⟩]) (readAll read' [⟨body', dirs'⟩]) := by
  rw [readAll_singleton, readAll_singleton]
  exact List.rel_append own below

theorem forall₂_cons {dir dir' : Dir} {rest rest' : List Dir}
    (first : List.Forall₂ R (readAll read [dir]) (readAll read' [dir']))
    (others : List.Forall₂ R (readAll read rest) (readAll read' rest')) :
    List.Forall₂ R (readAll read (dir :: rest)) (readAll read' (dir' :: rest')) := by
  rw [← List.singleton_append, ← List.singleton_append (l := rest'), readAll_append, readAll_append]
  exact List.rel_append first others

mutual

theorem RelatesHeld.resolve (relates : RelatesHeld read read' R) (outerId : String) :
    ∀ (dir : Dir) (pool : IdPool), List.Forall₂ R (readAll read [dir])
      (readAll read' [((dir.resolve outerId).run pool).1])
  | ⟨body, dirs⟩, pool => by
    have own := relates body ((body.resolveId outerId).run pool).1
      ((body.resolveId outerId).run pool).2
    have below := relates.resolveAll ((body.resolveId outerId).run pool).1 dirs
      ((body.resolve ((body.resolveId outerId).run pool).1).run
        ((body.resolveId outerId).run pool).2).2
    rw [Dir.resolve]
    exact forall₂_of_body own below

/-- So it is with what is read of a whole tree. -/
theorem RelatesHeld.resolveAll (relates : RelatesHeld read read' R) (outerId : String) :
    ∀ (dirs : List Dir) (pool : IdPool), List.Forall₂ R (readAll read dirs)
      (readAll read' ((Dir.resolveAll outerId dirs).run pool).1)
  | [], _ => .nil
  | dir :: rest, pool => by
    have first := relates.resolve outerId dir pool
    have others := relates.resolveAll outerId rest ((dir.resolve outerId).run pool).2
    rw [Dir.resolveAll]
    exact forall₂_cons first others

end

end

end Dir

/-- The id goes on from a legal one unless it is declared or that of a special folder. -/
theorem DirBody.Takes.isLegal {outerId id : String} {body : DirBody} (takes : body.Takes outerId id)
    (outer : IsLegal outerId) (declared : ∀ given, body.id = some given → IsLegal given) :
    IsLegal id := by
  have named : IsLegal (outerId ++ "." ++ Folder.identifier body.name) :=
    (outer.append (by decide)).append (Folder.isPlain_identifier body.name)
  cases takes with
  | declared given => exact declared id given
  | special _ folder => exact (Folder.specialId?_eq_some folder).1.isLegal
  | plain _ => exact named
  | numbered _ _ => exact (Folder.isLegal_numbered_iff _).mpr named

namespace Dir

theorem isLegal_of_body {body' : DirBody} {dirs' : List Dir} {id : String}
    (given : body'.id = some id) (own : IsLegal id) (below : ∀ x ∈ all dirs', IsLegal x.finalId) :
    ∀ x ∈ all [⟨body', dirs'⟩], IsLegal x.finalId := by
  rw [all_cons, all_nil, List.append_nil, List.forall_mem_cons]
  refine ⟨?_, below⟩
  rwa [finalId, given]

mutual

theorem isLegal_resolve {outerId : String} (outer : IsLegal outerId) :
    ∀ (dir : Dir) (pool : IdPool),
    (∀ x ∈ all [dir], ∀ id, x.id = some id → IsLegal id) →
      ∀ x ∈ all [((dir.resolve outerId).run pool).1], IsLegal x.finalId
  | ⟨body, dirs⟩, pool, declared => by
    rw [all_cons, all_nil, List.append_nil, List.forall_mem_cons] at declared
    have own : IsLegal ((body.resolveId outerId).run pool).1 :=
      (body.takes_resolveId outerId pool).isLegal outer declared.1
    have below := isLegal_resolveAll own dirs
      ((body.resolve ((body.resolveId outerId).run pool).1).run
        ((body.resolveId outerId).run pool).2).2 declared.2
    rw [resolve]
    exact isLegal_of_body rfl own below

/-- Inside a directory with a legal id all directories get legal ids, if the declared ones are. -/
theorem isLegal_resolveAll {outerId : String} (outer : IsLegal outerId) :
    ∀ (dirs : List Dir) (pool : IdPool), (∀ x ∈ all dirs, ∀ id, x.id = some id → IsLegal id) →
      ∀ x ∈ all ((resolveAll outerId dirs).run pool).1, IsLegal x.finalId
  | [], _, _ => nofun
  | dir :: rest, pool, declared => by
    rw [← List.singleton_append, all_append, List.forall_mem_append] at declared
    have first := isLegal_resolve outer dir pool declared.1
    have others := isLegal_resolveAll outer rest ((dir.resolve outerId).run pool).2 declared.2
    rw [resolveAll]
    show ∀ x ∈ all (_ :: _), _
    rw [← List.singleton_append, all_append, List.forall_mem_append]
    exact ⟨first, others⟩

end

end Dir

/-! ## Empty directories -/

/-- The directories for whose placeholders there are bookings have legal ids. -/
def HaveLegalPlaceholders (bookings : List Booking) : Prop :=
  ∀ booking ∈ bookings, ∀ id, booking.origin.placeholder? = some id → IsLegal id

theorem haveLegalPlaceholders_append {front back : List Booking} :
    HaveLegalPlaceholders (front ++ back) ↔
      HaveLegalPlaceholders front ∧ HaveLegalPlaceholders back :=
  List.forall_mem_append

namespace Dir

variable {c : Compilation}

theorem haveLegalPlaceholders_ownBookings {dir : Dir} (legal : IsLegal dir.finalId)
    (e : Markup.Element) : HaveLegalPlaceholders (dir.ownBookings e) := by
  intro booking mem id empty
  rw [ownBookings] at mem
  split at mem
  next =>
    rw [DirBody.emptyBookings] at mem
    split at mem
    next => cases mem
    next =>
      rw [List.mem_singleton.mp mem] at empty
      exact Option.some.inj empty ▸ legal
  next =>
    -- only an empty directory has a placeholder
    simp only [DirBody.bookings, List.mem_append, List.mem_map] at mem
    rcases mem with ((own | ⟨_, -, rfl⟩) | ⟨_, -, rfl⟩) | ⟨_, -, rfl⟩
    · split at own
      next =>
        rw [List.mem_singleton.mp own] at empty
        cases empty
      next => cases own
    all_goals cases empty

mutual

theorem haveLegalPlaceholders_bookings : ∀ (dir : Dir) (parent : Markup.Element),
    (∀ x ∈ all [dir], IsLegal x.finalId) → HaveLegalPlaceholders (bookings c dir parent)
  | ⟨body, dirs⟩, parent, legal => by
    rw [all_cons, all_nil, List.append_nil, List.forall_mem_cons] at legal
    rw [bookings, haveLegalPlaceholders_append]
    exact ⟨haveLegalPlaceholders_ownBookings legal.1 _,
      haveLegalPlaceholders_bookingsAll dirs _ legal.2⟩

theorem haveLegalPlaceholders_bookingsAll : ∀ (dirs : List Dir) (parent : Markup.Element),
    (∀ x ∈ all dirs, IsLegal x.finalId) → HaveLegalPlaceholders (bookingsAll c dirs parent)
  | [], _, _ => nofun
  | dir :: rest, parent, legal => by
    rw [← List.singleton_append, all_append, List.forall_mem_append] at legal
    rw [bookingsAll, haveLegalPlaceholders_append]
    exact ⟨haveLegalPlaceholders_bookings dir parent legal.1,
      haveLegalPlaceholders_bookingsAll rest _ legal.2⟩

end

/-- The directories of a location that is not hidden have legal ids. -/
theorem isLegal_of_mem_chain {location : String} (seen : ¬ IsHidden location) {start : Nat}
    (lt : start < (LogicalPath.components location).length) {feature : Option String} :
    ∀ x ∈ all [chain (LogicalPath.components location) start feature], IsLegal x.finalId := by
  intro x mem
  obtain ⟨path, among⟩ := mem_all.mp mem
  obtain ⟨positive, -, same⟩ := finalId_of_mem_chain lt among
  rw [same, Folder.isLegal_identifier_iff, Folder.isHidden_take (by omega)]
  exact seen

theorem haveLegalPlaceholders_locationBookings {location : String} (seen : ¬ IsHidden location)
    (root : Markup.Element) (feature : Option String) :
    HaveLegalPlaceholders (locationBookings c root location feature) := by
  rw [locationBookings]
  by_cases empty : (LogicalPath.components location).isEmpty = true
  · simp only [empty, if_true]
    exact nofun
  · have named : LogicalPath.components location ≠ [] := by simpa using empty
    simp only [empty, Bool.false_eq_true, if_false]
    cases anchor : anchor? c.project.dirs location with
    | none =>
      exact haveLegalPlaceholders_bookings _ _
        (isLegal_of_mem_chain seen (List.length_pos_iff.mpr named))
    | some found =>
      obtain ⟨dir, n⟩ := found
      obtain ⟨-, proper, -⟩ := anchor?_eq_some anchor
      have legal : ∀ x ∈ all [chain (LogicalPath.components location) n feature],
        IsLegal x.finalId := isLegal_of_mem_chain seen proper
      have chained := fun node => haveLegalPlaceholders_bookings (c := c) _ node legal
      simp only
      split
      next focus _ => exact chained focus.node
      next => exact chained root

theorem haveLegalPlaceholders_locationsBookings {locations : List (String × Option String)}
    (seen : ∀ entry ∈ locations, ¬ IsHidden entry.1) (root : Markup.Element) :
    HaveLegalPlaceholders (locationsBookings c root locations) := by
  induction locations generalizing root with
  | nil => exact nofun
  | cons entry rest ih =>
    rw [List.forall_mem_cons] at seen
    rw [locationsBookings, haveLegalPlaceholders_append]
    exact ⟨haveLegalPlaceholders_locationBookings seen.1 root entry.2, ih seen.2 _⟩

end Dir

/-! ## Components -/

namespace Compilation

variable {c : Compilation}

theorem isLegal_placeholderIds (dirs : ∀ dir ∈ Dir.all c.project.dirs, IsLegal dir.finalId)
    (locations : ∀ location ∈ Dir.elsewhere c.project.dirs, ¬ IsHidden location) :
    ∀ id ∈ c.placeholderIds, IsLegal id := by
  have legal : HaveLegalPlaceholders c.treeBookings :=
    haveLegalPlaceholders_append.mpr ⟨Dir.haveLegalPlaceholders_bookingsAll _ _ dirs,
      Dir.haveLegalPlaceholders_locationsBookings (fun entry mem =>
        locations _ (Dir.mem_undeclaredLocations.mp (List.mem_map_of_mem mem))) _⟩
  intro id mem
  obtain ⟨booking, among, empty⟩ := List.mem_filterMap.mp mem
  exact legal booking among id empty

theorem isLegal_standaloneIds : ∀ id ∈ c.standaloneIds, IsLegal id := by
  intro id mem
  obtain ⟨family, n, rfl⟩ := standaloneId_eq mem
  have stem : IsLegal family.stem := by cases family <;> decide
  exact stem.append (Folder.isPlain_toString n)

/-- The ids of components go on from a fixed text, from that of a directory, or they are the ids of
shortcuts. -/
theorem isLegal_componentIds (placeholders : ∀ id ∈ c.placeholderIds, IsLegal id)
    (prefixed : ∀ id ∈ c.prefixedIds, IsPlain id) :
    (∀ booking ∈ c.bookings, IsLegal booking.componentId) ↔ ∀ id ∈ c.shortcutIds, IsLegal id := by
  rw [← List.forall_mem_map (P := IsLegal)]
  simp only [c.perm_componentIds.mem_iff, List.forall_mem_append, List.forall_mem_map]
  constructor
  · rintro ⟨⟨-, shortcuts⟩, -⟩
    exact shortcuts
  · intro shortcuts
    refine ⟨⟨⟨fun id mem => ?_, fun id mem => ?_⟩, shortcuts⟩, isLegal_standaloneIds⟩
    · exact (by decide : IsLegal "Component.").append (prefixed id mem)
    · exact (placeholders id mem).append (by decide)

end Compilation

/-! ## Prepared projects -/

namespace Project

variable {project : Project}

theorem forall₂_fileIds (project : Project) (options : Options) :
    List.Forall₂ Naming.Takes (Dir.readAll (fun body => body.files.map File.naming) project.dirs)
      ((Dir.allFiles (project.prepare options).project.dirs).map File.finalId) := by
  have content : DirBody.IsContent fun body => body.files.map File.naming :=
    ⟨fun _ _ => rfl, fun _ _ => rfl,
      fun body => by simp [DirBody.widen, File.naming, File.fileName],
      fun _ => rfl⟩
  have relates : Dir.RelatesHeld (fun body => body.files.map File.naming)
      (fun body => body.files.map File.finalId) Naming.Takes := fun body id pool => by
    rw [List.forall₂_map_left_iff, List.forall₂_map_right_iff]
    exact forall₂_mapM File.takes_resolve body.files pool
  rw [← project.readAll_shaped options content, Dir.allFiles, List.map_flatMap]
  exact relates.resolveAll Dir.rootId _ _

theorem forall₂_shortcutIds (project : Project) (options : Options) :
    List.Forall₂ Naming.Takes
      (Dir.readAll (fun body => body.shortcuts.map Shortcut.naming) project.dirs)
      (Dir.readAll (fun body => body.shortcuts.map Shortcut.finalId)
        (project.prepare options).project.dirs) := by
  have content : DirBody.IsContent fun body => body.shortcuts.map Shortcut.naming :=
    ⟨fun _ _ => rfl, fun _ _ => rfl, fun body => by simp [DirBody.widen, Shortcut.naming,
      Shortcut.widen], fun _ => rfl⟩
  have relates : Dir.RelatesHeld (fun body => body.shortcuts.map Shortcut.naming)
      (fun body => body.shortcuts.map Shortcut.finalId) Naming.Takes := fun body id pool => by
    rw [List.forall₂_map_left_iff, List.forall₂_map_right_iff]
    exact forall₂_mapM Shortcut.takes_resolve body.shortcuts _
  rw [← project.readAll_shaped options content]
  exact relates.resolveAll Dir.rootId _ _

theorem WithoutIds.held {α : Type} (without : project.WithoutIds) (read : DirBody → List α)
    {idOf : α → Option String} (part : ∀ body : DirBody, (read body).map idOf ⊆ body.givenIds) :
    ∀ x ∈ Dir.readAll read project.dirs, idOf x = none := by
  intro x mem
  obtain ⟨dir, isDir, inside⟩ := List.mem_flatMap.mp mem
  refine without _ ?_
  simp only [givenIds, List.append_assoc]
  exact List.mem_append_left _
    (List.mem_flatMap.mpr ⟨dir, isDir, part _ (List.mem_map_of_mem inside)⟩)

/-- The ids of permissions are numbers behind a word. -/
theorem isPlain_permissionIds (without : project.WithoutIds) (options : Options) :
    ∀ id ∈ Dir.readAll (fun body => body.permissions.map Permission.finalId)
      (project.prepare options).project.dirs, IsPlain id := by
  have content : DirBody.IsContent fun body => body.permissions.map Permission.id :=
    ⟨fun _ _ => rfl, fun _ _ => rfl, fun body => by simp [DirBody.widen], fun _ => rfl⟩
  have relates : Dir.RelatesHeld (fun body => body.permissions.map Permission.id)
      (fun body => body.permissions.map Permission.finalId)
      (fun declared id => declared = none → IsPlain id) := fun body id pool => by
    rw [List.forall₂_map_left_iff, List.forall₂_map_right_iff]
    exact forall₂_mapM Permission.isPlain_resolve body.permissions _
  have all := relates.resolveAll Dir.rootId (project.shapedDirs options)
  have undeclared : ∀ declared ∈ Dir.readAll (fun body => body.permissions.map Permission.id)
      project.dirs, id declared = none := without.held _ fun body id mem => by
    rw [List.map_id] at mem
    simp only [DirBody.givenIds, DirBody.allPermissions, List.map_append, List.mem_cons,
      List.mem_append]
    exact .inr (.inl (.inr (.inr mem)))
  rw [← project.readAll_shaped options content] at undeclared
  exact forall_mem_of_forall₂ (all _) fun declared listed id plain =>
    plain (undeclared declared listed)

/-- All declared directories get legal ids if no id is declared and the one of the installation
directory, if it is assigned, is legal. -/
theorem isLegal_finalId (without : project.WithoutIds) {options : Options}
    (assigned : (project.prepare options).installDir.isSome = true →
      IsLegal options.installDirDefaultId) :
    ∀ dir ∈ Dir.all (project.prepare options).project.dirs, IsLegal dir.finalId := by
  refine Dir.isLegal_resolveAll (by decide) _ _ fun dir mem id given => ?_
  have declared : id ∈ Dir.explicitIds (project.shapedDirs options) :=
    Dir.mem_explicitIds.mpr ⟨dir, mem, given⟩
  rw [(project.perm_explicitIds options).mem_iff, List.mem_append] at declared
  rcases declared with installed | own
  · split at installed
    next some_ => exact List.mem_singleton.mp installed ▸ assigned some_
    next => cases installed
  · obtain ⟨dir, mem, given⟩ := Dir.mem_explicitIds.mp own
    have listed : dir.id ∈ project.givenIds := by
      simp only [givenIds, List.append_assoc]
      exact List.mem_append_left _ (List.mem_flatMap.mpr ⟨dir, mem, List.mem_cons_self ..⟩)
    rw [without _ listed] at given
    cases given

end Project

end Installer
