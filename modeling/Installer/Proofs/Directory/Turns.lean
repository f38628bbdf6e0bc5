import Installer.Proofs.Directory.Owners

/-! # Directories in their turns

Directories are placed in the order of their declaration, each before those below it.  What an empty
directory does when it is its turn depends on whether its element has a component by then, and this
is settled by the directories before it: one of them, with the same id path, has filled the element.
So both the tree and its bookings can be told from the list of all turns, without the tree in
between.
-/

namespace Installer

open Markup (Element)
open Markup.Element

variable {c : Compilation}

/-! ## Turns -/

/-- A directory when it is its turn. -/
structure Turn where
  path : List String
  dir : Dir
  /-- The element of the directory has a component by then. -/
  owned : Bool

namespace Turn

def contents (c : Compilation) (turn : Turn) : List Element :=
  if turn.dir.isEmpty then turn.dir.emptyContents c turn.dir.finalId turn.owned
  else turn.dir.toDirBody.contents c turn.dir.finalId

def bookings (turn : Turn) : List Booking :=
  if turn.dir.isEmpty then turn.dir.emptyBookings turn.dir.finalId turn.owned
  else turn.dir.toDirBody.bookings turn.dir.finalId

/-- The turn as it is seen from outside the directory `id`. -/
def below (id : String) (turn : Turn) : Turn :=
  { turn with path := id :: turn.path }

/-- What the directories of the turns put into the element at a path, if any of them is there. -/
def heldAt? (c : Compilation) (turns : List Turn) (path : List String) : Option (List Element) :=
  if (turns.filter fun turn => turn.path == path).isEmpty then none
  else some ((turns.filter fun turn => turn.path == path).flatMap (contents c))

theorem heldAt?_append (front back : List Turn) (path : List String) :
    heldAt? c (front ++ back) path =
      Option.merge (· ++ ·) (heldAt? c front path) (heldAt? c back path) := by
  simp only [heldAt?, List.filter_append]
  generalize (front.filter fun turn => turn.path == path) = inFront
  generalize (back.filter fun turn => turn.path == path) = inBack
  cases inFront <;> cases inBack <;> simp

theorem heldAt?_map_below (turns : List Turn) (id : String) (path : List String) :
    heldAt? c (turns.map (below id)) (id :: path) = heldAt? c turns path := by
  have here : (fun turn : Turn => turn.path == id :: path) ∘ below id =
      fun turn => turn.path == path := by
    funext turn
    simp [below]
  have same : (contents c) ∘ below id = contents c := rfl
  simp only [heldAt?, List.filter_map, here, List.flatMap_map, List.isEmpty_map]
  rfl

theorem heldAt?_map_below_of_ne (turns : List Turn) {id : String} {path : List String}
    (other : path.head? ≠ some id) : heldAt? c (turns.map (below id)) path = none := by
  have none_ : (turns.map (below id)).filter (fun turn => turn.path == path) = [] := by
    refine List.filter_eq_nil_iff.mpr (List.forall_mem_map.mpr fun turn _ here => ?_)
    have equal : id :: turn.path = path := by simpa [below] using here
    exact other (equal ▸ rfl)
  simp [heldAt?, none_]

/-- A turn leaves its contents in the element at its path. -/
theorem contents_subset {turns : List Turn} {turn : Turn} (mem : turn ∈ turns) :
    ∃ held, heldAt? c turns turn.path = some held ∧ ∀ x ∈ turn.contents c, x ∈ held := by
  have here : turn ∈ turns.filter fun other => other.path == turn.path :=
    List.mem_filter.mpr ⟨mem, by simp⟩
  refine ⟨_, if_neg ?_, fun x inside => List.mem_flatMap.mpr ⟨turn, here, inside⟩⟩
  rw [List.isEmpty_iff]
  exact List.ne_nil_of_mem here

end Turn

namespace Markup.Element

def isOwner (e : Element) (path : List String) : Bool :=
  (e.follow? path).any fun d => (d.child? "Component").isSome

theorem isOwner_iff {e : Element} {path : List String} :
    e.isOwner path = true ↔ e.OwnsAt path := by
  simp [isOwner, OwnsAt, Owns, isSome_child?, Option.any_eq_true]

end Markup.Element

namespace Dir

/-- The turns of directories, when the elements at some paths are owned before the first of them. -/
def turns (owned : List String → Bool) : List (List String × Dir) → List Turn
  | [] => []
  | (path, dir) :: rest =>
    ⟨path, dir, owned path⟩ :: turns (fun p => owned p || (p == path && decide dir.Fills)) rest

theorem turns_append (owned : List String → Bool) (front back : List (List String × Dir)) :
    turns owned (front ++ back) = turns owned front ++
      turns (fun p => owned p || front.any fun entry => p == entry.1 && decide entry.2.Fills)
        back := by
  induction front generalizing owned with
  | nil => simp [turns]
  | cons entry rest ih =>
    rw [List.cons_append, turns, ih, turns, List.cons_append]
    simp only [List.any_cons, Bool.or_assoc]

theorem turns_map_cons (owned : List String → Bool) (id : String)
    (entries : List (List String × Dir)) :
    turns owned (entries.map fun entry => (id :: entry.1, entry.2)) =
      (turns (fun p => owned (id :: p)) entries).map (Turn.below id) := by
  induction entries generalizing owned with
  | nil => rfl
  | cons entry rest ih =>
    rw [List.map_cons, turns, ih, turns, List.map_cons]
    simp [Turn.below]

/-- Each directory has its turn, and its element is owned by then just if it was from the start or
if a directory before it, with the same path, fills it. -/
theorem mem_turns {owned : List String → Bool} {front back : List (List String × Dir)}
    {path : List String} {dir : Dir} :
    ⟨path, dir, owned path || front.any fun entry => path == entry.1 && decide entry.2.Fills⟩ ∈
      turns owned (front ++ (path, dir) :: back) := by
  rw [turns_append, turns]
  exact List.mem_append_right _ (List.mem_cons_self ..)

/-! ## Placing in turns -/

theorem isSome_child?_placeIn {parent : Element} (dir : Dir) (tidy : Tidy parent)
    (directory : parent.name = "Directory") :
    ((dir.placeIn parent).node.child? "Component").isSome = parent.isOwner [dir.finalId] := by
  have sub := dir.isSubdirectory_placeIn tidy directory
  have owns : (dir.placeIn parent).node.Owns ↔ parent.OwnsAt [dir.finalId] := by
    rw [← ownsAt_nil, ownsAt_iff_heldAt?, ownsAt_iff_heldAt?, sub.node_nil]
    cases parent.heldAt? [dir.finalId] <;> simp
  rw [Bool.eq_iff_iff, isSome_child?, isOwner_iff]
  exact owns

theorem isOwner_filled {parent : Element} (dir : Dir) (tidy : Tidy parent)
    (directory : parent.name = "Directory") :
    (dir.filled c parent).isOwner = fun path =>
      parent.isOwner (dir.finalId :: path) ||
        (dir.finalId :: path == [dir.finalId] && decide dir.Fills) := by
  funext path
  rw [Bool.eq_iff_iff, isOwner_iff, ownsAt_filled dir tidy directory]
  simp [isOwner_iff]

theorem isOwner_place {parent : Element} (dir : Dir) (tidy : Tidy parent)
    (directory : parent.name = "Directory") :
    (dir.place c parent).isOwner = fun path => parent.isOwner path ||
      (locatedFrom dir).any fun entry => path == entry.1 && decide entry.2.Fills := by
  funext path
  have fills : FillsAt [dir] path ↔ ∃ entry ∈ locatedFrom dir, path = entry.1 ∧ entry.2.Fills := by
    simp [FillsAt, mem_atPath, located]
  rw [Bool.eq_iff_iff, isOwner_iff, ownsAt_place tidy directory, fills]
  simp [isOwner_iff]

theorem bookings_map_below (id : String) (turns : List Turn) :
    (turns.map (Turn.below id)).flatMap Turn.bookings = turns.flatMap Turn.bookings := by
  rw [List.flatMap_map]
  rfl

mutual

theorem bookings_eq_turns : ∀ (dir : Dir) {parent : Element}, Tidy parent →
    parent.name = "Directory" →
      dir.bookings c parent = (turns parent.isOwner (locatedFrom dir)).flatMap Turn.bookings
  | ⟨body, dirs⟩, parent, tidy, directory => by
    have inner := bookingsAll_eq_turns dirs (tidy_filled (c := c) ⟨body, dirs⟩ tidy directory)
      (hasNameAndId_eq_true.mp (hasNameAndId_placeIn ⟨body, dirs⟩ parent)).1
    rw [isOwner_filled ⟨body, dirs⟩ tidy directory] at inner
    rw [bookings, inner, locatedFrom, turns, turns_map_cons, List.flatMap_cons, bookings_map_below,
      ownBookings, isSome_child?_placeIn ⟨body, dirs⟩ tidy directory]
    rfl

/-- The bookings of directories are those of their turns. -/
theorem bookingsAll_eq_turns : ∀ (dirs : List Dir) {parent : Element}, Tidy parent →
    parent.name = "Directory" →
      bookingsAll c dirs parent = (turns parent.isOwner (located dirs)).flatMap Turn.bookings
  | [], _, _, _ => rfl
  | dir :: rest, parent, tidy, directory => by
    have placed : Placed c [dir] _ parent _ := placed_place tidy directory
    have directory' := (name_eq_of_tag (tag_place (c := c) dir parent)).trans directory
    rw [bookingsAll, bookings_eq_turns dir tidy directory,
      bookingsAll_eq_turns rest placed.tidy directory', isOwner_place dir tidy directory, located,
      turns_append, List.flatMap_append]

end

/-- The element of a directory holds what it held before, and then the contents of the directory
itself. -/
theorem heldAt?_filled {parent : Element} (dir : Dir) (tidy : Tidy parent)
    (directory : parent.name = "Directory") :
    (dir.filled c parent).heldAt? [] = some ((parent.heldAt? [dir.finalId]).getD [] ++
        Turn.contents c ⟨[dir.finalId], dir, parent.isOwner [dir.finalId]⟩) ∧
      ∀ first rest, (dir.filled c parent).heldAt? (first :: rest) =
        parent.heldAt? (dir.finalId :: first :: rest) := by
  have sub := dir.isSubdirectory_placeIn tidy directory
  have none : ∀ x ∈ dir.contents c (dir.placeIn parent).node, x.name ≠ "Directory" :=
    fun x mem => ((dir.madeFor_contents (c := c) _).only x mem "Directory" (by decide)).here
  constructor
  · have held := sub.node_nil
    rw [heldAt?_nil, Option.some.injEq] at held
    rw [filled, heldAt?_nil, holdings_addAll _ none, held, contents,
      isSome_child?_placeIn dir tidy directory]
    rfl
  · intro first rest
    rw [filled, heldAt?_addAll_cons _ none, sub.node_cons]

theorem heldAt?_turns_nil (owned : List String → Bool) (dirs : List Dir) :
    Turn.heldAt? c (turns owned (located dirs)) [] = none := by
  have nonempty : ∀ (entries : List (List String × Dir)) (owned : List String → Bool),
      (∀ entry ∈ entries, entry.1 ≠ []) →
        Turn.heldAt? c (turns owned entries) [] = none := by
    intro entries
    induction entries with
    | nil => intro _ _; rfl
    | cons entry rest ih =>
      intro owned some_
      obtain ⟨here, later⟩ := List.forall_mem_cons.mp some_
      have passed := ih (fun p => owned p || (p == entry.1 && decide entry.2.Fills)) later
      rw [turns, ← List.singleton_append, Turn.heldAt?_append, passed]
      simp [Turn.heldAt?, here]
  refine nonempty _ _ fun entry mem nothing => ?_
  have last : entry.1.getLast? = some entry.2.finalId := getLast?_of_mem_located mem
  simp [nothing] at last

mutual

theorem heldAt?_place : ∀ (dir : Dir) {parent : Element}, Tidy parent →
    parent.name = "Directory" → ∀ path, (dir.place c parent).heldAt? path =
      Option.merge (· ++ ·) (parent.heldAt? path)
        (Turn.heldAt? c (turns parent.isOwner (locatedFrom dir)) path)
  | ⟨body, dirs⟩, parent, tidy, directory, path => by
    have sub := isSubdirectory_placeIn ⟨body, dirs⟩ tidy directory
    have inner := heldAt?_placeAll dirs (tidy_filled (c := c) ⟨body, dirs⟩ tidy directory)
      (hasNameAndId_eq_true.mp (hasNameAndId_placeIn ⟨body, dirs⟩ parent)).1
    rw [isOwner_filled ⟨body, dirs⟩ tidy directory] at inner
    obtain ⟨atNode, belowNode⟩ := heldAt?_filled (c := c) ⟨body, dirs⟩ tidy directory
    have same : (placeAll c dirs (filled c ⟨body, dirs⟩ parent)).tag =
        (placeIn ⟨body, dirs⟩ parent).node.tag := tag_placeAll dirs _
    rw [place, locatedFrom, turns, turns_map_cons, ← List.singleton_append, Turn.heldAt?_append]
    by_cases here : path.head? = some (finalId ⟨body, dirs⟩)
    · obtain ⟨path, rfl⟩ := List.head?_eq_some_iff.mp here
      rw [sub.below _ same path, inner, Turn.heldAt?_map_below]
      cases path with
      | nil =>
        rw [atNode, heldAt?_turns_nil]
        cases parent.heldAt? [finalId ⟨body, dirs⟩] <;> simp [Turn.heldAt?]
      | cons first rest =>
        rw [belowNode]
        simp [Turn.heldAt?]
    · -- the directory is not on the way to any other path
      have apart : Turn.heldAt? c [⟨[finalId ⟨body, dirs⟩], ⟨body, dirs⟩,
          parent.isOwner [finalId ⟨body, dirs⟩]⟩] path = none := by
        have other : [finalId ⟨body, dirs⟩] ≠ path := fun equal => here (equal ▸ rfl)
        simp [Turn.heldAt?, other]
      rw [sub.apart _ same path here, Turn.heldAt?_map_below_of_ne _ here, apart]
      simp

/-- Each element holds what it held before and then the contents of the directories with its path,
turn after turn. -/
theorem heldAt?_placeAll : ∀ (dirs : List Dir) {parent : Element}, Tidy parent →
    parent.name = "Directory" → ∀ path, (placeAll c dirs parent).heldAt? path =
      Option.merge (· ++ ·) (parent.heldAt? path)
        (Turn.heldAt? c (turns parent.isOwner (located dirs)) path)
  | [], parent, _, _, path => by
    rw [placeAll]
    simp [located, turns, Turn.heldAt?]
  | dir :: rest, parent, tidy, directory, path => by
    have placed : Placed c [dir] _ parent _ := placed_place tidy directory
    have directory' := (name_eq_of_tag (tag_place (c := c) dir parent)).trans directory
    rw [placeAll, heldAt?_placeAll rest placed.tidy directory', heldAt?_place dir tidy directory,
      isOwner_place dir tidy directory, located, turns_append, Turn.heldAt?_append]
    exact @Std.Associative.assoc _ (Option.merge (· ++ ·)) _ _ _ _

end

end Dir

/-! ## What stays -/

namespace Markup.Element

/-- Every directory is still there, and holds what it held before. -/
def Grows (before after : Element) : Prop :=
  ∀ path held, before.heldAt? path = some held →
    ∃ extra, after.heldAt? path = some (held ++ extra)

namespace Grows

variable {before between after : Element}

theorem refl (e : Element) : e.Grows e :=
  fun _ held present => ⟨[], by simpa using present⟩

theorem trans (first : before.Grows between) (second : between.Grows after) :
    before.Grows after := by
  intro path held present
  obtain ⟨extra, kept⟩ := first path held present
  obtain ⟨more, kept'⟩ := second path _ kept
  exact ⟨extra ++ more, by rw [kept', List.append_assoc]⟩

theorem of_merge {added : List String → Option (List Element)}
    (merged : ∀ path, after.heldAt? path =
      Option.merge (· ++ ·) (before.heldAt? path) (added path)) : before.Grows after := by
  intro path held present
  rw [merged, present]
  cases added path with
  | none => exact ⟨[], by simp⟩
  | some extra => exact ⟨extra, rfl⟩

theorem addAll {children : List Element} (none : ∀ x ∈ children, x.name ≠ "Directory")
    (e : Element) : e.Grows (e.addAll children) := by
  intro path held present
  cases path with
  | nil =>
    rw [heldAt?_nil, Option.some.injEq] at present
    exact ⟨children, by rw [heldAt?_nil, holdings_addAll _ none, present]⟩
  | cons first rest => exact ⟨[], by rw [heldAt?_addAll_cons _ none, present, List.append_nil]⟩

/-- A tree grows with a directory in it. -/
theorem within {focus : Focus Element} {whole e : Element} {front : List String}
    (isAt : focus.IsAt whole front) (same : e.tag = focus.node.tag) (grows : focus.node.Grows e) :
    whole.Grows (focus.put e) := by
  intro path held present
  by_cases inside : front <+: path
  · obtain ⟨back, rfl⟩ := inside
    have old : whole.heldAt? (front ++ back) = focus.node.heldAt? back := by
      rw [← isAt.heldAt?_put rfl, isAt.isPlace.put_node]
    rw [old] at present
    rw [isAt.heldAt?_put same]
    exact grows back held present
  · rw [isAt.heldAt?_put_of_not_isPrefix same inside]
    exact ⟨[], by rw [present, List.append_nil]⟩

end Grows

end Markup.Element

namespace Dir

theorem grows_place {parent : Element} (dir : Dir) (tidy : Tidy parent)
    (directory : parent.name = "Directory") : parent.Grows (dir.place c parent) :=
  .of_merge (heldAt?_place dir tidy directory)

theorem grows_placeLocation {root : Element} (tidy : Tidy root)
    (directory : root.name = "Directory") (location : String) (feature : Option String) :
    root.Grows (placeLocation c root location feature) := by
  simp only [placeLocation]
  split
  next => exact .refl root
  next =>
    split
    next => exact grows_place _ tidy directory
    next =>
      split
      next focus search =>
        obtain ⟨isDirectory, -⟩ := hasNameAndId_eq_true.mp (isPlace_of_focus? search).2
        obtain ⟨front, isAt, -⟩ := isAt_of_focus? tidy search
        exact .within isAt (tag_place _ _)
          (grows_place _ (isAt.isPlace.everywhere_node tidy) isDirectory)
      next => exact grows_place _ tidy directory

theorem grows_placeLocations {root : Element} (tidy : Tidy root)
    (directory : root.name = "Directory") (declared : HasDeclared c root)
    (locations : List (String × Option String)) :
    root.Grows (placeLocations c root locations) := by
  induction locations generalizing root with
  | nil => exact .refl root
  | cons entry rest ih =>
    have placed := extended_placeLocation tidy directory declared entry.1 entry.2
    have later := ih placed.tidy ((name_eq_of_tag placed.tag).trans directory)
      fun known mem => placed.isSome_filesAt (declared known mem)
    exact (grows_placeLocation tidy directory entry.1 entry.2).trans later

end Dir

namespace Compilation

def turns (c : Compilation) : List Turn :=
  Dir.turns (fun _ => false) (Dir.located c.project.dirs)

theorem isOwner_emptyRoot : emptyRoot.isOwner = fun _ => false := by
  funext path
  cases path <;> rfl

/-- The components of the declared directories are those of their turns. -/
theorem mem_bookings_of_turn {turn : Turn} (mem : turn ∈ c.turns) :
    ∀ booking ∈ turn.bookings, booking ∈ c.bookings := by
  intro booking inside
  have declared := Dir.bookingsAll_eq_turns (c := c) c.project.dirs tidy_emptyRoot rfl
  rw [isOwner_emptyRoot] at declared
  rw [bookings, treeBookings, declared]
  exact List.mem_append_left _ (List.mem_append_left _ (List.mem_flatMap.mpr ⟨turn, mem, inside⟩))

theorem grows_root {components : List Element}
    (made : MadeFor c.project.standaloneBookings components []) :
    c.declaredTree.Grows (c.root components) := by
  have tidy : Tidy c.tree := extended_tree.tidy
  have none : ∀ x ∈ components, x.name ≠ "Directory" :=
    fun x mem => (made.only x mem "Directory" (by decide)).here
  obtain ⟨front, isAt⟩ := (isPlace_installRoot c.tree).exists_isAt tidy
    (name_installRoot name_tree)
  have located : c.declaredTree.Grows c.tree := Dir.grows_placeLocations placed_declaredTree.tidy
    (name_eq_of_tag (placed_declaredTree (c := c)).tag) hasDeclared_declaredTree _
  exact located.trans (.within isAt rfl (.addAll none _))

/-- The directory at the path of a turn holds the contents of the turn in the end. -/
theorem exists_held_of_turn {components : List Element} {turn : Turn}
    (made : MadeFor c.project.standaloneBookings components []) (mem : turn ∈ c.turns) :
    ∃ held, (c.root components).heldAt? turn.path = some held ∧
      ∀ x ∈ turn.contents c, x ∈ held := by
  have declared := Dir.heldAt?_placeAll (c := c) c.project.dirs tidy_emptyRoot rfl turn.path
  obtain ⟨own, found, inside⟩ := Turn.contents_subset (c := c) mem
  rw [isOwner_emptyRoot, ← turns, found] at declared
  obtain ⟨held, present, among⟩ : ∃ held, c.declaredTree.heldAt? turn.path = some held ∧
      ∀ x ∈ own, x ∈ held := by
    rw [declaredTree, declared]
    cases emptyRoot.heldAt? turn.path with
    | none => exact ⟨own, rfl, fun _ mem => mem⟩
    | some old => exact ⟨old ++ own, rfl, fun _ mem => List.mem_append_right _ mem⟩
  obtain ⟨extra, kept⟩ := grows_root made _ _ present
  exact ⟨_, kept, fun x mem => List.mem_append_left _ (among x (inside x mem))⟩

end Compilation

end Installer
