import Installer.Proofs.Directory.Shape
import Installer.Proofs.Folder.Identifier

/-! # Paths that become chains

A directory whose name is a path becomes a chain of directories.  `Unrolls` says how a tree before
and after are related: every directory is still there with all that it holds, and what is new are
directories around one other, which are nothing but a name.  So the directories that matter are
found at the same paths and in the same order, and splitting a second time changes nothing.
-/

namespace Installer

open LogicalPath (components IsName)

namespace DirBody

variable {body body' : DirBody}

def payload (body : DirBody) : DirBody :=
  { body with name := "" }

/-- The directory is only a step on the way: it has neither id nor feature and holds nothing itself.
-/
def isHollow (body : DirBody) : Bool :=
  body.id.isNone && body.feature.isNone && body.files.isEmpty && body.shortcuts.isEmpty &&
    body.permissions.isEmpty && body.mergeModules.isEmpty

theorem isHollow_congr (same : body'.payload = body.payload) : body'.isHollow = body.isHollow := by
  have hollow : ∀ body : DirBody, body.payload.isHollow = body.isHollow := fun _ => rfl
  rw [← hollow body', same, hollow body]

/-- A hollow directory has an empty payload. -/
theorem isHollow_iff : body.isHollow = true ↔ body.payload = { name := "" } := by
  obtain ⟨name, id, feature, files, shortcuts, permissions, mergeModules⟩ := body
  simp [isHollow, payload, and_assoc]

end DirBody

namespace Dir

/-! ## The directories that matter -/

mutual

/-- The directories at and below one that are not hollow or end a branch, outermost first: the names
on the way to each, after those in `front`, and its payload. -/
def inventory (front : List String) : Dir → List (List String × DirBody)
  | ⟨body, dirs⟩ =>
    (if body.isHollow && !dirs.isEmpty then []
      else [(front ++ components body.name, body.payload)]) ++
      inventoryAll (front ++ components body.name) dirs
termination_by structural dir => dir

def inventoryAll (front : List String) : List Dir → List (List String × DirBody)
  | [] => []
  | dir :: rest => inventory front dir ++ inventoryAll front rest
termination_by structural dirs => dirs

end

/-! ## Trees before and after -/

mutual

/-- The second directory is the first one, or it is hollow and has one subdirectory that is.  The
names on the way to the first one, after those given, are the names of its path; below it all is
related in the same way. -/
inductive Unrolls : List String → Dir → Dir → Prop where
  | own {names : List String} {body body' : DirBody} {dirs dirs' : List Dir}
      (payload : body'.payload = body.payload)
      (path : components body.name = names ++ components body'.name)
      (below : UnrollsAll dirs dirs') : Unrolls names ⟨body, dirs⟩ ⟨body', dirs'⟩
  | step {names : List String} {body : DirBody} {dir inner : Dir} (hollow : body.isHollow = true)
      (inside : Unrolls (names ++ components body.name) dir inner) :
      Unrolls names dir ⟨body, [inner]⟩

inductive UnrollsAll : List Dir → List Dir → Prop where
  | nil : UnrollsAll [] []
  | cons {dir dir' : Dir} {rest rest' : List Dir} (first : Unrolls [] dir dir')
      (others : UnrollsAll rest rest') : UnrollsAll (dir :: rest) (dir' :: rest')

end

theorem UnrollsAll.isEmpty_eq {dirs dirs' : List Dir} (below : UnrollsAll dirs dirs') :
    dirs'.isEmpty = dirs.isEmpty := by
  cases below <;> rfl

mutual

theorem Unrolls.inventory_eq : ∀ {names : List String} {dir dir' : Dir}, Unrolls names dir dir' →
    ∀ front, inventory (front ++ names) dir' = inventory front dir
  | names, ⟨body, dirs⟩, ⟨body', dirs'⟩, .own payload path below, front => by
    rw [inventory, inventory, path, ← List.append_assoc, payload, DirBody.isHollow_congr payload,
      below.isEmpty_eq, below.inventory_eq]
  | names, dir, ⟨body, [inner]⟩, .step hollow inside, front => by
    rw [inventory, hollow, List.append_assoc, inventoryAll, inside.inventory_eq, inventoryAll,
      List.append_nil]
    rfl

theorem UnrollsAll.inventory_eq : ∀ {dirs dirs' : List Dir}, UnrollsAll dirs dirs' →
    ∀ front, inventoryAll front dirs' = inventoryAll front dirs
  | _, _, .nil, front => rfl
  | _, _, .cons first others, front => by
    have same := first.inventory_eq front
    rw [List.append_nil] at same
    rw [inventoryAll, inventoryAll, same, others.inventory_eq]

end

/-! ## Splitting one directory -/

/-- A directory with a path of several names becomes a chain, and any other one stays as it is. -/
theorem chained_cases (dir : Dir) :
    (components dir.name).length ≤ 1 ∧ dir.chained = dir ∨
      ∃ outer last, outer ≠ [] ∧ components dir.name = outer ++ [last] ∧
        dir.chained = outer.foldr enclose { dir with name := last } := by
  rw [chained]
  cases names : components dir.name with
  | nil => exact .inl ⟨Nat.zero_le 1, rfl⟩
  | cons first rest =>
    cases rest with
    | nil => exact .inl ⟨Nat.le_refl 1, rfl⟩
    | cons second others =>
      have nonempty : first :: second :: others ≠ [] := List.cons_ne_nil _ _
      refine .inr ⟨_, _, List.cons_ne_nil _ _, (List.dropLast_append_getLast nonempty).symm, ?_⟩
      rw [List.getLastD_eq_getLast?, List.getLast?_eq_some_getLast nonempty]
      rfl

theorem unrolls_foldr_enclose {outer : List String} (areNames : ∀ name ∈ outer, IsName name)
    {names : List String} {dir inner : Dir} (inside : Unrolls (names ++ outer) dir inner) :
    Unrolls names dir (outer.foldr enclose inner) := by
  induction outer generalizing names with
  | nil => simpa using inside
  | cons name rest ih =>
    rw [List.forall_mem_cons] at areNames
    refine .step rfl (ih areNames.2 ?_)
    rwa [areNames.1.components_eq, List.append_assoc]

theorem unrolls_chained (body : DirBody) {dirs dirs' : List Dir} (below : UnrollsAll dirs dirs') :
    Unrolls [] ⟨body, dirs⟩ (chained ⟨body, dirs'⟩) := by
  rcases chained_cases ⟨body, dirs'⟩ with ⟨-, same⟩ | ⟨outer, last, -, path, chain⟩
  · rw [same]
    exact .own rfl rfl below
  · have areNames : ∀ name ∈ outer ++ [last], IsName name := fun name mem =>
      LogicalPath.isName_of_mem_components (path ▸ mem)
    rw [List.forall_mem_append, List.forall_mem_singleton] at areNames
    rw [chain]
    refine unrolls_foldr_enclose areNames.1 (.own rfl ?_ below)
    rw [path, areNames.2.components_eq]
    rfl

/-! ## Splitting a tree -/

mutual

theorem unrolls_split : ∀ dir : Dir, Unrolls [] dir dir.split
  | ⟨body, dirs⟩ => by
    rw [split]
    exact unrolls_chained body (unrolls_splitAll dirs)

theorem unrolls_splitAll : ∀ dirs : List Dir, UnrollsAll dirs (splitAll dirs)
  | [] => .nil
  | dir :: rest => .cons (unrolls_split dir) (unrolls_splitAll rest)

end

theorem length_components_of_mem_links {path name : String} (mem : name ∈ LogicalPath.links path) :
    (components name).length ≤ 1 := by
  rw [LogicalPath.links] at mem
  split at mem
  next =>
    rw [(LogicalPath.isName_of_mem_components mem).components_eq]
    exact Nat.le_refl 1
  next single =>
    rw [List.mem_singleton.mp mem]
    omega

/-- No name in a split tree is a path of several names. -/
theorem length_components_of_mem_split {dir inner : Dir} (mem : inner ∈ all [dir.split]) :
    (components inner.name).length ≤ 1 := by
  have named : inner.name ∈ readAll (fun body => [body.name]) [dir.split] :=
    List.mem_flatMap.mpr ⟨inner, mem, List.mem_singleton_self _⟩
  rw [readAll_split, readAll] at named
  obtain ⟨origin, -, among⟩ := List.mem_flatMap.mp named
  obtain ⟨link, isLink, same⟩ := List.mem_flatMap.mp among
  rw [List.mem_singleton.mp same]
  have nonempty := LogicalPath.links_ne_nil origin.name
  -- the last link keeps what the directory holds, and all links before it are made for the path
  rw [DirBody.linked, List.mem_append, List.mem_map, List.mem_singleton] at isLink
  rcases isLink with ⟨name, outer, rfl⟩ | rfl
  · exact length_components_of_mem_links (List.dropLast_subset _ outer)
  · refine @length_components_of_mem_links origin.name _ ?_
    rw [List.getLastD_eq_getLast?, List.getLast?_eq_some_getLast nonempty]
    exact List.getLast_mem nonempty

mutual

theorem split_eq_self : ∀ {dir : Dir}, (∀ inner ∈ all [dir], (components inner.name).length ≤ 1) →
    dir.split = dir
  | ⟨body, dirs⟩, single => by
    rw [all_cons, all_nil, List.append_nil, List.forall_mem_cons] at single
    rw [split, splitAll_eq_self single.2]
    rcases chained_cases ⟨body, dirs⟩ with ⟨-, same⟩ | ⟨outer, last, several, path, -⟩
    · exact same
    · have short : (components body.name).length ≤ 1 := single.1
      have positive := List.length_pos_iff.mpr several
      rw [path, List.length_append, List.length_singleton] at short
      omega

theorem splitAll_eq_self : ∀ {dirs : List Dir},
    (∀ inner ∈ all dirs, (components inner.name).length ≤ 1) → splitAll dirs = dirs
  | [], _ => rfl
  | dir :: rest, single => by
    rw [← List.singleton_append, all_append, List.forall_mem_append] at single
    rw [splitAll, split_eq_self single.1, splitAll_eq_self single.2]

end

/-! ## What splitting does -/

/-- The directory `split` is `dir` with its paths made into chains. -/
structure IsSplit (dir split : Dir) : Prop where
  /-- What matters is found at the same paths, in the same order. -/
  inventory : split.inventory [] = dir.inventory []
  single : ∀ inner ∈ all [split], (components inner.name).length ≤ 1
  /-- What is added are hollow directories with one subdirectory each. -/
  unrolls : Unrolls [] dir split
  /-- There is nothing left to split. -/
  again : split.split = split

theorem isSplit_split (dir : Dir) : dir.IsSplit dir.split where
  inventory := (unrolls_split dir).inventory_eq []
  single _ := length_components_of_mem_split
  unrolls := unrolls_split dir
  again := split_eq_self fun _ => length_components_of_mem_split

end Dir

end Installer
