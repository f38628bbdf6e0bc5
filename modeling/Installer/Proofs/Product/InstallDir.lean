import Installer.Proofs.Directory.InstallWay
import Installer.Proofs.Product.Home

/-! # The two searches for the installation directory

The installation directory is looked for twice.  The first search runs over the declared directories
before anything is made of them: it stops where there is a file or a shortcut or where the way is no
longer the only one, and it gives out the id of the installation directory.  The second one runs
over the tree: it stops where there is a component, which is where the standalone components go and
what the dialogs are told.

Both go down the line of first subdirectories, so they meet exactly if the directory that the first
one ends in is the first owner of a component in the tree.  A directory that only branches has none,
and the second search passes it by.
-/

namespace Installer

open Markup (Element Focus)
open Markup.Element

namespace Compilation

variable {c : Compilation} {document : Element} {ledger : Ledger}

/-- No two paths in the tree end in an id that one directory of the document has at most. -/
theorem Made.eq_of_getLast? (made : c.Made document ledger) {id : String}
    (single : ((document.descendantsNamed "Directory").map id?).count (some id) ≤ 1)
    {path path' : List String} (leads : (c.tree.follow? path).isSome = true)
    (leads' : (c.tree.follow? path').isSome = true) (last : path.getLast? = some id)
    (last' : path'.getLast? = some id) : path = path' := by
  obtain ⟨components, madeFor, directoryIds⟩ := made.directoryIds
  have tidy : Tidy (c.root components) := (extended_root madeFor).tidy
  have place : ∀ {path : List String}, (c.tree.follow? path).isSome = true →
      path.getLast? = some id → path ∈ (c.root components).places.filter (endsIn id) := by
    intro path leads last
    rw [← Dir.isSome_filesAt?] at leads
    have kept := (extended_installRoot madeFor).isSome_filesAt leads
    rw [Dir.isSome_filesAt?] at kept
    refine List.mem_filter.mpr ⟨tidy.mem_places.mpr ⟨?_, kept⟩, by simp [endsIn, last]⟩
    rintro rfl
    cases last
  have mem := place leads last
  have mem' := place leads' last'
  rw [directoryIds] at single
  have atMost : ((c.root components).places.filter (endsIn id)).length ≤ 1 := by
    rw [← count_getLast?_places]
    exact List.count_le_count_cons.trans single
  obtain ⟨only, places⟩ := List.length_eq_one_iff.mp
    (Nat.le_antisymm atMost (List.length_pos_of_mem mem))
  rw [places, List.mem_singleton] at mem mem'
  exact mem.trans mem'.symm

/-- Where the two searches end.  The one in the tree ends at `path`, and the directory there has the
id that the dialogs are told.  The one before the tree is made ends at the end of the way.  The ids
tell them apart where no other directory has the id of the installation directory. -/
structure SearchesEnd (c : Compilation) (tree document : Element) (home : Focus Element)
    (path : List String) (id : String) : Prop where
  leads : tree.follow? path = some home.node
  line : tree.OnFirstLine path
  first : tree.FirstOwner path
  last : path.getLast? = some id
  property : document.elements.flatMap (fun package => package.elementsNamed "Property") =
    c.project.propertyElements ++ [homeProperty id]
  assigned : (Dir.installPath c.project.dirs).getLast? = some c.options.installDirDefaultId
  assignedLine : tree.OnFirstLine (Dir.installPath c.project.dirs)
  meet_iff : path = Dir.installPath c.project.dirs ↔
    tree.FirstOwner (Dir.installPath c.project.dirs)
  meet : ¬ Dir.WayIsBarred c.project.dirs → path = Dir.installPath c.project.dirs
  miss : ¬ Dir.FillsAt c.project.dirs (Dir.installPath c.project.dirs) →
    (∀ location ∈ Dir.elsewhere c.project.dirs,
      ¬ Dir.IsChainEnd c.project.dirs location (Dir.installPath c.project.dirs)) →
        path ≠ Dir.installPath c.project.dirs
  agree : path = Dir.installPath c.project.dirs → id = c.options.installDirDefaultId
  exact : ((document.descendantsNamed "Directory").map id?).count
      (some c.options.installDirDefaultId) ≤ 1 → id = c.options.installDirDefaultId →
        path = Dir.installPath c.project.dirs

theorem searchesEnd_of_made {components : List Element} {home : Focus Element}
    (some_ : c.project.dirs ≠ []) (made : c.Made document ledger) (ui : c.project.ui = .installDir)
    (ends : Dir.EndsIn (Dir.installWayIn c.project.dirs) c.options.installDirDefaultId)
    (bringsHome : c.BringsHome c.tree document home components) :
    ∃ path id, c.SearchesEnd c.tree document home path id := by
  obtain ⟨path, line, leads, first⟩ := bringsHome.isHome.exists_firstOwner extended_tree.tidy
    (housed_tree some_) name_tree
  obtain ⟨package, single, -, properties⟩ := bringsHome.package
  obtain ⟨id, identified, property⟩ := properties ui
  have last : path.getLast? = some id := by
    rcases List.eq_nil_or_concat' path with rfl | ⟨front, last, rfl⟩
    · exact absurd first.owns not_ownsAt_tree_nil
    · rw [List.getLast?_concat, ← follow?_id leads, identified]
  have assigned := Dir.getLast?_installPath ends
  have assignedLine := onFirstLine_tree c
  have meet_iff : path = Dir.installPath c.project.dirs ↔
      c.tree.FirstOwner (Dir.installPath c.project.dirs) :=
    ⟨fun same => same ▸ first, fun owner => first.eq line owner assignedLine⟩
  refine ⟨path, id, leads, line, first, last, ?_, assigned, assignedLine, meet_iff,
    fun free => meet_iff.mpr (c.firstOwner_tree ends free), fun unfilled noEnd same => ?_,
    fun same => ?_, fun once same => ?_⟩
  · rw [single, List.flatMap_singleton, property]
  · rcases fillsAt_or_isChainEnd (meet_iff.mp same).owns with fills | ⟨location, among, isEnd⟩
    · exact unfilled fills
    · exact noEnd location among isEnd
  · rw [same, assigned] at last
    exact (Option.some.inj last).symm
  · exact made.eq_of_getLast? once line.isSome_follow? assignedLine.isSome_follow? (same ▸ last)
      assigned

end Compilation

/-! ## Compiling a project -/

theorem Project.ui_prepare (project : Project) (options : Options) :
    (project.prepare options).project.ui = project.ui := by
  obtain ⟨dirs, actions, same, -⟩ := project.exists_prepare options
  rw [same]

/-- For the dialogs that let the user choose the installation directory, in a project that has one:
the directory with the standalone components is the one that was assigned unless its way is barred,
and exactly if it is the first on its way that has a component in the tree. -/
theorem Project.searchesEnd_of_compile {project : Project} {options : Options} {output : Output}
    (compiled : project.compile options = .ok output) (ui : project.ui = .installDir)
    (assigned : output.installDir.isSome = true) :
    ∃ c after tree home components path id,
      Compilation.ofProject options (project.prepare options).project = .ok c ∧
        (Dir.emitTree c).Gives { ids := (project.prepare options).ids } tree after ∧
        c.BringsHome tree output.document home components ∧
        c.SearchesEnd tree output.document home path id := by
  obtain ⟨c, ledger, after, components, start, made, some_, treeSteps, bringsHome⟩ :=
    Project.exists_bringsHome compiled
  obtain ⟨prepared, given⟩ := Compilation.project_of_ofProject start
  rw [Project.installDir_of_compile compiled] at assigned
  have ends : Dir.EndsIn (Dir.installWayIn c.project.dirs) c.options.installDirDefaultId := by
    rw [prepared, given]
    exact Project.endsIn_installWay assigned
  obtain ⟨path, id, searchesEnd⟩ := Compilation.searchesEnd_of_made some_ made
    (by rw [prepared, Project.ui_prepare, ui]) ends bringsHome
  exact ⟨c, after, c.tree, _, components, path, id, start, treeSteps, bringsHome, searchesEnd⟩

/-- A project with a file directly in its installation directory. -/
def Project.manned : Project where
  name := "App"
  ui := .installDir
  dirs := [⟨{ name := "%ProgramFiles%\\App", files := [{ name := "app.exe" }] },
    [⟨{ name := "docs", files := [{ name := "manual.pdf" }] }, []⟩]⟩]
  regValues := [{ root := .localMachine, key := "Software\\App" }]

/-- Both searches end in the directory with the file. -/
theorem Project.searchesEnd_manned :
    ∃ output c after tree home components path id, Project.manned.compile {} = .ok output ∧
      (Dir.emitTree c).Gives { ids := (Project.manned.prepare {}).ids } tree after ∧
      c.BringsHome tree output.document home components ∧
      c.SearchesEnd tree output.document home path id ∧
      components.map id? = [some "Registry1"] ∧
      path = ["ProgramFilesFolder", "INSTALLDIR"] ∧ id = "INSTALLDIR" := by
  obtain ⟨output, compiled, assigned⟩ := Project.exists_output_of_any
    (by decide +kernel : ((Project.manned.compile {}).toOption.any fun output =>
      output.installDir.isSome) = true)
  obtain ⟨c, after, tree, home, components, path, id, start, treeSteps, bringsHome, searchesEnd⟩ :=
    Project.searchesEnd_of_compile compiled rfl assigned
  obtain ⟨prepared, given⟩ := Compilation.project_of_ofProject start
  obtain ⟨early, nowhere, manned, way, bookings⟩ :
      (∀ path ∈ (Dir.installPath (Project.manned.prepare {}).project.dirs).inits,
        path ≠ Dir.installPath (Project.manned.prepare {}).project.dirs →
          ¬ Dir.FillsAt (Project.manned.prepare {}).project.dirs path) ∧
      Dir.elsewhere (Project.manned.prepare {}).project.dirs = [] ∧
      (∀ last ∈ (Dir.installWayIn (Project.manned.prepare {}).project.dirs).getLast?,
        last.isBare = false) ∧
      Dir.installPath (Project.manned.prepare {}).project.dirs =
        ["ProgramFilesFolder", "INSTALLDIR"] ∧
      ((Project.manned.prepare {}).project.standaloneBookings.map fun booking =>
        some booking.componentId) = [some "Registry1"] := by
    decide +kernel
  rw [← prepared] at early nowhere manned way bookings
  have free : ¬ Dir.WayIsBarred c.project.dirs := by
    rintro (⟨path, before, proper, fills | ⟨location, among, -⟩⟩ | ⟨last, atEnd, bare, -⟩)
    · exact early path ((List.mem_inits ..).mpr before) proper fills
    · rw [nowhere] at among
      cases among
    · rw [manned last atEnd] at bare
      cases bare
  have same := searchesEnd.meet free
  exact ⟨output, c, after, tree, home, components, path, id, compiled, treeSteps, bringsHome,
    searchesEnd, bringsHome.ids.trans bookings, same.trans way,
    (searchesEnd.agree same).trans (by rw [given])⟩

/-- A project whose installation directory has nothing but subdirectories. -/
def Project.branching : Project where
  name := "App"
  ui := .installDir
  dirs := [⟨{ name := "%ProgramFiles%\\App" },
    [⟨{ name := "bin", files := [{ name := "app.exe" }] }, []⟩,
     ⟨{ name := "docs", files := [{ name := "manual.pdf" }] }, []⟩]⟩]

/-- The id of the installation directory is assigned to the directory that branches, and the dialogs
are told the id of its first subdirectory. -/
theorem Project.searches_part_branching : Project.branching.ui = .installDir ∧
    ∃ output, Project.branching.compile {} = .ok output ∧
      output.installDir = some "%ProgramFiles%\\App" ∧
      some "INSTALLDIR" ∈ (output.document.descendantsNamed "Directory").map id? ∧
      (output.document.elements.flatMap fun package => package.elementsNamed "Property").map
        (·.attrs) = [(homeProperty "INSTALLDIR.bin").attrs] := by
  refine ⟨rfl, ?_⟩
  obtain ⟨output, compiled, parts⟩ := Project.exists_output_of_any
    (by decide +kernel : ((Project.branching.compile {}).toOption.any fun output =>
      decide (output.installDir = some "%ProgramFiles%\\App" ∧
        some "INSTALLDIR" ∈ (output.document.descendantsNamed "Directory").map id? ∧
        (output.document.elements.flatMap fun package => package.elementsNamed "Property").map
          (·.attrs) = [(homeProperty "INSTALLDIR.bin").attrs])) = true)
  exact ⟨output, compiled, of_decide_eq_true parts⟩

end Installer
