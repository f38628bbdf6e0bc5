import Installer.Proofs.Markup.Home

/-! # The line of first subdirectories

A search for the installation directory that always goes on in the first subdirectory meets the
directories of one line only.  On this line the home of standalone components is the first directory
that owns a component (`FirstOwner`).  The line only grows while directories are placed.
-/

namespace Installer.Markup

open Element

namespace Element

/-- The ids lead from `e` down through first subdirectories. -/
def OnFirstLine : Element → List String → Prop
  | _, [] => True
  | e, id :: path =>
    ∃ child, e.child? "Directory" = some child ∧ child.id? = some id ∧ child.OnFirstLine path

/-- The directory at the path has a component directly inside it. -/
def OwnsAt (e : Element) (path : List String) : Prop :=
  ∃ d, e.follow? path = some d ∧ d.Owns

/-- The directory at the path has a component, and none on the way there has one. -/
structure FirstOwner (e : Element) (path : List String) : Prop where
  owns : e.OwnsAt path
  outer : ∀ outer, outer <+: path → outer ≠ path → ¬ e.OwnsAt outer

/-! ## Following the line -/

theorem ownsAt_nil {e : Element} : e.OwnsAt [] ↔ e.Owns := by
  simp [OwnsAt, follow?]

theorem follow?_of_first {e child : Element} {id : String}
    (first : e.child? "Directory" = some child) (identified : child.id? = some id)
    (path : List String) : e.follow? (id :: path) = child.follow? path := by
  obtain ⟨directory, front, back, elements, before⟩ := List.find?_eq_some_iff_append.mp first
  have found : e.elements.find? (hasNameAndId "Directory" id) = some child := by
    refine List.find?_eq_some_iff_append.mpr
      ⟨hasNameAndId_eq_true.mpr ⟨by simpa using directory, identified⟩, front, back, elements,
        fun x mem => ?_⟩
    have other : x.name ≠ "Directory" := by simpa using before x mem
    simp [hasNameAndId, other]
  rw [follow?, found, Option.bind_some]

theorem ownsAt_of_first {e child : Element} {id : String}
    (first : e.child? "Directory" = some child) (identified : child.id? = some id)
    (path : List String) : e.OwnsAt (id :: path) ↔ child.OwnsAt path := by
  rw [OwnsAt, follow?_of_first first identified]
  rfl

theorem OnFirstLine.isSome_follow? {e : Element} {path : List String} (line : e.OnFirstLine path) :
    (e.follow? path).isSome = true := by
  induction path generalizing e with
  | nil => rfl
  | cons id path ih =>
    obtain ⟨child, first, identified, rest⟩ := line
    rw [follow?_of_first first identified]
    exact ih rest

/-- Of two paths on the line one goes on where the other one ends. -/
theorem OnFirstLine.prefix_or_prefix {e : Element} {path path' : List String}
    (line : e.OnFirstLine path) (line' : e.OnFirstLine path') :
    path <+: path' ∨ path' <+: path := by
  induction path generalizing e path' with
  | nil => exact .inl path'.nil_prefix
  | cons id path ih =>
    cases path' with
    | nil => exact .inr (List.nil_prefix ..)
    | cons id' path' =>
      obtain ⟨child, first, identified, rest⟩ := line
      obtain ⟨child', first', identified', rest'⟩ := line'
      rw [first, Option.some.injEq] at first'
      subst first'
      rw [identified, Option.some.injEq] at identified'
      subst identified'
      exact (ih rest rest').imp (fun below => List.cons_prefix_cons.mpr ⟨rfl, below⟩)
        fun below => List.cons_prefix_cons.mpr ⟨rfl, below⟩

/-- There is at most one first owner on the line. -/
theorem FirstOwner.eq {e : Element} {path path' : List String} (owner : e.FirstOwner path)
    (line : e.OnFirstLine path) (owner' : e.FirstOwner path') (line' : e.OnFirstLine path') :
    path = path' := by
  by_contra different
  rcases line.prefix_or_prefix line' with before | before
  · exact owner'.outer path before different owner.owns
  · exact owner.outer path' before (Ne.symm different) owner'.owns

theorem child?_addAll {e child : Element} {name : String} (found : e.child? name = some child)
    (children : List Element) : (e.addAll children).child? name = some child := by
  rw [child?] at found
  rw [child?, elements_addAll, List.find?_append, found, Option.some_or]

theorem OnFirstLine.addAll {e : Element} {path : List String} (line : e.OnFirstLine path)
    (children : List Element) : (e.addAll children).OnFirstLine path := by
  cases path with
  | nil => trivial
  | cons id path =>
    obtain ⟨child, first, rest⟩ := line
    exact ⟨child, child?_addAll first children, rest⟩

end Element

namespace Focus

variable {focus : Focus Element} {whole e : Element}

theorem IsPlace.onFirstLine_put (place : focus.IsPlace whole) (same : e.tag = focus.node.tag)
    (goesOn : ∀ path, focus.node.OnFirstLine path → e.OnFirstLine path) {path : List String}
    (line : whole.OnFirstLine path) : (focus.put e).OnFirstLine path := by
  induction place generalizing path with
  | whole _ => exact goesOn path line
  | @child focus child name attrs front back inside ih =>
    have kept := inside.tag_put same
    cases path with
    | nil => trivial
    | cons id path =>
      obtain ⟨first, found, identified, rest⟩ := line
      simp only [child?, elements_mk_append, elements_mk_cons, List.find?_append] at found
      simp only [OnFirstLine, within, child?, elements_mk_append, elements_mk_cons,
        List.find?_append]
      cases before : (elements ⟨name, attrs, front⟩).find? (fun x => x.name == "Directory") with
      | some x =>
        rw [before, Option.some_or] at found
        cases found
        exact ⟨first, Option.some_or, identified, rest⟩
      | none =>
        rw [before, Option.none_or] at found
        simp only [Option.none_or]
        -- the first directory is the changed child or comes after it
        by_cases directory : child.name = "Directory"
        · rw [List.find?_cons_of_pos (by simpa using directory)] at found
          cases found
          refine ⟨focus.put e, ?_, (id?_eq_of_tag kept).trans identified, ih same goesOn rest⟩
          exact List.find?_cons_of_pos (by simpa using (name_eq_of_tag kept).trans directory)
        · rw [List.find?_cons_of_neg (by simpa using directory)] at found
          refine ⟨first, ?_, identified, rest⟩
          have other : (focus.put e).name ≠ "Directory" := name_eq_of_tag kept ▸ directory
          rw [List.find?_cons_of_neg (by simpa using other), found]

/-- The home is on the line, and no directory on the way there has a component. -/
theorem IsHome.exists_path (home : focus.IsHome whole) (tidy : Tidy whole) :
    ∃ path, whole.OnFirstLine path ∧ whole.follow? path = some focus.node ∧
      ∀ outer, outer <+: path → outer ≠ path → ¬ whole.OwnsAt outer := by
  induction home with
  | stop _ =>
    exact ⟨[], trivial, rfl, fun outer before proper => absurd (List.prefix_nil.mp before) proper⟩
  | @deeper focus child name attrs front back unowned directory first inside ih =>
    have tidyChild : Tidy child := tidy.child (by simp)
    obtain ⟨id, identified⟩ := tidy.exists_id (by simp : child ∈ _) directory
    obtain ⟨path, line, leads, outer⟩ := ih tidyChild
    have found : child? ⟨name, attrs, front ++ .element child :: back⟩ "Directory" =
        some child := by
      have before : (elements ⟨name, attrs, front⟩).find? (fun x => x.name == "Directory") =
          none := List.find?_eq_none.mpr fun x mem => by simpa using first x mem
      simp [child?, before, directory]
    refine ⟨id :: path, ⟨child, found, identified, line⟩,
      (follow?_of_first found identified path).trans leads, fun way before proper => ?_⟩
    cases way with
    | nil =>
      rw [ownsAt_nil]
      rintro ⟨x, mem, named⟩
      exact unowned x mem named
    | cons id' way =>
      obtain ⟨rfl, below⟩ := List.cons_prefix_cons.mp before
      rw [ownsAt_of_first found identified]
      exact outer way below fun same => proper (congrArg _ same)

/-- When every directory is settled, the home is the first owner on the line. -/
theorem IsHome.exists_firstOwner (home : focus.IsHome whole) (tidy : Tidy whole)
    (housed : whole.Housed) (directory : whole.name = "Directory") :
    ∃ path, whole.OnFirstLine path ∧ whole.follow? path = some focus.node ∧
      whole.FirstOwner path := by
  obtain ⟨path, line, leads, outer⟩ := home.exists_path tidy
  exact ⟨path, line, leads, ⟨_, leads, home.owns housed directory⟩, outer⟩

end Focus

end Installer.Markup
