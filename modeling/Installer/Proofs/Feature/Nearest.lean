import Installer.Source.Feature
import Mathlib.Data.List.Basic
import Mathlib.Data.Nat.Find
import Mathlib.Logic.Relation

/-! # The nearest retained feature above a feature

* `nearest?_eq_some` for the nearest retained feature.
* `isOnCycle_iff` for a feature above itself.
* `parent?_cutCycles` for the parents that remain when every circle is cut: the least node of a
  circle loses its parent, and nothing else changes.
-/

/-! ## Ways up

From a feature one goes up to its parent, to the parent of that, and so on.  Such a way is followed
until something is found, and it may go in a circle.  `Leads` is a way with the number of its steps.
A way that ends passes every place once, which is why a bounded search finds its end.

The second half is about circles when every place has at most one place above it: everything that is
reached from a circle is on the circle.
-/

namespace Installer

open Relation

/-! ## Ways that end -/

/-- From `a` the way that goes on by `next` stops at `b` after so many steps, and not before. -/
inductive Leads {α : Type} (next : α → Option α) (stop : α → Prop) : Nat → α → α → Prop where
  | here {a : α} (stops : stop a) : Leads next stop 0 a a
  | step {steps : Nat} {a b c : α} (goesOn : ¬ stop a) (above : next a = some b)
      (rest : Leads next stop steps b c) : Leads next stop (steps + 1) a c

namespace Leads

variable {α : Type} {next : α → Option α} {stop : α → Prop} {a b c : α} {m n : Nat}

theorem stops (leads : Leads next stop n a b) : stop b := by
  induction leads with
  | here stops => exact stops
  | step _ _ _ ih => exact ih

theorem unique (first : Leads next stop m a b) (second : Leads next stop n a c) :
    m = n ∧ b = c := by
  induction first generalizing n with
  | here stops =>
    cases second with
    | here => exact ⟨rfl, rfl⟩
    | step goesOn => exact absurd stops goesOn
  | step goesOn above _ ih =>
    cases second with
    | here stops => exact absurd stops goesOn
    | step _ above' rest =>
      rw [above, Option.some.injEq] at above'
      subst above'
      obtain ⟨same, equal⟩ := ih rest
      exact ⟨congrArg (· + 1) same, equal⟩

/-- A way passes as many different places as it has steps. -/
theorem exists_path (leads : Leads next stop n a b) :
    ∃ path : List α, path.length = n ∧ path.Nodup ∧
      (∀ x ∈ path, ¬ stop x ∧ ∃ y, next x = some y) ∧
      ∀ x ∈ path, ∃ k ≤ n, Leads next stop k x b := by
  induction leads with
  | here stops => exact ⟨[], rfl, List.nodup_nil, by simp, by simp⟩
  | @step steps a next' b goesOn above rest ih =>
    obtain ⟨path, length, nodup, passed, later⟩ := ih
    have whole := Leads.step goesOn above rest
    refine ⟨a :: path, by rw [List.length_cons, length], ?_, ?_, ?_⟩
    · refine List.nodup_cons.mpr ⟨fun mem => ?_, nodup⟩
      -- a place passed twice would be at two distances from the end
      obtain ⟨k, bound, shorter⟩ := later a mem
      have same := (whole.unique shorter).1
      omega
    · exact List.forall_mem_cons.mpr ⟨⟨goesOn, next', above⟩, passed⟩
    · refine List.forall_mem_cons.mpr ⟨⟨steps + 1, Nat.le_refl _, whole⟩, fun x mem => ?_⟩
      obtain ⟨k, bound, leads⟩ := later x mem
      exact ⟨k, Nat.le_succ_of_le bound, leads⟩

/-- A way is no longer than the list of all places that something is above. -/
theorem length_le (leads : Leads next stop n a b) {all : List α}
    (mem : ∀ x y, ¬ stop x → next x = some y → x ∈ all) : n ≤ all.length := by
  obtain ⟨path, length, nodup, passed, -⟩ := leads.exists_path
  rw [← length]
  refine nodup.length_le_of_subset fun x among => ?_
  obtain ⟨goesOn, y, above⟩ := passed x among
  exact mem x y goesOn above

/-- It is shorter if the end is in the list as well. -/
theorem length_lt (leads : Leads next stop n a b) {all : List α}
    (mem : ∀ x y, next x = some y → x ∈ all) (last : b ∈ all) : n < all.length := by
  obtain ⟨path, length, nodup, passed, -⟩ := leads.exists_path
  -- the end is not one of the places passed
  have different : b ∉ path := fun among => (passed b among).1 leads.stops
  have bound := (List.nodup_cons.mpr ⟨different, nodup⟩).length_le_of_subset
    (List.cons_subset.mpr ⟨last, fun x among => by
      obtain ⟨-, y, above⟩ := passed x among
      exact mem x y above⟩)
  rw [List.length_cons, length] at bound
  exact bound

/-- Whatever is reached at all is reached by a way that stops there. -/
theorem of_reflTransGen (reaches : ReflTransGen (fun x y => next x = some y) a b) :
    ∃ n, Leads next (· = b) n a b := by
  induction reaches using ReflTransGen.head_induction_on with
  | refl => exact ⟨0, .here rfl⟩
  | @head x y above _ ih =>
    obtain ⟨n, leads⟩ := ih
    by_cases here : x = b
    · subst here
      exact ⟨0, .here rfl⟩
    · exact ⟨n + 1, .step here above leads⟩

end Leads

/-! ## Circles -/

section Circles

variable {α : Type} {r s : α → α → Prop} {i j : α}

/-- From everything that is reached on a circle the way goes back to its start. -/
theorem transGen_back (unique : Relator.RightUnique r) (circle : TransGen r i i)
    (reaches : TransGen r i j) : TransGen r j i := by
  have step : ∀ {x y}, TransGen r x i → r x y → TransGen r y i := fun {x y} back above => by
    -- there is only one step to take, and it is the one that leads back
    obtain ⟨z, first, rest⟩ := TransGen.head'_iff.mp back
    rw [unique above first]
    rcases ReflTransGen.cases_head_iff.mp rest with equal | ⟨w, second, later⟩
    · exact equal ▸ circle
    · exact TransGen.head' second later
  induction reaches with
  | single above => exact step circle above
  | tail _ above ih => exact step ih above

/-- Two relations that agree on everything that is reached from a circle reach the same from it. -/
theorem transGen_congr (start : TransGen r i i)
    (agree : ∀ x y, TransGen r i x → r x y → s x y) (reaches : TransGen r i j) :
    TransGen s i j := by
  induction reaches with
  | single above => exact .single (agree i _ start above)
  | tail before above ih => exact ih.tail (agree _ _ before above)

/-- A circle of a part of the relation is the whole circle. -/
theorem transGen_of_subrelation (unique : Relator.RightUnique r)
    (part : ∀ x y, s x y → r x y) (circle : TransGen s i i) (reaches : TransGen r i j) :
    TransGen s i j := by
  have unique' : Relator.RightUnique s := fun x y z first second =>
    unique (part x y first) (part x z second)
  have step : ∀ {x y}, TransGen s x i → r x y → s x y := fun {x y} back above => by
    obtain ⟨z, first, -⟩ := TransGen.head'_iff.mp back
    exact unique (part x z first) above ▸ first
  induction reaches with
  | single above => exact .single (step circle above)
  | tail _ above ih => exact ih.tail (step (transGen_back unique' circle ih) above)

/-- The least number of a circle. -/
def LeastOnCircle (r : Nat → Nat → Prop) (i : Nat) : Prop :=
  TransGen r i i ∧ ∀ j, TransGen r i j → i ≤ j

theorem existsUnique_leastOnCircle {r : Nat → Nat → Prop} {i : Nat}
    (unique : Relator.RightUnique r) (circle : TransGen r i i) :
    ∃! j, TransGen r i j ∧ LeastOnCircle r j := by
  classical
  have nonempty : ∃ j, TransGen r i j := ⟨i, circle⟩
  have reaches : TransGen r i (Nat.find nonempty) := Nat.find_spec nonempty
  have back : TransGen r (Nat.find nonempty) i := transGen_back unique circle reaches
  refine ⟨Nat.find nonempty, ⟨reaches, back.trans reaches, fun j below => ?_⟩, ?_⟩
  · exact Nat.find_min' nonempty (reaches.trans below)
  · rintro j ⟨reaches', -, least⟩
    -- each of the two is on the circle of the other
    have above := least _ ((transGen_back unique circle reaches').trans reaches)
    have below := Nat.find_min' nonempty reaches'
    omega

end Circles

/-! ## Searches

Two bounded searches go up from a feature: one by names, to the first name that is retained, and one
by positions, back to where it started.  Both are shown to find whatever is there to be found, so
their bounds are no part of their meaning.
-/

/-! ## Up by names -/

namespace Project

variable {project : Project} {names : List String}

def parentName? (project : Project) (name : String) : Option String :=
  (project.feature? name).bind (·.parent)

/-- The way up from a feature comes by the name at a position before any other of the names.  A way
back to the feature's own name leads to no feature above it. -/
def IsNearest (project : Project) (names : List String) (feature : Feature) (i : Nat) : Prop :=
  ∃ parent steps name, feature.parent = some parent ∧
    Leads project.parentName? (· ∈ names) steps parent name ∧ name ≠ feature.name ∧
      names.idxOf? name = some i

theorem idxOf?_eq_none {name : String} : names.idxOf? name = none ↔ name ∉ names := by
  simp

theorem mem_of_idxOf? {name : String} {i : Nat} (found : names.idxOf? name = some i) :
    name ∈ names := by
  by_contra absent
  rw [idxOf?_eq_none.mpr absent] at found
  cases found

theorem leads_of_nearestFrom {fuel i : Nat} {visited : List String} {start : Option String}
    (found : project.nearestFrom names fuel visited start = some i) :
    ∃ parent steps name, start = some parent ∧
      Leads project.parentName? (· ∈ names) steps parent name ∧ name ∉ visited ∧
        names.idxOf? name = some i := by
  induction fuel generalizing visited start with
  | zero => cases found
  | succ fuel ih =>
    cases start with
    | none => cases found
    | some name =>
      rw [nearestFrom] at found
      split at found
      next => cases found
      next fresh =>
        have notVisited : name ∉ visited := by simpa using fresh
        split at found
        next j position =>
          cases found
          exact ⟨name, 0, name, rfl, .here (mem_of_idxOf? position), notVisited, position⟩
        next absent =>
          obtain ⟨above, steps, last, isAbove, leads, fresh, position⟩ := ih found
          -- the place is passed, and the way goes on from its parent
          have goesOn : name ∉ names := idxOf?_eq_none.mp absent
          exact ⟨name, steps + 1, last, rfl, .step goesOn isAbove leads,
            fun mem => fresh (List.mem_cons_of_mem _ mem), position⟩

/-- No visited name lies on the rest of the way, and the bound is not reached before its end. -/
theorem nearestFrom_of_leads {steps fuel i : Nat} {visited : List String} {start last : String}
    (leads : Leads project.parentName? (· ∈ names) steps start last)
    (position : names.idxOf? last = some i) (enough : steps < fuel)
    (away : ∀ name ∈ visited, ∀ k ≤ steps,
      ¬ Leads project.parentName? (· ∈ names) k name last) :
    project.nearestFrom names fuel visited (some start) = some i := by
  induction leads generalizing fuel visited with
  | here retained =>
    obtain ⟨fuel, rfl⟩ := Nat.exists_eq_add_one.mpr enough
    have fresh : ¬ visited.contains _ = true := fun visited' =>
      away _ (List.contains_iff_mem.mp visited') 0 (Nat.le_refl _) (.here retained)
    rw [nearestFrom, if_neg fresh, position]
  | @step steps start above last goesOn isAbove rest ih =>
    obtain ⟨fuel, rfl⟩ := Nat.exists_eq_add_one.mpr (Nat.zero_lt_of_lt enough)
    have whole := Leads.step goesOn isAbove rest
    have fresh : ¬ visited.contains start = true := fun visited' =>
      away start (List.contains_iff_mem.mp visited') _ (Nat.le_refl _) whole
    rw [nearestFrom, if_neg fresh, idxOf?_eq_none.mpr goesOn]
    have next : (project.feature? start).bind (·.parent) = some above := isAbove
    simp only [next]
    refine ih position (by omega) fun name mem k bound leads => ?_
    rcases List.mem_cons.mp mem with rfl | earlier
    · -- the start is one step further from the end than what is above it
      have same := (whole.unique leads).1
      omega
    · exact away name earlier k (by omega) leads

/-- Whatever has a parent is the name of a declared feature. -/
theorem mem_names_of_parentName? {name parent : String}
    (above : project.parentName? name = some parent) :
    name ∈ project.defaultFeature.name :: project.features.map (·.name) := by
  rw [parentName?, Option.bind_eq_some_iff] at above
  obtain ⟨feature, found, -⟩ := above
  rw [feature?] at found
  split at found
  next isDefault => exact isDefault ▸ List.mem_cons_self ..
  next =>
    have named : feature.name = name := by simpa using List.find?_some found
    exact named ▸ List.mem_cons_of_mem _ (List.mem_map_of_mem (List.mem_of_find?_eq_some found))

/-- The search for the nearest retained feature finds it whenever there is one. -/
theorem nearest?_eq_some {feature : Feature} {i : Nat} (retained : feature.name ∈ names) :
    project.nearest? names feature = some i ↔ project.IsNearest names feature i := by
  constructor
  · intro found
    obtain ⟨parent, steps, name, isParent, leads, fresh, position⟩ := leads_of_nearestFrom found
    exact ⟨parent, steps, name, isParent, leads, by simpa using fresh, position⟩
  · rintro ⟨parent, steps, name, isParent, leads, other, position⟩
    have bound : steps ≤ project.features.length + 1 := by
      simpa using leads.length_le fun x y _ above => mem_names_of_parentName? above
    rw [nearest?, isParent]
    refine nearestFrom_of_leads leads position (by omega) fun visited mem k _ back => ?_
    rw [List.mem_singleton] at mem
    subst mem
    -- the way from a retained name is over at once
    exact other (back.unique (.here retained)).2

theorem lt_of_nearest? {feature : Feature} {i : Nat}
    (found : project.nearest? names feature = some i) : i < names.length := by
  obtain ⟨_, _, _, _, _, _, position⟩ := leads_of_nearestFrom found
  exact (List.findIdx?_eq_some_iff_findIdx_eq.mp position).1

end Project

/-! ## Up by positions -/

namespace Parents

variable {parents : Parents} {i j : Nat}

def Above (parents : Parents) (i j : Nat) : Prop :=
  parents.parent? i = some j

theorem above_unique : Relator.RightUnique parents.Above := fun _ _ _ first second =>
  Option.some.inj (first.symm.trans second)

theorem lt_of_parent? (above : parents.parent? i = some j) : i < parents.length := by
  by_contra outside
  rw [parent?, List.getElem?_eq_none (Nat.le_of_not_lt outside)] at above
  cases above

theorem exists_of_transGen (reaches : TransGen parents.Above i j) :
    ∃ k, parents.parent? i = some k ∧ ReflTransGen parents.Above k j :=
  TransGen.head'_iff.mp reaches

theorem comesBy_iff {steps target : Nat} {start : Option Nat} :
    parents.comesBy target steps start = true ↔
      ∃ first k, start = some first ∧ k < steps ∧
        Leads parents.parent? (· = target) k first target := by
  induction steps generalizing start with
  | zero => simp [comesBy]
  | succ steps ih =>
    cases start with
    | none => simp [comesBy]
    | some first =>
      rw [comesBy, Bool.or_eq_true, beq_iff_eq, ih]
      constructor
      · rintro (rfl | ⟨next, k, isNext, bound, leads⟩)
        · exact ⟨first, 0, rfl, by omega, .here rfl⟩
        · by_cases here : first = target
          · subst here
            exact ⟨first, 0, rfl, by omega, .here rfl⟩
          · exact ⟨first, k + 1, rfl, by omega, .step here isNext leads⟩
      · rintro ⟨_, k, equal, bound, leads⟩
        cases equal
        cases leads with
        | here here => exact .inl here
        | step _ above rest => exact .inr ⟨_, _, above, by omega, rest⟩

theorem reflTransGen_of_leads {stop : Nat → Prop} {k : Nat}
    (leads : Leads parents.parent? stop k i j) : ReflTransGen parents.Above i j := by
  induction leads with
  | here => exact .refl
  | step _ above _ ih => exact .head above ih

/-- The search for a node above itself finds the whole circle. -/
theorem isOnCycle_iff : parents.isOnCycle i = true ↔ TransGen parents.Above i i := by
  rw [isOnCycle, comesBy_iff, TransGen.head'_iff]
  constructor
  · rintro ⟨first, k, above, -, leads⟩
    exact ⟨first, above, reflTransGen_of_leads leads⟩
  · rintro ⟨first, above, reaches⟩
    obtain ⟨k, leads⟩ := Leads.of_reflTransGen reaches
    -- a way back to the start has no more steps than there are nodes
    have bound : k < (List.range parents.length).length :=
      leads.length_lt (fun x y up => List.mem_range.mpr (lt_of_parent? up))
        (List.mem_range.mpr (lt_of_parent? above))
    exact ⟨first, k, above, by simpa using bound, leads⟩

/-! ## Cutting circles -/

/-- Some circles are cut and the rest is as it was. -/
structure CutBelow (m : Nat) (parents cut : Parents) : Prop where
  length : cut.length = parents.length
  cuts : ∀ {i}, i < m → LeastOnCircle parents.Above i → cut.parent? i = none
  keeps : ∀ {i}, ¬ (i < m ∧ LeastOnCircle parents.Above i) → cut.parent? i = parents.parent? i

namespace CutBelow

variable {m : Nat} {cut : Parents}

theorem above (cutBelow : CutBelow m parents cut) (x y : Nat) (up : cut.Above x y) :
    parents.Above x y := by
  by_cases least : x < m ∧ LeastOnCircle parents.Above x
  · rw [Above, cutBelow.cuts least.1 least.2] at up
    cases up
  · exact (cutBelow.keeps least).symm.trans up

/-- A circle that is left over has none of the nodes at which circles were cut. -/
theorem le_of_least (cutBelow : CutBelow m parents cut) (circle : TransGen cut.Above i i)
    (reaches : TransGen parents.Above i j) (least : LeastOnCircle parents.Above j) : m ≤ j := by
  by_contra less
  have within := transGen_of_subrelation above_unique cutBelow.above circle reaches
  obtain ⟨k, up, -⟩ := exists_of_transGen (transGen_back above_unique circle within)
  rw [cutBelow.cuts (Nat.lt_of_not_le less) least] at up
  cases up

theorem isOnCycle_iff (cutBelow : CutBelow m parents cut) :
    cut.isOnCycle m = true ↔ LeastOnCircle parents.Above m := by
  rw [Parents.isOnCycle_iff]
  constructor
  · intro circle
    have circle' := TransGen.mono cutBelow.above _ _ circle
    refine ⟨circle', fun j reaches => ?_⟩
    obtain ⟨first, ⟨isReached, least⟩, -⟩ := existsUnique_leastOnCircle above_unique circle'
    -- the least node of the circle is not cut yet, so it is the next one
    have bound := cutBelow.le_of_least circle isReached least
    have below := least.2 j ((transGen_back above_unique circle' isReached).trans reaches)
    omega
  · rintro ⟨circle, least⟩
    refine transGen_congr circle (fun x y start up => ?_) circle
    -- nothing on the circle is below its least node, so all of it is left
    have notCut : ¬ (x < m ∧ LeastOnCircle parents.Above x) := fun cutAt => by
      have bound := least x start
      omega
    exact (cutBelow.keeps notCut).trans up

/-- One step of the scan: the circle of the next node is cut if that is its least node. -/
theorem step (cutBelow : CutBelow m parents cut) : CutBelow (m + 1) parents (cut.cutAt m) := by
  have iff := cutBelow.isOnCycle_iff
  rw [cutAt]
  split
  next circle =>
    have least := iff.mp circle
    -- a node on a circle has a parent
    have inside : m < cut.length := lt_of_parent?
      (exists_of_transGen (Parents.isOnCycle_iff.mp circle)).choose_spec.1
    refine ⟨by rw [List.length_set, cutBelow.length], fun {i} less least' => ?_,
      fun {i} other => ?_⟩
    · by_cases same : i = m
      · subst same
        simp [parent?, inside]
      · rw [parent?, List.getElem?_set_ne (Ne.symm same)]
        exact cutBelow.cuts (by omega) least'
    · have different : m ≠ i := by
        rintro rfl
        exact other ⟨by omega, least⟩
      rw [parent?, List.getElem?_set_ne different]
      exact cutBelow.keeps fun before => other ⟨by omega, before.2⟩
  next none =>
    have notCut : ¬ LeastOnCircle parents.Above m := fun least => none (iff.mpr least)
    refine ⟨cutBelow.length, fun {i} less least => ?_, fun {i} other => ?_⟩
    · have different : i ≠ m := by
        rintro rfl
        exact notCut least
      exact cutBelow.cuts (by omega) least
    · exact cutBelow.keeps fun before => other ⟨by omega, before.2⟩

end CutBelow

theorem cutBelow_cutCycles (parents : Parents) :
    CutBelow parents.length parents parents.cutCycles := by
  have scan : ∀ m, CutBelow m parents ((List.range m).foldl cutAt parents) := by
    intro m
    induction m with
    | zero => exact ⟨rfl, fun less => absurd less (Nat.not_lt_zero _), fun _ => rfl⟩
    | succ m ih =>
      rw [List.range_succ, List.foldl_append]
      exact ih.step
  exact scan parents.length

theorem length_cutCycles (parents : Parents) : parents.cutCycles.length = parents.length :=
  (cutBelow_cutCycles parents).length

theorem parent?_cutCycles : parents.cutCycles.parent? i = some j ↔
    parents.parent? i = some j ∧ ¬ LeastOnCircle parents.Above i := by
  have cutBelow := cutBelow_cutCycles parents
  constructor
  · intro up
    refine ⟨cutBelow.above _ _ up, fun least => ?_⟩
    rw [cutBelow.cuts (cutBelow.length ▸ lt_of_parent? up) least] at up
    cases up
  · rintro ⟨up, notCut⟩
    rw [cutBelow.keeps fun cut => notCut cut.2]
    exact up

-- the circle of 1 and 2 is cut at 1, while 0 stays below it
example : Parents.cutCycles [some 1, some 2, some 1, none] = [some 1, none, some 1, none] := by
  decide

/-- When the circles are cut none is left. -/
theorem not_transGen_cutCycles : ¬ TransGen parents.cutCycles.Above i i := by
  intro circle
  have cutBelow := cutBelow_cutCycles parents
  obtain ⟨j, ⟨reaches, least⟩, -⟩ := existsUnique_leastOnCircle above_unique
    (TransGen.mono cutBelow.above _ _ circle)
  -- the least node of the circle would be among those that were cut
  have outside := cutBelow.le_of_least circle reaches least
  obtain ⟨k, up, -⟩ := exists_of_transGen least.1
  have inside := lt_of_parent? up
  omega

end Parents

end Installer
