/-! # Extra attributes and conditions

A project may give extra attributes for many of the elements that are written for it. They are kept
in the order of their names, one value for each name. Conditions are the smallest entities that have
such attributes.
-/

namespace Installer

/-- Names with a value each, in increasing order of the names. -/
structure Attributes where
  pairs : List (String × String) := []
  sorted : pairs.Pairwise (fun a b => a.1 < b.1) := by exact List.Pairwise.nil

namespace Attributes

def empty : Attributes where
  pairs := []

instance : Inhabited Attributes := ⟨empty⟩

/-- Puts a pair at its place in the order, over the value that its name had. -/
def insertPair (name value : String) : List (String × String) → List (String × String)
  | [] => [(name, value)]
  | pair :: rest =>
    if name < pair.1 then (name, value) :: pair :: rest
    else if pair.1 < name then pair :: insertPair name value rest
    else (name, value) :: rest

/-- Every pair after an insertion is the inserted one or was there before. -/
theorem mem_insertPair {name value : String} {pairs : List (String × String)}
    {pair : String × String} (h : pair ∈ insertPair name value pairs) :
    pair = (name, value) ∨ pair ∈ pairs := by
  induction pairs with
  | nil => simpa [insertPair] using h
  | cons first rest ih =>
    simp only [insertPair] at h
    split at h
    next => simpa using h
    next =>
      split at h
      next =>
        rcases List.mem_cons.mp h with rfl | h
        · simp
        · rcases ih h with rfl | h <;> simp_all
      next => rcases List.mem_cons.mp h with rfl | h <;> simp_all

/-- Insertion keeps the order. -/
theorem pairwise_insertPair {name value : String} {pairs : List (String × String)}
    (h : pairs.Pairwise fun a b => a.1 < b.1) :
    (insertPair name value pairs).Pairwise fun a b => a.1 < b.1 := by
  induction pairs with
  | nil => simp [insertPair]
  | cons first rest ih =>
    have ⟨first_lt, rest_sorted⟩ := List.pairwise_cons.mp h
    simp only [insertPair]
    split
    next lt =>
      refine List.pairwise_cons.mpr ⟨fun pair mem => ?_, h⟩
      rcases List.mem_cons.mp mem with rfl | mem
      · exact lt
      · exact String.lt_trans lt (first_lt pair mem)
    next not_lt =>
      split
      next gt =>
        refine List.pairwise_cons.mpr ⟨fun pair mem => ?_, ih rest_sorted⟩
        rcases mem_insertPair mem with rfl | mem
        · exact gt
        · exact first_lt pair mem
      next not_gt =>
        have same : name = first.1 :=
          String.le_antisymm (String.not_lt.mp not_gt) (String.not_lt.mp not_lt)
        exact List.pairwise_cons.mpr ⟨fun pair mem => same ▸ first_lt pair mem, rest_sorted⟩

def insert (attributes : Attributes) (name value : String) : Attributes :=
  ⟨insertPair name value attributes.pairs, pairwise_insertPair attributes.sorted⟩

/-- The attributes that a list of pairs gives; of two values for one name the later one counts. -/
def ofList (pairs : List (String × String)) : Attributes :=
  pairs.foldl (fun attributes pair => attributes.insert pair.1 pair.2) empty

end Attributes

/-! ## Conditions -/

structure Condition where
  text : String
  attributes : Attributes := .empty

/-- A condition that must hold for the installation to start. -/
structure LaunchCondition where
  condition : String
  /-- What the user is told when the condition fails. -/
  message : String
  attributes : Attributes := .empty

end Installer
