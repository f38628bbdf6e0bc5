import Installer.Ident
import Mathlib.Data.List.Nodup
import Std.Data.String.ToNat

/-! # What a pool hands out

A pool never hands out an id of a kind twice: a claimed id was not in use, and it is from then on.
Plain numbers are counted per kind.  `Hands` and `Counts` state both over a whole run of steps, so
that runs can be put together.
-/

namespace Installer

theorem toString_inj {m n : Nat} : toString m = toString n ↔ m = n :=
  Nat.repr_inj

namespace IdPool

/-! ## Free numbers -/

theorem numbered_inj {name : String} {m n : Nat} :
    numbered name m = numbered name n ↔ m = n := by
  rw [numbered, numbered, String.append_right_inj, toString_inj]

/-- Different numbers behind a name make different texts. -/
theorem nodup_map_range' {α : Type} {make : Nat → α} (injective : Function.Injective make)
    (start count : Nat) : ((List.range' start count).map make).Nodup :=
  (List.nodup_range' 1).map injective

theorem isUsed_iff {pool : IdPool} {kind : IdKind} {id : String} :
    pool.isUsed kind id = true ↔ (kind, id) ∈ pool.used.map Prod.fst := by
  rw [isUsed, lastNumber?, List.lookup_isSome_iff, List.mem_map]
  constructor
  · rintro ⟨entry, mem, same⟩
    exact ⟨entry, mem, (eq_of_beq same).symm⟩
  · rintro ⟨entry, mem, same⟩
    exact ⟨entry, mem, by simp [same]⟩

/-- Of one more number than there are ids in use, one makes an id that is not in use. -/
theorem exists_unused (pool : IdPool) (kind : IdKind) (name : String) (last : Nat) :
    ∃ n ∈ List.range' (last + 1) (pool.used.length + 1),
      pool.isUsed kind (numbered name n) = false := by
  by_contra none
  push Not at none
  -- all candidates are different and in use, but there are too many of them
  have nodup : ((List.range' (last + 1) (pool.used.length + 1)).map fun n =>
      (kind, numbered name n)).Nodup :=
    nodup_map_range' (fun m n equal => numbered_inj.mp (Prod.mk.inj equal).2) _ _
  have subset : ((List.range' (last + 1) (pool.used.length + 1)).map fun n =>
      (kind, numbered name n)) ⊆ pool.used.map Prod.fst := by
    intro candidate mem
    obtain ⟨n, among, rfl⟩ := List.mem_map.mp mem
    exact isUsed_iff.mp (by simpa using none n among)
  have length := nodup.length_le_of_subset subset
  simp only [List.length_map, List.length_range'] at length
  omega

theorem isUsed_freeNumber (pool : IdPool) (kind : IdKind) (name : String) (last : Nat) :
    pool.isUsed kind (numbered name (pool.freeNumber kind name last)) = false := by
  rw [freeNumber]
  cases found : (List.range' (last + 1) (pool.used.length + 1)).find? fun n =>
      !pool.isUsed kind (numbered name n) with
  | some n =>
    have unused := List.find?_some found
    simpa using unused
  | none =>
    -- the search cannot fail
    obtain ⟨n, mem, unused⟩ := pool.exists_unused kind name last
    have used := List.find?_eq_none.mp found n mem
    simp [unused] at used

theorem isUsed_record {pool : IdPool} {kind kind' : IdKind} {id id' : String} {last : Nat} :
    (pool.record kind id last).isUsed kind' id' = true ↔
      (kind' = kind ∧ id' = id) ∨ pool.isUsed kind' id' = true := by
  simp [isUsed_iff, record]

/-! ## Claims -/

/-- Between two pools the ids `ids` of one kind are handed out, in this order: they were not in use,
differ from each other, and are the only ones that were put in use. -/
structure Hands (kind : IdKind) (before after : IdPool) (ids : List String) : Prop where
  fresh : ∀ id ∈ ids, before.isUsed kind id = false
  nodup : ids.Nodup
  used : ∀ id, after.isUsed kind id = true ↔ before.isUsed kind id = true ∨ id ∈ ids

namespace Hands

variable {kind : IdKind} {before between after : IdPool} {ids ids₁ ids₂ : List String}

theorem refl (pool : IdPool) : Hands kind pool pool [] :=
  ⟨by simp, List.nodup_nil, by simp⟩

/-- A step that leaves the ids of the kind alone. -/
theorem of_used (same : ∀ id, after.isUsed kind id = before.isUsed kind id) :
    Hands kind before after [] :=
  ⟨by simp, List.nodup_nil, by simp [same]⟩

theorem trans (first : Hands kind before between ids₁) (second : Hands kind between after ids₂) :
    Hands kind before after (ids₁ ++ ids₂) where
  fresh := by
    rw [List.forall_mem_append]
    refine ⟨first.fresh, fun id mem => ?_⟩
    have unused := second.fresh id mem
    rw [← Bool.not_eq_true] at unused ⊢
    exact fun used => unused ((first.used id).mpr (.inl used))
  nodup := by
    refine List.nodup_append.mpr ⟨first.nodup, second.nodup, fun id mem id' mem' equal => ?_⟩
    have unused := second.fresh id' mem'
    rw [← equal, (first.used id).mpr (.inr mem)] at unused
    cases unused
  used := fun id => by rw [second.used, first.used, List.mem_append, or_assoc]

theorem trans_nil (first : Hands kind before between ids) (second : Hands kind between after []) :
    Hands kind before after ids := by
  simpa using first.trans second

end Hands

/-- A claim hands out one id. -/
theorem hands_claim (kind : IdKind) (name : String) (pool : IdPool) :
    Hands kind pool ((claim kind name).run pool).2 [((claim kind name).run pool).1] := by
  simp only [claim, StateT.run]
  cases last : pool.lastNumber? kind name with
  | none =>
    -- the name is free and is handed out as it is
    have unused : pool.isUsed kind name = false := by simp [isUsed, last]
    refine ⟨by simpa using unused, by simp, fun id => ?_⟩
    show (pool.record kind name 0).isUsed kind id = true ↔ _
    rw [isUsed_record, List.mem_singleton]
    tauto
  | some last' =>
    -- the name is taken, so that a number goes behind it; its own record stays in use
    have used : pool.isUsed kind name = true := by simp [isUsed, last]
    refine ⟨?_, by simp, fun id => ?_⟩
    · simpa using pool.isUsed_freeNumber kind name last'
    · show ((pool.record kind name _).record kind _ 0).isUsed kind id = true ↔ _
      rw [isUsed_record, isUsed_record, List.mem_singleton]
      constructor
      · rintro (⟨-, equal⟩ | ⟨-, equal⟩ | old)
        · exact .inr equal
        · exact .inl (equal ▸ used)
        · exact .inl old
      · rintro (old | equal)
        · exact .inr (.inr old)
        · exact .inl ⟨rfl, equal⟩

theorem lt_freeNumber (pool : IdPool) (kind : IdKind) (name : String) (last : Nat) :
    last < pool.freeNumber kind name last := by
  rw [freeNumber]
  cases found : (List.range' (last + 1) (pool.used.length + 1)).find? fun n =>
      !pool.isUsed kind (numbered name n) with
  | some n =>
    have mem := List.mem_of_find?_eq_some found
    rw [List.mem_range'_1] at mem
    simp only [Option.getD_some]
    omega
  | none =>
    simp only [Option.getD_none]
    omega

/-- A claim gives the name itself or the name with a positive number. -/
theorem claim_eq (kind : IdKind) (name : String) (pool : IdPool) :
    ((claim kind name).run pool).1 = name ∨
      ∃ n, 0 < n ∧ ((claim kind name).run pool).1 = numbered name n := by
  simp only [claim, StateT.run]
  cases pool.lastNumber? kind name with
  | none => exact .inl rfl
  | some last =>
    exact .inr ⟨_, Nat.lt_of_le_of_lt (Nat.zero_le _) (pool.lt_freeNumber kind name last), rfl⟩

/-- A claim leaves the ids of other kinds and all counts alone. -/
theorem isUsed_claim_of_ne {kind kind' : IdKind} (other : kind' ≠ kind) (name id : String)
    (pool : IdPool) :
    ((claim kind name).run pool).2.isUsed kind' id = pool.isUsed kind' id := by
  rw [Bool.eq_iff_iff]
  simp only [claim, StateT.run]
  cases pool.lastNumber? kind name with
  | none =>
    show (pool.record kind name 0).isUsed kind' id = true ↔ _
    simp [isUsed_record, other]
  | some last =>
    show ((pool.record kind name _).record kind _ 0).isUsed kind' id = true ↔ _
    simp [isUsed_record, other]

theorem counts_claim (kind : IdKind) (name : String) (pool : IdPool) :
    ((claim kind name).run pool).2.counts = pool.counts := by
  simp only [claim, StateT.run]
  cases pool.lastNumber? kind name <;> rfl

/-! ## Reserved ids -/

theorem isUsed_reserve {kind kind' : IdKind} {id id' : String} {pool : IdPool} :
    ((reserve kind id).run pool).2.isUsed kind' id' = true ↔
      (kind', id') = (kind, id) ∨ pool.isUsed kind' id' = true := by
  rw [Prod.mk.injEq]
  show (if pool.isUsed kind id then pool else pool.record kind id 0).isUsed kind' id' = true ↔ _
  by_cases used : pool.isUsed kind id = true
  · rw [if_pos used]
    constructor
    · exact .inr
    · rintro (⟨rfl, rfl⟩ | old)
      · exact used
      · exact old
  · rw [if_neg used, isUsed_record]

/-- After ids are reserved one by one they are in use, and no others have come to be. -/
theorem isUsed_reserveAll {ids : List (IdKind × String)} {kind : IdKind} {id : String}
    {pool : IdPool} :
    ((forIn ids PUnit.unit fun entry _ => do
      reserve entry.1 entry.2
      pure (ForInStep.yield PUnit.unit) : StateM IdPool PUnit).run pool).2.isUsed kind id = true ↔
      (kind, id) ∈ ids ∨ pool.isUsed kind id = true := by
  induction ids generalizing pool with
  | nil =>
    rw [List.forIn_nil]
    simp only [List.not_mem_nil, false_or]
    rfl
  | cons entry rest ih =>
    obtain ⟨kind', id'⟩ := entry
    have others := @ih ((reserve kind' id').run pool).2
    rw [isUsed_reserve] at others
    rw [List.forIn_cons, List.mem_cons]
    refine others.trans ?_
    tauto

/-! ## Numbers -/

/-- Between two pools the kind counts on from the numbers `ids` are made of. -/
structure Counts (kind : IdKind) (stem : String) (before after : IdPool) (ids : List String) :
    Prop where
  ids_eq : ids = (List.range' (before.counts kind + 1) ids.length).map fun n => stem ++ toString n
  counts : after.counts kind = before.counts kind + ids.length

namespace Counts

variable {kind : IdKind} {stem : String} {before between after : IdPool}
  {ids ids₁ ids₂ : List String}

theorem of_counts (same : after.counts kind = before.counts kind) :
    Counts kind stem before after [] :=
  ⟨rfl, by simp [same]⟩

theorem trans (first : Counts kind stem before between ids₁)
    (second : Counts kind stem between after ids₂) :
    Counts kind stem before after (ids₁ ++ ids₂) where
  ids_eq := by
    have later := second.ids_eq
    rw [first.counts] at later
    rw [List.length_append, List.range'_append_1.symm, List.map_append, ← first.ids_eq]
    congr 1
    rw [Nat.add_right_comm]
    exact later
  counts := by rw [second.counts, first.counts, List.length_append, Nat.add_assoc]

theorem nodup (counts : Counts kind stem before after ids) : ids.Nodup := by
  rw [counts.ids_eq]
  exact nodup_map_range' (fun m n equal =>
    toString_inj.mp ((String.append_right_inj stem).mp equal)) _ _

end Counts

theorem counts_number (kind : IdKind) (stem : String) (pool : IdPool) :
    Counts kind stem pool ((number kind stem).run pool).2 [((number kind stem).run pool).1] :=
  ⟨by simp [number, StateT.run], by simp [number, StateT.run]⟩

/-! ## Steps over lists -/

/-- A reading of the results that no pool has a say in is a reading of what the steps are for. -/
theorem map_mapM {α β γ : Type} {step : α → StateM IdPool β} {read : β → γ} {read' : α → γ}
    (each : ∀ x pool, read ((step x).run pool).1 = read' x) (xs : List α) (pool : IdPool) :
    ((xs.mapM step).run pool).1.map read = xs.map read' := by
  induction xs generalizing pool with
  | nil => rfl
  | cons x rest ih =>
    rw [List.mapM_cons, List.map_cons, ← each x pool, ← ih ((step x).run pool).2]
    rfl

end IdPool

end Installer
