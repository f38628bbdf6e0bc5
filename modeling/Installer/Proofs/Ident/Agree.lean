import Installer.Proofs.Ident.Pool

/-! # Pools that agree on all kinds but one

What a kind is handed out depends on the ids of this kind alone.  So a step that claims ids of other
kinds gives the same from pools that differ in one kind only, and leaves pools that differ in this
kind only.
-/

namespace Installer.IdPool

variable {other kind : IdKind} {pool pool' : IdPool}

/-! ## Free numbers -/

/-- A free number is the first one. -/
theorem freeNumber_le {name : String} {last n : Nat} (above : last < n)
    (unused : pool.isUsed kind (numbered name n) = false) : pool.freeNumber kind name last ≤ n := by
  have p : (!pool.isUsed kind (numbered name n)) = true := by simp [unused]
  rw [freeNumber]
  cases found : (List.range' (last + 1) (pool.used.length + 1)).find? fun n =>
      !pool.isUsed kind (numbered name n) with
  | some m =>
    rw [List.find?_range'_eq_some] at found
    rw [Option.getD_some]
    by_contra less
    have used := found.2.2 n above (Nat.lt_of_not_le less)
    simp [unused] at used
  | none =>
    rw [List.find?_eq_none] at found
    rw [Option.getD_none]
    by_contra less
    exact found n (List.mem_range'_1.mpr ⟨above, by omega⟩) p

theorem freeNumber_congr (same : ∀ id, pool.isUsed kind id = pool'.isUsed kind id) (name : String)
    (last : Nat) : pool.freeNumber kind name last = pool'.freeNumber kind name last := by
  apply Nat.le_antisymm
  · exact freeNumber_le (lt_freeNumber ..) ((same _).trans (isUsed_freeNumber ..))
  · exact freeNumber_le (lt_freeNumber ..) ((same _).symm.trans (isUsed_freeNumber ..))

/-! ## Agreement -/

/-- The pools have the same ids of all kinds but one. -/
structure Agree (other : IdKind) (pool pool' : IdPool) : Prop where
  last : ∀ kind, kind ≠ other → ∀ id, pool.lastNumber? kind id = pool'.lastNumber? kind id
  counts : ∀ kind, kind ≠ other → pool.counts kind = pool'.counts kind

namespace Agree

theorem refl (pool : IdPool) : Agree other pool pool :=
  ⟨fun _ _ _ => rfl, fun _ _ => rfl⟩

theorem trans {between : IdPool} (first : Agree other pool between)
    (second : Agree other between pool') : Agree other pool pool' where
  last := fun kind apart id => (first.last kind apart id).trans (second.last kind apart id)
  counts := fun kind apart => (first.counts kind apart).trans (second.counts kind apart)

theorem symm (agree : Agree other pool pool') : Agree other pool' pool where
  last := fun kind apart id => (agree.last kind apart id).symm
  counts := fun kind apart => (agree.counts kind apart).symm

theorem record (agree : Agree other pool pool') (kind : IdKind) (id : String) (last : Nat) :
    Agree other (pool.record kind id last) (pool'.record kind id last) where
  last := fun kind' apart id' => by
    have before := agree.last kind' apart id'
    simp only [lastNumber?, IdPool.record, List.lookup_cons] at before ⊢
    rw [before]
  counts := agree.counts

/-- A record of the one kind is not seen by the others. -/
theorem record_self (pool : IdPool) (id : String) (last : Nat) :
    Agree other pool (pool.record other id last) where
  last := fun kind apart id' => by
    have unequal : ((kind, id') == (other, id)) = false := by simp [apart]
    rw [lastNumber?, lastNumber?, IdPool.record, List.lookup_cons, unequal]
  counts := fun _ _ => rfl

theorem freeNumber_eq (agree : Agree other pool pool') (apart : kind ≠ other) (name : String)
    (last : Nat) : pool.freeNumber kind name last = pool'.freeNumber kind name last :=
  freeNumber_congr (fun id => congrArg Option.isSome (agree.last kind apart id)) name last

theorem claim_self (pool : IdPool) (name : String) :
    Agree other pool ((claim other name).run pool).2 := by
  simp only [claim, StateT.run]
  cases pool.lastNumber? other name with
  | none => exact record_self ..
  | some last => exact (record_self ..).trans (record_self ..)

end Agree

/-! ## Steps on both sides -/

variable {α α' β β' γ γ' : Type}

/-- From pools that agree the second step gives what `read` makes of the result of the first, and
the pools agree again. -/
def Mirrors (other : IdKind) (read : α → α') (step : StateM IdPool α) (step' : StateM IdPool α') :
    Prop :=
  ∀ pool pool', Agree other pool pool' →
    (step'.run pool').1 = read (step.run pool).1 ∧
      Agree other (step.run pool).2 (step'.run pool').2

/-- From pools that agree the step gives the same, and the pools agree again. -/
abbrev Ignores (other : IdKind) (step : StateM IdPool α) : Prop :=
  Mirrors other (fun result => result) step step

namespace Mirrors

theorem pure {read : α → α'} {value : α} {value' : α'} (same : value' = read value) :
    Mirrors other read (Pure.pure value) (Pure.pure value') :=
  fun _ _ agree => ⟨same, agree⟩

theorem bind {read : α → α'} {read' : β → β'} {step : StateM IdPool α} {step' : StateM IdPool α'}
    {next : α → StateM IdPool β} {next' : α' → StateM IdPool β'}
    (first : Mirrors other read step step')
    (second : ∀ value, Mirrors other read' (next value) (next' (read value))) :
    Mirrors other read' (step >>= next) (step' >>= next') := by
  intro pool pool' agree
  obtain ⟨same, agree'⟩ := first _ _ agree
  have later := second (step.run pool).1 _ _ agree'
  rw [← same] at later
  exact later

theorem mapM {step : α → StateM IdPool β} (each : ∀ x, Ignores other (step x)) (xs : List α) :
    Ignores other (xs.mapM step) := by
  induction xs with
  | nil => exact pure rfl
  | cons x rest ih =>
    rw [List.mapM_cons]
    exact (each x).bind fun _ => ih.bind fun _ => pure rfl

theorem claim (apart : kind ≠ other) (name : String) : Ignores other (IdPool.claim kind name) := by
  intro pool pool' agree
  simp only [IdPool.claim, StateT.run, ← agree.last kind apart name]
  cases pool.lastNumber? kind name with
  | none => exact ⟨rfl, agree.record ..⟩
  | some last =>
    simp only [← agree.freeNumber_eq apart name last]
    exact ⟨trivial, (agree.record ..).record ..⟩

theorem number (apart : kind ≠ other) (stem : String) :
    Ignores other (IdPool.number kind stem) := by
  intro pool pool' agree
  simp only [IdPool.number, StateT.run, ← agree.counts kind apart]
  refine ⟨trivial, agree.last, fun kind' apart' => ?_⟩
  simp only
  split
  next => rfl
  next => exact agree.counts kind' apart'

/-- Steps that are seen by the one kind only can be left out. -/
theorem skip {read : List α → α'} {step : β → StateM IdPool α} {value : α'}
    (each : ∀ x pool, Agree other pool ((step x).run pool).2) (xs : List β)
    (same : ∀ results, value = read results) :
    Mirrors other read (xs.mapM step) (Pure.pure value) := by
  have kept : ∀ pool, Agree other pool ((xs.mapM step).run pool).2 := by
    induction xs with
    | nil => exact Agree.refl
    | cons x rest ih =>
      intro pool
      rw [List.mapM_cons]
      exact (each x pool).trans (ih _)
  exact fun pool _ agree => ⟨same _, (kept pool).symm.trans agree⟩

end Mirrors

end Installer.IdPool
