import Installer.Proofs.Ident.Given

/-! # Runs of requests to a pool

A pool is asked for ids, told of ids that were chosen elsewhere and asked for plain numbers, in any
order.  The invariant of such a run is that the last number recorded for a name has no gap below it:
the name is in use with each smaller number.  So the search for a free number never has to count
further than there are ids in use, and numbers of 32 bits are enough for it.
-/

namespace Installer.IdPool

variable {kind kind' : IdKind} {pool pool' : IdPool} {name id : String} {last : Nat}

/-! ## Counting up to a free number -/

/-- Counting up from `last` stops at `n`: the numbers before `n` are in use behind the name, `n` is
not, and no number that is tried needs more than 32 bits. -/
inductive StopsAt (pool : IdPool) (kind : IdKind) (name : String) : Nat → Nat → Prop where
  | here {last : Nat} : last + 1 < UInt32.size →
      pool.isUsed kind (numbered name (last + 1)) = false → StopsAt pool kind name last (last + 1)
  | further {last n : Nat} : last + 1 < UInt32.size →
      pool.isUsed kind (numbered name (last + 1)) = true → StopsAt pool kind name (last + 1) n →
        StopsAt pool kind name last n

theorem stopsAt_of_used {n : Nat} (small : n < UInt32.size)
    (unused : pool.isUsed kind (numbered name n) = false) (distance : Nat) :
    ∀ {last : Nat}, last + distance + 1 = n →
      (∀ m, last < m → m < n → pool.isUsed kind (numbered name m) = true) →
        StopsAt pool kind name last n := by
  induction distance with
  | zero =>
    rintro last rfl _
    exact .here small unused
  | succ distance ih =>
    intro last sum used
    have next : last + 1 < n := by omega
    refine .further (by omega) (used _ (Nat.lt_succ_self last) next) (ih (by omega) ?_)
    exact fun m above below => used m (by omega) below

theorem isUsed_of_lt_freeNumber {n : Nat} (above : last < n)
    (below : n < pool.freeNumber kind name last) :
    pool.isUsed kind (numbered name n) = true := by
  by_contra unused
  rw [Bool.not_eq_true] at unused
  exact absurd (freeNumber_le above unused) (Nat.not_le_of_lt below)

/-! ## Pools without gaps -/

theorem lastNumber?_record : (pool.record kind id last).lastNumber? kind' name =
    if (kind', name) = (kind, id) then some last else pool.lastNumber? kind' name := by
  rw [lastNumber?, lastNumber?, record, List.lookup_cons]
  by_cases same : (kind', name) = (kind, id)
  · rw [same, beq_self_eq_true, if_pos rfl]
  · rw [beq_false_of_ne same, if_neg same]

/-- Each name is in use with every number up to the last one recorded for it. -/
def Gapless (pool : IdPool) : Prop :=
  ∀ kind name last, pool.lastNumber? kind name = some last →
    ∀ n, 1 ≤ n → n ≤ last → pool.isUsed kind (numbered name n) = true

namespace Gapless

theorem empty : Gapless {} := by
  intro kind name last recorded
  cases recorded

theorem record_zero (gapless : pool.Gapless) (kind : IdKind) (id : String) :
    (pool.record kind id 0).Gapless := by
  intro kind' name last recorded n positive below
  rw [isUsed_record]
  rw [lastNumber?_record] at recorded
  split at recorded
  next =>
    cases recorded
    omega
  next => exact .inr (gapless kind' name last recorded n positive below)

theorem claim (gapless : pool.Gapless) (kind : IdKind) (name : String) :
    ((IdPool.claim kind name).run pool).2.Gapless := by
  simp only [IdPool.claim, StateT.run]
  cases found : pool.lastNumber? kind name with
  | none => exact gapless.record_zero kind name
  | some last =>
    intro kind' name' last' recorded n positive below
    simp only at recorded ⊢
    rw [isUsed_record, isUsed_record]
    rw [lastNumber?_record, lastNumber?_record] at recorded
    split at recorded
    next =>
      cases recorded
      omega
    next =>
      split at recorded
      next same =>
        -- the numbers up to the free one: those before the search, those it passed, and itself
        cases recorded
        cases same
        rcases Nat.lt_or_eq_of_le below with passed | rfl
        · refine .inr (.inr ?_)
          by_cases before : n ≤ last
          · exact gapless _ _ _ found n positive before
          · exact isUsed_of_lt_freeNumber (Nat.lt_of_not_le before) passed
        · exact .inl ⟨rfl, rfl⟩
      next => exact .inr (.inr (gapless kind' name' last' recorded n positive below))

theorem reserve (gapless : pool.Gapless) (kind : IdKind) (id : String) :
    ((IdPool.reserve kind id).run pool).2.Gapless := by
  show (if pool.isUsed kind id then pool else pool.record kind id 0).Gapless
  split
  next => exact gapless
  next => exact gapless.record_zero kind id

/-- The search does not count further than there are ids in use. -/
theorem freeNumber_le_length (gapless : pool.Gapless)
    (found : pool.lastNumber? kind name = some last) :
    pool.freeNumber kind name last ≤ pool.used.length + 1 := by
  obtain ⟨n, mem, unused⟩ := pool.exists_unused kind name 0
  rw [List.mem_range'_1] at mem
  have above : last < n := by
    by_contra below
    have used := gapless kind name last found n (by omega) (by omega)
    rw [unused] at used
    cases used
  exact Nat.le_trans (freeNumber_le above unused) (by omega)

theorem stopsAt_freeNumber (gapless : pool.Gapless) (small : pool.used.length + 1 < UInt32.size)
    (found : pool.lastNumber? kind name = some last) :
    StopsAt pool kind name last (pool.freeNumber kind name last) := by
  have above := pool.lt_freeNumber kind name last
  refine stopsAt_of_used (Nat.lt_of_le_of_lt (gapless.freeNumber_le_length found) small)
    (pool.isUsed_freeNumber kind name last) (pool.freeNumber kind name last - last - 1)
    (by omega) fun m => isUsed_of_lt_freeNumber

end Gapless

/-! ## Requests -/

/-- One use of a pool. -/
inductive Request where
  | claim (kind : IdKind) (name : String)
  | reserve (kind : IdKind) (id : String)
  | number (kind : IdKind) (stem : String)
deriving DecidableEq

namespace Request

def idKind : Request → IdKind
  | claim kind _ | reserve kind _ | number kind _ => kind

def takes (kind : IdKind) : Request → Bool
  | claim other _ | reserve other _ => other == kind
  | number _ _ => false

/-- The id that the request gives.  An id that was chosen elsewhere is its own. -/
def serve : Request → StateM IdPool String
  | claim kind name => IdPool.claim kind name
  | reserve kind id => do
    IdPool.reserve kind id
    return id
  | number kind stem => IdPool.number kind stem

def next (request : Request) (pool : IdPool) : IdPool :=
  (request.serve.run pool).2

theorem isUsed_next (request : Request) :
    (request.next pool).isUsed kind id = true ↔
      pool.isUsed kind id = true ∨
        request.takes kind = true ∧ id = (request.serve.run pool).1 := by
  cases request with
  | claim other name =>
    by_cases same : other = kind
    · subst same
      have used := (hands_claim other name pool).used id
      rw [List.mem_singleton] at used
      rw [takes, beq_self_eq_true, eq_self, true_and]
      exact used
    · show ((IdPool.claim other name).run pool).2.isUsed kind id = true ↔ _
      rw [isUsed_claim_of_ne (Ne.symm same)]
      simp [takes, same]
  | reserve other name =>
    show ((IdPool.reserve other name).run pool).2.isUsed kind id = true ↔
      _ ∨ _ ∧ id = name
    rw [isUsed_reserve, Prod.mk.injEq, or_comm, takes, beq_iff_eq, eq_comm (a := kind)]
  | number other stem =>
    show pool.isUsed kind id = true ↔ _
    simp [takes]

theorem gapless_next (request : Request) (gapless : pool.Gapless) :
    (request.next pool).Gapless := by
  cases request with
  | claim kind name => exact gapless.claim kind name
  | reserve kind id => exact gapless.reserve kind id
  | number kind stem => exact gapless

theorem length_next (request : Request) :
    (request.next pool).used.length ≤ pool.used.length + 2 := by
  cases request with
  | claim kind name =>
    show ((IdPool.claim kind name).run pool).2.used.length ≤ _
    simp only [IdPool.claim, StateT.run]
    cases pool.lastNumber? kind name <;> simp [record]
  | reserve kind id =>
    show (if pool.isUsed kind id then pool else pool.record kind id 0).used.length ≤ _
    split
    next => omega
    next => simp [record]
  | number kind stem =>
    show pool.used.length ≤ _
    omega

theorem counts_reserve (kind : IdKind) (id : String) (pool : IdPool) :
    ((IdPool.reserve kind id).run pool).2.counts = pool.counts := by
  show (if pool.isUsed kind id then pool else pool.record kind id 0).counts = _
  split <;> rfl

theorem counts_next (request : Request) (kind : IdKind) :
    pool.counts kind ≤ (request.next pool).counts kind ∧
      (request.next pool).counts kind ≤ pool.counts kind + 1 := by
  cases request with
  | claim other name => simp [next, serve, counts_claim]
  | reserve other id =>
    simp only [next, serve]
    show _ ≤ ((IdPool.reserve other id).run pool).2.counts kind ∧
      ((IdPool.reserve other id).run pool).2.counts kind ≤ _
    rw [counts_reserve]
    omega
  | number other stem =>
    have counted : ((number other stem).next pool).counts kind =
        if kind = other then pool.counts other + 1 else pool.counts kind := rfl
    rw [counted]
    split
    next same =>
      rw [same]
      omega
    next => omega

end Request

/-! ## Runs -/

def log (pool : IdPool) : List Request → List (Request × String)
  | [] => []
  | request :: rest => (request, (request.serve.run pool).1) :: log (request.next pool) rest

def after (pool : IdPool) : List Request → IdPool
  | [] => pool
  | request :: rest => after (request.next pool) rest

def idsOf (selected : Request → Bool) (entries : List (Request × String)) : List String :=
  (entries.filter fun entry => selected entry.1).map Prod.snd

def taken (kind : IdKind) (requests : List Request) : List String :=
  idsOf (Request.takes kind) (log {} requests)

theorem idsOf_cons (selected : Request → Bool) (request : Request) (id : String)
    (entries : List (Request × String)) :
    idsOf selected ((request, id) :: entries) =
      (if selected request = true then [id] else []) ++ idsOf selected entries := by
  rw [idsOf, List.filter_cons]
  split <;> rfl

theorem isUsed_after (requests : List Request) (pool : IdPool) :
    (pool.after requests).isUsed kind id = true ↔
      pool.isUsed kind id = true ∨ id ∈ idsOf (Request.takes kind) (pool.log requests) := by
  induction requests generalizing pool with
  | nil => simp [after, log, idsOf]
  | cons request rest ih =>
    rw [after, ih, request.isUsed_next, log, idsOf_cons, List.mem_append]
    split
    next takes => rw [List.mem_singleton, takes, or_assoc, eq_self, true_and]
    next leaves => simp [leaves]

theorem isUsed_after_iff_taken {requests : List Request} :
    (after {} requests).isUsed kind id = true ↔ id ∈ taken kind requests := by
  rw [isUsed_after, taken]
  have unused : (({} : IdPool).isUsed kind id = true) = False := by simp [isUsed, lastNumber?]
  rw [unused, false_or]

theorem gapless_after (requests : List Request) (gapless : pool.Gapless) :
    (pool.after requests).Gapless := by
  induction requests generalizing pool with
  | nil => exact gapless
  | cons request rest ih => exact ih (request.gapless_next gapless)

theorem length_after (requests : List Request) (pool : IdPool) :
    (pool.after requests).used.length ≤ pool.used.length + 2 * requests.length := by
  induction requests generalizing pool with
  | nil => exact Nat.le_refl _
  | cons request rest ih =>
    have first : (request.next pool).used.length ≤ _ := request.length_next
    have others := ih (request.next pool)
    rw [after, List.length_cons]
    omega

theorem counts_after (requests : List Request) (pool : IdPool) :
    (pool.after requests).counts kind ≤ pool.counts kind + requests.length := by
  induction requests generalizing pool with
  | nil => exact Nat.le_refl _
  | cons request rest ih =>
    have first : (request.next pool).counts kind ≤ _ := (request.counts_next kind).2
    have others := ih (request.next pool)
    rw [after, List.length_cons]
    omega

/-! ## Numbers of a run -/

/-- The plain numbers that a run hands out behind one stem go up. -/
theorem exists_numbers (kind : IdKind) (stem : String) (requests : List Request) (pool : IdPool) :
    ∃ ns : List Nat, (∀ n ∈ ns, pool.counts kind < n) ∧ ns.Pairwise (· < ·) ∧
      idsOf (· == .number kind stem) (pool.log requests) = ns.map fun n => stem ++ toString n := by
  induction requests generalizing pool with
  | nil => exact ⟨[], by simp, .nil, rfl⟩
  | cons request rest ih =>
    obtain ⟨ns, above, ascending, numbers⟩ := ih (request.next pool)
    rw [log, idsOf_cons, numbers]
    split
    next asked =>
      obtain rfl := eq_of_beq asked
      have counted : ((Request.number kind stem).next pool).counts kind = pool.counts kind + 1 :=
        if_pos rfl
      rw [counted] at above
      refine ⟨(pool.counts kind + 1) :: ns, ?_, List.pairwise_cons.mpr ⟨above, ascending⟩, rfl⟩
      exact List.forall_mem_cons.mpr
        ⟨Nat.lt_succ_self _, fun n mem => Nat.lt_of_succ_lt (above n mem)⟩
    next =>
      exact ⟨ns, fun n mem => Nat.lt_of_le_of_lt (request.counts_next kind).1 (above n mem),
        ascending, rfl⟩

theorem nodup_numbers (kind : IdKind) (stem : String) (requests : List Request) (pool : IdPool) :
    (idsOf (· == .number kind stem) (pool.log requests)).Nodup := by
  obtain ⟨ns, -, ascending, numbers⟩ := exists_numbers kind stem requests pool
  rw [numbers]
  exact (ascending.imp Nat.ne_of_lt).map _ fun m n apart same =>
    apart (toString_inj.mp ((String.append_right_inj stem).mp same))

/-! ## Kinds apart -/

structure Alike (kind : IdKind) (pool pool' : IdPool) : Prop where
  ids : AgreeOn kind pool pool'
  counts : pool.counts kind = pool'.counts kind

namespace Alike

/-- Pools that are the same for a kind answer its requests in the same way. -/
theorem serve {request : Request} (alike : Alike request.idKind pool pool') :
    (request.serve.run pool).1 = (request.serve.run pool').1 ∧
      Alike request.idKind (request.next pool) (request.next pool') := by
  cases request with
  | claim kind name =>
    obtain ⟨same, ids⟩ := alike.ids.claim name
    refine ⟨same, ids, ?_⟩
    simp only [Request.next, Request.serve, counts_claim]
    exact alike.counts
  | reserve kind id =>
    refine ⟨rfl, alike.ids.reserve id, ?_⟩
    show ((IdPool.reserve kind id).run pool).2.counts kind =
      ((IdPool.reserve kind id).run pool').2.counts kind
    rw [Request.counts_reserve, Request.counts_reserve]
    exact alike.counts
  | number kind stem =>
    have counts : pool.counts kind = pool'.counts kind := alike.counts
    refine ⟨?_, alike.ids, ?_⟩
    · show stem ++ toString (pool.counts kind + 1) = stem ++ toString (pool'.counts kind + 1)
      rw [counts]
    · show (if kind = kind then pool.counts kind + 1 else pool.counts kind) =
        if kind = kind then pool'.counts kind + 1 else pool'.counts kind
      rw [counts]

/-- A request of another kind is not noticed. -/
theorem skip {request : Request} (alike : Alike kind pool pool') (other : request.idKind ≠ kind) :
    Alike kind (request.next pool) pool' := by
  cases request with
  | claim kind' name =>
    refine ⟨(AgreeOn.of_claim (Ne.symm other) name pool).symm.trans alike.ids, ?_⟩
    simp only [Request.next, Request.serve, counts_claim]
    exact alike.counts
  | reserve kind' id =>
    refine ⟨(AgreeOn.of_reserve (Ne.symm other) id pool).symm.trans alike.ids, ?_⟩
    show ((IdPool.reserve kind' id).run pool).2.counts kind = _
    rw [Request.counts_reserve]
    exact alike.counts
  | number kind' stem =>
    refine ⟨alike.ids, ?_⟩
    show (if kind = kind' then pool.counts kind' + 1 else pool.counts kind) = _
    have apart : kind ≠ kind' := Ne.symm other
    rw [if_neg apart]
    exact alike.counts

end Alike

/-- Without the requests of other kinds a kind is given the same ids. -/
theorem idsOf_log_filter (alike : Alike kind pool pool') (requests : List Request) :
    idsOf (·.idKind == kind) (pool.log requests) =
      (pool'.log (requests.filter (·.idKind == kind))).map Prod.snd := by
  induction requests generalizing pool pool' with
  | nil => rfl
  | cons request rest ih =>
    rw [log, idsOf_cons, List.filter_cons]
    split
    next same =>
      obtain rfl := eq_of_beq same
      obtain ⟨answer, alike'⟩ := alike.serve
      rw [log, List.map_cons, answer, ih alike']
      rfl
    next other => exact ih (alike.skip fun same => other (beq_iff_eq.mpr same))

/-! ## What a pool promises -/

/-- What can be relied on after a run of requests to a new pool, and so at each request of a run:
the ones before it are a run as well. -/
structure ServesFresh (requests : List Request) : Prop where
  /-- A name that the kind does not use yet is given as it is. -/
  first : ∀ kind name, name ∉ taken kind requests →
    ((claim kind name).run (after {} requests)).1 = name
  /-- A name that is in use gets the number at which the search behind it stops. -/
  later : ∀ kind name, name ∈ taken kind requests → ∃ last n,
    (after {} requests).lastNumber? kind name = some last ∧
      StopsAt (after {} requests) kind name last n ∧ 1 ≤ n ∧
        ((claim kind name).run (after {} requests)).1 = numbered name n
  /-- No id is given that the kind was given before or that was put in use for it. -/
  fresh : ∀ kind name, ((claim kind name).run (after {} requests)).1 ∉ taken kind requests
  /-- Plain numbers fit into 32 bits, the next one included. -/
  counts : ∀ kind, (after {} requests).counts kind + 1 < UInt32.size
  numbers : ∀ kind stem, (idsOf (· == .number kind stem) (log {} requests)).Nodup
  /-- What a kind is given does not depend on the requests of others. -/
  apart : ∀ kind, idsOf (·.idKind == kind) (log {} requests) =
    (log {} (requests.filter (·.idKind == kind))).map Prod.snd

theorem servesFresh {requests : List Request} (few : requests.length < Nat.pow 2 31) :
    ServesFresh requests where
  first kind name unused := by
    rw [← isUsed_after_iff_taken, Bool.not_eq_true, isUsed, Option.isSome_eq_false_iff,
      Option.isNone_iff_eq_none] at unused
    simp only [claim, StateT.run, unused]
  later kind name used := by
    rw [← isUsed_after_iff_taken, isUsed, Option.isSome_iff_exists] at used
    obtain ⟨last, found⟩ := used
    have small : (after {} requests).used.length + 1 < UInt32.size := by
      have length : _ ≤ 0 + 2 * requests.length := length_after requests {}
      have bound : requests.length < 2147483648 := few
      rw [UInt32.size]
      omega
    refine ⟨last, _, found, (gapless_after requests .empty).stopsAt_freeNumber small found,
      Nat.lt_of_le_of_lt (Nat.zero_le last) (lt_freeNumber ..), ?_⟩
    simp only [claim, StateT.run, found]
  fresh kind name given := by
    have unused := (hands_claim kind name (after {} requests)).fresh _ (List.mem_singleton_self _)
    rw [isUsed_after_iff_taken.mpr given] at unused
    cases unused
  counts kind := by
    have counted : (after {} requests).counts kind ≤ 0 + requests.length :=
      counts_after requests {}
    have bound : requests.length < 2147483648 := few
    rw [UInt32.size]
    omega
  numbers kind stem := nodup_numbers kind stem requests {}
  apart _ := idsOf_log_filter ⟨.refl _, rfl⟩ requests

/-- Requests that use up the next free number of a name before it is asked for. -/
def crossing : List Request :=
  [.reserve .directory "Root.Data.2", .claim .directory "Root.Data", .number .permission "Perm",
    .claim .directory "Root.Data", .claim .directory "Root.Data.1", .claim .file "Root.Data"]

theorem servesFresh_crossing :
    taken .directory crossing =
        ["Root.Data.2", "Root.Data", "Root.Data.1", "Root.Data.1.1"] ∧
      ((claim .directory "Root.Data").run (after {} crossing)).1 = "Root.Data.3" ∧
        ServesFresh crossing :=
  ⟨by decide +kernel, by decide +kernel, servesFresh (by decide)⟩

end Installer.IdPool
