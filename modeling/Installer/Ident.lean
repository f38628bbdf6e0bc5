/-! # Generated ids

Entities without an id of their own get one from a pool. Each kind of entity has a name space of its
own, so a file and a shortcut may share an id. A name that is already in use gets the first number
behind it that makes it new.
-/

namespace Installer

/-- The kinds of entities that receive generated ids. -/
inductive IdKind where
  | directory
  | file
  | shortcut
  | action
  | binary
  | mergeModule
  | permission
  | envVar
  | user
  | database
  | certificate
deriving DecidableEq, Repr

/-- The ids in use during one compilation. -/
structure IdPool where
  /-- Each id in use, the latest first, with the last number that was put behind it. -/
  used : List ((IdKind × String) × Nat) := []
  /-- How many plain numbers each kind has handed out. -/
  counts : IdKind → Nat := fun _ => 0

namespace IdPool

/-- The last number put behind `id`, if the kind uses `id` at all. -/
def lastNumber? (pool : IdPool) (kind : IdKind) (id : String) : Option Nat :=
  pool.used.lookup (kind, id)

def isUsed (pool : IdPool) (kind : IdKind) (id : String) : Bool :=
  (pool.lastNumber? kind id).isSome

def numbered (name : String) (n : Nat) : String :=
  name ++ "." ++ toString n

/-- The first number above `last` that makes a new id of `name`. Of one more candidate than there
are ids in use, one is new. -/
def freeNumber (pool : IdPool) (kind : IdKind) (name : String) (last : Nat) : Nat :=
  ((List.range' (last + 1) (pool.used.length + 1)).find? fun n =>
    !pool.isUsed kind (numbered name n)).getD (last + pool.used.length + 1)

/-- Records that the kind uses `id`, with `last` as the last number put behind it. -/
def record (pool : IdPool) (kind : IdKind) (id : String) (last : Nat) : IdPool :=
  { pool with used := ((kind, id), last) :: pool.used }

/-- A new id for `name`: the name itself the first time, and the name with the next free number
behind it later on. The id is in use from then on. -/
def claim (kind : IdKind) (name : String) : StateM IdPool String := fun pool =>
  match pool.lastNumber? kind name with
  | none => (name, pool.record kind name 0)
  | some last =>
    let n := pool.freeNumber kind name last
    let id := numbered name n
    (id, (pool.record kind name n).record kind id 0)

def reserve (kind : IdKind) (id : String) : StateM IdPool Unit := fun pool =>
  ((), if pool.isUsed kind id then pool else pool.record kind id 0)

/-- The next plain number of the kind, behind `stem`. -/
def number (kind : IdKind) (stem : String) : StateM IdPool String := fun pool =>
  let n := pool.counts kind + 1
  (stem ++ toString n, { pool with counts := fun k => if k = kind then n else pool.counts k })

end IdPool

end Installer
