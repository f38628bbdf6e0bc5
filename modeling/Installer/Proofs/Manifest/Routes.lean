import Installer.Proofs.Manifest.Kinds
import Mathlib.Data.List.Forall2

/-! # Two routes to one entry

An entry takes one route to its codec as a member of a collection and another one as an item.  What
the first route reads is read the same by the second, unless somewhere in it an object has nothing
but an empty object (`decodeVia?_distinct`), by which the first route knows choices.  What the
second reads is always read the same by the first (`decodeVia?_buffered`).

Both are cases of one law (`Codec.Carried`).  It speaks of any relation of values that keeps what a
codec looks at (`Carries`).  Here it is shown of single values, lists and attributes.
-/

namespace Installer

open Json (Key Value)
open Json.Value (fieldsOf? listed?)

/-! ## What a codec looks at -/

namespace Json.Value

/-- Some object in the value has an empty object as its only member. -/
inductive HasHollow : Value → Prop where
  | here (key : Key) : HasHollow (.object [(key, .object [])])
  | item {items : List Value} {v : Value} (mem : v ∈ items) (inside : HasHollow v) :
    HasHollow (.array items)
  | member {members : List (Key × Value)} {member : Key × Value} (mem : member ∈ members)
    (inside : HasHollow member.2) : HasHollow (.object members)

/-- The members of the second list are those of the first one in their order, with related values.
Members may be missing whose key a later one has. -/
inductive Reduces (R : Value → Value → Prop) : List (Key × Value) → List (Key × Value) → Prop where
  | nil : Reduces R [] []
  | keep {members others : List (Key × Value)} {v w : Value} (key : Key) (rel : R v w)
    (rest : Reduces R members others) : Reduces R ((key, v) :: members) ((key, w) :: others)
  | drop {members others : List (Key × Value)} {key : Key} (v : Value)
    (later : key ∈ members.map Prod.fst) (rest : Reduces R members others) :
    Reduces R ((key, v) :: members) others

/-- Arrays have related items and objects reduced members; every other value is the same. -/
def Follows (R : Value → Value → Prop) : Value → Value → Prop
  | .array items, w => ∃ others, w = .array others ∧ List.Forall₂ R items others
  | .object members, w => ∃ others, w = .object others ∧ Reduces R members others
  | v, w => w = v

/-- Related values are read alike when the second one is read by the given route. -/
structure Carries (R : Value → Value → Prop) (route : Route) : Prop where
  follows : ∀ {v w : Value}, R v w → Follows R v w
  hollow : ∀ {key : Key} {w : Value}, R (.object [(key, .object [])]) w → route = .buffered

variable {R : Value → Value → Prop} {members others : List (Key × Value)}

namespace Reduces

theorem of_forall (each : ∀ member ∈ members, R member.2 member.2) : Reduces R members members := by
  induction members with
  | nil => exact .nil
  | cons member rest ih =>
    have here := each member List.mem_cons_self
    exact .keep member.1 here (ih fun member mem => each member (List.mem_cons_of_mem _ mem))

theorem mem_keys (reduces : Reduces R members others) {key : Key} :
    key ∈ others.map Prod.fst ↔ key ∈ members.map Prod.fst := by
  induction reduces with
  | nil => rfl
  | keep other rel rest ih => simp only [List.map_cons, List.mem_cons, ih]
  | drop v later rest ih =>
    rw [ih, List.map_cons, List.mem_cons]
    constructor
    · exact .inr
    · rintro (rfl | mem)
      · exact later
      · exact mem

theorem filter (kept : Key → Bool) (reduces : Reduces R members others) :
    Reduces R (members.filter fun member => kept member.1)
      (others.filter fun member => kept member.1) := by
  induction reduces with
  | nil => exact .nil
  | keep key rel rest ih =>
    by_cases keeps : kept key
    · simpa [keeps] using ih.keep key rel
    · simpa [keeps] using ih
  | @drop members others key v later rest ih =>
    by_cases keeps : kept key
    · have later : key ∈ (members.filter fun member => kept member.1).map Prod.fst := by
        obtain ⟨member, mem, rfl⟩ := List.mem_map.mp later
        exact List.mem_map_of_mem (List.mem_filter.mpr ⟨mem, keeps⟩)
      simpa [keeps] using ih.drop v later
    · simpa [keeps] using ih

theorem singleton {key : Key} {v : Value} (reduces : Reduces R [(key, v)] others) :
    ∃ w, others = [(key, w)] ∧ R v w := by
  cases reduces with
  | keep _ rel rest =>
    cases rest
    exact ⟨_, rfl, rel⟩
  | drop _ later => cases later

end Reduces

/-! ## Members by name -/

/-- The second members have the names of the first ones, with values that are related for the given
route. -/
def Related (route : Route) (fields others : List (String × Value)) : Prop :=
  ∃ R, Carries R route ∧ ∀ name, Option.Rel R (fields.lookup name) (others.lookup name)

def known (names : List String) (members : List (Key × Value)) : List (String × Value) :=
  members.filterMap fun member => (member.1.among? names).map (·, member.2)

theorem nodup_known_of_cons {names : List String} {member : Key × Value}
    (distinct : ((known names (member :: members)).map Prod.fst).Nodup) :
    ((known names members).map Prod.fst).Nodup :=
  distinct.sublist (((List.sublist_cons_self member members).filterMap _).map _)

/-- A member that may be dropped has no known name, because no known name is there twice. -/
theorem among?_eq_none_of_later {names : List String} {key : Key} {v : Value}
    (distinct : ((known names ((key, v) :: members)).map Prod.fst).Nodup)
    (later : key ∈ members.map Prod.fst) : key.among? names = none := by
  rw [Option.eq_none_iff_forall_ne_some]
  intro name read
  simp only [known, List.filterMap_cons, read, Option.map_some, List.map_cons] at distinct
  obtain ⟨member, mem, rfl⟩ := List.mem_map.mp later
  have again : (name, member.2) ∈ known names members :=
    List.mem_filterMap.mpr ⟨member, mem, by rw [read, Option.map_some]⟩
  exact (List.nodup_cons.mp distinct).1 (List.mem_map_of_mem again)

theorem Reduces.forall₂_known (names : List String) (reduces : Reduces R members others)
    (distinct : ((known names members).map Prod.fst).Nodup) :
    List.Forall₂ (fun a b => a.1 = b.1 ∧ R a.2 b.2) (known names members) (known names others) := by
  induction reduces with
  | nil => exact .nil
  | keep key rel rest ih =>
    have ih := ih (nodup_known_of_cons distinct)
    cases read : key.among? names with
    | none => simpa [known, read] using ih
    | some name => simpa [known, read] using And.intro rel ih
  | drop v later rest ih =>
    have ih := ih (nodup_known_of_cons distinct)
    have unknown := among?_eq_none_of_later distinct later
    simpa [known, unknown] using ih

theorem rel_lookup {fields others : List (String × Value)}
    (same : List.Forall₂ (fun a b => a.1 = b.1 ∧ R a.2 b.2) fields others) (name : String) :
    Option.Rel R (fields.lookup name) (others.lookup name) := by
  induction same with
  | nil => exact .none
  | @cons a b _ _ here _ ih =>
    obtain ⟨named, rel⟩ := here
    rw [List.lookup_cons, List.lookup_cons, ← named]
    cases name == a.1 with
    | true => exact .some rel
    | false => exact ih

theorem fieldsOf?_eq_some_iff {names : List String} {fields : List (String × Value)} :
    fieldsOf? names members = some fields ↔ (∀ member ∈ members, member.1 ≠ .stray) ∧
      ((known names members).map Prod.fst).Nodup ∧ known names members = fields := by
  have strays : (members.any fun member => member.1 == .stray) = false ↔
      ∀ member ∈ members, member.1 ≠ .stray := by
    simp [List.any_eq_false]
  rw [← strays, fieldsOf?]
  cases members.any fun member => member.1 == .stray <;> simp [known]

theorem Reduces.exists_fieldsOf? {route : Route} {names : List String}
    {fields : List (String × Value)} (carries : Carries R route)
    (reduces : Reduces R members others) (found : fieldsOf? names members = some fields) :
    ∃ otherFields, fieldsOf? names others = some otherFields ∧
      Related route fields otherFields := by
  obtain ⟨noStray, distinct, rfl⟩ := fieldsOf?_eq_some_iff.mp found
  have same := reduces.forall₂_known names distinct
  have named : (known names members).map Prod.fst = (known names others).map Prod.fst := by
    rw [← List.forall₂_eq_eq_eq, List.forall₂_map_left_iff, List.forall₂_map_right_iff]
    exact same.imp fun _ _ here => here.1
  have noStrayOther : ∀ member ∈ others, member.1 ≠ .stray := by
    intro member mem
    obtain ⟨first, mem, key⟩ := List.mem_map.mp (reduces.mem_keys.mp (List.mem_map_of_mem mem))
    exact key ▸ noStray first mem
  exact ⟨_, fieldsOf?_eq_some_iff.mpr ⟨noStrayOther, named ▸ distinct, rfl⟩, R, carries,
    rel_lookup same⟩

theorem forall₂_zip {names : List String} {items otherItems : List Value}
    (same : List.Forall₂ R items otherItems) :
    List.Forall₂ (fun a b => a.1 = b.1 ∧ R a.2 b.2) (names.zip items) (names.zip otherItems) := by
  induction same generalizing names with
  | nil => simp
  | cons rel rest ih =>
    cases names with
    | nil => exact .nil
    | cons name names => exact .cons ⟨rfl, rel⟩ ih

theorem exists_listed? {route : Route} {names : List String} {items otherItems : List Value}
    {fields : List (String × Value)} (carries : Carries R route)
    (same : List.Forall₂ R items otherItems) (found : listed? names items = some fields) :
    ∃ otherFields, listed? names otherItems = some otherFields ∧
      Related route fields otherFields := by
  rw [listed?, Option.ite_none_right_eq_some] at found
  obtain ⟨fits, found⟩ := found
  cases found
  rw [same.length_eq] at fits
  exact ⟨_, if_pos fits, R, carries, rel_lookup (forall₂_zip same)⟩

theorem exists_fields? {route : Route} {names : List String} {v w : Value}
    {fields : List (String × Value)} (carries : Carries R route) (rel : R v w)
    (found : v.fields? names = some fields) :
    ∃ otherFields, w.fields? names = some otherFields ∧ Related route fields otherFields := by
  have follows := carries.follows rel
  cases v with
  | array items =>
    obtain ⟨otherItems, rfl, same⟩ := follows
    exact exists_listed? carries same found
  | object members =>
    obtain ⟨others, rfl, reduces⟩ := follows
    exact reduces.exists_fieldsOf? carries found
  | _ => cases found

end Json.Value

/-! ## Reading on -/

namespace Codec

/-- What the first reader gives, the second one gives too. -/
def Keeps {α : Type} (first second : Option α) : Prop :=
  ∀ a, first = some a → second = some a

namespace Keeps

variable {α β : Type}

theorem refl (read : Option α) : Keeps read read :=
  fun _ => id

theorem bind {first second : Option α} {next otherNext : α → Option β} (keeps : Keeps first second)
    (after : ∀ a, Keeps (next a) (otherNext a)) :
    Keeps (first >>= next) (second >>= otherNext) := by
  intro b read
  obtain ⟨a, here, there⟩ := Option.bind_eq_some_iff.mp read
  exact Option.bind_eq_some_iff.mpr ⟨a, keeps a here, after a b there⟩

theorem map {first second : Option α} (f : α → β) (keeps : Keeps first second) :
    Keeps (first.map f) (second.map f) := by
  intro b read
  obtain ⟨a, here, there⟩ := Option.map_eq_some_iff.mp read
  exact Option.map_eq_some_iff.mpr ⟨a, keeps a here, there⟩

end Keeps

/-- What is read of a value is read of every value that is related to it. -/
class Carried (α : Type) [Codec α] : Prop where
  keeps : ∀ {R : Value → Value → Prop} {route other : Route} {v w : Value},
    Value.Carries R other → R v w → Keeps (decodeVia? route v : Option α) (decodeVia? other w)

open Json.Value (Carries Follows Reduces Related)

/-! ## Single values -/

section

variable {α : Type} {R : Value → Value → Prop} {route other : Route} {v w : Value}

/-- Arrays and objects aside, related values are the same. -/
theorem keeps_single (read : Value → Option α) (carries : Carries R other) (rel : R v w)
    (noArray : ∀ items, read (.array items) = none)
    (noObject : ∀ members, read (.object members) = none) : Keeps (read v) (read w) := by
  have follows := carries.follows rel
  intro a found
  cases v with
  | array items => cases (noArray items).symm.trans found
  | object members => cases (noObject members).symm.trans found
  | _ => exact follows ▸ found

theorem isUnit_of_rel {key : Key} {x y whole : Value} (carries : Carries R other)
    (all : R (.object [(key, x)]) whole) (rel : R x y) (unit : isUnit route x = true) :
    isUnit other y = true := by
  have follows := carries.follows rel
  unfold isUnit at unit
  split at unit
  case h_1 =>
    cases follows
    cases other <;> rfl
  case h_2 =>
    obtain ⟨others, rfl, reduces⟩ := follows
    cases reduces
    -- an empty object is a unit on one route only, but values like this one take no other
    rw [carries.hollow all]
    rfl
  case h_3 => cases unit

theorem keeps_choice [Choice α] {ofName? : String → Option α} (carries : Carries R other)
    (rel : R v w) : Keeps (choice? ofName? route v) (choice? ofName? other w) := by
  have follows := carries.follows rel
  intro a found
  unfold choice? at found
  split at found
  case h_1 => exact follows ▸ found
  case h_2 key x =>
    rw [Option.ite_none_right_eq_some] at found
    obtain ⟨others, rfl, reduces⟩ := follows
    obtain ⟨y, rfl, inside⟩ := reduces.singleton
    rw [choice?, if_pos (isUnit_of_rel carries rel inside found.1), found.2]
  case h_3 => cases found

end

instance : Carried String :=
  ⟨fun carries rel => keeps_single _ carries rel (fun _ => rfl) fun _ => rfl⟩

instance : Carried Bool :=
  ⟨fun carries rel => keeps_single _ carries rel (fun _ => rfl) fun _ => rfl⟩

instance : Carried UInt32 :=
  ⟨fun carries rel => keeps_single _ carries rel (fun _ => rfl) fun _ => rfl⟩

instance : Carried Guid :=
  ⟨fun carries rel => keeps_single _ carries rel (fun _ => rfl) fun _ => rfl⟩

instance : Carried Step :=
  ⟨fun carries rel => keeps_single _ carries rel (fun _ => rfl) fun _ => rfl⟩

instance {α : Type} [Choice α] : Carried α :=
  ⟨fun carries rel => keeps_choice carries rel⟩

instance : Carried RegistryHive :=
  ⟨fun carries rel => keeps_choice carries rel⟩

/-! ## Absent values, lists and attributes -/

instance {α : Type} [Codec α] [Carried α] : Carried (Option α) where
  keeps {_ route other v w} carries rel := by
    have inside : Keeps (decodeVia? route v : Option α) (decodeVia? other w) :=
      Carried.keeps carries rel
    have follows := carries.follows rel
    cases v with
    | null =>
      cases follows
      exact .refl _
    | array items =>
      obtain ⟨others, rfl, _⟩ := follows
      exact inside.map some
    | object members =>
      obtain ⟨others, rfl, _⟩ := follows
      exact inside.map some
    | _ =>
      cases follows
      exact inside.map some

theorem keeps_mapM {α β : Type} {S : α → α → Prop} {read otherRead : α → Option β}
    {items others : List α} (each : ∀ {a b}, S a b → Keeps (read a) (otherRead b))
    (same : List.Forall₂ S items others) : Keeps (items.mapM read) (others.mapM otherRead) := by
  induction same with
  | nil => exact .refl _
  | cons rel rest ih =>
    rw [List.mapM_cons, List.mapM_cons]
    exact .bind (each rel) fun _ => .bind ih fun _ => .refl _

instance {α : Type} [Codec α] [Carried α] : Carried (List α) where
  keeps {_ route other v w} carries rel := by
    have follows := carries.follows rel
    cases v with
    | array items =>
      obtain ⟨others, rfl, same⟩ := follows
      exact keeps_mapM (fun rel => Carried.keeps carries rel) same
    | _ => exact nofun

end Codec

/-! ## Attributes -/

namespace Attributes

theorem insertPair_insertPair_self (name value other : String) (pairs : List (String × String)) :
    insertPair name value (insertPair name other pairs) = insertPair name value pairs := by
  induction pairs with
  | nil => simp [insertPair]
  | cons pair rest ih => grind [insertPair]

theorem insertPair_comm {name other : String} (ne : name ≠ other) (value otherValue : String)
    (pairs : List (String × String)) :
    insertPair name value (insertPair other otherValue pairs) =
      insertPair other otherValue (insertPair name value pairs) := by
  induction pairs with
  | nil => grind [insertPair]
  | cons pair rest ih => grind [insertPair]

theorem insert_insert_self (attributes : Attributes) (name value other : String) :
    (attributes.insert name other).insert name value = attributes.insert name value := by
  simp [insert, insertPair_insertPair_self]

theorem insert_comm (attributes : Attributes) {name other : String} (ne : name ≠ other)
    (value otherValue : String) : (attributes.insert other otherValue).insert name value =
      (attributes.insert name value).insert other otherValue := by
  simp [insert, insertPair_comm ne]

/-- A pair does not count if a later one has its name. -/
theorem foldl_insert_of_mem {name : String} (value : String) {pairs : List (String × String)}
    (later : name ∈ pairs.map Prod.fst) (attributes : Attributes) :
    pairs.foldl (fun attributes pair => attributes.insert pair.1 pair.2)
        (attributes.insert name value) =
      pairs.foldl (fun attributes pair => attributes.insert pair.1 pair.2) attributes := by
  induction pairs generalizing attributes with
  | nil => cases later
  | cons pair rest ih =>
    rw [List.foldl_cons, List.foldl_cons]
    by_cases same : pair.1 = name
    · rw [same, insert_insert_self]
    · have later : name ∈ rest.map Prod.fst := by
        simpa [Ne.symm same] using later
      rw [insert_comm attributes same, ih later]

/-- The pair that a member gives, if it has a name and its value is a text. -/
def pair? (member : Key × Value) : Option (String × String) :=
  (Value.named? member).bind fun member => (member.2.asString?).map fun text => (member.1, text)

theorem mapM_pair? (members : List (Key × Value)) :
    members.mapM pair? = (members.mapM Value.named?).bind fun named =>
      named.mapM fun member => (member.2.asString?).map fun text => (member.1, text) := by
  induction members with
  | nil => rfl
  | cons member rest ih =>
    rw [List.mapM_cons, List.mapM_cons, pair?, ih]
    cases Value.named? member with
    | none => rfl
    | some named => cases rest.mapM Value.named? <;> simp

theorem key_of_pair? {member : Key × Value} {pair : String × String}
    (read : pair? member = some pair) : member.1 = .name pair.1 := by
  obtain ⟨key, v⟩ := member
  cases key with
  | name text =>
    obtain ⟨_, _, rfl⟩ := Option.map_eq_some_iff.mp read
    rfl
  | _ => cases read

theorem decodeVia?_object (route : Route) (members : List (Key × Value)) :
    (decodeVia? route (.object members) : Option Attributes) =
      (members.mapM pair?).map ofList := by
  rw [mapM_pair?, Option.map_bind]
  simp only [decodeVia?, Value.asObject?, Option.bind_eq_bind, Option.pure_def]
  congr
  funext named
  rw [Function.comp_apply, Option.map_eq_bind]
  rfl

theorem mem_names_of_mapM_pair? {name : String} : ∀ {members : List (Key × Value)}
    {pairs : List (String × String)}, members.mapM pair? = some pairs →
      .name name ∈ members.map Prod.fst → name ∈ pairs.map Prod.fst
  | [], _, _, mem => by cases mem
  | member :: rest, _, read, mem => by
    rw [List.mapM_cons] at read
    obtain ⟨pair, here, read⟩ := Option.bind_eq_some_iff.mp read
    obtain ⟨more, there, read⟩ := Option.bind_eq_some_iff.mp read
    cases read
    rw [List.map_cons, List.mem_cons, key_of_pair? here, Key.name.injEq] at mem
    exact List.mem_cons.mpr (mem.imp_right (mem_names_of_mapM_pair? there))

/-- A pair whose member was dropped does not count. -/
theorem exists_pairs {R : Value → Value → Prop} {route : Route}
    {members others : List (Key × Value)}
    (carries : Value.Carries R route) (reduces : Value.Reduces R members others) :
    ∀ {pairs : List (String × String)}, members.mapM pair? = some pairs →
      ∃ otherPairs, others.mapM pair? = some otherPairs ∧ ∀ attributes : Attributes,
        otherPairs.foldl (fun attributes pair => attributes.insert pair.1 pair.2) attributes =
          pairs.foldl (fun attributes pair => attributes.insert pair.1 pair.2) attributes := by
  induction reduces with
  | nil => exact fun read => ⟨_, read, fun _ => rfl⟩
  | @keep members others v w key rel rest ih =>
    intro pairs read
    rw [List.mapM_cons] at read
    obtain ⟨pair, here, read⟩ := Option.bind_eq_some_iff.mp read
    obtain ⟨more, there, read⟩ := Option.bind_eq_some_iff.mp read
    cases read
    obtain ⟨otherPairs, readOther, same⟩ := ih there
    have readHere : pair? (key, w) = some pair :=
      Codec.keeps_single (fun v => pair? (key, v)) carries rel
        (fun _ => by cases key <;> rfl) (fun _ => by cases key <;> rfl) pair here
    refine ⟨pair :: otherPairs, ?_, fun attributes => same _⟩
    rw [List.mapM_cons, readHere, readOther]
    rfl
  | drop v later rest ih =>
    intro pairs read
    rw [List.mapM_cons] at read
    obtain ⟨pair, here, read⟩ := Option.bind_eq_some_iff.mp read
    obtain ⟨more, there, read⟩ := Option.bind_eq_some_iff.mp read
    cases read
    obtain ⟨otherPairs, readOther, same⟩ := ih there
    refine ⟨otherPairs, readOther, fun attributes => ?_⟩
    -- the dropped member would have been overwritten
    have again : pair.1 ∈ more.map Prod.fst :=
      mem_names_of_mapM_pair? there (key_of_pair? here ▸ later)
    rw [List.foldl_cons, foldl_insert_of_mem _ again, same]

end Attributes

instance : Codec.Carried Attributes where
  keeps {_ route other v w} carries rel := by
    have follows := carries.follows rel
    cases v with
    | object members =>
      obtain ⟨others, rfl, reduces⟩ := follows
      intro attributes read
      rw [Attributes.decodeVia?_object] at read
      obtain ⟨pairs, readPairs, rfl⟩ := Option.map_eq_some_iff.mp read
      obtain ⟨otherPairs, readOther, same⟩ := Attributes.exists_pairs carries reduces readPairs
      rw [Attributes.decodeVia?_object, readOther]
      exact congrArg some (same .empty)
    | _ => exact nofun

/-! ## From one route to the other -/

namespace Json.Value

/-- The value can take the route without getting lost on it. -/
def Passes (route : Route) (v : Value) : Prop :=
  route = .plain → ¬ v.HasHollow

variable {route : Route}

theorem Passes.item {items : List Value} (passes : Passes route (.array items)) {item : Value}
    (mem : item ∈ items) : Passes route item :=
  fun plain hollow => passes plain (.item mem hollow)

theorem Passes.member {members : List (Key × Value)} (passes : Passes route (.object members))
    {member : Key × Value} (mem : member ∈ members) : Passes route member.2 :=
  fun plain hollow => passes plain (.member mem hollow)

theorem Passes.eq_buffered {key : Key} (passes : Passes route (.object [(key, .object [])])) :
    route = .buffered := by
  cases route with
  | buffered => rfl
  | plain => exact absurd (.here key) (passes rfl)

theorem carries_self (route : Route) : Carries (fun v w => Passes route v ∧ w = v) route where
  follows {v w} rel := by
    obtain ⟨passes, rfl⟩ := rel
    cases w with
    | array items =>
      exact ⟨items, rfl, List.forall₂_same.mpr fun _ mem => ⟨passes.item mem, rfl⟩⟩
    | object members => exact ⟨members, rfl, .of_forall fun _ mem => ⟨passes.member mem, rfl⟩⟩
    | _ => rfl
  hollow rel := rel.1.eq_buffered

theorem mem_keys_of_any_distinctMembers {key : Key} {members : List (Key × Value)}
    (later : ((distinctMembers members).any fun member => member.1 == key) = true) :
    key ∈ members.map Prod.fst := by
  induction members with
  | nil => cases later
  | cons member rest ih =>
    obtain ⟨other, v⟩ := member
    simp only [distinctMembers, List.any_cons, Bool.or_eq_true, beq_iff_eq] at later
    exact List.mem_cons.mpr (later.imp Eq.symm ih)

theorem reduces_lastOfEach {R : Value → Value → Prop} {members : List (Key × Value)}
    (each : ∀ member ∈ members, R member.2 member.2.distinct) :
    Reduces R members (lastOfEach (distinctMembers members)) := by
  induction members with
  | nil => exact .nil
  | cons member rest ih =>
    obtain ⟨key, v⟩ := member
    have ih := ih fun member mem => each member (List.mem_cons_of_mem _ mem)
    rw [distinctMembers, lastOfEach]
    split
    case isTrue later => exact .drop v (mem_keys_of_any_distinctMembers later) ih
    case isFalse => exact .keep key (each _ List.mem_cons_self) ih

theorem distinctItems_eq (items : List Value) : distinctItems items = items.map distinct := by
  induction items with
  | nil => rfl
  | cons item rest ih => rw [distinctItems, ih, List.map_cons]

theorem carries_distinct (route : Route) :
    Carries (fun v w => Passes route v ∧ w = v.distinct) route where
  follows {v w} rel := by
    obtain ⟨passes, rfl⟩ := rel
    cases v with
    | array items =>
      refine ⟨_, rfl, ?_⟩
      rw [distinctItems_eq, List.forall₂_map_right_iff, List.forall₂_same]
      exact fun _ mem => ⟨passes.item mem, rfl⟩
    | object members =>
      exact ⟨_, rfl, reduces_lastOfEach fun _ mem => ⟨passes.member mem, rfl⟩⟩
    | _ => rfl
  hollow rel := rel.1.eq_buffered

end Json.Value

namespace Codec

open Json.Value (Passes)

variable {α : Type} [Codec α] [Carried α] {v : Value} {a : α}

theorem decodeVia?_buffered (read : decode? v = some a) : decodeVia? .buffered v = some a :=
  Carried.keeps (Value.carries_self .buffered) ⟨nofun, rfl⟩ a read

/-- Without hollow objects the routes do not differ. -/
theorem decode?_eq (solid : ¬ v.HasHollow) : (decode? v : Option α) = decodeVia? .buffered v :=
  Option.ext fun a =>
    ⟨decodeVia?_buffered, Carried.keeps (Value.carries_self .plain) ⟨fun _ => solid, rfl⟩ a⟩

/-- Repeated members that were let pass may be left out. -/
theorem decodeVia?_distinct {route : Route} (passes : Passes route v)
    (read : decodeVia? .buffered v = some a) : decodeVia? route v.distinct = some a :=
  Carried.keeps (Value.carries_distinct route) ⟨passes, rfl⟩ a read

end Codec

end Installer
