import Installer.Manifest.Codec
import Installer.Proofs.Guid.Written
import Installer.Proofs.Json.Written

/-! # Codecs that read what they write

A codec is lawful if every value is read back from its written form, and plain if that form prints
as a text from which it can be read.  The laws of single values and of lists are here, and one lemma
for all records (`bind_fieldsOf?`): a record is read back if each of its members is.
-/

namespace Installer

open Json (Key Value)

namespace Codec

/-- Every value is read back from its written form, whichever way that takes. -/
class Lawful (α : Type) [Codec α] : Prop where
  decodeVia?_encode : ∀ (route : Route) (a : α), decodeVia? route (encode a) = some a

/-- No value is written as `null`, so that `null` is free to stand for an absent one. -/
class Solid (α : Type) [Codec α] : Prop where
  encode_ne_null : ∀ a : α, encode a ≠ .null

/-- Every value is written with names for keys and with whole numbers that fit a machine word. -/
class Plain (α : Type) [Codec α] : Prop where
  isPlain_encode : ∀ a : α, (encode a).IsPlain

attribute [simp] Lawful.decodeVia?_encode Plain.isPlain_encode

end Codec

class Choice.Lawful (α : Type) [Choice α] : Prop where
  ofName?_name : ∀ a : α, Choice.ofName? (Choice.name a) = some a

namespace Codec

/-! ## Single values -/

instance : Lawful String := ⟨fun _ _ => rfl⟩

instance : Solid String := ⟨nofun⟩

instance : Plain String := ⟨fun _ => trivial⟩

instance : Lawful Bool := ⟨fun _ _ => rfl⟩

instance : Solid Bool := ⟨nofun⟩

instance : Plain Bool := ⟨fun _ => trivial⟩

instance : Lawful UInt32 where
  decodeVia?_encode _ n := by
    change Value.asUInt32? (.integer false n.toNat) = some n
    rw [Value.asUInt32?, if_pos (by simp [UInt32.toNat_lt_size]), UInt32.ofNat_toNat]

instance : Solid UInt32 := ⟨nofun⟩

instance : Plain UInt32 := ⟨fun n => ⟨rfl, Nat.lt_trans n.toNat_lt_size (by decide)⟩⟩

instance : Lawful Guid := ⟨fun _ => Guid.ofString?_toString⟩

instance : Solid Guid := ⟨nofun⟩

instance : Plain Guid := ⟨fun _ => trivial⟩

instance {α : Type} [Choice α] [Choice.Lawful α] : Lawful α :=
  ⟨fun _ => Choice.Lawful.ofName?_name⟩

instance {α : Type} [Choice α] : Solid α := ⟨nofun⟩

instance {α : Type} [Choice α] : Plain α := ⟨fun _ => trivial⟩

/-! ## Absent values and lists -/

theorem mapM_map_some {α β γ : Type} {write : α → β} {read : β → Option γ} {found : α → γ}
    {items : List α} (each : ∀ item ∈ items, read (write item) = some (found item)) :
    (items.map write).mapM read = some (items.map found) := by
  induction items with
  | nil => rfl
  | cons item rest ih =>
    have here := each item List.mem_cons_self
    have there := ih fun item mem => each item (List.mem_cons_of_mem _ mem)
    simp [here, there]

theorem decodeVia?_some {α : Type} [Codec α] {route : Route} {a : α} {v : Value}
    (notNull : v ≠ .null) (read : decodeVia? route v = some a) :
    (decodeVia? route v : Option (Option α)) = some (some a) := by
  cases v with
  | null => exact absurd rfl notNull
  | _ => exact congrArg (Option.map some) read

instance {α : Type} [Codec α] [Lawful α] [Solid α] : Lawful (Option α) where
  decodeVia?_encode
    | _, none => rfl
    | route, some a => decodeVia?_some (Solid.encode_ne_null a) (Lawful.decodeVia?_encode route a)

/-- A list is read back if each of its items is. -/
theorem decodeVia?_list {α : Type} [Codec α] {route : Route} {items : List α}
    (read : ∀ item ∈ items, decodeVia? route (encode item) = some item) :
    decodeVia? route (encode items) = some items := by
  have each := mapM_map_some read
  rwa [List.map_id'] at each

instance {α : Type} [Codec α] [Lawful α] : Lawful (List α) :=
  ⟨fun route _ => decodeVia?_list fun item _ => Lawful.decodeVia?_encode route item⟩

instance {α : Type} [Codec α] [Plain α] : Plain (Option α) where
  isPlain_encode
    | none => trivial
    | some a => Plain.isPlain_encode a

instance {α : Type} [Codec α] [Plain α] : Plain (List α) where
  isPlain_encode items := Value.arePlain_iff.mpr (by simp)

/-! ## Lists in parts -/

section

variable {α : Type} [Codec α] {route : Route}

theorem decodeVia?_append {values others : List Value} {found more : List α}
    (read : decodeVia? route (.array values) = some found)
    (readOthers : decodeVia? route (.array others) = some more) :
    decodeVia? route (.array (values ++ others)) = some (found ++ more) := by
  change (values ++ others).mapM (decodeVia? route) = _
  have read : values.mapM (decodeVia? route) = some found := read
  have readOthers : others.mapM (decodeVia? route) = some more := readOthers
  rw [List.mapM_append, read, readOthers]
  rfl

theorem exists_decodeVia?_append {values others : List Value} {all : List α}
    (read : decodeVia? route (.array (values ++ others)) = some all) :
    ∃ found more, decodeVia? route (.array values) = some found ∧
      decodeVia? route (.array others) = some more ∧
      all = found ++ more := by
  change (values ++ others).mapM (decodeVia? route) = some all at read
  rw [List.mapM_append] at read
  obtain ⟨found, readFound, read⟩ := Option.bind_eq_some_iff.mp read
  obtain ⟨more, readMore, read⟩ := Option.bind_eq_some_iff.mp read
  exact ⟨found, more, readFound, readMore, (Option.some.inj read).symm⟩

/-- A list that is read has an entry for each value and a value for each entry. -/
theorem mem_of_decodeVia?_array : ∀ {values : List Value} {found : List α},
    decodeVia? route (.array values) = some found →
      (∀ v ∈ values, ∃ a ∈ found, decodeVia? route v = some a) ∧
        ∀ a ∈ found, ∃ v ∈ values, decodeVia? route v = some a
  | [], _, read => by
    cases Option.some.inj read
    exact ⟨nofun, nofun⟩
  | v :: rest, _, read => by
    change (v :: rest).mapM (decodeVia? route) = _ at read
    rw [List.mapM_cons] at read
    obtain ⟨a, here, read⟩ := Option.bind_eq_some_iff.mp read
    obtain ⟨more, there, read⟩ := Option.bind_eq_some_iff.mp read
    cases Option.some.inj read
    obtain ⟨values, entries⟩ := mem_of_decodeVia?_array there
    constructor
    · intro w mem
      cases List.mem_cons.mp mem with
      | inl same => exact ⟨a, List.mem_cons_self, same ▸ here⟩
      | inr mem =>
        obtain ⟨b, listed, read⟩ := values w mem
        exact ⟨b, List.mem_cons_of_mem _ listed, read⟩
    · intro b mem
      cases List.mem_cons.mp mem with
      | inl same => exact ⟨v, List.mem_cons_self, same ▸ here⟩
      | inr mem =>
        obtain ⟨w, listed, read⟩ := entries b mem
        exact ⟨w, List.mem_cons_of_mem _ listed, read⟩

theorem exists_decodeVia?_array : ∀ {values : List Value},
    (∀ v ∈ values, ∃ a : α, decodeVia? route v = some a) →
      ∃ found : List α, decodeVia? route (.array values) = some found
  | [], _ => ⟨[], rfl⟩
  | v :: rest, each => by
    obtain ⟨a, here⟩ := each v List.mem_cons_self
    obtain ⟨found, there⟩ : ∃ found : List α, decodeVia? route (.array rest) = some found :=
      exists_decodeVia?_array fun v mem => each v (List.mem_cons_of_mem _ mem)
    refine ⟨a :: found, ?_⟩
    change (v :: rest).mapM (decodeVia? route) = _
    change rest.mapM (decodeVia? route) = _ at there
    rw [List.mapM_cons, here, there]
    rfl

end

end Codec

/-! ## Attributes -/

namespace Attributes

theorem insertPair_append {name value : String} {pairs : List (String × String)}
    (last : ∀ pair ∈ pairs, pair.1 < name) :
    insertPair name value pairs = pairs ++ [(name, value)] := by
  induction pairs with
  | nil => rfl
  | cons pair rest ih =>
    have lt := last pair List.mem_cons_self
    rw [insertPair, if_neg (String.lt_asymm lt), if_pos lt,
      ih fun pair mem => last pair (List.mem_cons_of_mem _ mem), List.cons_append]

theorem pairs_foldl_insert {pairs : List (String × String)} :
    ∀ attributes : Attributes, (attributes.pairs ++ pairs).Pairwise (fun a b => a.1 < b.1) →
      (pairs.foldl (fun attributes pair => attributes.insert pair.1 pair.2) attributes).pairs =
        attributes.pairs ++ pairs := by
  induction pairs with
  | nil => simp
  | cons pair rest ih =>
    intro attributes sorted
    have last : ∀ other ∈ attributes.pairs, other.1 < pair.1 := by
      intro other mem
      exact (List.pairwise_append.mp sorted).2.2 other mem pair List.mem_cons_self
    have inserted : (attributes.insert pair.1 pair.2).pairs = attributes.pairs ++ [pair] :=
      insertPair_append last
    rw [List.foldl_cons, ih _ (by simpa [inserted] using sorted), inserted]
    simp

theorem ofList_pairs (attributes : Attributes) : ofList attributes.pairs = attributes := by
  have same : (ofList attributes.pairs).pairs = attributes.pairs :=
    pairs_foldl_insert empty attributes.sorted
  cases attributes
  cases eq : ofList _
  simp_all

end Attributes

instance : Codec.Lawful Attributes where
  decodeVia?_encode _ attributes := by
    have members : (encode attributes).asObject? =
        some (attributes.pairs.map fun pair => (pair.1, Value.string pair.2)) :=
      Codec.mapM_map_some fun _ _ => rfl
    have texts : (attributes.pairs.map fun pair => (pair.1, Value.string pair.2)).mapM
        (fun member => (member.2.asString?).map fun text => (member.1, text)) =
          some (attributes.pairs.map id) :=
      Codec.mapM_map_some fun _ _ => rfl
    simp only [decodeVia?, members, texts, Option.bind_eq_bind, Option.bind_some, List.map_id,
      Attributes.ofList_pairs]
    rfl

instance : Codec.Solid Attributes := ⟨nofun⟩

instance : Codec.Plain Attributes where
  isPlain_encode attributes := by
    refine Value.havePlain_iff.mpr fun member mem => ?_
    obtain ⟨pair, _, rfl⟩ := List.mem_map.mp mem
    exact ⟨⟨_, rfl⟩, trivial⟩

/-! ## Records -/

namespace Codec

open Json.Value (fieldsOf? HavePlain)

theorem object_ne_null {members : List (Key × Value)} : Value.object members ≠ .null :=
  nofun

theorem isPlain_object {members : List (Key × Value)} (plain : HavePlain members) :
    (Value.object members).IsPlain :=
  plain

theorem among?_name {names : List String} {name : String} (known : name ∈ names) :
    (Key.name name).among? names = some name :=
  if_pos known

theorem fieldsOf?_named {names : List String} {fields : List (String × Value)}
    (known : ∀ field ∈ fields, field.1 ∈ names) (distinct : (fields.map Prod.fst).Nodup) :
    fieldsOf? names (fields.map fun field => (.name field.1, field.2)) = some fields := by
  have found : (fields.map fun field => (Key.name field.1, field.2)).filterMap
      (fun member => (member.1.among? names).map (·, member.2)) = fields := by
    clear distinct
    induction fields with
    | nil => rfl
    | cons field rest ih =>
      have here := among?_name (known field List.mem_cons_self)
      have there := ih fun field mem => known field (List.mem_cons_of_mem _ mem)
      rw [List.map_cons, List.filterMap_cons, here, Option.map_some, there]
  have noStray : (fields.map fun field => (Key.name field.1, field.2)).any
      (fun member => member.1 == .stray) = false := by
    simp
  simp [fieldsOf?, found, noStray, distinct]

/-- Members in the order `order`, which need not be the one in which they are read. -/
theorem fieldsOf?_eq_some {names : List String} {members : List (Key × Value)} (order : List String)
    (keys : members.map Prod.fst = order.map Key.name) (known : ∀ name ∈ order, name ∈ names)
    (distinct : order.Nodup) :
    fieldsOf? names members = some (order.zip (members.map Prod.snd)) := by
  have length : order.length = (members.map Prod.snd).length := by
    have same := congrArg List.length keys
    simpa using same.symm
  have names_zip : (order.zip (members.map Prod.snd)).map Prod.fst = order :=
    List.map_fst_zip (Nat.le_of_eq length)
  have zipped : members = (order.zip (members.map Prod.snd)).map fun field =>
      (.name field.1, field.2) := by
    calc members = (members.map Prod.fst).zip (members.map Prod.snd) := by
          rw [List.zip_map']
          simp
      _ = (order.map Key.name).zip (members.map Prod.snd) := by rw [keys]
      _ = _ := List.zip_map_left
  conv_lhs => rw [zipped]
  apply fieldsOf?_named
  · intro field mem
    exact known _ (names_zip ▸ List.mem_map_of_mem mem)
  · rwa [names_zip]

/-- A record is read back if its members are read one by one. -/
theorem bind_fieldsOf? {α : Type} {names : List String} {members : List (Key × Value)}
    {read : List (String × Value) → Option α} {a : α} (order : List String)
    (keys : members.map Prod.fst = order.map Key.name) (known : ∀ name ∈ order, name ∈ names)
    (distinct : order.Nodup) (found : read (order.zip (members.map Prod.snd)) = some a) :
    (fieldsOf? names members >>= read) = some a := by
  rw [fieldsOf?_eq_some order keys known distinct, Option.bind_eq_bind, Option.bind_some, found]

theorem bind_fields? {α : Type} {names : List String} {members : List (Key × Value)}
    {read : List (String × Value) → Option α} {a : α} (order : List String)
    (keys : members.map Prod.fst = order.map Key.name) (known : ∀ name ∈ order, name ∈ names)
    (distinct : order.Nodup) (found : read (order.zip (members.map Prod.snd)) = some a) :
    ((Value.object members).fields? names >>= read) = some a :=
  bind_fieldsOf? order keys known distinct found

end Codec

end Installer
