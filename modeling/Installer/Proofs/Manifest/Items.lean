import Installer.Proofs.Manifest.Carried
import Installer.Proofs.Manifest.Text

/-! # Items beside the collections

An item of a kind is worth what it would be worth at the end of the collection of its kind, so the
entries of a collection can be moved to the items if they fit there (`ofJson_items`).  An entry does
not fit if it gives a choice as an object with an empty object (`not_ofJson_hollowItems`).
-/

namespace Installer.Entity

open Json (Key Value)

namespace Kind

def of? (item : Value) : Option Kind :=
  match item.member? "kind" with
  | some (.string tag) => all.find? fun kind => kind.tag == tag
  | _ => none

theorem find?_tag (kind : Kind) : (all.find? fun other => other.tag == kind.tag) = some kind := by
  cases kind <;> rfl

theorem of?_eq_some_iff {item : Value} {kind : Kind} :
    of? item = some kind ↔ item.member? "kind" = some (.string kind.tag) := by
  constructor
  · intro found
    unfold of? at found
    split at found
    case h_1 tag said =>
      have same : kind.tag = tag := by simpa using List.find?_some found
      rw [said, same]
    case h_2 => cases found
  · intro said
    rw [of?, said]
    exact find?_tag kind

theorem without_eraseP (name : String) (members : List (Key × Value)) :
    without name (members.eraseP fun member => member.1 == .name name) = without name members := by
  induction members with
  | nil => rfl
  | cons member rest ih =>
    by_cases same : member.1 = .name name
    · simp [without, same]
    · have ih : List.filter _ _ = List.filter _ _ := ih
      simp [without, same, ih]

end Kind

/-! ## One item -/

def Fits (item : Value) : Prop :=
  ∃ kind, Kind.of? item = some kind ∧ ∃ entry, (decode? item : Option kind.Entry) = some entry

/-- What is wrong with an item that does not fit. -/
inductive Faulty (item : Value) : CompileError → Prop
  /-- The item is no object or does not say of what kind it is. -/
  | untagged (missing : item.member? "kind" = none) :
    Faulty item (.unrecognizedEntity missingKind)
  | noText {v : Value} (said : item.member? "kind" = some v) (other : ∀ tag, v ≠ .string tag) :
    Faulty item (.unrecognizedEntity v.sorted.print)
  | unknown {tag : String} (said : item.member? "kind" = some (.string tag))
    (unknown : ∀ kind : Kind, kind.tag ≠ tag) : Faulty item (.unrecognizedEntity tag)
  | misfit {kind : Kind} (said : Kind.of? item = some kind)
    (misfit : (decode? item : Option kind.Entry) = none) : Faulty item (.json .misfit)

/-- An item of a kind can only be a misfit. -/
theorem Faulty.eq_misfit {item : Value} {fault : CompileError} (faulty : Faulty item fault)
    (said : ∃ kind, Kind.of? item = some kind) : fault = .json .misfit := by
  obtain ⟨kind, said⟩ := said
  have tag := Kind.of?_eq_some_iff.mp said
  cases faulty with
  | untagged missing => cases missing.symm.trans tag
  | noText said other => cases said.symm.trans tag; exact absurd rfl (other _)
  | unknown said unknown => cases said.symm.trans tag; exact absurd rfl (unknown kind)
  | misfit => rfl

theorem fits_or_faulty (item : Value) : Fits item ∨ ∃ fault, Faulty item fault := by
  cases said : item.member? "kind" with
  | none => exact .inr ⟨_, .untagged said⟩
  | some v =>
    by_cases text : ∃ tag, v = .string tag
    · obtain ⟨tag, rfl⟩ := text
      by_cases known : ∃ kind : Kind, kind.tag = tag
      · obtain ⟨kind, rfl⟩ := known
        have said := Kind.of?_eq_some_iff.mpr said
        cases read : (decode? item : Option kind.Entry) with
        | none => exact .inr ⟨_, .misfit said read⟩
        | some entry => exact .inl ⟨kind, said, entry, read⟩
      · exact .inr ⟨_, .unknown said (not_exists.mp known)⟩
    · exact .inr ⟨_, .noText said (not_exists.mp text)⟩

theorem exists_members {item : Value} {v : Value} (said : item.member? "kind" = some v) :
    ∃ members, item = .object members ∧ members.lookup (.name "kind") = some v := by
  cases item with
  | object members => exact ⟨members, rfl, said⟩
  | _ => cases said

/-- An item of a kind is read as an entry of the collection of that kind would be. -/
theorem ofItem_of_kind {item : Value} {kind : Kind} (said : Kind.of? item = some kind) :
    ofItem item =
      match (decode? item : Option kind.Entry) with
      | some entry => .ok (kind.entity entry)
      | none => .error (.json .misfit) := by
  obtain ⟨members, rfl, found⟩ := exists_members (Kind.of?_eq_some_iff.mp said)
  -- no entry has a member of its own with the name of the tag
  have untagged : (decode? (.object (members.eraseP fun member => member.1 == .name "kind")) :
      Option kind.Entry) = decode? (.object members) := by
    change (decodeVia? .plain _ : Option kind.Entry) = decodeVia? .plain _
    rw [← Kind.decodeVia?_untagged, Kind.without_eraseP, Kind.decodeVia?_untagged]
  simp only [ofItem, found, ofTagged, Kind.reader?_tag, untagged]
  cases (decode? (.object members) : Option kind.Entry) <;> rfl

theorem ofItem_of_faulty {item : Value} {fault : CompileError} (faulty : Faulty item fault) :
    ofItem item = .error fault := by
  cases faulty with
  | untagged missing =>
    cases item with
    | object members =>
      have missing : members.lookup (.name "kind") = none := missing
      simp only [ofItem, missing]
    | _ => rfl
  | noText said other =>
    obtain ⟨members, rfl, found⟩ := exists_members said
    rw [ofItem, found]
    split
    case h_1 same => exact absurd (Option.some.inj same) (other _)
    case h_2 same => rw [Option.some.inj same]
    case h_3 same => cases same
  | unknown said unknown =>
    obtain ⟨members, rfl, found⟩ := exists_members said
    simp only [ofItem, found, ofTagged, Kind.reader?_eq_none unknown]
  | misfit said misfit =>
    rw [ofItem_of_kind said, misfit]

end Installer.Entity

namespace Installer.Manifest

open Json (Key Value)
open Json.Value (Named HavePlain)
open Entity

/-! ## All items -/

def ofKind (kind : Kind) (items : List Value) : List Value :=
  items.filter fun item => Kind.of? item == some kind

/-- What one item adds: an entry behind those of its kind, and nothing else. -/
theorem entries_add (project : Project) {item : Value} {kind : Kind}
    (said : Kind.of? item = some kind) {entry : kind.Entry} (read : decode? item = some entry)
    (other : Kind) :
    ∃ added, decode? (.array (ofKind other [item])) = some added ∧
      other.entries (project.add (kind.entity entry)) = other.entries project ++ added := by
  by_cases same : kind = other
  · subst same
    have only : ofKind kind [item] = [item] := by
      simp [ofKind, said]
    refine ⟨[entry], ?_, Kind.entries_add_self project entry⟩
    rw [only]
    change [item].mapM decode? = _
    simp [read]
  · have none : ofKind other [item] = [] := by
      simp [ofKind, said, same]
    refine ⟨[], ?_, by rw [Kind.entries_add_of_ne project same, List.append_nil]⟩
    rw [none]
    rfl

/-- Items that all fit are added to the entries of their kinds in their order. -/
theorem withItems_of_fits : ∀ {items : List Value}, (∀ item ∈ items, Fits item) →
    ∀ project : Project, ∃ result, withItems project items = .ok result ∧
      result.bare = project.bare ∧
      ∀ kind : Kind, ∃ added, decode? (.array (ofKind kind items)) = some added ∧
        kind.entries result = kind.entries project ++ added
  | [], _, project => ⟨project, rfl, rfl, fun _ => ⟨[], rfl, (List.append_nil _).symm⟩⟩
  | item :: rest, fits, project => by
    obtain ⟨kind, said, entry, read⟩ := fits item List.mem_cons_self
    obtain ⟨result, run, bare, others⟩ := withItems_of_fits
      (fun item mem => fits item (List.mem_cons_of_mem _ mem)) (project.add (kind.entity entry))
    have step : withItems project (item :: rest) =
        withItems (project.add (kind.entity entry)) rest := by
      rw [withItems, List.foldlM_cons, ofItem_of_kind said, read]
      rfl
    refine ⟨result, step.trans run, bare.trans (Project.bare_add _ _), fun other => ?_⟩
    obtain ⟨first, readFirst, here⟩ := entries_add project said read other
    obtain ⟨more, readMore, there⟩ := others other
    have split : ofKind other (item :: rest) = ofKind other [item] ++ ofKind other rest := by
      rw [ofKind, ofKind, ofKind, ← List.filter_append, List.singleton_append]
    refine ⟨first ++ more, ?_, by rw [there, here, List.append_assoc]⟩
    rw [split]
    exact Codec.decodeVia?_append readFirst readMore

/-- The first item that does not fit decides the error. -/
theorem withItems_of_faulty {item : Value} {fault : CompileError} (faulty : Faulty item fault)
    (after : List Value) : ∀ {before : List Value}, (∀ item ∈ before, Fits item) →
      ∀ project : Project, withItems project (before ++ item :: after) = .error fault
  | [], _, project => by
    rw [List.nil_append, withItems, List.foldlM_cons, ofItem_of_faulty faulty]
    rfl
  | first :: before, fits, project => by
    obtain ⟨kind, said, entry, read⟩ := fits first List.mem_cons_self
    have step : withItems project (first :: (before ++ item :: after)) =
        withItems (project.add (kind.entity entry)) (before ++ item :: after) := by
      rw [withItems, List.foldlM_cons, ofItem_of_kind said, read]
      rfl
    exact step.trans (withItems_of_faulty faulty after
      (fun item mem => fits item (List.mem_cons_of_mem _ mem)) _)

/-- Where not all items fit there is a first one that does not. -/
theorem exists_first_faulty : ∀ {items : List Value}, ¬ (∀ item ∈ items, Fits item) →
    ∃ before item after fault, items = before ++ item :: after ∧ (∀ item ∈ before, Fits item) ∧
      Faulty item fault
  | [], unfit => absurd nofun unfit
  | item :: rest, unfit => by
    cases fits_or_faulty item with
    | inr faulty =>
      obtain ⟨fault, faulty⟩ := faulty
      exact ⟨[], item, rest, fault, rfl, nofun, faulty⟩
    | inl fits =>
      have unfit : ¬ ∀ item ∈ rest, Fits item := by
        intro all
        exact unfit (List.forall_mem_cons.mpr ⟨fits, all⟩)
      obtain ⟨before, found, after, fault, rfl, all, faulty⟩ := exists_first_faulty unfit
      exact ⟨item :: before, found, after, fault, rfl, List.forall_mem_cons.mpr ⟨fits, all⟩, faulty⟩

theorem fits_of_withItems {items : List Value} {project result : Project}
    (run : withItems project items = .ok result) : ∀ item ∈ items, Fits item := by
  by_contra unfit
  obtain ⟨before, item, after, fault, rfl, fits, faulty⟩ := exists_first_faulty unfit
  rw [withItems_of_faulty faulty after fits] at run
  cases run

/-! ## Moving entries to the items -/

/-- The members list the values in the collection of the kind. A collection that is not there lists
none. -/
def Lists (members : List (Key × Value)) (kind : Kind) (values : List Value) : Prop :=
  members.lookup (.name kind.collection) = some (.array values) ∨
    (members.lookup (.name kind.collection) = none ∧ values = [])

/-- An object without its tag. -/
def untagged : Value → Value
  | .object members => .object (Kind.without "kind" members)
  | v => v

/-- Entries at the ends of the collections have become items: each has got the tag of its kind and
stands before the items that were there of the kind.  The other members are the same. -/
structure MovesTo (members others : List (Key × Value)) (moved : Kind → List Value) : Prop where
  distinct : (others.map Prod.fst).Nodup
  same : ∀ name, name ≠ "items" → name ∉ Kind.all.map Kind.collection →
    others.lookup (.name name) = members.lookup (.name name)
  listed : ∀ kind : Kind, ∃ kept, Lists members kind (kept ++ moved kind) ∧ Lists others kind kept
  placed : ∀ kind : Kind, (ofKind kind (items others)).map untagged =
    (moved kind).map (fun v => untagged v.distinct) ++ (ofKind kind (items members)).map untagged
  tagged : ∀ item ∈ items others, ∃ kind, Kind.of? item = some kind

theorem decode?_untagged (kind : Kind) (v : Value) :
    (decode? (untagged v) : Option kind.Entry) = decode? v := by
  cases v with
  | object members => exact Kind.decodeVia?_untagged .plain kind members
  | _ => rfl

theorem decode?_map_untagged (kind : Kind) (values : List Value) :
    (decode? (.array (values.map untagged)) : Option (List kind.Entry)) =
      decode? (.array values) := by
  change (values.map untagged).mapM decode? = values.mapM decode?
  rw [List.mapM_map]
  congr 1
  funext v
  exact decode?_untagged kind v

theorem orDefault_of_lists {members : List (Key × Value)} {fields : List (String × Value)}
    {kind : Kind} {values : List Value}
    (same : fields.lookup kind.collection = members.lookup (.name kind.collection))
    (lists : Lists members kind values) :
    (orDefault .buffered fields kind.collection [] : Option (List kind.Entry)) =
      decodeVia? .buffered (.array values) := by
  rw [orDefault, same]
  rcases lists with found | ⟨missing, rfl⟩
  · rw [found]
  · rw [missing]
    rfl

theorem collection_mem_memberNames (kind : Kind) : kind.collection ∈ Project.memberNames := by
  cases kind <;> decide

/-- Entries of a collection that are all read as items are read as the same entries. -/
theorem decode?_map_distinct {kind : Kind} {values : List Value} {entries : List kind.Entry}
    (read : decodeVia? .buffered (.array values) = some entries)
    (fit : ∀ v ∈ values, ∃ entry : kind.Entry, decode? v.distinct = some entry) :
    decode? (.array (values.map Value.distinct)) = some entries := by
  obtain ⟨others, readOthers⟩ : ∃ others : List kind.Entry,
      decode? (.array (values.map Value.distinct)) = some others :=
    Codec.exists_decodeVia?_array (List.forall_mem_map.mpr fit)
  -- what the second route reads, the first one reads the same
  have reduced : decodeVia? .buffered (Value.array values).distinct = some entries :=
    Codec.decodeVia?_distinct nofun read
  rw [Value.distinct, Value.distinctItems_eq] at reduced
  rw [readOthers, ← reduced, Codec.decodeVia?_buffered readOthers]

/-- The entries of a collection fall into those that stay and those that are moved. -/
theorem MovesTo.entries {members others : List (Key × Value)} {moved : Kind → List Value}
    (moves : MovesTo members others moved) (named : Named members) {typed : Project}
    (read : project? members = some typed) (kind : Kind) :
    ∃ (values : List Value) (kept more : List kind.Entry), Lists others kind values ∧
      decodeVia? .buffered (.array values) = some kept ∧
      decodeVia? .buffered (.array (moved kind)) = some more ∧
      kind.entries typed = kept ++ more := by
  obtain ⟨fields, found, written⟩ := Project.decodeVia?_object_iff.mp read
  obtain ⟨keptValues, lists, listsOthers⟩ := moves.listed kind
  have known := Json.Value.lookup_of_fieldsOf? named found (collection_mem_memberNames kind)
  have listed := written.entries kind
  rw [orDefault_of_lists known lists] at listed
  obtain ⟨kept, more, readKept, readMore, entries⟩ := Codec.exists_decodeVia?_append listed
  exact ⟨keptValues, kept, more, listsOthers, readKept, readMore, entries⟩

/-- Without the moved entries the members still write a project. -/
theorem MovesTo.project? {members others : List (Key × Value)} {moved : Kind → List Value}
    (moves : MovesTo members others moved) (named : Named members) (namedOthers : Named others)
    {typed : Project} (read : project? members = some typed)
    {kept : (kind : Kind) → List kind.Entry} (listed : ∀ kind, ∃ values, Lists others kind values ∧
      decodeVia? .buffered (.array values) = some (kept kind)) :
    Manifest.project? others = some (typed.withEntries kept) := by
  obtain ⟨fields, found, written⟩ := Project.decodeVia?_object_iff.mp read
  obtain ⟨otherFields, otherFound⟩ :=
    Json.Value.exists_fieldsOf? Project.memberNames namedOthers moves.distinct
  refine Project.decodeVia?_object_iff.mpr ⟨otherFields, otherFound, written.withEntries ?_ ?_⟩
  · intro name known single
    have noItems : name ≠ "items" := by
      rintro rfl
      exact absurd known (by decide)
    rw [Json.Value.lookup_of_fieldsOf? namedOthers otherFound known,
      Json.Value.lookup_of_fieldsOf? named found known, moves.same name noItems single]
  · intro kind
    obtain ⟨values, lists, readKept⟩ := listed kind
    rw [orDefault_of_lists (Json.Value.lookup_of_fieldsOf? namedOthers otherFound
      (collection_mem_memberNames kind)) lists, readKept]

/-- Moved entries are read before the items of their kind that were there. -/
theorem MovesTo.decode?_items {members others : List (Key × Value)} {moved : Kind → List Value}
    (moves : MovesTo members others moved) {kind : Kind} {more added : List kind.Entry}
    (readMore : decode? (.array ((moved kind).map Value.distinct)) = some more)
    (readAdded : decode? (.array (ofKind kind (items members))) = some added) :
    decode? (.array (ofKind kind (items others))) = some (more ++ added) := by
  have same : (moved kind).map (fun v => untagged v.distinct) =
      ((moved kind).map Value.distinct).map untagged := by
    rw [List.map_map]
    rfl
  rw [← decode?_map_untagged] at readMore readAdded
  rw [← decode?_map_untagged, moves.placed, same]
  exact Codec.decodeVia?_append readMore readAdded

theorem MovesTo.fits {members others : List (Key × Value)} {moved : Kind → List Value}
    (moves : MovesTo members others moved) {added : (kind : Kind) → List kind.Entry}
    (read : ∀ kind, decode? (.array (ofKind kind (items others))) = some (added kind)) :
    ∀ item ∈ items others, Fits item := by
  intro item mem
  obtain ⟨kind, said⟩ := moves.tagged item mem
  have listed : item ∈ ofKind kind (items others) :=
    List.mem_filter.mpr ⟨mem, by simp [said]⟩
  obtain ⟨entry, _, read⟩ := (Codec.mem_of_decodeVia?_array (read kind)).1 item listed
  exact ⟨kind, said, entry, read⟩

/-- The item that a moved entry has become. -/
theorem MovesTo.exists_item {members others : List (Key × Value)} {moved : Kind → List Value}
    (moves : MovesTo members others moved) {kind : Kind} {v : Value} (mem : v ∈ moved kind) :
    ∃ item ∈ items others, Kind.of? item = some kind ∧
      (decode? item : Option kind.Entry) = decode? v.distinct := by
  have listed : untagged v.distinct ∈ (ofKind kind (items others)).map untagged := by
    rw [moves.placed]
    exact List.mem_append_left _ (List.mem_map.mpr ⟨v, mem, rfl⟩)
  obtain ⟨item, listed, same⟩ := List.mem_map.mp listed
  obtain ⟨listed, said⟩ := List.mem_filter.mp listed
  exact ⟨item, listed, by simpa using said, by
    rw [← decode?_untagged, same, decode?_untagged]⟩

/-- An entry that is moved must fit as an item. -/
theorem MovesTo.withItems_of_unfit {members others : List (Key × Value)} {moved : Kind → List Value}
    (moves : MovesTo members others moved) {kind : Kind} {v : Value} (mem : v ∈ moved kind)
    (unfit : (decode? v.distinct : Option kind.Entry) = none) (project : Project) :
    withItems project (items others) = .error (.json .misfit) := by
  obtain ⟨item, listed, said, read⟩ := moves.exists_item mem
  have notAll : ¬ ∀ item ∈ items others, Fits item := by
    intro all
    obtain ⟨other, saidOther, entry, fits⟩ := all item listed
    cases said.symm.trans saidOther
    rw [read, unfit] at fits
    cases fits
  obtain ⟨before, first, after, fault, split, fits, faulty⟩ := exists_first_faulty notAll
  have tagged := moves.tagged first (split ▸ List.mem_append_right _ List.mem_cons_self)
  rw [split, withItems_of_faulty faulty after fits, faulty.eq_misfit tagged]

/-- Moved entries that all fit give the same project. -/
theorem MovesTo.ofJson {text other : String} {members others : List (Key × Value)}
    {moved : Kind → List Value} (moves : MovesTo members others moved)
    (writes : Writes text members) (writesOther : Writes other others) {typed result : Project}
    (read : Manifest.project? members = some typed)
    (run : withItems typed (items members) = .ok result)
    (fit : ∀ kind, ∀ v ∈ moved kind, ∃ entry : kind.Entry, decode? v.distinct = some entry) :
    Manifest.ofJson other = .ok result := by
  obtain ⟨found, runs, bare, entries⟩ := withItems_of_fits (fits_of_withItems run) typed
  cases run.symm.trans runs
  choose added readAdded all using entries
  choose values kept more lists readKept readMore split using moves.entries writes.named read
  have readOther := moves.project? writes.named writesOther.named read fun kind =>
    ⟨values kind, lists kind, readKept kind⟩
  -- moved entries are before the items of their kind, as the collection was
  have readItems (kind : Kind) := moves.decode?_items
    (decode?_map_distinct (readMore kind) (fit kind)) (readAdded kind)
  obtain ⟨otherResult, otherRuns, otherBare, otherEntries⟩ :=
    withItems_of_fits (moves.fits readItems) (typed.withEntries kept)
  rw [ofJson_of_writes writesOther readOther, otherRuns]
  refine congrArg Except.ok (Project.ext_entries (otherBare.trans bare.symm) fun kind => ?_)
  obtain ⟨last, readLast, there⟩ := otherEntries kind
  rw [readItems kind] at readLast
  rw [there, all kind, split kind, ← Option.some.inj readLast, Project.entries_withEntries,
    List.append_assoc]

/-- A moved entry that does not fit as an item is a misfit. -/
theorem MovesTo.ofJson_of_unfit {text other : String} {members others : List (Key × Value)}
    {moved : Kind → List Value} (moves : MovesTo members others moved)
    (writes : Writes text members) (writesOther : Writes other others) {typed : Project}
    (read : Manifest.project? members = some typed) {kind : Kind} {v : Value} (mem : v ∈ moved kind)
    (unfit : (decode? v.distinct : Option kind.Entry) = none) :
    Manifest.ofJson other = .error (.json .misfit) := by
  choose values kept more lists readKept readMore split using moves.entries writes.named read
  have readOther := moves.project? writes.named writesOther.named read fun kind =>
    ⟨values kind, lists kind, readKept kind⟩
  rw [ofJson_of_writes writesOther readOther, moves.withItems_of_unfit mem unfit]

/-- Items add entries behind those of the collections, each kind in the order of its items, and each
item is read as the collection would read it.  The first item that does not fit decides the error.
The ends of the collections can be moved to the items if they fit there, and a reduced entry does
unless it has hollow objects. -/
theorem ofJson_items {text : String} {members : List (Key × Value)} (writes : Writes text members)
    {typed : Project} (read : project? members = some typed) :
    ((∀ item ∈ items members, Fits item) →
      ∃ result, ofJson text = .ok result ∧ result.bare = typed.bare ∧
        ∀ kind : Kind, ∃ added,
          (∀ route, decodeVia? route (.array (ofKind kind (items members))) = some added) ∧
            kind.entries result = kind.entries typed ++ added) ∧
    ((∃ item ∈ items members, ¬ Fits item) →
      ∃ before item after fault, items members = before ++ item :: after ∧
        (∀ item ∈ before, Fits item) ∧ Faulty item fault ∧ ofJson text = .error fault) ∧
    (∀ (other : String) (others : List (Key × Value)) (moved : Kind → List Value),
      Writes other others → MovesTo members others moved → ∀ result, ofJson text = .ok result →
        ((∀ kind, ∀ v ∈ moved kind, ∃ entry : kind.Entry, decode? v.distinct = some entry) →
          ofJson other = .ok result) ∧
        ((∃ kind, ∃ v ∈ moved kind, (decode? v.distinct : Option kind.Entry) = none) →
          ofJson other = .error (.json .misfit))) ∧
    ∀ (kind : Kind) (v : Value), ¬ v.HasHollow →
      (decode? v : Option kind.Entry) = decodeVia? .buffered v ∧
        ∀ entry : kind.Entry, decodeVia? .buffered v = some entry →
          decode? v.distinct = some entry := by
  have run := ofJson_of_writes writes read
  refine ⟨fun fits => ?_, fun ⟨item, mem, unfit⟩ => ?_, ?_, fun kind v solid => ⟨?_, ?_⟩⟩
  · rw [run]
    obtain ⟨result, runs, bare, entries⟩ := withItems_of_fits fits typed
    refine ⟨result, runs, bare, fun kind => ?_⟩
    obtain ⟨added, readAdded, all⟩ := entries kind
    refine ⟨added, fun route => ?_, all⟩
    cases route with
    | buffered => exact Codec.decodeVia?_buffered readAdded
    | plain => exact readAdded
  · obtain ⟨before, first, after, fault, split, fits, faulty⟩ :=
      exists_first_faulty fun fits => unfit (fits item mem)
    refine ⟨before, first, after, fault, split, fits, faulty, ?_⟩
    rw [run, split, withItems_of_faulty faulty after fits]
  · intro other others moved writesOther moves result succeeds
    have runs := run.symm.trans succeeds
    constructor
    · exact moves.ofJson writes writesOther read runs
    · rintro ⟨kind, v, mem, unfit⟩
      exact moves.ofJson_of_unfit writes writesOther read mem unfit
  · exact Codec.decode?_eq solid
  · exact fun entry => Codec.decodeVia?_distinct fun _ => solid

def mixedMembers : List (Key × Value) :=
  [("name", .string "App"),
   ("dirs", .array [.object [("name", .string "A")], .object [("name", .string "B")]]),
   ("items", .array [.object [("kind", .string "property"), ("name", .string "P")],
     .object [("kind", .string "dir"), ("name", .string "C")]])]

def movedMembers : List (Key × Value) :=
  [("items", .array [.object [("kind", .string "dir"), ("name", .string "B")],
     .object [("kind", .string "dir"), ("name", .string "C")],
     .object [("name", .string "P"), ("kind", .string "property")]]),
   ("name", .string "App"),
   ("dirs", .array [.object [("name", .string "A")]])]

def movedEntries : Kind → List Value
  | .dir => [.object [("name", .string "B")]]
  | _ => []

theorem movesTo_movedMembers : MovesTo mixedMembers movedMembers movedEntries where
  distinct := by decide
  same := by
    intro name noItems single
    have noItems : (Key.name name == Key.name "items") = false := by simp [noItems]
    have noDirs : (Key.name name == Key.name "dirs") = false := by
      simp only [beq_eq_false_iff_ne, ne_eq, Key.name.injEq]
      rintro rfl
      exact single (by decide)
    simp [mixedMembers, movedMembers, List.lookup_cons, noItems, noDirs]
  listed := by
    intro kind
    cases kind with
    | dir => exact ⟨[.object [("name", .string "A")]], .inl rfl, .inl rfl⟩
    | _ => exact ⟨[], .inr ⟨rfl, rfl⟩, .inr ⟨rfl, rfl⟩⟩
  placed := by
    intro kind
    cases kind <;> rfl
  tagged := by
    intro item mem
    have kinds : (items movedMembers).map Kind.of? = [some .dir, some .dir, some .property] := rfl
    have said : Kind.of? item ∈ (items movedMembers).map Kind.of? := List.mem_map_of_mem mem
    rw [kinds] at said
    have said : Kind.of? item = some .dir ∨ Kind.of? item = some .property := by simpa using said
    cases said with
    | inl said => exact ⟨_, said⟩
    | inr said => exact ⟨_, said⟩

theorem ofJson_items_moved :
    ∃ result, ofJson (Value.object mixedMembers).print = .ok result ∧
      result.dirs = [⟨{ name := "A" }, []⟩, ⟨{ name := "B" }, []⟩, ⟨{ name := "C" }, []⟩] ∧
      ofJson (Value.object movedMembers).print = .ok result := by
  have plain : HavePlain mixedMembers ∧ HavePlain movedMembers := by
    simp [mixedMembers, movedMembers, HavePlain, Value.IsPlain, Value.ArePlain]
  have writes : Writes (Value.object mixedMembers).print mixedMembers :=
    writes_print plain.1 (by decide) (by simp [mixedMembers]) (by decide)
  have writesMoved : Writes (Value.object movedMembers).print movedMembers :=
    writes_print plain.2 (by decide) (by simp [movedMembers]) (by decide)
  have fits : ∀ item ∈ items mixedMembers, Fits item :=
    List.forall_mem_cons.mpr ⟨⟨.property, rfl, _, rfl⟩,
      List.forall_mem_singleton.mpr ⟨.dir, rfl, _, rfl⟩⟩
  have read : project? mixedMembers = some { name := "App", dirs := [⟨{ name := "A" }, []⟩,
    ⟨{ name := "B" }, []⟩] } := rfl
  have fit : ∀ kind, ∀ v ∈ movedEntries kind, ∃ entry : kind.Entry,
      decode? v.distinct = some entry := by
    intro kind
    cases kind with
    | dir => exact List.forall_mem_singleton.mpr ⟨_, rfl⟩
    | _ => exact List.forall_mem_nil _
  obtain ⟨added, _, moving, _⟩ := ofJson_items writes read
  obtain ⟨result, succeeds, _, entries⟩ := added fits
  obtain ⟨dirs, readDirs, all⟩ := entries .dir
  cases readDirs .plain
  exact ⟨result, succeeds, all,
    (moving _ _ _ writesMoved movesTo_movedMembers result succeeds).1 fit⟩

/-! ## An entry that cannot be moved -/

/-- The value of a key, with its type as an object. -/
def hollowValue : Value :=
  .object [("root", .string "HKLM"), ("key", .string "Software"),
    ("type", .object [("string", .object [])])]

def hollowMembers : List (Key × Value) :=
  [("name", .string "App"), ("reg_values", .array [hollowValue])]

def hollowItems : List (Key × Value) :=
  [("name", .string "App"),
   ("items", .array [.object [("kind", .string "registry"), ("root", .string "HKLM"),
     ("key", .string "Software"), ("type", .object [("string", .object [])])]])]

def hollowEntries : Kind → List Value
  | .registry => [hollowValue]
  | _ => []

theorem movesTo_hollowItems : MovesTo hollowMembers hollowItems hollowEntries where
  distinct := by decide
  same := by
    intro name noItems single
    have noItems : (Key.name name == Key.name "items") = false := by simp [noItems]
    have noValues : (Key.name name == Key.name "reg_values") = false := by
      simp only [beq_eq_false_iff_ne, ne_eq, Key.name.injEq]
      rintro rfl
      exact single (by decide)
    simp [hollowMembers, hollowItems, List.lookup_cons, noItems, noValues]
  listed := by
    intro kind
    cases kind with
    | registry => exact ⟨[], .inl rfl, .inr ⟨rfl, rfl⟩⟩
    | _ => exact ⟨[], .inr ⟨rfl, rfl⟩, .inr ⟨rfl, rfl⟩⟩
  placed := by
    intro kind
    cases kind <;> rfl
  tagged := List.forall_mem_singleton.mpr ⟨.registry, rfl⟩

/-- Not every entry of a collection can be moved to the items. -/
theorem not_ofJson_hollowItems : MovesTo hollowMembers hollowItems hollowEntries ∧
    ofJson (Value.object hollowMembers).print =
      .ok { name := "App", regValues := [{ root := .localMachine, key := "Software" }] } ∧
    ofJson (Value.object hollowItems).print = .error (.json .misfit) := by
  have plain : HavePlain hollowMembers ∧ HavePlain hollowItems := by
    simp [hollowMembers, hollowItems, hollowValue, HavePlain, Value.IsPlain, Value.ArePlain]
  have writes : Writes (Value.object hollowMembers).print hollowMembers :=
    writes_print plain.1 (by decide) (by simp [hollowMembers]) (by decide)
  have writesItems : Writes (Value.object hollowItems).print hollowItems :=
    writes_print plain.2 (by decide) (by simp [hollowItems]) (by decide)
  have read : project? hollowMembers =
      some { name := "App", regValues := [{ root := .localMachine, key := "Software" }] } := rfl
  have mem : hollowValue ∈ hollowEntries .registry := List.mem_cons_self
  have unfit : (decode? hollowValue.distinct : Option (Kind.Entry .registry)) = none := rfl
  exact ⟨movesTo_hollowItems, ofJson_of_writes writes read,
    movesTo_hollowItems.ofJson_of_unfit writes writesItems read mem unfit⟩

end Installer.Manifest
