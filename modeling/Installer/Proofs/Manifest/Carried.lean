import Installer.Proofs.Manifest.Routes

/-! # Every entry takes both routes

The law of `Codec.Carried` for records, for directories with what is below them, and for actions.  A
record has it if its members have it, and they are taken up one by one in the order in which the
record reads them.
-/

namespace Installer

open Json (Key Value)
open Json.Value (fieldsOf? listed?)

/-! ## Records -/

namespace Json.Value.Related

open Codec (Carried Keeps)

variable {α : Type} [Codec α] [Carried α] {route other : Route}
  {fields otherFields : List (String × Value)}

/-- A member is there both times or is missing both times. -/
theorem absent_or_keeps (related : Related other fields otherFields) (route : Route)
    (name : String) : fields.lookup name = none ∧ otherFields.lookup name = none ∨
      ∃ v w, fields.lookup name = some v ∧ otherFields.lookup name = some w ∧
        Keeps (decodeVia? route v : Option α) (decodeVia? other w) := by
  obtain ⟨R, carries, related⟩ := related
  have here := related name
  cases found : fields.lookup name <;> cases otherFound : otherFields.lookup name <;>
    rw [found, otherFound] at here <;> cases here
  case none => exact .inl ⟨rfl, rfl⟩
  case some rel => exact .inr ⟨_, _, rfl, rfl, Carried.keeps carries rel⟩

theorem required (related : Related other fields otherFields) (name : String) :
    Keeps (required route fields name : Option α) (required other otherFields name) := by
  rw [Installer.required, Installer.required]
  obtain ⟨none, otherNone⟩ | ⟨v, w, found, otherFound, keeps⟩ :=
    related.absent_or_keeps (α := α) route name
  · rw [none, otherNone]
    exact .refl _
  · rw [found, otherFound]
    exact keeps

theorem orDefault (related : Related other fields otherFields) (name : String) (default : α) :
    Keeps (orDefault route fields name default) (orDefault other otherFields name default) := by
  rw [Installer.orDefault, Installer.orDefault]
  obtain ⟨none, otherNone⟩ | ⟨v, w, found, otherFound, keeps⟩ :=
    related.absent_or_keeps (α := α) route name
  · rw [none, otherNone]
    exact .refl _
  · rw [found, otherFound]
    exact keeps

end Json.Value.Related

namespace Codec

open Json.Value (Carries Reduces Related)

section

variable {α : Type} {R : Value → Value → Prop} {other : Route} {names : List String}
  {read otherRead : List (String × Value) → Option α}

theorem keeps_members {first second : Option (List (String × Value))}
    (finds : ∀ fields, first = some fields →
      ∃ otherFields, second = some otherFields ∧ Related other fields otherFields)
    (each : ∀ {fields otherFields}, Related other fields otherFields →
      Keeps (read fields) (otherRead otherFields)) :
    Keeps (first >>= read) (second >>= otherRead) := by
  intro a found
  obtain ⟨fields, given, found⟩ := Option.bind_eq_some_iff.mp found
  obtain ⟨otherFields, otherGiven, related⟩ := finds fields given
  exact Option.bind_eq_some_iff.mpr ⟨otherFields, otherGiven, each related a found⟩

theorem keeps_fieldsOf? {members others : List (Key × Value)} (carries : Carries R other)
    (reduces : Reduces R members others)
    (each : ∀ {fields otherFields}, Related other fields otherFields →
      Keeps (read fields) (otherRead otherFields)) :
    Keeps (fieldsOf? names members >>= read) (fieldsOf? names others >>= otherRead) :=
  keeps_members (fun _ => reduces.exists_fieldsOf? carries) each

theorem keeps_fields? {v w : Value} (carries : Carries R other) (rel : R v w)
    (each : ∀ {fields otherFields}, Related other fields otherFields →
      Keeps (read fields) (otherRead otherFields)) :
    Keeps (v.fields? names >>= read) (w.fields? names >>= otherRead) :=
  keeps_members (fun _ => Value.exists_fields? carries rel) each

end

instance : Carried Condition where
  keeps {_ route other v w} carries rel := by
    have follows := carries.follows rel
    cases v with
    | string text =>
      cases follows
      exact .refl _
    | object members =>
      obtain ⟨others, rfl, reduces⟩ := follows
      refine keeps_fieldsOf? carries reduces fun related => ?_
      refine .bind (related.required _) fun _ => ?_
      refine .bind (related.orDefault _ _) fun _ => ?_
      exact .refl _
    | _ => exact nofun

instance : Carried Permission where
  keeps carries rel := keeps_fields? carries rel fun related => by
    refine .bind (related.required _) fun _ => ?_
    iterate 5 refine .bind (related.orDefault _ _) fun _ => ?_
    exact .refl _

instance : Carried Shortcut where
  keeps carries rel := keeps_fields? carries rel fun related => by
    refine .bind (related.required _) fun _ => ?_
    iterate 8 refine .bind (related.orDefault _ _) fun _ => ?_
    exact .refl _

instance : Carried FileAssociation where
  keeps carries rel := keeps_fields? carries rel fun related => by
    refine .bind (related.required _) fun _ => ?_
    iterate 8 refine .bind (related.orDefault _ _) fun _ => ?_
    exact .refl _

instance : Carried ServiceInstaller where
  keeps carries rel := keeps_fields? carries rel fun related => by
    refine .bind (related.required _) fun _ => ?_
    iterate 11 refine .bind (related.orDefault _ _) fun _ => ?_
    exact .refl _

instance : Carried File where
  keeps carries rel := keeps_fields? carries rel fun related => by
    refine .bind (related.required _) fun _ => ?_
    iterate 10 refine .bind (related.orDefault _ _) fun _ => ?_
    exact .refl _

instance : Carried MergeModule where
  keeps carries rel := keeps_fields? carries rel fun related => by
    refine .bind (related.required _) fun _ => ?_
    iterate 4 refine .bind (related.orDefault _ _) fun _ => ?_
    exact .refl _

instance : Carried RegValue where
  keeps carries rel := keeps_fields? carries rel fun related => by
    iterate 2 refine .bind (related.required _) fun _ => ?_
    iterate 10 refine .bind (related.orDefault _ _) fun _ => ?_
    exact .refl _

instance : Carried EnvVar where
  keeps carries rel := keeps_fields? carries rel fun related => by
    refine .bind (related.required _) fun _ => ?_
    iterate 9 refine .bind (related.orDefault _ _) fun _ => ?_
    exact .refl _

instance : Carried User where
  keeps carries rel := keeps_fields? carries rel fun related => by
    refine .bind (related.required _) fun _ => ?_
    iterate 11 refine .bind (related.orDefault _ _) fun _ => ?_
    exact .refl _

theorem keeps_execution {route other : Route} {fields otherFields : List (String × Value)}
    (related : Related other fields otherFields) :
    Keeps (SqlExecution.decodeMembers? route fields)
      (SqlExecution.decodeMembers? other otherFields) := by
  iterate 5 refine .bind (related.orDefault _ _) fun _ => ?_
  exact .refl _

instance : Carried SqlString where
  keeps carries rel := keeps_fields? carries rel fun related => by
    refine .bind (related.required _) fun _ => ?_
    refine .bind (related.orDefault _ _) fun _ => ?_
    refine .bind (keeps_execution related) fun _ => ?_
    refine .bind (related.orDefault _ _) fun _ => ?_
    exact .refl _

instance : Carried SqlScript where
  keeps carries rel := keeps_fields? carries rel fun related => by
    refine .bind (related.required _) fun _ => ?_
    refine .bind (related.orDefault _ _) fun _ => ?_
    refine .bind (keeps_execution related) fun _ => ?_
    refine .bind (related.orDefault _ _) fun _ => ?_
    exact .refl _

instance : Carried SqlDatabase where
  keeps carries rel := keeps_fields? carries rel fun related => by
    iterate 2 refine .bind (related.required _) fun _ => ?_
    iterate 14 refine .bind (related.orDefault _ _) fun _ => ?_
    exact .refl _

instance : Carried Certificate where
  keeps carries rel := keeps_fields? carries rel fun related => by
    refine .bind (related.required _) fun _ => ?_
    refine .bind (related.orDefault _ _) fun _ => ?_
    iterate 2 refine .bind (related.required _) fun _ => ?_
    iterate 7 refine .bind (related.orDefault _ _) fun _ => ?_
    exact .refl _

instance : Carried RegistrySearch where
  keeps carries rel := keeps_fields? carries rel fun related => by
    iterate 2 refine .bind (related.required _) fun _ => ?_
    refine .bind (related.orDefault _ _) fun _ => ?_
    exact .refl _

instance : Carried Property where
  keeps carries rel := keeps_fields? carries rel fun related => by
    refine .bind (related.required _) fun _ => ?_
    iterate 4 refine .bind (related.orDefault _ _) fun _ => ?_
    exact .refl _

instance : Carried Binary where
  keeps carries rel := keeps_fields? carries rel fun related => by
    refine .bind (related.required _) fun _ => ?_
    iterate 3 refine .bind (related.orDefault _ _) fun _ => ?_
    exact .refl _

instance : Carried LaunchCondition where
  keeps carries rel := keeps_fields? carries rel fun related => by
    iterate 2 refine .bind (related.required _) fun _ => ?_
    refine .bind (related.orDefault _ _) fun _ => ?_
    exact .refl _

instance : Carried FeatureCondition where
  keeps carries rel := keeps_fields? carries rel fun related => by
    iterate 2 refine .bind (related.required _) fun _ => ?_
    exact .refl _

instance : Carried Feature where
  keeps carries rel := keeps_fields? carries rel fun related => by
    refine .bind (related.required _) fun _ => ?_
    iterate 8 refine .bind (related.orDefault _ _) fun _ => ?_
    exact .refl _

end Codec

/-! ## Directories -/

namespace Dir

open Codec (Keeps)
open Json.Value (Carries Reduces Related known)

section

variable {R : Value → Value → Prop} {route other : Route}

theorem keeps_body {fields otherFields : List (String × Value)}
    (related : Related other fields otherFields) :
    Keeps (DirBody.decodeMembers? route fields) (DirBody.decodeMembers? other otherFields) := by
  refine .bind (related.required _) fun _ => ?_
  iterate 6 refine .bind (related.orDefault _ _) fun _ => ?_
  exact .refl _

mutual

theorem keeps_decodeVia? (carries : Carries R other) : ∀ (v : Value) {w : Value}, R v w →
    Keeps (decodeVia? route v) (decodeVia? other w)
  | .object members, w, rel => by
    obtain ⟨others, rfl, reduces⟩ := carries.follows rel
    intro dir read
    rw [decodeVia?] at read
    obtain ⟨body, readBody, read⟩ := Option.bind_eq_some_iff.mp read
    obtain ⟨dirs, readDirs, read⟩ := Option.bind_eq_some_iff.mp read
    obtain ⟨fields, found, _⟩ := Option.bind_eq_some_iff.mp readBody
    have distinct := (Value.fieldsOf?_eq_some_iff.mp found).2.1
    have readBody := Codec.keeps_fieldsOf? carries reduces keeps_body body readBody
    have readDirs := keeps_decodeNested? carries members reduces distinct dirs readDirs
    rw [decodeVia?]
    exact Option.bind_eq_some_iff.mpr ⟨body, readBody,
      Option.bind_eq_some_iff.mpr ⟨dirs, readDirs, read⟩⟩
  | .array items, w, rel => by
    obtain ⟨others, rfl, same⟩ := carries.follows rel
    rw [decodeVia?, decodeVia?]
    refine .bind (Codec.keeps_members (fun _ => Value.exists_listed? carries same) keeps_body)
      fun _ => ?_
    exact .bind (keeps_decodeListed? carries items same _) fun _ => .refl _
  | .null, _, _ => nofun
  | .bool _, _, _ => nofun
  | .integer _ _, _, _ => nofun
  | .decimal _ _, _, _ => nofun
  | .string _, _, _ => nofun
termination_by structural v => v

theorem keeps_decodeNested? (carries : Carries R other) :
    ∀ (members : List (Key × Value)) {others : List (Key × Value)}, Reduces R members others →
      ((known memberNames members).map Prod.fst).Nodup →
        Keeps (decodeNested? route members) (decodeNested? other others)
  | [], _, .nil, _ => .refl _
  | (_, v) :: members, _, .keep key rel rest, distinct => by
    rw [decodeNested?, decodeNested?]
    split
    · exact keeps_decodeArray? carries v rel
    · exact keeps_decodeNested? carries members rest (Value.nodup_known_of_cons distinct)
  | _ :: members, _, .drop _ later rest, distinct => by
    -- the directories below are read of a known member, so this one is passed over
    rw [decodeNested?, Value.among?_eq_none_of_later distinct later, if_neg nofun]
    exact keeps_decodeNested? carries members rest (Value.nodup_known_of_cons distinct)
termination_by structural members => members

theorem keeps_decodeListed? (carries : Carries R other) :
    ∀ (items : List Value) {others : List Value}, List.Forall₂ R items others →
      ∀ n, Keeps (decodeListed? route n items) (decodeListed? other n others)
  | [], _, .nil, _ => .refl _
  | item :: _, _, .cons rel _, 0 => by
    rw [decodeListed?, decodeListed?]
    exact keeps_decodeArray? carries item rel
  | _ :: items, _, .cons _ rest, n + 1 => by
    rw [decodeListed?, decodeListed?]
    exact keeps_decodeListed? carries items rest n
termination_by structural items => items

theorem keeps_decodeArray? (carries : Carries R other) : ∀ (v : Value) {w : Value}, R v w →
    Keeps (decodeArray? route v) (decodeArray? other w)
  | .array items, w, rel => by
    obtain ⟨others, rfl, same⟩ := carries.follows rel
    rw [decodeArray?, decodeArray?]
    exact keeps_decodeAll? carries items same
  | .object _, _, _ => nofun
  | .null, _, _ => nofun
  | .bool _, _, _ => nofun
  | .integer _ _, _, _ => nofun
  | .decimal _ _, _, _ => nofun
  | .string _, _, _ => nofun
termination_by structural v => v

theorem keeps_decodeAll? (carries : Carries R other) :
    ∀ (items : List Value) {others : List Value}, List.Forall₂ R items others →
      Keeps (decodeAll? route items) (decodeAll? other others)
  | [], _, .nil => .refl _
  | item :: items, _, .cons rel rest => by
    rw [decodeAll?, decodeAll?]
    refine .bind (keeps_decodeVia? carries item rel) fun _ => ?_
    exact .bind (keeps_decodeAll? carries items rest) fun _ => .refl _
termination_by structural items => items

end

end

end Dir

instance : Codec.Carried Dir where
  keeps {_ _ _ v _} carries rel := Dir.keeps_decodeVia? carries v rel

/-! ## Actions -/

namespace ActionKind

open Codec (Keeps)
open Json.Value (Carries Reduces Related)

variable {R : Value → Value → Prop} {route other : Route} {members others : List (Key × Value)}

theorem keeps_kindOf? {v w : Value} (carries : Carries R other) (rel : R v w) :
    Keeps (kindOf? v) (kindOf? w) :=
  Codec.keeps_single _ carries rel (fun _ => rfl) fun _ => rfl

theorem exists_typeOf? {v : Value} (reduces : Reduces R members others)
    (type : typeOf? members = some v) : ∃ w, typeOf? others = some w ∧ R v w := by
  have types := reduces.filter (· == .name "type")
  rw [typeOf?] at type
  split at type
  case h_1 key x given =>
    cases type
    rw [given] at types
    obtain ⟨w, given, rel⟩ := types.singleton
    exact ⟨w, by rw [typeOf?, given], rel⟩
  case h_2 => cases type

theorem keeps_decodeFields? {fields otherFields : List (String × Value)}
    (related : Related other fields otherFields) (name : String) :
    Keeps (decodeFields? route fields name) (decodeFields? other otherFields name) := by
  unfold decodeFields?
  split
  case h_1 => exact .bind (related.required _) fun _ => .bind (related.required _) fun _ => .refl _
  case h_2 => exact .bind (related.required _) fun _ => .refl _
  case h_3 => exact .bind (related.required _) fun _ => .bind (related.required _) fun _ => .refl _
  case h_4 =>
    refine .bind (related.required _) fun _ => .bind (related.required _) fun _ => ?_
    exact .bind (related.orDefault _ _) fun _ => .refl _
  case h_5 | h_6 | h_7 =>
    exact .bind (related.required _) fun _ => .bind (related.orDefault _ _) fun _ => .refl _
  case h_8 =>
    refine .bind (related.required _) fun _ => .bind (related.orDefault _ _) fun _ => ?_
    exact .bind (related.orDefault _ _) fun _ => .refl _
  case h_9 => exact .refl _

theorem keeps_decodeMembers? (carries : Carries R other) (reduces : Reduces R members others) :
    Keeps (decodeMembers? route members) (decodeMembers? other others) := by
  intro action read
  obtain ⟨kind, type, read⟩ := Option.bind_eq_some_iff.mp read
  obtain ⟨v, type, given⟩ := Option.bind_eq_some_iff.mp type
  obtain ⟨w, otherType, rel⟩ := exists_typeOf? reduces type
  have otherGiven := keeps_kindOf? carries rel kind given
  have rest := Codec.keeps_fieldsOf? carries reduces
    (fun related => keeps_decodeFields? related kind.1) action read
  rw [decodeMembers?, otherType]
  exact Option.bind_eq_some_iff.mpr ⟨kind, otherGiven, rest⟩

end ActionKind

namespace Codec

open Json.Value (Carries Reduces Related)

instance : Carried CustomAction where
  keeps {_ route other v w} carries rel := by
    have follows := carries.follows rel
    cases v with
    | object members =>
      obtain ⟨others, rfl, reduces⟩ := follows
      -- what the action does not own itself is left for its kind
      have kinds : Reduces _ (members.filter (not ∘ fun member => CustomAction.ownsKey member.1))
          (others.filter (not ∘ fun member => CustomAction.ownsKey member.1)) :=
        reduces.filter fun key => !CustomAction.ownsKey key
      simp only [decodeVia?, List.partition_eq_filter_filter]
      refine keeps_fieldsOf? carries (reduces.filter CustomAction.ownsKey) fun related => ?_
      refine .bind (related.required _) fun _ => ?_
      refine .bind (related.orDefault _ _) fun _ => ?_
      refine .bind (ActionKind.keeps_decodeMembers? carries kinds) fun _ => ?_
      iterate 9 refine .bind (related.orDefault _ _) fun _ => ?_
      exact .refl _
    | _ =>
      intro action read
      cases read

end Codec

instance Entity.Kind.carried : (kind : Entity.Kind) → Codec.Carried kind.Entry
  | .dir => inferInstanceAs (Codec.Carried Dir)
  | .action => inferInstanceAs (Codec.Carried CustomAction)
  | .registry => inferInstanceAs (Codec.Carried RegValue)
  | .env => inferInstanceAs (Codec.Carried EnvVar)
  | .property => inferInstanceAs (Codec.Carried Property)
  | .binary => inferInstanceAs (Codec.Carried Binary)
  | .user => inferInstanceAs (Codec.Carried User)
  | .sql => inferInstanceAs (Codec.Carried SqlDatabase)
  | .certificate => inferInstanceAs (Codec.Carried Certificate)
  | .launchCondition => inferInstanceAs (Codec.Carried LaunchCondition)
  | .feature => inferInstanceAs (Codec.Carried Feature)

end Installer
