import Installer.Guid.Basic
import Installer.Json.Value
import Installer.Project.Attributes
import Installer.Project.Choice

/-! # Values in a manifest

A codec says how a type is written as a JSON value and which values are read as one of its members.
Reading converts nothing: a number is no text and a text is no number.
-/

namespace Installer

open Json (Value)

/-- The way that a value takes from the text to the codec of its type. -/
inductive Route where
  /-- It is kept as it stands in the text, as the members of a manifest are. -/
  | buffered
  /-- It is made a plain value first, as the items of a manifest are. -/
  | plain
deriving DecidableEq

/-- A type with a written form. -/
class Codec (α : Type) where
  encode : α → Value
  decodeVia? : Route → Value → Option α

export Codec (encode decodeVia?)

/-- What a plain value is read as. -/
def decode? {α : Type} [Codec α] : Value → Option α :=
  decodeVia? .plain

namespace Codec

instance : Codec String where
  encode := .string
  decodeVia? _ := Value.asString?

instance : Codec Bool where
  encode := .bool
  decodeVia? _ := Value.asBool?

instance : Codec UInt32 where
  encode n := .integer false n.toNat
  decodeVia? _ := Value.asUInt32?

/-- An absent value is written as `null`. -/
instance {α : Type} [Codec α] : Codec (Option α) where
  encode
    | none => .null
    | some a => encode a
  decodeVia?
    | _, .null => some none
    | route, v => (decodeVia? route v).map some

instance {α : Type} [Codec α] : Codec (List α) where
  encode items := .array (items.map encode)
  decodeVia? route v := v.asArray?.bind fun items => items.mapM (decodeVia? route)

/-- The value says nothing. On its way through the buffer an empty object says nothing either. -/
def isUnit : Route → Value → Bool
  | _, .null => true
  | .buffered, .object [] => true
  | _, _ => false

/-- The value of a choice that has the given name, or the given place in their order. -/
def choiceOf? {α : Type} [Choice α] (ofName? : String → Option α) : Json.Key → Option α
  | .name text => ofName? text
  | .place n => (Choice.all : List α)[n]?
  | .stray => none

/-- Reads a choice, given by a name or by the only member of an object, which says nothing more. -/
def choice? {α : Type} [Choice α] (ofName? : String → Option α) (route : Route) : Value → Option α
  | .string name => ofName? name
  | .object [(key, v)] => if isUnit route v then choiceOf? ofName? key else none
  | _ => none

instance {α : Type} [Choice α] : Codec α where
  encode value := .string (Choice.name value)
  decodeVia? := choice? Choice.ofName?

instance : Codec Guid where
  encode guid := .string (toString guid)
  decodeVia? _ v := v.asString?.bind Guid.ofString?

instance : Codec Attributes where
  encode attributes := .object (attributes.pairs.map fun pair => (.name pair.1, .string pair.2))
  decodeVia? _ v := do
    let members ← v.asObject?
    let pairs ← members.mapM fun member => (member.2.asString?).map fun text => (member.1, text)
    return .ofList pairs

end Codec

/-! ## Members of an object -/

section

variable {α : Type} [Codec α] (route : Route) (members : List (String × Value)) (name : String)

def required : Option α :=
  (members.lookup name).bind (decodeVia? route)

/-- The value of a member that has a default when it is not there. -/
def orDefault (default : α) : Option α :=
  match members.lookup name with
  | none => some default
  | some v => decodeVia? route v

/-- The value of a member that may be absent or `null`. -/
def optional : Option (Option α) :=
  orDefault route members name none

end

end Installer
