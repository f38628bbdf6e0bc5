import Installer.Json.Value
import Installer.Yaml.Node

/-! # Values of documents

The value that a node amounts to. It may be read in two ways: with keys as what they resolve to, so
that a number calls a member by its place, or with every key as the name that its characters give,
and with such numbers only as JSON has.
-/

namespace Installer.Yaml

open Json (Key Value)

/-- How keys and numbers are read. -/
inductive Reading where
  /-- Keys are what they resolve to. -/
  | resolved
  /-- Keys are names, a number beyond every double is null, and zero has no sign. -/
  | named
deriving DecidableEq, Repr

/-- The key that a scalar resolves to, `none` where it has no value. A number with a minus before it
is no place. -/
def Scalar.key? (s : Scalar) : Option Key :=
  s.value?.map fun
    | .string text => .name text
    | .integer false n => .place n
    | _ => .stray

/-- The value as JSON has it: null in place of a number beyond every double, and zero without a
sign.
-/
def asJson : Value → Value
  | .integer _ 0 => .integer false 0
  | .decimal negative x => if x.overflows then .null else .decimal negative x
  | v => v

namespace Node

mutual

/-- The value of a node in which at most `depth` sequences and mappings stand inside one another,
`none` where there are more, where a number cannot be kept, or where something else than a scalar is
to be a name. -/
def value? (reading : Reading) (depth : Nat) : Node → Option Value
  | .scalar s =>
    match reading with
    | .resolved => s.value?
    | .named => s.value?.map asJson
  | .sequence items =>
    if depth = 0 then none else (itemValues? reading (depth - 1) items).map .array
  | .mapping entries =>
    if depth = 0 then none else (members? reading (depth - 1) entries).map .object
termination_by structural node => node

def itemValues? (reading : Reading) (depth : Nat) : List Node → Option (List Value)
  | [] => some []
  | item :: rest => do
    let v ← value? reading depth item
    return v :: (← itemValues? reading depth rest)
termination_by structural items => items

def members? (reading : Reading) (depth : Nat) :
    List (Node × Node) → Option (List (Key × Value))
  | [] => some []
  | entry :: rest => do
    let member ← member? reading depth entry
    return member :: (← members? reading depth rest)
termination_by structural entries => entries

def member? (reading : Reading) (depth : Nat) : Node × Node → Option (Key × Value)
  | (.scalar s, node) => do
    let key ← match reading with
      | .resolved => s.key?
      | .named => some (.name s.text)
    return (key, ← value? reading depth node)
  | (key, node) => do
    let _ ← match reading with
      | .resolved => value? reading depth key
      | .named => none
    return (.stray, ← value? reading depth node)
termination_by structural entry => entry

end

end Node

end Installer.Yaml
