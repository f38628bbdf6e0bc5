import Installer.Json.Double

/-! # JSON values

A value keeps whole numbers apart from decimals, because a manifest accepts only the former where a
number is asked for. Members of an object keep the order of the text.
-/

namespace Installer.Json

inductive Key where
  | name (text : String)
  /-- The number of its place among the members that an object of its kind can have. -/
  | place (n : Nat)
  /-- Something that calls no member of any object. -/
  | stray
deriving DecidableEq, Repr

instance : Coe String Key where
  coe := .name

/-- The name that a key gives among the names of the members that an object can have, in their
order; none where it calls another member. -/
def Key.among? (names : List String) : Key → Option String
  | .name text => if text ∈ names then some text else none
  | .place n => names[n]?
  | .stray => none

inductive Value where
  | null
  | bool (b : Bool)
  /-- A number without fraction and exponent that fits a machine word, with its sign. JSON has no
  minus zero here, but a document in another format may. -/
  | integer (negative : Bool) (n : Nat)
  /-- Any other number, with the double that it is kept as. -/
  | decimal (negative : Bool) (x : Double)
  | string (s : String)
  | array (items : List Value)
  | object (members : List (Key × Value))

instance : Inhabited Value := ⟨.null⟩

namespace Value

def asString? : Value → Option String
  | .string s => some s
  | _ => none

def asBool? : Value → Option Bool
  | .bool b => some b
  | _ => none

def asArray? : Value → Option (List Value)
  | .array items => some items
  | _ => none

/-- The number of a whole number that fits 32 bits without sign. -/
def asUInt32? : Value → Option UInt32
  | .integer negative n =>
    if (!negative || n == 0) && n < UInt32.size then some (UInt32.ofNat n) else none
  | _ => none

/-! ## Members -/

def named? : Key × Value → Option (String × Value)
  | (.name text, v) => some (text, v)
  | _ => none

/-- The members of an object in which all have names. -/
def asObject? : Value → Option (List (String × Value))
  | .object members => members.mapM named?
  | _ => none

def member? (name : String) : Value → Option Value
  | .object members => members.lookup (.name name)
  | _ => none

/-- The members among the given ones that an object has. No member may be there twice or have a key
that is none; members with other names are passed over. -/
def fieldsOf? (names : List String) (members : List (Key × Value)) :
    Option (List (String × Value)) :=
  let fields := members.filterMap fun member => (member.1.among? names).map (·, member.2)
  if (members.any fun member => member.1 == .stray) || !(fields.map Prod.fst).Nodup then none
  else some fields

/-- The members whose values are the items of an array, in the order of the names. Those at the end
may be missing. -/
def listed? (names : List String) (items : List Value) : Option (List (String × Value)) :=
  if items.length ≤ names.length then some (names.zip items) else none

/-- The members among the given ones that a value has, which is an object or lists them. -/
def fields? (names : List String) : Value → Option (List (String × Value))
  | .object members => fieldsOf? names members
  | .array items => listed? names items
  | _ => none

/-! ## Repeated members -/

/-- The members without those whose key a later one has. -/
def lastOfEach : List (Key × Value) → List (Key × Value)
  | [] => []
  | member :: rest =>
    if rest.any fun later => later.1 == member.1 then lastOfEach rest
    else member :: lastOfEach rest

mutual

/-- The value with only the last of the members that have one key, in every object. -/
def distinct : Value → Value
  | .array items => .array (distinctItems items)
  | .object members => .object (lastOfEach (distinctMembers members))
  | v => v
termination_by structural v => v

def distinctItems : List Value → List Value
  | [] => []
  | item :: rest => distinct item :: distinctItems rest
termination_by structural items => items

def distinctMembers : List (Key × Value) → List (Key × Value)
  | [] => []
  | (key, member) :: rest => (key, distinct member) :: distinctMembers rest
termination_by structural members => members

end

end Value

end Installer.Json
