import Installer.Manifest.Codec
import Installer.Project.Action

/-! # The written form of actions

What an action does is written among the members of the action itself, told apart by `type`.
-/

namespace Installer

open Json (Key Value)

instance : Codec Step where
  encode step := .string step.toString
  decodeVia? _ v := v.asString?.map Step.ofString

namespace ActionKind

def encodeMembers : ActionKind → List (Key × Value)
  | .setProperty property value =>
    [("type", .string "set-property"), ("property", encode property), ("value", encode value)]
  | .script code => [("type", .string "script"), ("code", encode code)]
  | .scriptFile file procedure =>
    [("type", .string "script-file"), ("script_file", encode file),
     ("procedure", encode procedure)]
  | .managed assembly method usesProperties =>
    [("type", .string "managed"), ("assembly", encode assembly), ("method", encode method),
     ("uses_properties", encode usesProperties)]
  | .quietCommand program args =>
    [("type", .string "qt-cmd-line"), ("app_path", encode program), ("args", encode args)]
  | .installedFile fileKey args =>
    [("type", .string "installed-file"), ("file_key", encode fileKey), ("args", encode args)]
  | .binaryFile binaryKey args =>
    [("type", .string "binary-file"), ("binary_key", encode binaryKey), ("args", encode args)]
  | .pathFile program args workingDir =>
    [("type", .string "path-file"), ("app_path", encode program), ("args", encode args),
     ("working_dir", encode workingDir)]

/-- The names of the kinds in their order, each with the names of the members that an action of the
kind has. -/
def kinds : List (String × List String) :=
  [("set-property", ["property", "value"]),
   ("script", ["code"]),
   ("script-file", ["script_file", "procedure"]),
   ("managed", ["assembly", "method", "uses_properties"]),
   ("qt-cmd-line", ["app_path", "args"]),
   ("installed-file", ["file_key", "args"]),
   ("binary-file", ["binary_key", "args"]),
   ("path-file", ["app_path", "args", "working_dir"])]

/-- The kind that a value stands for, by its name or its place in the order, which has no sign. -/
def kindOf? : Value → Option (String × List String)
  | .string name => kinds.find? fun kind => kind.1 == name
  | .integer false n => kinds[n]?
  | _ => none

/-- The value that tells the kind, which must be there once. -/
def typeOf? (members : List (Key × Value)) : Option Value :=
  match members.filter fun member => member.1 == .name "type" with
  | [(_, v)] => some v
  | _ => none

def decodeFields? (route : Route) (fields : List (String × Value)) : String → Option ActionKind
  | "set-property" =>
    return .setProperty (← required route fields "property") (← required route fields "value")
  | "script" => return .script (← required route fields "code")
  | "script-file" =>
    return .scriptFile (← required route fields "script_file") (← required route fields "procedure")
  | "managed" =>
    return .managed (← required route fields "assembly") (← required route fields "method")
      (← orDefault route fields "uses_properties" [])
  | "qt-cmd-line" =>
    return .quietCommand (← required route fields "app_path") (← orDefault route fields "args" "")
  | "installed-file" =>
    return .installedFile (← required route fields "file_key") (← orDefault route fields "args" "")
  | "binary-file" =>
    return .binaryFile (← required route fields "binary_key") (← orDefault route fields "args" "")
  | "path-file" =>
    return .pathFile (← required route fields "app_path") (← orDefault route fields "args" "")
      (← orDefault route fields "working_dir" "")
  | _ => none

def decodeMembers? (route : Route) (members : List (Key × Value)) : Option ActionKind := do
  let kind ← (typeOf? members).bind kindOf?
  decodeFields? route (← Value.fieldsOf? kind.2 members) kind.1

end ActionKind

/-- What an action does, as a value of its own. There its kind is given by name, which comes first
where the members are listed. -/
instance : Codec ActionKind where
  encode kind := .object kind.encodeMembers
  decodeVia?
    | route, .object members =>
      if ((ActionKind.typeOf? members).bind Value.asString?).isSome then
        ActionKind.decodeMembers? route members
      else none
    | route, .array (.string name :: items) => do
      let kind ← ActionKind.kindOf? (.string name)
      ActionKind.decodeFields? route (← Value.listed? kind.2 items) kind.1
    | _, _ => none

/-- The names of the members of an action that do not tell what it does. They are called by name
only; all other members belong to what the action does. -/
def CustomAction.memberNames : List String :=
  ["name", "id", "when", "step", "sequence_number", "sequences", "condition", "execute", "return",
   "impersonate", "attributes"]

def CustomAction.ownsKey : Key → Bool
  | .name text => memberNames.contains text
  | _ => false

def CustomAction.encodeMembers (action : CustomAction) : List (Key × Value) :=
  [("name", encode action.name),
   ("id", encode action.id),
   ("when", encode action.placed),
   ("step", encode action.step),
   ("sequence_number", encode action.sequenceNumber),
   ("sequences", encode action.sequences),
   ("condition", encode action.condition),
   ("execute", encode action.execute),
   ("return", encode action.result),
   ("impersonate", encode action.impersonate),
   ("attributes", encode action.attributes)]

instance : Codec CustomAction where
  encode action := .object (action.encodeMembers ++ action.kind.encodeMembers)
  decodeVia?
    | route, .object members => do
      let (own, others) := members.partition fun member => CustomAction.ownsKey member.1
      let fields ← Value.fieldsOf? CustomAction.memberNames own
      return {
        name := ← required route fields "name"
        id := ← optional route fields "id"
        kind := ← ActionKind.decodeMembers? route others
        placed := ← orDefault route fields "when" .after
        step := ← orDefault route fields "step" (.named Step.installFinalize)
        sequenceNumber := ← optional route fields "sequence_number"
        sequences := ← orDefault route fields "sequences" [.installExecute]
        condition := ← orDefault route fields "condition" "1"
        execute := ← orDefault route fields "execute" .immediate
        result := ← orDefault route fields "return" .check
        impersonate := ← orDefault route fields "impersonate" true
        attributes := ← orDefault route fields "attributes" .empty }
    | _, _ => none

end Installer
