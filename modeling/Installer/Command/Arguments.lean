/-! # Arguments of a command line

Options are given as `--name`, as `-n`, or several letters at once. The value of an option stands in
the next argument or in the same one, with or without an equals sign. Behind `--` every argument
stands for itself.
-/

namespace Installer.Command

structure OptionSpec where
  name : String
  letter : Option Char := none
  /-- The option has a value. -/
  hasValue : Bool := false
  /-- The value may be empty. -/
  mayBeEmpty : Bool := false

/-- What is wrong with a command line, or what it asks for instead of a command. -/
inductive Usage where
  | wrong
  | help
  | version
deriving DecidableEq

/-- The arguments of a command: options with their values, which are empty where they have none, and
all else. -/
structure Arguments where
  options : List (String × String) := []
  others : List String := []

namespace Arguments

def has (args : Arguments) (name : String) : Bool :=
  (args.options.lookup name).isSome

def value? (args : Arguments) (name : String) : Option String :=
  args.options.lookup name

/-- The arguments with one more option, which must not be given twice, nor be empty unless it may.
-/
def addOption (args : Arguments) (spec : OptionSpec) (value : String) : Except Usage Arguments :=
  if args.has spec.name || (spec.hasValue && !spec.mayBeEmpty && value.isEmpty) then .error .wrong
  else .ok { args with options := args.options ++ [(spec.name, value)] }

end Arguments

/-! ## Reading -/

/-- The argument looks like an option. A minus alone does not. -/
def isOption (arg : List Char) : Bool :=
  match arg with
  | '-' :: _ :: _ => true
  | _ => false

/-- The value of an option in the next argument, which must not look like an option. -/
def nextValue : List String → Except Usage (String × List String)
  | [] => .error .wrong
  | arg :: rest => if isOption arg.toList then .error .wrong else .ok (arg, rest)

/-- Reads an option by its name, with what stands behind an equals sign. -/
def readLong (specs : List OptionSpec) (args : Arguments) (name : String) (attached : Option String)
    (rest : List String) : Except Usage (Arguments × List String) :=
  if name = "help" then .error .help
  else
    match specs.find? fun spec => spec.name == name with
    | none => .error .wrong
    | some spec => do
      match spec.hasValue, attached with
      | false, some _ => .error .wrong
      | false, none => return (← args.addOption spec "", rest)
      | true, some value => return (← args.addOption spec value, rest)
      | true, none =>
        let (value, rest) ← nextValue rest
        return (← args.addOption spec value, rest)

/-- Reads options by their letters. The letters behind one that has a value are its value. -/
def readLetters (specs : List OptionSpec) (args : Arguments) (rest : List String) :
    List Char → Except Usage (Arguments × List String)
  | [] => .ok (args, rest)
  | 'h' :: _ => .error .help
  | letter :: letters =>
    match specs.find? fun spec => spec.letter == some letter with
    | none => .error .wrong
    | some spec => do
      if spec.hasValue then
        match letters with
        | [] =>
          let (value, rest) ← nextValue rest
          return (← args.addOption spec value, rest)
        | '=' :: value => return (← args.addOption spec (String.ofList value), rest)
        | value => return (← args.addOption spec (String.ofList value), rest)
      else readLetters specs (← args.addOption spec "") rest letters

def splitAtEquals (arg : List Char) : String × Option String :=
  let name := String.ofList (arg.takeWhile (· != '='))
  match arg.dropWhile (· != '=') with
  | [] => (name, none)
  | _ :: value => (name, some (String.ofList value))

/-- Reads arguments. With `stopAtWord` only the options before the first other argument are read,
and the rest is returned with it. At most `fuel` arguments are read. -/
def readArguments (specs : List OptionSpec) (stopAtWord : Bool) :
    Nat → Arguments → List String → Except Usage (Arguments × List String)
  | 0, args, rest => .ok (args, rest)
  | _, args, [] => .ok (args, [])
  | fuel + 1, args, arg :: rest =>
    match arg.toList with
    | ['-', '-'] =>
      if stopAtWord then .error .wrong
      else .ok ({ args with others := args.others ++ rest }, [])
    | '-' :: '-' :: long => do
      let (name, attached) := splitAtEquals long
      let (args, rest) ← readLong specs args name attached rest
      readArguments specs stopAtWord fuel args rest
    | '-' :: letter :: letters => do
      let (args, rest) ← readLetters specs args rest (letter :: letters)
      readArguments specs stopAtWord fuel args rest
    | _ =>
      if stopAtWord then .ok (args, arg :: rest)
      else
        readArguments specs stopAtWord fuel { args with others := args.others ++ [arg] } rest

end Installer.Command
