import Installer.Json.Value
import Installer.Text.Hex

/-! # Printing JSON

A value is printed on one line without blanks. In strings, quotes, backslashes and control
characters are escaped and nothing else.
-/

namespace Installer.Json

def escapeChar (c : Char) : List Char :=
  match c with
  | '"' => ['\\', '"']
  | '\\' => ['\\', '\\']
  | '\x08' => ['\\', 'b']
  | '\x0c' => ['\\', 'f']
  | '\n' => ['\\', 'n']
  | '\r' => ['\\', 'r']
  | '\t' => ['\\', 't']
  | c => if c.toNat < 0x20 then '\\' :: 'u' :: Text.Hex.ofNat 4 c.toNat else [c]

def quoted (s : String) : List Char :=
  '"' :: (s.toList.flatMap escapeChar ++ ['"'])

def Key.text : Key → String
  | .name text => text
  | .place n => toString n
  | .stray => ""

namespace Value

mutual

def chars : Value → List Char
  | .null => ['n', 'u', 'l', 'l']
  | .bool true => ['t', 'r', 'u', 'e']
  | .bool false => ['f', 'a', 'l', 's', 'e']
  | .integer negative n => (if negative then ['-'] else []) ++ (toString n).toList
  | .decimal negative x => (Double.text negative x).toList
  | .string s => quoted s
  | .array items => '[' :: (itemChars items ++ [']'])
  | .object members => '{' :: (memberChars members ++ ['}'])
termination_by structural v => v

def itemChars : List Value → List Char
  | [] => []
  | [item] => chars item
  | item :: next :: rest => chars item ++ ',' :: itemChars (next :: rest)
termination_by structural items => items

def memberChars : List (Key × Value) → List Char
  | [] => []
  | [(key, member)] => quoted key.text ++ ':' :: chars member
  | (key, member) :: next :: rest =>
    quoted key.text ++ ':' :: (chars member ++ ',' :: memberChars (next :: rest))
termination_by structural members => members

end

def print (v : Value) : String :=
  String.ofList v.chars

mutual

def sorted : Value → Value
  | .array items => .array (sortedItems items)
  | .object members =>
    .object ((sortedMembers members).mergeSort fun a b => decide (a.1.text ≤ b.1.text))
  | v => v
termination_by structural v => v

def sortedItems : List Value → List Value
  | [] => []
  | item :: rest => sorted item :: sortedItems rest
termination_by structural items => items

def sortedMembers : List (Key × Value) → List (Key × Value)
  | [] => []
  | (key, member) :: rest => (key, sorted member) :: sortedMembers rest
termination_by structural members => members

end

end Value

end Installer.Json
