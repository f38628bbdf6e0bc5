import Installer.Text.Hex
import Installer.Text.Search

/-! # GUIDs

A GUID is a number of 128 bits. The module holds its written forms: the three in which it is printed
and the four in which it is read.
-/

namespace Installer

structure Guid where
  bits : BitVec 128
deriving DecidableEq

namespace Guid

/-! ## Printing -/

inductive Style where
  /-- Five groups in lower case with hyphens between them. -/
  | hyphens
  /-- The five groups in upper case, in braces. -/
  | braces
  /-- The 32 digits alone. -/
  | plain
deriving DecidableEq, Repr

/-- The style that a name stands for; the case of the name does not matter. -/
def Style.ofName? (name : String) : Option Style :=
  let name := name.toLower
  if name ∈ ["hyphens", "h", "d"] then some .hyphens
  else if name ∈ ["braces", "b", "registry"] then some .braces
  else if name ∈ ["plain", "p", "n"] then some .plain
  else none

def digits (guid : Guid) : List Char :=
  Text.Hex.ofNat 32 guid.bits.toNat

def groupSizes : List Nat :=
  [8, 4, 4, 4, 12]

/-- The digits cut into consecutive groups of the given sizes. -/
def groups : List Nat → List Char → List (List Char)
  | [], _ => []
  | size :: sizes, digits => digits.take size :: groups sizes (digits.drop size)

def hyphenated (guid : Guid) : List Char :=
  ['-'].intercalate (groups groupSizes guid.digits)

def format (style : Style) (guid : Guid) : String :=
  match style with
  | .hyphens => String.ofList guid.hyphenated
  | .braces => String.ofList ('{' :: guid.hyphenated.map Char.toUpper ++ ['}'])
  | .plain => String.ofList guid.digits

instance : ToString Guid where
  toString := format .hyphens

/-! ## Reading -/

def ofDigits? (digits : List Char) : Option Guid :=
  if digits.length = 32 then (Text.Hex.toNat? digits).map fun n => ⟨BitVec.ofNat 128 n⟩ else none

/-- The GUID written in five groups with hyphens between them. -/
def ofHyphenated? (text : List Char) : Option Guid :=
  let parts := text.splitOnP (· == '-')
  if parts.map List.length = groupSizes then ofDigits? parts.flatten else none

/-- What stands before a GUID that is written as a uniform resource name, in any case. -/
def nameSpace : List Char :=
  "urn:uuid:".toList

/-- Reads a GUID: 32 digits, or five groups with hyphens between them, these also in braces or
behind `urn:uuid:`. -/
def ofString? (text : String) : Option Guid :=
  match text.toList with
  | '{' :: rest =>
    match rest.reverse with
    | '}' :: inner => ofHyphenated? inner.reverse
    | _ => none
  | chars =>
    if chars.length = 32 then ofDigits? chars
    else if Text.lowerAscii (chars.take nameSpace.length) = nameSpace then
      ofHyphenated? (chars.drop nameSpace.length)
    else ofHyphenated? chars

end Guid

end Installer
