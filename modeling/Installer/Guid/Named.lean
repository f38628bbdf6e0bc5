import Installer.Guid.Basic
import Installer.Guid.Digest

/-! # GUIDs derived from names

A GUID can be computed from a name and another GUID, so that the same name always has the same GUID.
One product has one seed: its components, its versions and its upgrade code all follow from it. The
module also holds the GUIDs that simply count upwards.
-/

namespace Installer.Guid

def toBytes (guid : Guid) : List UInt8 :=
  Digest.bytesOf 16 guid.bits.toNat

def nameVersion : UInt8 :=
  5

def randomVersion : UInt8 :=
  4

/-- The bytes with a version, which tells how the GUID was made, and the usual variant stamped into
them. -/
def stamp (version : UInt8) (bytes : List UInt8) : List UInt8 :=
  (bytes.modify 6 fun b => (b &&& 0x0F) ||| (16 * version)).modify 8 fun b =>
    (b &&& 0x3F) ||| 0x80

def ofName (space : Guid) (name : String) : Guid :=
  let digest := Digest.sha1 (space.toBytes ++ name.toUTF8.data.toList)
  ⟨BitVec.ofNat 128 (Digest.ofBytes (stamp nameVersion (digest.take 16)))⟩

def ofRandom (bytes : List UInt8) : Guid :=
  ⟨BitVec.ofNat 128 (Digest.ofBytes (stamp randomVersion (bytes.take 16)))⟩

def urlSpace : Guid :=
  ⟨0x6ba7b8119dad11d180b400c04fd430c8#128⟩

/-- The seed of a product that declares no GUID. -/
def productSeed (productName : String) : Guid :=
  ofName urlSpace ("wix-tree:product:" ++ productName)

def ofComponent (seed : Guid) (componentId : String) : Guid :=
  ofName seed componentId

/-- The product id of one version of the product. -/
def ofVersion (seed : Guid) (version : String) : Guid :=
  ofName seed ("version:" ++ version)

/-- The upgrade code that all versions of the product share is its seed. -/
def upgradeCode (seed : Guid) : Guid :=
  seed

/-- The GUID after this one; the last one is followed by the first. -/
def next (guid : Guid) : Guid :=
  ⟨guid.bits + 1⟩

def following (start : Guid) : Nat → List Guid
  | 0 => []
  | count + 1 => start.next :: following start.next count

end Installer.Guid
