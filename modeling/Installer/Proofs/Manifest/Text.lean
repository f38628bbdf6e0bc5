import Installer.Manifest.Format
import Installer.Proofs.Manifest.Members

/-! # Manifests as texts

A manifest is an object with nothing behind it (`Manifest.Writes`), and what is read from it depends
on its members alone.  A printed object is such a text as long as it is not too deep
(`Manifest.readObject_chars`).
-/

namespace Installer

open Json (Key Value Fault)
open Json.Value (HavePlain Named memberChars depthOfMembers)
open Json.Reader (maxDepth)

/-! ## Reading printed members -/

namespace Json.Record

/-- A printed value is read in one of the shapes that a manifest asks for. -/
theorem read_chars {shape : Shape} {v : Value} (plain : v.IsPlain)
    (suits : shape = .any ∨ (shape = .list ∧ ∃ items, v = .array items)) {rest : List Char}
    (ends : Ends rest) :
    shape.read (v.chars ++ rest) =
      if v.depth ≤ maxDepth - 1 then .ok (v, rest) else .error .malformed := by
  have enough : v.chars.length < (v.chars ++ rest).length + 1 := by
    rw [List.length_append]
    omega
  have read : wellFormed (Reader.value? (maxDepth - 1) ((v.chars ++ rest).length + 1)
      (v.chars ++ rest)) = if v.depth ≤ maxDepth - 1 then .ok (v, rest) else .error .malformed := by
    rw [Value.value?_chars v plain ends enough]
    split <;> rfl
  rcases suits with rfl | ⟨rfl, items, rfl⟩
  · exact read
  · have bracket : Reader.skipBlanks ((Value.array items).chars ++ rest) =
        (Value.array items).chars ++ rest := Value.skipBlanks_chars plain rest
    rw [Shape.read, bracket]
    exact read

/-- The name is not one of those that were there before, so the member is read. -/
theorem readMembers_quoted {record : Record} {name : String} {seen : List String}
    (fresh : name ∉ seen) (fuel : Nat) (s : List Char) :
    record.readMembers (fuel + 1) seen (quoted name ++ ':' :: s) = (do
      let (v, rest) ← ((record.fields.lookup name).getD record.others).read s
      match Reader.skipBlanks rest with
      | '}' :: rest => return ([(.name name, v)], rest)
      | ',' :: rest =>
        let seen := if (record.fields.lookup name).isSome then name :: seen else seen
        let (members, rest) ← record.readMembers fuel seen rest
        return ((.name name, v) :: members, rest)
      | _ => .error .malformed) := by
  have inside := string?_quoted name (':' :: s)
  simp only [quoted, List.cons_append, List.append_assoc, List.nil_append] at inside ⊢
  rw [readMembers, Value.skipBlanks_cons (by decide)]
  simp only [inside, wellFormed]
  show (if name ∈ seen then _ else _) = _
  rw [if_neg fresh]
  rfl

/-- The member can be read where the record asks for any value or for a list. -/
def Suits (record : Record) (member : Key × Value) : Prop :=
  (record.fields.lookup member.1.text).getD record.others = .any ∨
    ((record.fields.lookup member.1.text).getD record.others = .list ∧
      ∃ items, member.2 = .array items)

/-- Once a name was read, those of the members behind it are still new. -/
theorem text_notMem_seen {members : List (Key × Value)} {name : String} {seen : List String}
    (known : Bool) (plain : HavePlain members) (absent : Key.name name ∉ members.map Prod.fst)
    (fresh : ∀ member ∈ members, member.1.text ∉ seen) :
    ∀ member ∈ members, member.1.text ∉ if known = true then name :: seen else seen := by
  intro member mem
  have old := fresh member mem
  obtain ⟨⟨other, key⟩, _⟩ := Value.havePlain_iff.mp plain member mem
  have ne : other ≠ name := by
    rintro rfl
    have listed : member.1 ∈ members.map Prod.fst := List.mem_map_of_mem mem
    exact absent (key ▸ listed)
  rw [key, Key.text] at old ⊢
  split
  · exact List.not_mem_cons_of_ne_of_not_mem ne old
  · exact old

theorem readMembers_memberChars {record : Record} {members : List (Key × Value)}
    (plain : HavePlain members) (nonempty : members ≠ [])
    (distinct : (members.map Prod.fst).Nodup) (suits : ∀ member ∈ members, record.Suits member)
    {seen : List String} (fresh : ∀ member ∈ members, member.1.text ∉ seen) {rest : List Char}
    {fuel : Nat} (enough : members.length ≤ fuel) :
    record.readMembers fuel seen (memberChars members ++ '}' :: rest) =
      if depthOfMembers members ≤ maxDepth - 1 then .ok (members, rest)
      else .error .malformed := by
  induction members generalizing seen fuel with
  | nil => exact absurd rfl nonempty
  | cons member others ih =>
    obtain ⟨key, v⟩ := member
    obtain ⟨name, rfl⟩ := (Value.havePlain_iff.mp plain _ List.mem_cons_self).1
    obtain ⟨fuel, rfl⟩ : ∃ less, fuel = less + 1 :=
      Nat.exists_eq_add_of_le' (by simp at enough; omega)
    rw [List.forall_mem_cons] at suits fresh
    have unseen : name ∉ seen := fresh.1
    cases others with
    | nil =>
      have value : ((record.fields.lookup name).getD record.others).read (v.chars ++ '}' :: rest) =
          if v.depth ≤ maxDepth - 1 then .ok (v, '}' :: rest) else .error .malformed :=
        read_chars plain.2.1 suits.1 (by simp [Ends])
      rw [memberChars, List.append_assoc, List.cons_append, Key.text, readMembers_quoted unseen,
        value, depthOfMembers, depthOfMembers, Nat.max_zero]
      by_cases flat : v.depth ≤ maxDepth - 1
      · rw [if_pos flat, if_pos flat]
        rfl
      · rw [if_neg flat, if_neg flat]
        rfl
    | cons next more =>
      have value : ((record.fields.lookup name).getD record.others).read
            (v.chars ++ ',' :: (memberChars (next :: more) ++ '}' :: rest)) =
          if v.depth ≤ maxDepth - 1 then .ok (v, ',' :: (memberChars (next :: more) ++ '}' :: rest))
          else .error .malformed :=
        read_chars plain.2.1 suits.1 (by simp [Ends])
      obtain ⟨absent, distinct⟩ := List.nodup_cons.mp distinct
      have below := ih plain.2.2 (List.cons_ne_nil _ _) distinct suits.2
        (text_notMem_seen (record.fields.lookup name).isSome plain.2.2 absent fresh.2)
        (Nat.le_of_succ_le_succ enough)
      rw [memberChars, List.append_assoc, List.cons_append, List.append_assoc, List.cons_append,
        Key.text, readMembers_quoted unseen, value, depthOfMembers]
      by_cases flat : v.depth ≤ maxDepth - 1
      · have skipped : Reader.skipBlanks (',' :: (memberChars (next :: more) ++ '}' :: rest)) =
            ',' :: (memberChars (next :: more) ++ '}' :: rest) := rfl
        rw [if_pos flat]
        simp only [bind, Except.bind, skipped, below]
        by_cases fits : depthOfMembers (next :: more) ≤ maxDepth - 1
        · rw [if_pos fits, if_pos (Nat.max_le.mpr ⟨flat, fits⟩)]
          rfl
        · rw [if_neg fits, if_neg fun le => fits (Nat.max_le.mp le).2]
      · rw [if_neg flat, if_neg fun le => flat (Nat.max_le.mp le).1]
        rfl

end Json.Record

namespace Manifest

/-- A printed object is read if it is not too deep. Its items must be listed. -/
theorem readObject_chars {members : List (Key × Value)} (plain : HavePlain members)
    (distinct : (members.map Prod.fst).Nodup)
    (listed : ∀ v, (Key.name "items", v) ∈ members → ∃ items, v = .array items) :
    record.readObject (Value.object members).chars =
      if (Value.object members).depth ≤ maxDepth then .ok (members, []) else .error .malformed := by
  have suits : ∀ member ∈ members, record.Suits member := by
    rintro ⟨key, v⟩ mem
    obtain ⟨⟨name, rfl⟩, _⟩ := Value.havePlain_iff.mp plain _ mem
    by_cases same : name = "items"
    · subst same
      exact .inr ⟨rfl, listed v mem⟩
    · refine .inl ?_
      simp [record, Key.text, List.lookup_cons, beq_false_of_ne same]
  rw [Json.Record.readObject, Value.chars, Value.skipBlanks_cons (by decide), Value.depth]
  cases members with
  | nil => rfl
  | cons member rest =>
    obtain ⟨more, written⟩ := Value.exists_memberChars member rest
    have enough : (member :: rest).length ≤ (memberChars (member :: rest) ++ ['}']).length + 1 := by
      have short := Value.length_le_memberChars (member :: rest)
      rw [List.length_append]
      omega
    have read : record.readMembers ((memberChars (member :: rest) ++ ['}']).length + 1) []
        (memberChars (member :: rest) ++ ['}']) =
          if depthOfMembers (member :: rest) ≤ maxDepth - 1 then .ok (member :: rest, [])
          else .error .malformed :=
      Json.Record.readMembers_memberChars plain (List.cons_ne_nil _ _) distinct suits
        (fun _ _ => List.not_mem_nil) enough
    have level : depthOfMembers (member :: rest) + 1 ≤ maxDepth ↔
        depthOfMembers (member :: rest) ≤ maxDepth - 1 := by
      rw [maxDepth]
      omega
    rw [if_congr level rfl rfl, ← read, written, List.cons_append]
    simp only [Value.skipBlanks_cons (by decide : Value.Begins '"')]
    split
    case h_1 same => exact absurd (List.cons.inj same).1 (by decide)
    case h_2 => rfl

/-! ## What is read from a text -/

def Writes (text : String) (members : List (Key × Value)) : Prop :=
  ∃ rest, record.readObject text.toList = .ok (members, rest) ∧ Json.readEnd rest = .ok ()

theorem ofJson_of_writes {text : String} {members : List (Key × Value)}
    (writes : Writes text members) {project : Project} (typed : project? members = some project) :
    ofJson text = withItems project (items members) := by
  obtain ⟨rest, read, isEnd⟩ := writes
  simp only [ofJson, read, typed, isEnd, Except.mapError, bind, Except.bind]

theorem bind_eq_ok {ε α β : Type} {x : Except ε α} {f : α → Except ε β} {b : β}
    (run : x >>= f = .ok b) : ∃ a, x = .ok a ∧ f a = .ok b := by
  cases x with
  | error fault => cases run
  | ok a => exact ⟨a, rfl, run⟩

theorem mapError_eq_ok {ε ε' α : Type} {x : Except ε α} {f : ε → ε'} {a : α}
    (run : x.mapError f = .ok a) : x = .ok a := by
  cases x with
  | error fault => cases run
  | ok b => cases run; rfl

theorem exists_writes_of_ofJson {text : String} {project : Project}
    (read : ofJson text = .ok project) :
    ∃ members typed, Writes text members ∧ project? members = some typed ∧
      withItems typed (items members) = .ok project := by
  rw [ofJson] at read
  obtain ⟨⟨members, rest⟩, readMembers, read⟩ := bind_eq_ok read
  dsimp only at read
  split at read
  case h_1 => cases read
  case h_2 typed written =>
    obtain ⟨_, isEnd, read⟩ := bind_eq_ok read
    exact ⟨members, typed, ⟨rest, mapError_eq_ok readMembers, mapError_eq_ok isEnd⟩, written, read⟩

theorem named_of_readMembers : ∀ {fuel : Nat} {seen : List String} {s rest : List Char}
    {members : List (Key × Value)}, record.readMembers fuel seen s = .ok (members, rest) →
      Named members
  | fuel + 1, seen, s, rest, members, read => by
    rw [Json.Record.readMembers] at read
    split at read
    case h_2 => cases read
    obtain ⟨⟨name, _⟩, _, read⟩ := bind_eq_ok read
    dsimp only at read
    split at read
    case isTrue => cases read
    obtain ⟨_, _, read⟩ := bind_eq_ok read
    obtain ⟨⟨v, _⟩, _, read⟩ := bind_eq_ok read
    split at read
    case h_1 =>
      cases read
      exact List.forall_mem_singleton.mpr ⟨name, rfl⟩
    case h_2 =>
      obtain ⟨⟨others, _⟩, readOthers, read⟩ := bind_eq_ok read
      cases read
      exact List.forall_mem_cons.mpr ⟨⟨name, rfl⟩, named_of_readMembers readOthers⟩
    case h_3 => cases read

theorem Writes.named {text : String} {members : List (Key × Value)}
    (writes : Writes text members) : Named members := by
  obtain ⟨rest, read, _⟩ := writes
  rw [Json.Record.readObject] at read
  split at read
  case h_1 =>
    split at read
    case h_1 =>
      cases read
      nofun
    case h_2 => exact named_of_readMembers read
  case h_2 =>
    unfold Json.Shape.wrongKind at read
    split at read <;> cases read

/-- A printed object is a manifest with the members that were printed. -/
theorem writes_print {members : List (Key × Value)} (plain : HavePlain members)
    (distinct : (members.map Prod.fst).Nodup)
    (listed : ∀ v, (Key.name "items", v) ∈ members → ∃ items, v = .array items)
    (flat : (Value.object members).depth ≤ maxDepth) :
    Writes (Value.object members).print members := by
  refine ⟨[], ?_, rfl⟩
  rw [Value.print, String.toList_ofList, readObject_chars plain distinct listed, if_pos flat]

end Manifest

end Installer
