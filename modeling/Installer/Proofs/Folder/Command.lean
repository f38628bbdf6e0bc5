import Installer.Proofs.Folder.Widening

/-! # Folders in command lines

Command lines name folders by references in brackets.  No token has a bracket, so a reference that
is put in never makes a new token with the text around it (`infix_of_infix_replace`): a token that
is found after some replacements was there before them, and is none of those that have been
replaced.  After all of them there is no token left (`clearsTokens_commandText`).
-/

namespace Installer.Folder

def IsTokenFree (text : String) : Prop :=
  ∀ entry ∈ tokens, ¬ entry.1.toList <:+: text.toList

instance {text : String} : Decidable (IsTokenFree text) :=
  inferInstanceAs (Decidable (∀ entry ∈ tokens, ¬ entry.1.toList <:+: text.toList))

/-- A token with what stands for it in a command line. -/
def reference (entry : String × String) : String × String :=
  (entry.1, "[" ++ entry.2 ++ "]")

theorem bracket_notMem_token {entry : String × String} (mem : entry ∈ tokens) :
    '[' ∉ entry.1.toList ∧ ']' ∉ entry.1.toList := by
  obtain ⟨shape, -, plain, -⟩ := forall_tokens entry mem
  rw [shape]
  simp only [List.mem_cons, List.mem_append, List.not_mem_nil, or_false, not_or]
  exact ⟨⟨by decide, fun inside => (plain_of_isAlphanum (plain _ inside)).2.2.2.2.1 rfl, by decide⟩,
    by decide, fun inside => (plain_of_isAlphanum (plain _ inside)).2.2.2.2.2 rfl, by decide⟩

/-- No id has a token in it. -/
theorem not_token_infix_id {entry other : String × String} (mem : entry ∈ tokens)
    (among : other ∈ tokens) : ¬ entry.1.toList <:+: other.2.toList := by
  intro found
  obtain ⟨name, shape, -⟩ := isToken_of_mem mem
  have sign : '%' ∈ other.2.toList := found.subset (by simp [shape])
  exact (plain_of_isAlphanum ((forall_tokens other among).2.2.2.1 _ sign)).2.2.1 rfl

theorem infix_of_infix_references {entries : List (String × String)}
    (among : ∀ entry ∈ entries, entry ∈ tokens) {token : String × String} (mem : token ∈ tokens)
    {text : String}
    (found : token.1.toList <:+: (replaceEach (entries.map reference) text).toList) :
    token.1.toList <:+: text.toList ∧ ∀ entry ∈ entries, token.1.toList ≠ entry.1.toList := by
  induction entries generalizing text with
  | nil =>
    rw [List.map_nil, replaceEach_nil] at found
    exact ⟨found, nofun⟩
  | cons entry rest ih =>
    rw [List.forall_mem_cons] at among
    rw [List.map_cons, replaceEach_cons] at found
    obtain ⟨before, others⟩ := ih among.2 found
    have put : (reference entry).2.toList = '[' :: (entry.2.toList ++ [']']) := by simp [reference]
    rw [String.toList_ofList, put] at before
    have nonempty : entry.1.toList ≠ [] := (areInner_tokens entry among.1).1
    have apart := bracket_notMem_token mem
    obtain ⟨first, other⟩ := Text.infix_of_infix_replace nonempty apart.1 apart.2
      (not_token_infix_id mem among.1) before
    exact ⟨first, List.forall_mem_cons.mpr ⟨other, others⟩⟩

theorem isTokenFree_commandText (text : String) : IsTokenFree (commandText text) := by
  intro entry mem found
  exact (infix_of_infix_references (fun _ => id) mem found).2 entry mem rfl

theorem commandText_of_isTokenFree {text : String} (free : IsTokenFree text) :
    commandText text = text :=
  replaceEach_of_not_isInfix (List.forall_mem_map.mpr free)

/-- Replacing tokens by references leaves none, and changes just the texts that have any. -/
theorem clearsTokens_commandText :
    (∀ text, IsTokenFree (commandText text)) ∧
      (∀ text, commandText text = text ↔ IsTokenFree text) ∧
        ∀ text, commandText (commandText text) = commandText text := by
  refine ⟨isTokenFree_commandText, fun text => ⟨fun same => ?_, commandText_of_isTokenFree⟩,
    fun text => commandText_of_isTokenFree (isTokenFree_commandText text)⟩
  exact same ▸ isTokenFree_commandText text

/-- Tokens that share a per cent sign: the one that is looked for first is replaced. -/
example : commandText "%Temp%System%\\%%Fonts%" = "%Temp[SystemFolder]\\%[FontsFolder]" := by
  decide +kernel

end Installer.Folder
