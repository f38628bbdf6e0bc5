import Installer.Proofs.Manifest.Items

/-! # A written project is read back

A project that was read from a manifest is read back from its written form, unless that form nests
deeper than a text may (`ofJson_print_encode`).  It can nest deeper than the manifest it was read
from, because it has a list wherever the manifest left an empty one out.
-/

namespace Installer

open Json (Key Value Fault)
open Json.Value (HavePlain memberChars depthOfMembers)
open Json.Reader (maxDepth)
open Entity

/-! ## Steps that were read -/

namespace CustomAction

theorem readsBack_of_decodeVia? {route : Route} {v : Value} {action : CustomAction}
    (read : decodeVia? route v = some action) : action.step.ReadsBack := by
  cases v with
  | object members =>
    obtain ⟨fields, _, read⟩ := Option.bind_eq_some_iff.mp read
    iterate 4 replace ⟨_, _, read⟩ := Option.bind_eq_some_iff.mp read
    replace ⟨step, found, read⟩ := Option.bind_eq_some_iff.mp read
    iterate 7 replace ⟨_, _, read⟩ := Option.bind_eq_some_iff.mp read
    cases read
    change step.ReadsBack
    rw [orDefault] at found
    cases given : fields.lookup "step" with
    | none =>
      rw [given] at found
      cases found
      rfl
    | some v =>
      rw [given] at found
      obtain ⟨name, _, rfl⟩ := Option.map_eq_some_iff.mp found
      exact Step.readsBack_ofString name
  | _ => cases read

end CustomAction

/-! ## Manifests -/

namespace Manifest

/-! ## Projects that were read -/

theorem readsBack_of_decodeVia?_array {route : Route} {values : List Value}
    {actions : List CustomAction} (read : decodeVia? route (.array values) = some actions) :
    ∀ action ∈ actions, action.step.ReadsBack := by
  intro action mem
  obtain ⟨v, _, read⟩ := (Codec.mem_of_decodeVia?_array read).2 action mem
  exact CustomAction.readsBack_of_decodeVia? read

theorem stepsReadBack_of_project? {members : List (Key × Value)} {typed : Project}
    (read : project? members = some typed) : typed.StepsReadBack := by
  obtain ⟨fields, _, written⟩ := Project.decodeVia?_object_iff.mp read
  have listed : orDefault .buffered fields "actions" [] = some typed.actions :=
    written.entries .action
  rw [orDefault] at listed
  cases found : fields.lookup "actions" with
  | none =>
    rw [found] at listed
    intro action mem
    rw [← Option.some.inj listed] at mem
    cases mem
  | some v =>
    rw [found] at listed
    cases v with
    | array values => exact readsBack_of_decodeVia?_array listed
    | _ => cases listed

/-- Whatever its items were, a project that was read has no step that cannot be read. -/
theorem stepsReadBack_of_ofJson {text : String} {project : Project}
    (read : ofJson text = .ok project) : project.StepsReadBack := by
  obtain ⟨members, typed, _, written, run⟩ := exists_writes_of_ofJson read
  obtain ⟨result, runs, _, entries⟩ := withItems_of_fits (fits_of_withItems run) typed
  cases run.symm.trans runs
  have actions : ∃ added, decode? (.array (ofKind .action (items members))) = some added ∧
      project.actions = typed.actions ++ added := entries .action
  obtain ⟨added, readAdded, all⟩ := actions
  intro action mem
  rw [all] at mem
  cases List.mem_append.mp mem with
  | inl mem => exact stepsReadBack_of_project? written action mem
  | inr mem => exact readsBack_of_decodeVia?_array readAdded action mem

/-- A project whose steps can be read is read back from its written form if that form is not too
deep. -/
theorem ofJson_print_of_stepsReadBack {project : Project} (steps : project.StepsReadBack) :
    ofJson (encode project).print =
      if (encode project).depth ≤ maxDepth then .ok project else .error (.json .malformed) := by
  have plain : HavePlain project.encodeMembers := Codec.Plain.isPlain_encode project
  have noItems : ∀ member ∈ project.encodeMembers, member.1 ≠ .name "items" := by
    have names : ∀ key ∈ Project.memberNames.map Key.name, key ≠ .name "items" := by decide
    exact fun member mem => names _ (List.mem_map_of_mem mem)
  have listed : ∀ v, (Key.name "items", v) ∈ project.encodeMembers → ∃ items, v = .array items :=
    fun v mem => absurd rfl (noItems _ mem)
  have distinct : (Project.memberNames.map Key.name).Nodup := by decide
  by_cases flat : (encode project).depth ≤ maxDepth
  · have writes : Writes (encode project).print project.encodeMembers :=
      writes_print plain distinct listed flat
    have missing : project.encodeMembers.lookup (.name "items") = none := by
      rw [List.lookup_eq_none_iff]
      intro member mem
      simpa using (noItems member mem).symm
    rw [if_pos flat, ofJson_of_writes writes (Project.decodeVia?_encode .buffered steps), items,
      missing]
    rfl
  · have read : record.readObject (encode project).chars =
        if (encode project).depth ≤ maxDepth then .ok (project.encodeMembers, [])
        else .error .malformed := readObject_chars plain distinct listed
    rw [if_neg flat, ofJson, Value.print, String.toList_ofList, read, if_neg flat]
    rfl

/-- Whatever a manifest said, the project that was read from it is read back from its written form
if and only if that form is not too deep. -/
theorem ofJson_print_encode {text : String} {project : Project}
    (read : ofJson text = .ok project) :
    ofJson (encode project).print =
      if (encode project).depth ≤ maxDepth then .ok project else .error (.json .malformed) :=
  ofJson_print_of_stepsReadBack (stepsReadBack_of_ofJson read)

def sampleMembers : List (Key × Value) :=
  [("name", .string "App"),
   ("actions", .array [.object [("name", .string "Warn"), ("type", .string "script"),
     ("code", .string "MsgBox 1"), ("step", .string "InstallFiles")]]),
   ("items", .array [.object [("kind", .string "property"), ("name", .string "P")]])]

def sampleProject : Project :=
  { name := "App"
    actions := [{ name := "Warn", kind := .script "MsgBox 1", step := .named "InstallFiles" }]
    properties := [{ name := "P" }] }

theorem ofJson_print_encode_sample :
    ofJson (Value.object sampleMembers).print = .ok sampleProject ∧
      ofJson (encode sampleProject).print = .ok sampleProject := by
  have writes : Writes (Value.object sampleMembers).print sampleMembers :=
    writes_print (by simp [sampleMembers, HavePlain, Value.IsPlain, Value.ArePlain]) (by decide)
      (by simp [sampleMembers]) (by decide)
  have read : ofJson (Value.object sampleMembers).print = .ok sampleProject :=
    ofJson_of_writes writes rfl
  exact ⟨read, ofJson_print_encode read⟩

/-! ## A written form that is too deep -/

def nest : Nat → Dir
  | 0 => ⟨{ name := "D" }, []⟩
  | n + 1 => ⟨{ name := "D" }, [nest n]⟩

/-- The directory as a manifest may write it, without the lists that are empty. -/
def nestValue : Nat → Value
  | 0 => .object [("name", .string "D")]
  | n + 1 => .object [("name", .string "D"), ("dirs", .array [nestValue n])]

theorem decodeVia?_nestValue (route : Route) :
    ∀ n : Nat, Dir.decodeVia? route (nestValue n) = some (nest n)
  | 0 => rfl
  | n + 1 => by
    have below : Dir.decodeNested? route [("name", .string "D"), ("dirs", .array [nestValue n])] =
        some [nest n] := by
      simp [Dir.decodeNested?, Dir.decodeArray?, Dir.decodeAll?, decodeVia?_nestValue route n,
        Key.among?, Dir.memberNames]
    have body : (Value.fieldsOf? Dir.memberNames
        [("name", .string "D"), ("dirs", .array [nestValue n])]).bind
          (DirBody.decodeMembers? route) = some { name := "D" } := rfl
    rw [nestValue, Dir.decodeVia?, body, below]
    rfl

theorem isPlain_nestValue : ∀ n : Nat, (nestValue n).IsPlain
  | 0 => ⟨⟨_, rfl⟩, trivial, trivial⟩
  | n + 1 => ⟨⟨_, rfl⟩, trivial, ⟨_, rfl⟩, ⟨isPlain_nestValue n, trivial⟩, trivial⟩

theorem depth_nestValue : ∀ n : Nat, (nestValue n).depth = 2 * n + 1
  | 0 => rfl
  | n + 1 => by
    simp [nestValue, Value.depth, Value.depthOfMembers, Value.depthOfItems, depth_nestValue n]
    omega

/-- The written form has a list of no directories inside the innermost directory. -/
theorem le_depth_encode_nest : ∀ n : Nat, 2 * n + 2 ≤ (Dir.encode (nest n)).depth
  | 0 => by
    simp only [nest, Dir.encode, Dir.encodeAll, Value.depth, Value.depthOfMembers,
      Value.depthOfItems]
    omega
  | n + 1 => by
    have below := le_depth_encode_nest n
    simp only [nest, Dir.encode, Dir.encodeAll, Value.depth, Value.depthOfMembers,
      Value.depthOfItems]
    omega

def nestMembers (n : Nat) : List (Key × Value) :=
  [("name", .string "App"), ("dirs", .array [nestValue n])]

def nestProject (n : Nat) : Project :=
  { name := "App", dirs := [nest n] }

theorem project?_nestMembers (n : Nat) : project? (nestMembers n) = some (nestProject n) := by
  have dirs : decodeVia? .buffered (.array [nestValue n]) = some [nest n] := by
    change [nestValue n].mapM (Dir.decodeVia? .buffered) = _
    rw [List.mapM_cons, decodeVia?_nestValue]
    rfl
  have fields : Value.fieldsOf? Project.memberNames (nestMembers n) =
      some [("name", .string "App"), ("dirs", .array [nestValue n])] :=
    Codec.fieldsOf?_eq_some ["name", "dirs"] rfl (by decide) (by decide)
  refine Project.decodeVia?_object_iff.mpr ⟨_, fields, ?_⟩
  constructor
  case entries =>
    intro kind
    cases kind with
    | dir => exact dirs
    | _ => rfl
  all_goals rfl

theorem ofJson_print_nestMembers {n : Nat} (flat : 2 * n + 3 ≤ maxDepth) :
    ofJson (Value.object (nestMembers n)).print = .ok (nestProject n) := by
  have plain : HavePlain (nestMembers n) :=
    ⟨⟨_, rfl⟩, trivial, ⟨_, rfl⟩, ⟨isPlain_nestValue n, trivial⟩, trivial⟩
  have depth : (Value.object (nestMembers n)).depth = 2 * n + 3 := by
    simp [nestMembers, Value.depth, Value.depthOfMembers, Value.depthOfItems, depth_nestValue]
  have writes : Writes (Value.object (nestMembers n)).print (nestMembers n) :=
    writes_print plain (by simp [nestMembers]) (by simp [nestMembers]) (depth ▸ flat)
  rw [ofJson_of_writes writes (project?_nestMembers n)]
  rfl

theorem le_depth_encode_nestProject (n : Nat) : 2 * n + 4 ≤ (encode (nestProject n)).depth := by
  have listed : (.name "dirs", encode (nestProject n).dirs) ∈ (nestProject n).encodeMembers := by
    simp [Project.encodeMembers, Project.encodeContent]
  have below : (encode (nestProject n).dirs).depth ≤ _ := Value.depth_le_depthOfMembers listed
  have nested := le_depth_encode_nest n
  have list : (encode (nestProject n).dirs).depth = max (Dir.encode (nest n)).depth 0 + 1 := rfl
  have whole : (encode (nestProject n)).depth =
      Value.depthOfMembers (nestProject n).encodeMembers + 1 := rfl
  omega

/-- Not every project that was read is read back from its written form. -/
theorem exists_not_ofJson_print_encode : ∃ text project, ofJson text = .ok project ∧
    ofJson (encode project).print = .error (.json .malformed) := by
  have steps : (nestProject 62).StepsReadBack := by
    intro action mem
    cases mem
  have deep : ¬ (encode (nestProject 62)).depth ≤ maxDepth := by
    have depth := le_depth_encode_nestProject 62
    rw [maxDepth]
    omega
  refine ⟨_, nestProject 62, ofJson_print_nestMembers (by decide), ?_⟩
  rw [ofJson_print_of_stepsReadBack steps, if_neg deep]

end Manifest

end Installer
