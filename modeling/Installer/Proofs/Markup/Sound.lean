import Installer.Proofs.Markup.ReadBack

/-! # Elements that are built well-formed

Elements are built from a name by setting attributes and adding children.  What is built is
well-formed if all names are names of XML and if characters go only into elements that are made for
them and have no child elements.
-/

namespace Installer.Markup

/-! ## Names -/

def AreNames (names : List String) : Prop :=
  ∀ name ∈ names, Xml.isName name.toList = true

@[simp] theorem areNames_nil : AreNames [] := by
  simp [AreNames]

@[simp] theorem areNames_cons {name : String} {rest : List String} :
    AreNames (name :: rest) ↔ Xml.isName name.toList = true ∧ AreNames rest :=
  List.forall_mem_cons

@[simp] theorem areNames_append {front back : List String} :
    AreNames (front ++ back) ↔ AreNames front ∧ AreNames back :=
  List.forall_mem_append

@[simp] theorem areNames_flatMap {α : Type} {names : α → List String} {xs : List α} :
    AreNames (xs.flatMap names) ↔ ∀ x ∈ xs, AreNames (names x) :=
  List.forall_mem_flatMap

namespace Element

/-- Setting an attribute brings its name in if it is not there. -/
theorem names_setPair (name value : String) (attrs : List (String × String)) :
    (setPair name value attrs).map Prod.fst =
      if name ∈ attrs.map Prod.fst then attrs.map Prod.fst else attrs.map Prod.fst ++ [name] := by
  induction attrs with
  | nil => simp [setPair]
  | cons pair rest ih =>
    rw [setPair]
    split
    next same => simp [same]
    next other =>
      rw [List.map_cons, ih, List.map_cons]
      by_cases mem : name ∈ rest.map Prod.fst
      · rw [if_pos mem, if_pos (List.mem_cons_of_mem _ mem)]
      · rw [if_neg mem, if_neg (List.not_mem_cons_of_ne_of_not_mem (Ne.symm other) mem),
          List.cons_append]

/-! ## Sound elements -/

/-- The names of the elements that are made for characters. -/
def wordyNames : List String :=
  ["Condition", "Custom", "CustomAction", "MultiStringValue"]

def HoldsElements (e : Element) : Prop :=
  ∀ node ∈ e.children, node.element?.isSome = true

/-- The element is well-formed, and if it holds characters it is made for them. -/
structure Fit (e : Element) : Prop where
  named : Xml.isName e.name.toList = true
  attrs : AreNames (e.attrs.map Prod.fst)
  distinct : (e.attrs.map Prod.fst).Nodup
  children : e.HoldsElements ∨ e.name ∈ wordyNames ∧ ∀ node ∈ e.children, node.element? = none

theorem Fit.wellFormed {e : Element} (fit : Fit e) : WellFormed e where
  named := fit.named
  attrsNamed := List.forall_mem_map.mp fit.attrs
  distinct := fit.distinct
  unmixed := fit.children.imp_right And.right

/-- The element and all elements below it are fit. -/
def Sound (e : Element) : Prop :=
  Everywhere Fit e

/-- The element is sound and may have more elements in it. -/
structure Nest (e : Element) : Prop where
  sound : Sound e
  nested : e.HoldsElements

theorem Sound.wellFormed {e : Element} (sound : Sound e) : Everywhere WellFormed e :=
  Everywhere.mono sound fun _ => Fit.wellFormed

/-! ## Attributes -/

variable {e : Element} {name : String}

theorem fit_attr {value : String} :
    Fit (e.attr name value) ↔ Fit e ∧ Xml.isName name.toList = true := by
  have names := names_setPair name value e.attrs
  constructor
  · rintro ⟨named, attrs, distinct, children⟩
    rw [attr, names] at attrs distinct
    split at attrs
    next mem =>
      rw [if_pos mem] at distinct
      exact ⟨⟨named, attrs, distinct, children⟩, attrs name mem⟩
    next new =>
      rw [if_neg new, List.nodup_append] at distinct
      rw [areNames_append, areNames_cons] at attrs
      exact ⟨⟨named, attrs.1, distinct.1, children⟩, attrs.2.1⟩
  · rintro ⟨⟨named, attrs, distinct, children⟩, isName⟩
    refine ⟨named, ?_, ?_, children⟩
    · rw [attr, names]
      split
      next => exact attrs
      next => simp [attrs, isName]
    · rw [attr, names]
      split
      next => exact distinct
      next new =>
        refine List.nodup_append.mpr ⟨distinct, by simp, ?_⟩
        rintro x mem _ last rfl
        exact new (List.mem_singleton.mp last ▸ mem)

@[simp] theorem sound_attr {value : String} :
    Sound (e.attr name value) ↔ Sound e ∧ Xml.isName name.toList = true := by
  rw [Sound, everywhere_iff, fit_attr, elements_attr, and_right_comm, ← everywhere_iff, Sound]

@[simp] theorem sound_attr? {value : Option String} :
    Sound (e.attr? name value) ↔
      Sound e ∧ (value.isSome = true → Xml.isName name.toList = true) := by
  cases value <;> simp [attr?]

@[simp] theorem sound_withAttrs {pairs : List (String × String)} :
    Sound (e.withAttrs pairs) ↔ Sound e ∧ AreNames (pairs.map Prod.fst) := by
  induction pairs generalizing e with
  | nil => simp [withAttrs]
  | cons pair rest ih =>
    have first : Sound ((e.attr pair.1 pair.2).withAttrs rest) ↔ _ := ih
    rw [sound_attr] at first
    rw [List.map_cons, areNames_cons, ← and_assoc]
    exact first

theorem nest_congr {f : Element} {p : Prop} (sound : Sound f ↔ Sound e ∧ p)
    (children : f.children = e.children) : Nest f ↔ Nest e ∧ p := by
  have nested : f.HoldsElements ↔ e.HoldsElements := by rw [HoldsElements, children, HoldsElements]
  constructor
  · rintro ⟨whole, holds⟩
    exact ⟨⟨(sound.mp whole).1, nested.mp holds⟩, (sound.mp whole).2⟩
  · rintro ⟨⟨whole, holds⟩, more⟩
    exact ⟨sound.mpr ⟨whole, more⟩, nested.mpr holds⟩

@[simp] theorem nest_attr {value : String} :
    Nest (e.attr name value) ↔ Nest e ∧ Xml.isName name.toList = true :=
  nest_congr sound_attr rfl

@[simp] theorem nest_attr? {value : Option String} :
    Nest (e.attr? name value) ↔ Nest e ∧ (value.isSome = true → Xml.isName name.toList = true) :=
  nest_congr sound_attr? (by simp)

@[simp] theorem nest_withAttrs {pairs : List (String × String)} :
    Nest (e.withAttrs pairs) ↔ Nest e ∧ AreNames (pairs.map Prod.fst) :=
  nest_congr sound_withAttrs (by simp)

/-! ## Children -/

theorem nest_iff : Nest e ↔ Fit e ∧ e.HoldsElements ∧ ∀ child ∈ e.elements, Sound child := by
  constructor
  · rintro ⟨sound, nested⟩
    exact ⟨sound.here, nested, fun _ mem => sound.child mem⟩
  · rintro ⟨fit, nested, below⟩
    exact ⟨everywhere_iff.mpr ⟨fit, below⟩, nested⟩

@[simp] theorem nest_mk_nil {attrs : List (String × String)} :
    Nest ⟨name, attrs, []⟩ ↔ Xml.isName name.toList = true ∧ AreNames (attrs.map Prod.fst) ∧
      (attrs.map Prod.fst).Nodup := by
  rw [nest_iff]
  constructor
  · rintro ⟨fit, -⟩
    exact ⟨fit.named, fit.attrs, fit.distinct⟩
  · rintro ⟨named, attrs, distinct⟩
    exact ⟨⟨named, attrs, distinct, .inl nofun⟩, nofun, nofun⟩

@[simp] theorem sound_mk_nil {attrs : List (String × String)} :
    Sound ⟨name, attrs, []⟩ ↔ Xml.isName name.toList = true ∧ AreNames (attrs.map Prod.fst) ∧
      (attrs.map Prod.fst).Nodup := by
  rw [← nest_mk_nil]
  exact ⟨fun sound => ⟨sound, nofun⟩, Nest.sound⟩

theorem holdsElements_addAll {children : List Element} :
    (e.addAll children).HoldsElements ↔ e.HoldsElements := by
  have added : ∀ node ∈ children.map Node.element, node.element?.isSome = true :=
    List.forall_mem_map.mpr fun _ _ => rfl
  rw [HoldsElements, addAll, addNodes, List.forall_mem_append]
  exact and_iff_left added

@[simp] theorem nest_addAll {children : List Element} :
    Nest (e.addAll children) ↔ Nest e ∧ ∀ child ∈ children, Sound child := by
  have holds : (e.addAll children).HoldsElements ↔ e.HoldsElements := holdsElements_addAll
  rw [nest_iff, nest_iff, elements_addAll, List.forall_mem_append, holds]
  constructor
  · rintro ⟨fit, nested, below, new⟩
    exact ⟨⟨⟨fit.named, fit.attrs, fit.distinct, .inl nested⟩, nested, below⟩, new⟩
  · rintro ⟨⟨fit, nested, below⟩, new⟩
    exact ⟨⟨fit.named, fit.attrs, fit.distinct, .inl (holds.mpr nested)⟩, nested, below, new⟩

@[simp] theorem nest_add {child : Element} : Nest (e.add child) ↔ Nest e ∧ Sound child := by
  have added : Nest (e.addAll [child]) ↔ Nest e ∧ ∀ x ∈ [child], Sound x := nest_addAll
  rwa [List.forall_mem_singleton] at added

/-- With a child element in it, an element that is sound holds nothing but elements. -/
@[simp] theorem sound_add {child : Element} : Sound (e.add child) ↔ Nest e ∧ Sound child := by
  rw [← nest_add]
  refine ⟨fun sound => ⟨sound, ?_⟩, Nest.sound⟩
  cases sound.here.children with
  | inl nested => exact nested
  | inr plain =>
    have none := plain.2 (.element child) (by simp [add, addNodes])
    cases none

/-- Characters make an element that is meant for them. -/
theorem sound_mk_word {attrs : List (String × String)} {node : Node Element}
    (word : node.element? = none) :
    Sound ⟨name, attrs, [node]⟩ ↔ name ∈ wordyNames ∧ Xml.isName name.toList = true ∧
      AreNames (attrs.map Prod.fst) ∧ (attrs.map Prod.fst).Nodup := by
  have alone : elements ⟨name, attrs, [node]⟩ = [] := by simp [elements, word]
  rw [Sound, everywhere_iff, alone]
  constructor
  · rintro ⟨⟨named, attrs, distinct, children⟩, -⟩
    refine ⟨?_, named, attrs, distinct⟩
    cases children with
    | inl nested =>
      have element := nested node List.mem_cons_self
      rw [word] at element
      cases element
    | inr wordy => exact wordy.1
  · rintro ⟨wordy, named, attrs, distinct⟩
    have plain : ∀ x ∈ [node], x.element? = none := List.forall_mem_singleton.mpr word
    exact ⟨⟨named, attrs, distinct, .inr ⟨wordy, plain⟩⟩, List.forall_mem_nil _⟩

@[simp] theorem sound_mk_text {content : String} {attrs : List (String × String)} :
    Sound ⟨name, attrs, [.text content]⟩ ↔ name ∈ wordyNames ∧ Xml.isName name.toList = true ∧
      AreNames (attrs.map Prod.fst) ∧ (attrs.map Prod.fst).Nodup :=
  sound_mk_word rfl

@[simp] theorem sound_mk_cdata {content : String} {attrs : List (String × String)} :
    Sound ⟨name, attrs, [.cdata content]⟩ ↔ name ∈ wordyNames ∧ Xml.isName name.toList = true ∧
      AreNames (attrs.map Prod.fst) ∧ (attrs.map Prod.fst).Nodup :=
  sound_mk_word rfl

end Element

end Installer.Markup
