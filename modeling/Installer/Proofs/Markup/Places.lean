import Installer.Proofs.Markup.Directories
import Mathlib.Data.List.Nodup

/-! # The places of directories

`places` lists the id paths of the directories inside an element, in document order.  In a tidy tree
no path is listed twice, so counting directories is counting paths.  The search for a directory by
its id ends at the first path with this id at its end, `firstPlace?`.
-/

namespace Installer.Markup

open Element

namespace Element

mutual

def places : Element → List (List String)
  | ⟨_, _, children⟩ => placesIn children
termination_by structural e => e

def placesIn : List (Node Element) → List (List String)
  | [] => []
  | .element child :: rest =>
    (if child.name == "Directory" then
      child.id?.toList.flatMap fun id => [id] :: (places child).map (id :: ·) else []) ++
        placesIn rest
  | .text _ :: rest | .cdata _ :: rest => placesIn rest
termination_by structural nodes => nodes

end

/-- The id paths that begin with the element itself, if it is a directory. -/
def placesFrom (e : Element) : List (List String) :=
  if e.name == "Directory" then
    e.id?.toList.flatMap fun id => [id] :: e.places.map (id :: ·) else []

/-- The path ends in the id. -/
def endsIn (id : String) (path : List String) : Bool :=
  path.getLast? == some id

def firstPlace? (e : Element) (id : String) : Option (List String) :=
  e.places.find? (endsIn id)

/-! ## Places of one element -/

theorem placesIn_eq (nodes : List (Node Element)) :
    placesIn nodes = (nodes.filterMap Node.element?).flatMap placesFrom := by
  induction nodes with
  | nil => rfl
  | cons node rest ih =>
    cases node with
    | element child =>
      rw [placesIn, ih]
      rfl
    | text _ | cdata _ =>
      rw [placesIn, ih]
      rfl

theorem places_eq (e : Element) : e.places = e.elements.flatMap placesFrom := by
  obtain ⟨name, attrs, children⟩ := e
  rw [places, placesIn_eq]
  rfl

theorem places_mk (name : String) (attrs : List (String × String))
    (front back : List (Node Element)) (child : Element) :
    places ⟨name, attrs, front ++ .element child :: back⟩ =
      placesIn front ++ child.placesFrom ++ placesIn back := by
  rw [places, placesIn_eq, placesIn_eq, placesIn_eq, List.append_assoc, List.filterMap_append,
    List.flatMap_append]
  rfl

theorem placesFrom_directory {e : Element} {id : String}
    (here : hasNameAndId "Directory" id e = true) :
    e.placesFrom = [id] :: e.places.map (id :: ·) := by
  obtain ⟨name, identified⟩ := hasNameAndId_eq_true.mp here
  simp [placesFrom, name, identified]

theorem placesFrom_of_ne {e : Element} (other : e.name ≠ "Directory") : e.placesFrom = [] := by
  simp [placesFrom, other]

theorem mem_placesFrom {e : Element} {path : List String} :
    path ∈ e.placesFrom ↔ ∃ id rest, path = id :: rest ∧
      hasNameAndId "Directory" id e = true ∧ (rest = [] ∨ rest ∈ e.places) := by
  constructor
  · intro mem
    rw [placesFrom] at mem
    split at mem
    next directory =>
      obtain ⟨id, identified, among⟩ := List.mem_flatMap.mp mem
      have here := hasNameAndId_eq_true.mpr
        ⟨by simpa using directory, Option.mem_toList.mp identified⟩
      cases List.mem_cons.mp among with
      | inl alone => exact ⟨id, [], alone, here, .inl rfl⟩
      | inr below =>
        obtain ⟨rest, inside, rfl⟩ := List.mem_map.mp below
        exact ⟨id, rest, rfl, here, .inr inside⟩
    next => cases mem
  · rintro ⟨id, rest, rfl, here, rfl | inside⟩
    · simp [placesFrom_directory here]
    · simp [placesFrom_directory here, inside]

theorem ne_nil_of_mem_places {e : Element} {path : List String} (mem : path ∈ e.places) :
    path ≠ [] := by
  rw [places_eq, List.mem_flatMap] at mem
  obtain ⟨child, -, among⟩ := mem
  obtain ⟨id, rest, rfl, -⟩ := mem_placesFrom.mp among
  simp

@[simp] theorem places_add (e child : Element) :
    (e.add child).places = e.places ++ child.placesFrom := by
  simp [places_eq]

theorem places_addAll (e : Element) {children : List Element}
    (none : ∀ child ∈ children, child.name ≠ "Directory") :
    (e.addAll children).places = e.places := by
  have nothing : children.flatMap placesFrom = [] :=
    List.flatMap_eq_nil_iff.mpr fun child mem => placesFrom_of_ne (none child mem)
  rw [places_eq, elements_addAll, List.flatMap_append, nothing, List.append_nil, places_eq]

/-! ## Places and paths -/

/-- In a tidy tree there is a directory at each place, and a place for each directory. -/
theorem Tidy.mem_places {e : Element} (tidy : Tidy e) {path : List String} :
    path ∈ e.places ↔ path ≠ [] ∧ (e.follow? path).isSome = true := by
  induction path generalizing e with
  | nil =>
    constructor
    · exact fun mem => absurd rfl (ne_nil_of_mem_places mem)
    · exact fun impossible => absurd rfl impossible.1
  | cons id path ih =>
    have below : ∀ child ∈ e.elements, (path = [] ∨ path ∈ child.places) ↔
        (child.follow? path).isSome = true := by
      intro child isChild
      rw [ih (tidy.child isChild)]
      cases path with
      | nil => simp [follow?]
      | cons first rest => simp
    have inside : (id :: path ∈ e.places) ↔ ∃ child ∈ e.elements,
        hasNameAndId "Directory" id child = true ∧ (child.follow? path).isSome = true := by
      rw [places_eq, List.mem_flatMap]
      refine exists_congr fun child => and_congr_right fun isChild => ?_
      rw [mem_placesFrom, ← below child isChild]
      simp
    rw [inside, follow?]
    cases found : e.elements.find? (hasNameAndId "Directory" id) with
    | none =>
      have missing := List.find?_eq_none.mp found
      simp only [Option.bind_none, Option.isSome_none, Bool.false_eq_true, and_false, iff_false]
      rintro ⟨child, isChild, here, -⟩
      exact missing child isChild here
    | some child =>
      -- a second child with the id would be a sibling of the first
      have only : ∀ x ∈ e.elements, hasNameAndId "Directory" id x = true → x = child := by
        intro x isChild here
        have mem := List.mem_filter.mpr ⟨isChild, here⟩
        rw [tidy.filter_eq found] at mem
        exact List.mem_singleton.mp mem
      simp only [Option.bind_some, ne_eq, reduceCtorEq, not_false_eq_true, true_and]
      constructor
      · rintro ⟨x, isChild, here, leads⟩
        exact only x isChild here ▸ leads
      · exact fun leads =>
          ⟨child, List.mem_of_find?_eq_some found, List.find?_some found, leads⟩

/-- No place is listed twice. -/
theorem Tidy.nodup_places {e : Element} : Tidy e → e.places.Nodup := by
  refine e.induct (motive := fun e => Tidy e → e.places.Nodup) fun e ih tidy => ?_
  rw [places_eq, List.nodup_flatMap]
  constructor
  · intro child isChild
    rw [placesFrom]
    split
    next =>
      cases child.id? with
      | none => exact List.nodup_nil
      | some id =>
        have inner := (ih child isChild (tidy.child isChild)).map (List.cons_injective (a := id))
        simp only [Option.toList_some, List.flatMap_singleton, List.nodup_cons]
        refine ⟨fun mem => ?_, inner⟩
        obtain ⟨rest, inside, equal⟩ := List.mem_map.mp mem
        exact ne_nil_of_mem_places inside (List.cons.inj equal).2
    next => exact List.nodup_nil
  · -- the places from two siblings begin with their different ids
    have different : (e.elements.filter fun x => x.name == "Directory").Pairwise fun x y =>
        x.id? ≠ y.id? := List.pairwise_map.mp tidy.nodup
    rw [List.pairwise_filter] at different
    refine different.imp fun {x y} kept => ?_
    intro path inX inY
    obtain ⟨id, rest, rfl, hereX, -⟩ := mem_placesFrom.mp inX
    obtain ⟨id', rest', equal, hereY, -⟩ := mem_placesFrom.mp inY
    obtain ⟨nameX, idX⟩ := hasNameAndId_eq_true.mp hereX
    obtain ⟨nameY, idY⟩ := hasNameAndId_eq_true.mp hereY
    rw [List.cons.injEq] at equal
    exact kept (by simp [nameX]) (by simp [nameY]) (by rw [idX, idY, equal.1])

theorem getLast?_cons_place {e : Element} {path : List String} (mem : path ∈ e.places)
    (id : String) : (id :: path).getLast? = path.getLast? := by
  cases path with
  | nil => exact absurd rfl (ne_nil_of_mem_places mem)
  | cons first rest => rw [List.getLast?_cons_cons]

/-- The ids of the directories inside a tidy tree are the ends of the places. -/
theorem Tidy.directoryIds_eq {e : Element} : Tidy e →
    (e.descendantsNamed "Directory").map id? = e.places.map List.getLast? := by
  refine e.induct (motive := fun e => Tidy e →
    (e.descendantsNamed "Directory").map id? = e.places.map List.getLast?) fun e ih tidy => ?_
  rw [descendantsNamed, descendants_eq_flatMap, places_eq, List.filter_flatMap, List.map_flatMap,
    List.map_flatMap]
  refine List.flatMap_congr fun child isChild => ?_
  by_cases directory : child.name = "Directory"
  · obtain ⟨id, identified⟩ := tidy.exists_id isChild directory
    have below := ih child isChild (tidy.child isChild)
    rw [descendantsNamed] at below
    rw [placesFrom_directory (hasNameAndId_eq_true.mpr ⟨directory, identified⟩), subtree,
      List.filter_cons_of_pos (by simp [directory]), List.map_cons, List.map_cons, below,
      List.map_map, identified]
    congr 1
    exact List.map_congr_left fun path mem => (getLast?_cons_place mem id).symm
  · -- what is no directory has none below it
    have tidyChild : Tidy child := tidy.child isChild
    have only := tidyChild.only directory
    rw [placesFrom_of_ne directory, List.filter_eq_nil_iff.mpr fun x mem => by
      simpa using only x mem]
    rfl

/-! ## The first place with an id -/

theorem endsIn_append {path : List String} (nonempty : path ≠ []) (front : List String)
    (id : String) : endsIn id (front ++ path) = endsIn id path := by
  rw [endsIn, endsIn, List.getLast?_append_of_ne_nil _ nonempty]

/-- Below a directory, the places with an id are those of the directory. -/
theorem filter_map_append {paths : List (List String)} (nonempty : ∀ path ∈ paths, path ≠ [])
    (front : List String) (id : String) : (paths.map (front ++ ·)).filter (endsIn id) =
      (paths.filter (endsIn id)).map (front ++ ·) := by
  rw [List.filter_map]
  congr 1
  exact List.filter_congr fun path mem => endsIn_append (nonempty path mem) front id

theorem filter_map_cons {paths : List (List String)} (nonempty : ∀ path ∈ paths, path ≠ [])
    (first id : String) :
    (paths.map (first :: ·)).filter (endsIn id) = (paths.filter (endsIn id)).map (first :: ·) :=
  filter_map_append nonempty [first] id

theorem firstPlace?_eq_head? (e : Element) (id : String) :
    e.firstPlace? id = (e.places.filter (endsIn id)).head? := by
  rw [firstPlace?, List.head?_filter]

theorem count_getLast?_places (e : Element) (id : String) :
    (e.places.map List.getLast?).count (some id) = (e.places.filter (endsIn id)).length := by
  rw [List.count_eq_length_filter, List.filter_map, List.length_map]
  rfl

/-- A place with an id means a directory with it. -/
theorem Tidy.exists_of_mem_places {e : Element} (tidy : Tidy e) {path : List String} {id : String}
    (mem : path ∈ e.places) (ends : endsIn id path = true) :
    ∃ d ∈ e.descendants, hasNameAndId "Directory" id d = true := by
  obtain ⟨nonempty, present⟩ := tidy.mem_places.mp mem
  obtain ⟨d, leads⟩ := Option.isSome_iff_exists.mp present
  obtain ⟨below, directory⟩ := follow?_below leads nonempty
  obtain ⟨front, rfl⟩ := List.getLast?_eq_some_iff.mp (by simpa [endsIn] using ends)
  exact ⟨d, below, hasNameAndId_eq_true.mpr ⟨directory, follow?_id leads⟩⟩

theorem filter_places_eq_nil {e : Element} (tidy : Tidy e) {id : String}
    (missing : ∀ d ∈ e.descendants, hasNameAndId "Directory" id d = false) :
    e.places.filter (endsIn id) = [] := by
  refine List.filter_eq_nil_iff.mpr fun path mem ends => ?_
  obtain ⟨d, below, here⟩ := tidy.exists_of_mem_places mem ends
  rw [missing d below] at here
  cases here

/-- The places with an id in a directory with another id are those below it. -/
theorem filter_placesFrom {child : Element} {id other : String}
    (here : hasNameAndId "Directory" other child = true) (different : other ≠ id) :
    child.placesFrom.filter (endsIn id) = (child.places.filter (endsIn id)).map (other :: ·) := by
  have notHere : endsIn id [other] = false := by simpa [endsIn] using different
  rw [placesFrom_directory here, List.filter_cons, notHere,
    filter_map_cons fun path mem => ne_nil_of_mem_places mem]
  rfl

end Element

namespace Focus

variable {focus : Focus Element} {whole : Element} {path : List String}

/-- The places inside a directory are listed together, with its path in front. -/
theorem IsAt.places_put (isAt : focus.IsAt whole path) : ∃ front back, ∀ e : Element,
    e.tag = focus.node.tag →
      (focus.put e).places = front ++ e.places.map (path ++ ·) ++ back := by
  induction isAt with
  | whole _ => exact ⟨[], [], fun e _ => by simp [Focus.whole]⟩
  | @child focus child id path name attrs before after here first inside ih =>
    obtain ⟨front, back, law⟩ := ih
    refine ⟨placesIn before ++ [id] :: front.map (id :: ·), back.map (id :: ·) ++ placesIn after,
      fun e same => ?_⟩
    have here' : hasNameAndId "Directory" id (focus.put e) = true := by
      rw [hasNameAndId_eq_of_tag (inside.isPlace.tag_put same)]
      exact here
    show places ⟨name, attrs, before ++ .element (focus.put e) :: after⟩ = _
    rw [places_mk, placesFrom_directory here', law e same]
    simp [Function.comp_def]

/-- A change to a directory that keeps the places with an id there keeps all places with this id. -/
theorem IsAt.filter_places_put (isAt : focus.IsAt whole path) {e : Element} {id : String}
    (same : e.tag = focus.node.tag)
    (kept : e.places.filter (endsIn id) = focus.node.places.filter (endsIn id)) :
    (focus.put e).places.filter (endsIn id) = whole.places.filter (endsIn id) := by
  obtain ⟨front, back, law⟩ := isAt.places_put
  have new := law e same
  have old := law focus.node rfl
  rw [isAt.isPlace.put_node] at old
  rw [new, old]
  simp only [List.filter_append]
  rw [filter_map_append (fun path mem => ne_nil_of_mem_places mem), kept,
    ← filter_map_append fun path mem => ne_nil_of_mem_places mem]

/-- A subdirectory that is changed, or put behind all others when there is none with its id, adds
no place with another id. -/
theorem filter_places_putChildOr {parent made e : Element} {own id : String}
    (here : hasNameAndId "Directory" own made = true) (empty : made.places = [])
    (same : e.tag = (parent.focusChildOr (hasNameAndId "Directory" own) made).node.tag)
    (kept : e.places.filter (endsIn id) =
      (parent.focusChildOr (hasNameAndId "Directory" own) made).node.places.filter (endsIn id)) :
    ∃ extra, ((parent.focusChildOr (hasNameAndId "Directory" own) made).put e).places.filter
      (endsIn id) = parent.places.filter (endsIn id) ++ extra ∧ (own ≠ id → extra = []) := by
  rw [focusChildOr] at same kept ⊢
  cases found : parent.focusChild? (hasNameAndId "Directory" own) with
  | some focus =>
    rw [found, Option.getD_some] at same kept
    refine ⟨[], ?_, fun _ => rfl⟩
    rw [Option.getD_some, List.append_nil]
    exact (isAt_of_focusChild? found).filter_places_put same kept
  | none =>
    rw [found, Option.getD_none] at same kept
    have here' : hasNameAndId "Directory" own e = true := by
      rw [hasNameAndId_eq_of_tag same]
      exact here
    refine ⟨e.placesFrom.filter (endsIn id), ?_, fun different => ?_⟩
    · rw [Option.getD_none]
      show (parent.add e).places.filter (endsIn id) = _
      rw [places_add, List.filter_append]
    · rw [filter_placesFrom here' different, kept, empty]
      rfl

def IsFirst (focus : Focus (List (Node Element))) (nodes : List (Node Element)) (id : String) :
    Prop :=
  ∃ (front : List (Node Element)) (child : Element) (back : List (Node Element))
    (inside : Focus Element) (own : String) (path : List String),
    nodes = front ++ .element child :: back ∧ hasNameAndId "Directory" own child = true ∧
      inside.IsAt child path ∧ focus = inside.within (fun e => front ++ .element e :: back) ∧
        ((placesIn nodes).filter (endsIn id)).head? = some (own :: path)

theorem IsFirst.cons {focus : Focus (List (Node Element))} {nodes : List (Node Element)}
    {id : String} (isFirst : focus.IsFirst nodes id) {node : Node Element}
    (passed : (placesIn [node]).filter (endsIn id) = []) :
    (focus.within fun nodes => node :: nodes).IsFirst (node :: nodes) id := by
  obtain ⟨front, child, back, inside, own, path, rfl, here, isAt, rfl, first⟩ := isFirst
  refine ⟨node :: front, child, back, inside, own, path, rfl, here, isAt, rfl, ?_⟩
  have split : ∀ rest, placesIn (node :: rest) = placesIn [node] ++ placesIn rest := by
    intro rest
    rw [placesIn_eq, placesIn_eq, placesIn_eq, ← List.flatMap_append, ← List.filterMap_append,
      List.singleton_append]
  rw [split, List.filter_append, passed, List.nil_append]
  exact first

end Focus

namespace Element

open Focus

mutual

/-- The search for a directory by its id ends at the first place with this id. -/
theorem isAt_of_focus? {focus : Focus Element} {id : String} :
    ∀ {e : Element}, Tidy e → e.focus? (hasNameAndId "Directory" id) = some focus →
      ∃ path, focus.IsAt e path ∧ e.firstPlace? id = some path
  | ⟨name, attrs, nodes⟩, tidy, found => by
    rw [focus?, Option.map_eq_some_iff] at found
    obtain ⟨among, search, rfl⟩ := found
    have identified : ∀ x ∈ nodes.filterMap Node.element?, Tidy x ∧
        (x.name = "Directory" → ∃ own, x.id? = some own) :=
      fun x mem => ⟨tidy.child mem, fun directory => tidy.exists_id mem directory⟩
    obtain ⟨front, child, back, inside, own, path, rfl, here, isAt, rfl, first⟩ :=
      isFirst_of_focusIn? identified search
    refine ⟨own :: path, .child name attrs front back here (tidy.first here) isAt, ?_⟩
    rw [firstPlace?_eq_head?, places]
    exact first

theorem isFirst_of_focusIn? {focus : Focus (List (Node Element))} {id : String} :
    ∀ {nodes : List (Node Element)}, (∀ x ∈ nodes.filterMap Node.element?, Tidy x ∧
      (x.name = "Directory" → ∃ own, x.id? = some own)) →
        focusIn? (hasNameAndId "Directory" id) nodes = some focus → focus.IsFirst nodes id
  | [], _, found => nomatch found
  | .element child :: rest, tidy, found => by
    obtain ⟨⟨tidyChild, identified⟩, others⟩ := List.forall_mem_cons.mp tidy
    rw [focusIn?] at found
    have split : placesIn (.element child :: rest) = child.placesFrom ++ placesIn rest := by
      rw [placesIn_eq, placesIn_eq]
      rfl
    split at found
    next here =>
      cases found
      refine ⟨[], child, rest, .whole child, id, [], rfl, here, .whole child, rfl, ?_⟩
      rw [split, placesFrom_directory here]
      simp [endsIn]
    next notHere =>
      cases below : focus? (hasNameAndId "Directory" id) child with
      | some inside =>
        simp only [below, Option.some.injEq] at found
        subst found
        obtain ⟨place, isDirectory⟩ := isPlace_of_focus? below
        -- elements other than directories hold none
        have directory : child.name = "Directory" := by
          by_contra other
          exact (place.only_node (tidyChild.only other)).here
            (hasNameAndId_eq_true.mp isDirectory).1
        obtain ⟨own, declared⟩ := identified directory
        have here := hasNameAndId_eq_true.mpr ⟨directory, declared⟩
        have different : own ≠ id := fun equal => notHere (equal ▸ here)
        obtain ⟨path, isAt, first⟩ := isAt_of_focus? tidyChild below
        refine ⟨[], child, rest, inside, own, path, rfl, here, isAt, rfl, ?_⟩
        rw [firstPlace?_eq_head?] at first
        rw [split, List.filter_append, filter_placesFrom here different, List.head?_append,
          List.head?_map, first]
        rfl
      | none =>
        simp only [below, Option.map_eq_some_iff] at found
        obtain ⟨later, among, rfl⟩ := found
        refine (isFirst_of_focusIn? others among).cons ?_
        have alone : placesIn [.element child] = child.placesFrom := by
          rw [placesIn_eq]
          simp [Node.element?]
        rw [alone]
        -- no place in the child ends in the id, so the first one is behind it
        by_cases directory : child.name = "Directory"
        · obtain ⟨own, declared⟩ := identified directory
          have here := hasNameAndId_eq_true.mpr ⟨directory, declared⟩
          have different : own ≠ id := fun equal => notHere (equal ▸ here)
          rw [filter_placesFrom here different,
            filter_places_eq_nil tidyChild (focus?_eq_none below)]
          rfl
        · rw [placesFrom_of_ne directory]
          rfl
  | .text _ :: rest, tidy, found | .cdata _ :: rest, tidy, found => by
    rw [focusIn?, Option.map_eq_some_iff] at found
    obtain ⟨later, among, rfl⟩ := found
    have isFirst : later.IsFirst rest id := isFirst_of_focusIn? tidy among
    exact isFirst.cons (by simp [placesIn])

end

end Element

end Installer.Markup
