import GraphFusion.Proofs.Lists
import GraphFusion.Proofs.Values.Leaves
import Mathlib.Data.List.Lex

/-!
The paths next to the leaves of a value. A route leads to a leaf: the positions of the
elements that are taken on the way, and a segment for each of them. Paths join segments with
slashes, but a slash is written only behind a path that is not empty, so the empty segments
at the front of a route leave no slash. All other routes can be read off their path as long
as no segment has a slash in it.
-/

namespace GraphFusion

namespace Value

/-- Taking the elements at `positions` leads to a leaf, and `segments` has for each its name
or else its position. -/
inductive Route : Value → List Nat → List String → Tensor → Prop
  | leaf (t : Tensor) : Route (.tensor t) [] [] t
  | element {es : List (Label × Value)} {index : Nat} {n : Label} {v : Value}
      {positions : List Nat} {segments : List String} {t : Tensor}
      (helement : es[index]? = some (n, v)) (hrest : Route v positions segments t) :
      Route (.struct es) (index :: positions) (n.getD (toString index) :: segments) t

mutual

/-- Where the leaves are, in their order. -/
def leafPositions : Value → List (List Nat)
  | .tensor _ => [[]]
  | .struct es => elementPositions 0 es

def elementPositions (index : Nat) : List (Label × Value) → List (List Nat)
  | [] => []
  | (_, v) :: es => (leafPositions v).map (index :: ·) ++ elementPositions (index + 1) es

end

theorem mem_elementPositions {es : List (Label × Value)} {i : Nat} {n : Label} {v : Value}
    {p : List Nat} (helement : es[i]? = some (n, v)) (hp : p ∈ v.leafPositions) (index : Nat) :
    (index + i) :: p ∈ elementPositions index es := by
  induction es generalizing index i with
  | nil => cases helement
  | cons e es ih =>
    rw [elementPositions, List.mem_append]
    cases i with
    | zero =>
      cases helement
      exact .inl (List.mem_map_of_mem hp)
    | succ i =>
      right
      have hrest := ih (by simpa using helement) (index + 1)
      rwa [Nat.add_right_comm, Nat.add_assoc] at hrest

theorem Route.mem_leafPositions {v : Value} {p : List Nat} {segments : List String} {t : Tensor}
    (h : Route v p segments t) : p ∈ v.leafPositions := by
  induction h with
  | leaf t => simp [leafPositions]
  | @element es index n v p segments t helement hrest ih =>
    have hmem := mem_elementPositions helement ih 0
    rw [Nat.zero_add] at hmem
    rwa [leafPositions]

theorem Route.length_segments {v : Value} {p : List Nat} {segments : List String} {t : Tensor}
    (h : Route v p segments t) : segments.length = p.length := by
  induction h with
  | leaf t => rfl
  | element helement hrest ih => rw [List.length_cons, List.length_cons, ih]

theorem le_of_mem_elementPositions {es : List (Label × Value)} {index i : Nat} {p : List Nat}
    (h : i :: p ∈ elementPositions index es) : index ≤ i := by
  induction es generalizing index with
  | nil => simp [elementPositions] at h
  | cons e es ih =>
    rw [elementPositions, List.mem_append, List.mem_map] at h
    rcases h with ⟨q, -, hq⟩ | h
    · cases hq
      exact Nat.le_refl i
    · exact Nat.le_of_succ_le (ih h)

theorem nil_notMem_elementPositions (index : Nat) (es : List (Label × Value)) :
    [] ∉ elementPositions index es := by
  induction es generalizing index with
  | nil => simp [elementPositions]
  | cons e es ih => simp [elementPositions, ih]

mutual

/-- The leaves come in the order of their positions, compared from the outermost on. -/
theorem ascending_leafPositions : ∀ v : Value, v.leafPositions.Pairwise (· < ·)
  | .tensor _ => by simp [leafPositions]
  | .struct es => by simpa only [leafPositions] using ascending_elementPositions 0 es

theorem ascending_elementPositions : ∀ (index : Nat) (es : List (Label × Value)),
    (elementPositions index es).Pairwise (· < ·)
  | _, [] => by simp [elementPositions]
  | index, (_, v) :: es => by
    rw [elementPositions, List.pairwise_append, List.pairwise_map]
    refine ⟨?_, ascending_elementPositions (index + 1) es, ?_⟩
    · exact (ascending_leafPositions v).imp fun h => List.cons_lt_cons_iff.mpr (.inr ⟨rfl, h⟩)
    · intro p hp q hq
      obtain ⟨p', -, rfl⟩ := List.mem_map.mp hp
      cases q with
      | nil => exact absurd hq (nil_notMem_elementPositions _ _)
      | cons i q => exact List.cons_lt_cons_iff.mpr (.inl (le_of_mem_elementPositions hq))

end

/-- Segments with a slash between any two. -/
def joined (segments : List String) : String := "/".intercalate segments

/-- The path of a route: its segments, but for the empty ones in front. -/
def routePath (segments : List String) : String := joined (segments.dropWhile String.isEmpty)

theorem joined_concat {segments : List String} (h : segments ≠ []) (s : String) :
    joined (segments ++ [s]) = joined segments ++ "/" ++ s := by
  unfold joined
  induction segments with
  | nil => exact absurd rfl h
  | cons s' segments ih =>
    cases segments with
    | nil => simp
    | cons s'' segments =>
      have hrest := ih (List.cons_ne_nil s'' segments)
      rw [List.cons_append, List.cons_append, String.intercalate_cons_cons, ← List.cons_append,
        hrest, String.intercalate_cons_cons]
      simp only [String.append_assoc]

theorem joined_ne_empty {s : String} {segments : List String} (h : s ≠ "") :
    joined (s :: segments) ≠ "" := by
  unfold joined
  cases segments with
  | nil => simpa using h
  | cons s' segments => simp [String.intercalate_cons_cons]

/-- Going one level down adds a segment to the route. -/
theorem extendPath_routePath (segments : List String) (n : Label) (index : Nat) :
    extendPath (routePath segments) n index =
      routePath (segments ++ [n.getD (toString index)]) := by
  unfold extendPath routePath
  generalize n.getD (toString index) = s
  rw [List.dropWhile_append]
  cases hrest : segments.dropWhile String.isEmpty with
  | nil =>
    by_cases hs : s.isEmpty = true
    · simp [joined, String.isEmpty_iff.mp hs]
    · simp [joined, hs]
  | cons first rest =>
    have hfirst : first ≠ "" := by
      have hhead := List.head?_dropWhile_not String.isEmpty segments
      rw [hrest] at hhead
      simpa using hhead
    have hpath : ¬ (joined (first :: rest)).isEmpty = true :=
      mt String.isEmpty_iff.mp (joined_ne_empty hfirst)
    rw [if_neg hpath, List.isEmpty_cons, if_neg Bool.false_ne_true,
      joined_concat (List.cons_ne_nil first rest)]

/-- What is listed for the leaf at `positions` of a value that `before` leads to. -/
def Keyed (before : List String) (v : Value) (positions : List Nat) (leaf : String × Tensor) :
    Prop :=
  ∃ segments, Route v positions segments leaf.2 ∧ leaf.1 = routePath (before ++ segments)

/-- The same for the leaves of elements, the first of which stands at `index`. -/
def KeyedElement (before : List String) (index : Nat) (es : List (Label × Value))
    (positions : List Nat) (leaf : String × Tensor) : Prop :=
  ∃ i n v rest, positions = (index + i) :: rest ∧ es[i]? = some (n, v) ∧
    Keyed (before ++ [n.getD (toString (index + i))]) v rest leaf

theorem KeyedElement.struct {before : List String} {es : List (Label × Value)}
    {positions : List Nat} {leaf : String × Tensor} (h : KeyedElement before 0 es positions leaf) :
    Keyed before (.struct es) positions leaf := by
  obtain ⟨i, n, v, rest, rfl, helement, segments, hroute, hpath⟩ := h
  rw [Nat.zero_add] at hpath ⊢
  exact ⟨_, .element helement hroute, by rw [hpath, List.append_assoc, List.singleton_append]⟩

theorem KeyedElement.tail {before : List String} {index : Nat} {e : Label × Value}
    {es : List (Label × Value)} {positions : List Nat} {leaf : String × Tensor}
    (h : KeyedElement before (index + 1) es positions leaf) :
    KeyedElement before index (e :: es) positions leaf := by
  obtain ⟨i, n, v, rest, rfl, helement, hkeyed⟩ := h
  rw [Nat.add_right_comm, Nat.add_assoc] at hkeyed ⊢
  exact ⟨i + 1, n, v, rest, rfl, by simpa using helement, hkeyed⟩

mutual

theorem keyed_leavesAt : ∀ (before : List String) (v : Value),
    List.Forall₂ (Keyed before v) v.leafPositions (leavesAt (routePath before) v)
  | before, .tensor t => by
    rw [leafPositions, leavesAt]
    exact .cons ⟨[], .leaf t, by rw [List.append_nil]⟩ .nil
  | before, .struct es => by
    rw [leafPositions, leavesAt]
    exact (keyed_elementLeavesAt before 0 es).imp fun _ _ => KeyedElement.struct

theorem keyed_elementLeavesAt : ∀ (before : List String) (index : Nat)
    (es : List (Label × Value)), List.Forall₂ (KeyedElement before index es)
      (elementPositions index es) (elementLeavesAt (routePath before) index es)
  | _, _, [] => by
    rw [elementPositions, elementLeavesAt]
    exact .nil
  | before, index, (n, v) :: es => by
    rw [elementPositions, elementLeavesAt, extendPath_routePath]
    refine List.rel_append ?_ ((keyed_elementLeavesAt before (index + 1) es).imp
      fun _ _ => KeyedElement.tail)
    rw [List.forall₂_map_left_iff]
    exact (keyed_leavesAt (before ++ [n.getD (toString index)]) v).imp
      fun rest _ hkeyed => ⟨0, n, v, rest, rfl, rfl, hkeyed⟩

end

theorem length_joined_cons_cons (s s' : String) (segments : List String) :
    (joined (s :: s' :: segments)).length = s.length + 1 + (joined (s' :: segments)).length := by
  have hslash : "/".length = 1 := rfl
  simp [joined, String.intercalate_cons_cons, hslash]

theorem routePath_of_head {segments : List String} (h : segments.head? ≠ some "") :
    routePath segments = joined segments := by
  cases segments with
  | nil => rfl
  | cons s segments =>
    have hs : ¬ s.isEmpty = true := fun hempty =>
      h (congrArg some (String.isEmpty_iff.mp hempty))
    rw [routePath, List.dropWhile_cons_of_neg hs]

theorem routePath_cons_empty (segments : List String) :
    routePath ("" :: segments) = routePath segments := by
  rw [routePath, List.dropWhile_cons_of_pos rfl, routePath]

theorem length_routePath_le (segments : List String) :
    (routePath segments).length ≤ (joined segments).length := by
  induction segments with
  | nil => rfl
  | cons s segments ih =>
    by_cases hs : s = ""
    · rw [hs, routePath_cons_empty]
      cases segments with
      | nil => rfl
      | cons s' segments =>
        rw [length_joined_cons_cons]
        omega
    · rw [routePath_of_head (by simpa using hs)]

/-- A path has all segments of its route, unless the first one is empty and not the last. -/
theorem routePath_eq_joined_iff (segments : List String) :
    routePath segments = joined segments ↔ segments.head? ≠ some "" ∨ segments = [""] := by
  constructor
  · intro h
    by_contra hne
    rw [not_or, not_not] at hne
    obtain ⟨hhead, hlast⟩ := hne
    match segments, hhead, hlast with
    | [s], hhead, hlast => exact hlast (congrArg (fun s => [s]) (Option.some.inj hhead))
    | s :: s' :: segments, hhead, _ =>
      -- With the empty segment the slash behind it is gone, so the path is too short.
      obtain rfl : s = "" := Option.some.inj hhead
      have hlength := congrArg String.length h
      have hle := length_routePath_le (s' :: segments)
      rw [routePath_cons_empty, length_joined_cons_cons] at hlength
      omega
  · rintro (hhead | rfl)
    · exact routePath_of_head hhead
    · rfl

/-- Without slashes in them, segments can be read off what they are joined to. -/
theorem splitOn_joined {segments : List String} (h : segments ≠ [])
    (hslash : ∀ s ∈ segments, '/' ∉ s.toList) :
    (joined segments).toList.splitOn '/' = segments.map String.toList := by
  have hjoined : (joined segments).toList = ['/'].intercalate (segments.map String.toList) :=
    String.toList_intercalate
  rw [hjoined, List.splitOn_intercalate]
  · simpa using hslash
  · simpa using h

/-- The path listed for the leaf at the end of a route. -/
structure PathOf (v : Value) (positions : List Nat) (segments : List String)
    (leaf : String × Tensor) : Prop where
  route : Route v positions segments leaf.2
  depth : segments.length = positions.length
  path : leaf.1 = joined (segments.dropWhile String.isEmpty)
  joined_iff : leaf.1 = joined segments ↔ segments.head? ≠ some "" ∨ segments = [""]
  pieces : positions ≠ [] → segments.head? ≠ some "" → (∀ s ∈ segments, '/' ∉ s.toList) →
    leaf.1.toList.splitOn '/' = segments.map String.toList ∧
      (leaf.1.toList.splitOn '/').length = positions.length

theorem pathOf_route {v : Value} {positions : List Nat} {segments : List String}
    {leaf : String × Tensor} (hroute : Route v positions segments leaf.2)
    (hpath : leaf.1 = routePath segments) : PathOf v positions segments leaf where
  route := hroute
  depth := hroute.length_segments
  path := hpath
  joined_iff := hpath ▸ routePath_eq_joined_iff segments
  pieces hpositions hhead hslash := by
    have hsegments : segments ≠ [] := fun hnil => by
      have hlength := hroute.length_segments
      rw [hnil] at hlength
      exact hpositions (List.length_eq_zero_iff.mp hlength.symm)
    have hsplit := splitOn_joined hsegments hslash
    rw [hpath, routePath_of_head hhead, hsplit, List.length_map]
    exact ⟨rfl, hroute.length_segments⟩

/-- Leaves are listed in the order of their positions, each next to the path of the route to
it: the segments of all levels joined with slashes, but for empty segments in front. -/
theorem namedLeaves_paths (v : Value) :
    v.leafPositions.Pairwise (· < ·) ∧
    (∀ p, p ∈ v.leafPositions ↔ ∃ segments t, Route v p segments t) ∧
    List.Forall₂ (fun p leaf => ∃ segments, PathOf v p segments leaf)
      v.leafPositions v.namedLeaves := by
  have hkeyed : List.Forall₂ (Keyed [] v) v.leafPositions v.namedLeaves := keyed_leavesAt [] v
  refine ⟨ascending_leafPositions v, fun p => ⟨fun hp => ?_, ?_⟩, hkeyed.imp ?_⟩
  · obtain ⟨leaf, -, segments, hroute, -⟩ := exists_mem_of_forall₂ hkeyed.flip hp
    exact ⟨segments, leaf.2, hroute⟩
  · rintro ⟨segments, t, hroute⟩
    exact hroute.mem_leafPositions
  · rintro p leaf ⟨segments, hroute, hpath⟩
    exact ⟨segments, pathOf_route hroute hpath⟩

/-- An empty name at the front of a route leaves no slash in the path. -/
theorem namedLeaves_emptyFront :
    let t : Tensor := ⟨[], .int32 [1]⟩
    let v : Value := .struct [(some "", .struct [(some "a", .tensor t)])]
    Route v [0, 0] ["", "a"] t ∧ v.namedLeaves = [("a", t)] ∧ joined ["", "a"] = "/a" ∧
      ¬ ∀ (v : Value) (p : List Nat) (segments : List String) (t : Tensor),
        Route v p segments t → (joined segments, t) ∈ v.namedLeaves := by
  intro t v
  have hinner : Route (.struct [(some "a", .tensor t)]) [0] ["a"] t :=
    .element (n := some "a") rfl (.leaf t)
  have hroute : Route v [0, 0] ["", "a"] t := .element (n := some "") rfl hinner
  have hleaves : v.namedLeaves = [("a", t)] := by
    simp [v, namedLeaves, leavesAt, elementLeavesAt, extendPath]
  have hjoined : joined ["", "a"] = "/a" := by decide
  refine ⟨hroute, hleaves, hjoined, fun h => ?_⟩
  have hmem := h v [0, 0] ["", "a"] t hroute
  rw [hleaves, hjoined, List.mem_singleton] at hmem
  exact absurd (congrArg Prod.fst hmem) (by decide)

end Value

end GraphFusion
