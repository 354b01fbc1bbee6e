import GraphFusion.Proofs.Json.Decode
import GraphFusion.Proofs.Types.Codec
import GraphFusion.Types.Json

/-!
Types come back from the JSON made of them. A reader of types is allowed as many levels of
nesting as the JSON has, and each level of a type takes at least one of them.
-/

namespace GraphFusion

open Json (Restored Restores)

theorem DType.restores : Restores DType.ofJson? DType.toJson fun _ => True :=
  Json.restores_constant fun d => by cases d <;> decide

theorem Dimension.restores : Restores Dimension.ofJson? Dimension.toJson Dimension.Fits := by
  intro d hd
  cases d with
  | fixed extent => exact (Json.restores_word64 extent hd).tagged rfl fun _ => rfl
  | dynamic => exact ⟨.string (some "Dynamic"), rfl⟩

theorem Shape.restores : Restores Shape.ofJson? Shape.toJson Shape.Fits := by
  intro s hs
  have hdims := Dimension.restores.list s.dims hs.dims
  have hfields : s.toJson.fields? ["dims"] = some [.given (.ofList Dimension.toJson s.dims)] :=
    Json.fields?_record (by decide : ["dims"].Nodup)
  constructor
  · exact Json.decimal_record (List.forall_mem_singleton.mpr hdims.decimal)
  · rw [Shape.ofJson?, hfields]
    simp [Json.Field.required?, hdims.decodes]

theorem TensorType.restores :
    Restores TensorType.ofJson? TensorType.toJson TensorType.Fits := by
  intro t ht
  have hdtype := DType.restores t.dtype trivial
  have hshape := Shape.restores t.shape ht
  have hfields : t.toJson.fields? ["dtype", "shape"] =
      some [.given t.dtype.toJson, .given t.shape.toJson] :=
    Json.fields?_record (by decide : ["dtype", "shape"].Nodup)
  constructor
  · refine Json.decimal_record (List.forall_mem_cons.mpr ⟨?_, List.forall_mem_singleton.mpr ?_⟩)
    · exact hdtype.decimal
    · exact hshape.decimal
  · rw [TensorType.ofJson?, hfields]
    simp [Json.Field.required?, hdtype.decodes, hshape.decodes]

theorem Label.restores : Restores Label.ofJson? Label.toJson fun _ => True :=
  fun label _ => Json.restores_text.option nofun label fun _ _ => trivial

namespace Ty

theorem elementsToJson_eq (es : List (Label × Ty)) :
    elementsToJson es = es.map fun e => .array [e.1.toJson, e.2.toJson] := by
  induction es with
  | nil => rfl
  | cons e es ih => rw [elementsToJson, ih]; rfl

theorem toJson_struct (es : List (Label × Ty)) : toJson (.struct es) = .tagged "Struct"
    (.record [("elements", .ofList (fun e => .array [e.1.toJson, e.2.toJson]) es)]) := by
  rw [toJson, elementsToJson_eq, Json.ofList]

theorem toJson_function (parameter : Option Ty) (result : Ty) :
    toJson (.function parameter result) = .tagged "Function"
      (.record [("parameter", .ofOption toJson parameter), ("result", toJson result)]) := by
  cases parameter <;> rw [toJson] <;> rfl

theorem toJson_ne_null (t : Ty) : t.toJson ≠ .null := by
  cases t with
  | tensor t => rw [toJson]; exact nofun
  | struct es => rw [toJson_struct]; exact nofun
  | function parameter result => rw [toJson_function]; exact nofun

theorem depth_toJson_lt_struct {es : List (Label × Ty)} {e : Label × Ty} (he : e ∈ es) :
    e.2.toJson.depth < (toJson (.struct es)).depth := by
  rw [toJson_struct]
  calc e.2.toJson.depth
    _ < (Json.array [e.1.toJson, e.2.toJson]).depth := Json.depth_lt_depth_array (by simp)
    _ < (Json.ofList (fun e : Label × Ty => .array [e.1.toJson, e.2.toJson]) es).depth :=
      Json.depth_lt_depth_array (List.mem_map_of_mem he)
    _ < _ := Json.depth_lt_depth_record (List.mem_singleton_self ("elements", _))
    _ < _ := Json.depth_lt_depth_tagged ..

theorem depth_toJson_lt_function {parameter : Option Ty} {result t : Ty}
    (ht : t ∈ parameter ∨ t = result) :
    t.toJson.depth < (toJson (.function parameter result)).depth := by
  rw [toJson_function]
  refine Nat.lt_trans ?_ (Json.depth_lt_depth_tagged ..)
  rcases ht with ht | rfl
  · cases ht
    exact Json.depth_lt_depth_record (m := ("parameter", t.toJson)) (by simp [Json.ofOption])
  · exact Json.depth_lt_depth_record (m := ("result", t.toJson)) (by simp)

section

variable {depth : Nat} {fits : Ty → Prop} (h : Restores (ofJsonWithin? depth) toJson fits)

include h

/-- One more level restores the structs of what is restored. -/
theorem restored_struct {es : List (Label × Ty)} (hes : ∀ e ∈ es, fits e.2) :
    Restored (ofJsonWithin? (depth + 1)) toJson (.struct es) := by
  have helements := (Label.restores.pair h).list es fun e he => ⟨trivial, hes e he⟩
  have hfields : (Json.record [("elements", .ofList (fun e : Label × Ty =>
      .array [e.1.toJson, e.2.toJson]) es)]).fields? ["elements"] = some [.given _] :=
    Json.fields?_record (by decide : ["elements"].Nodup)
  constructor
  · rw [toJson_struct]
    refine Json.decimal_tagged (Json.decimal_record (List.forall_mem_singleton.mpr ?_))
    exact helements.decimal
  · rw [toJson_struct, ofJsonWithin?, Json.alternative?_tagged]
    simp only [hfields]
    simp [Json.Field.required?, helements.decodes]

/-- One more level restores the functions between what is restored. -/
theorem restored_function {parameter : Option Ty} {result : Ty}
    (hparameter : ∀ t ∈ parameter, fits t) (hresult : fits result) :
    Restored (ofJsonWithin? (depth + 1)) toJson (.function parameter result) := by
  have hoption := h.option toJson_ne_null parameter hparameter
  have htype := h result hresult
  have hfields : (Json.record [("parameter", .ofOption toJson parameter),
      ("result", toJson result)]).fields? ["parameter", "result"] = some [.given _, .given _] :=
    Json.fields?_record (by decide : ["parameter", "result"].Nodup)
  constructor
  · rw [toJson_function]
    refine Json.decimal_tagged (Json.decimal_record
      (List.forall_mem_cons.mpr ⟨?_, List.forall_mem_singleton.mpr ?_⟩))
    · exact hoption.decimal
    · exact htype.decimal
  · rw [toJson_function, ofJsonWithin?, Json.alternative?_tagged]
    simp only [hfields]
    simp [Json.Field.required?, Json.Field.optional?, hoption.decodes, htype.decodes]

end

/-- A type is restored when its JSON is nested no deeper than the reader may go. -/
theorem restoresWithin (depth : Nat) :
    Restores (ofJsonWithin? depth) toJson fun t => t.Fits ∧ t.toJson.depth ≤ depth := by
  induction depth with
  | zero => exact fun t ht => absurd ht.2 (Nat.not_le.mpr t.toJson.depth_pos)
  | succ depth ih =>
    rintro t ⟨ht, hdepth⟩
    -- What stands inside a type is nested at least one level less than the type itself.
    have hbelow {u : Ty} (h : u.toJson.depth < t.toJson.depth) : u.toJson.depth ≤ depth := by
      omega
    cases ht with
    | @tensor type htype =>
      exact (TensorType.restores type htype).tagged (by rw [toJson]) fun _ => rfl
    | struct _ _ htypes =>
      exact restored_struct ih fun e he => ⟨htypes e he, hbelow (depth_toJson_lt_struct he)⟩
    | function hparameter hresult =>
      refine restored_function ih (fun u hu => ⟨hparameter u hu, hbelow ?_⟩) ⟨hresult, hbelow ?_⟩
      · exact depth_toJson_lt_function (.inl hu)
      · exact depth_toJson_lt_function (.inr rfl)

theorem restores : Restores ofJson? toJson Fits := fun t ht =>
  have hwithin := restoresWithin t.toJson.depth t ⟨ht, Nat.le_refl _⟩
  ⟨hwithin.decimal, hwithin.decodes⟩

end Ty

end GraphFusion
