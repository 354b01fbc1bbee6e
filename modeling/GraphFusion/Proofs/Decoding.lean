import GraphFusion.Graph.Json
import GraphFusion.Proofs.Graph.Codec
import GraphFusion.Proofs.Graph.Soundness
import GraphFusion.Proofs.Store.Archive

/-!
Which tensors come out of the decoders. Loading an archive gives sized tensors only, since
every entry goes through `Tensor.ofData`; these are filled unless their extents multiply to
more than a machine word holds. The stored forms of values and of graphs, and the text of
graphs, keep extents and elements side by side and never compare them: out of bytes comes
every tensor whose numbers fit their words, sized or not.
-/

namespace GraphFusion

namespace Tensor

theorem sized_of_ofData {shape : List Nat} {data : TensorData} {t : Tensor}
    (h : ofData shape data = .ok t) : t.Sized := by
  rw [ofData] at h
  split at h
  · rename_i hsized
    cases h
    exact hsized
  · cases h

/-- Extents and elements are two fields of a record, each read without the other. -/
theorem ofJson?_eq_some_iff {j : Json} {t : Tensor} :
    ofJson? j = some t ↔ ∃ shape data, j.fields? ["shape", "data"] = some [shape, data] ∧
      shape.required? (Json.list? Json.word64?) = some t.shape ∧
      data.required? TensorData.ofJson? = some t.data := by
  simp only [ofJson?, Option.bind_eq_bind, Option.bind_eq_some_iff]
  constructor
  · rintro ⟨fields, hfields, h⟩
    split at h
    · obtain ⟨shape, hshape, h⟩ := Option.bind_eq_some_iff.mp h
      obtain ⟨data, hdata, h⟩ := Option.bind_eq_some_iff.mp h
      cases h
      exact ⟨_, _, hfields, hshape, hdata⟩
    · cases h
  · rintro ⟨shape, data, hfields, hshape, hdata⟩
    exact ⟨_, hfields, by simp [hshape, hdata]⟩

theorem exists_ofJson?_of_fields {shape data : Json.Field} {extents : List Nat} {d : TensorData}
    (hshape : shape.required? (Json.list? Json.word64?) = some extents)
    (hdata : data.required? TensorData.ofJson? = some d) :
    ∃ j, ofJson? j = some ⟨extents, d⟩ := by
  cases shape with
  | missing => cases hshape
  | cutOff => cases hshape
  | given a =>
    cases data with
    | missing => cases hdata
    | cutOff => cases hdata
    | given b =>
      exact ⟨.array [a, b], ofJson?_eq_some_iff.mpr ⟨.given a, .given b, rfl, hshape, hdata⟩⟩

end Tensor

namespace Archive

theorem sized_of_tensorAt {file : List UInt8} {e : ArchiveEntry} {t : Tensor}
    (h : tensorAt file e = .ok t) : t.Sized := by
  rw [tensorAt] at h
  split at h
  · cases h
  obtain ⟨⟨bytes, rest⟩, -, h⟩ := bind_eq_ok.mp h
  dsimp only at h
  split at h
  · cases h
  · rename_i data _
    cases hdata : Tensor.ofData e.shape data with
    | error _ =>
      rw [hdata] at h
      cases h
    | ok u =>
      rw [hdata] at h
      cases h
      exact Tensor.sized_of_ofData hdata

theorem sized_of_leaves {file : List UInt8} {leaves : List (String × Tensor)}
    (h : Archive.leaves file = .ok leaves) : ∀ leaf ∈ leaves, leaf.2.Sized := by
  obtain ⟨found, -, h⟩ := bind_eq_ok.mp h
  refine forall_of_forall₂ (mapM_eq_ok_iff.mp h) fun e leaf _ hleaf => ?_
  obtain ⟨t, ht, hpair⟩ := bind_eq_ok.mp hleaf
  cases hpair
  exact sized_of_tensorAt ht

/-- A tensor that a file has room for can be archived alone. -/
theorem exists_leaves_of_storable {t : Tensor} (ht : t.Storable)
    (hroom : obstacle? [("", t)] = none) :
    ∃ file leaves name, Archive.leaves file = .ok leaves ∧ (name, t) ∈ leaves :=
  ⟨_, _, "", leaves_content hroom (List.forall_mem_singleton.mpr ht), List.mem_singleton_self _⟩

end Archive

namespace Value

theorem Fits.of_mem_leaves {v : Value} (h : v.Fits) : ∀ t ∈ v.leaves, t.Fits := by
  induction h with
  | tensor h => simpa [leaves] using h
  | struct _ _ _ ih =>
    intro t ht
    rw [leaves, mem_elementLeaves] at ht
    obtain ⟨e, he, ht⟩ := ht
    exact ih e he t ht

/-- The tensors that deserialized values contain. -/
theorem exists_deserialize_iff {t : Tensor} :
    (∃ bytes v, deserialize bytes = .ok v ∧ t ∈ v.leaves) ↔ t.Fits := by
  constructor
  · rintro ⟨bytes, v, hv, ht⟩
    exact (deserialize_eq_ok_iff.mp hv).1.of_mem_leaves t ht
  · intro ht
    refine ⟨(Value.tensor t).serialize, .tensor t,
      deserialize_eq_ok_iff.mpr ⟨.tensor ht, List.prefix_refl _⟩, ?_⟩
    simp [leaves]

end Value

namespace Graph

/-- The constants of a graph. -/
def constants (g : Graph) : List Tensor :=
  g.body.filterMap fun i =>
    match i.op with
    | .constant t => some t
    | _ => none

theorem mem_constants {g : Graph} {t : Tensor} :
    t ∈ g.constants ↔ ∃ i ∈ g.body, i.op = .constant t := by
  rw [constants, List.mem_filterMap]
  refine exists_congr fun i => and_congr_right fun _ => ?_
  cases i.op <;> simp

/-- The graph that returns one tensor. -/
def ofConstant (t : Tensor) : Graph :=
  ⟨currentVersion, none, .tensor t.type, [⟨0, .constant t, [], .tensor t.type⟩], 0⟩

theorem constants_ofConstant (t : Tensor) : (ofConstant t).constants = [t] := rfl

theorem fits_ofConstant {t : Tensor} (h : t.Fits) : (ofConstant t).Fits := by
  have hdims : ∀ d ∈ t.type.shape.dims, d.Fits := by
    intro d hd
    obtain ⟨extent, hextent, rfl⟩ := List.mem_map.mp hd
    exact h.extents extent hextent
  have hrank : t.type.shape.dims.length < UInt64.size := by
    have hlength : t.type.shape.dims.length = t.shape.length := List.length_map _
    rw [hlength]
    exact h.rank
  have htype : Ty.Fits (.tensor t.type) := .tensor ⟨hrank, hdims⟩
  have hversion : currentVersion.utf8ByteSize < UInt64.size := by decide
  have hid : 0 < UInt32.size := by decide
  have hconstant : Instruction.Fits ⟨0, .constant t, [], .tensor t.type⟩ :=
    ⟨hid, h, (by decide : 0 < UInt64.size), nofun, htype⟩
  exact ⟨hversion, nofun, htype, (by decide : 1 < UInt64.size),
    List.forall_mem_singleton.mpr hconstant, hid⟩

/-- A graph is verified without a look at the elements of its constants. -/
theorem accept_ofConstant (t : Tensor) : (ofConstant t).accept = .ok (ofConstant t) := by
  refine accept_eq_ok_iff.mpr ⟨rfl, rfl, ?_⟩
  simp [verify, ofConstant, Ty.isData, checkInstruction, Checked.undefinedOperand?, Checked.empty,
    checkParameter, checkResult]

/-- The constants of graphs read from bytes. -/
theorem exists_ofBytes_iff {t : Tensor} :
    (∃ bytes g, ofBytes bytes = .ok g ∧ t ∈ g.constants) ↔ t.Fits := by
  constructor
  · rintro ⟨bytes, g, hg, ht⟩
    obtain ⟨i, hi, hop⟩ := mem_constants.mp ht
    have hfits := ((ofBytes_eq_ok_iff.mp hg).2.2.1.body i hi).op
    rw [hop] at hfits
    exact hfits
  · intro ht
    have hread := ofBytes_write_append (fits_ofConstant ht) []
    rw [accept_ofConstant] at hread
    exact ⟨_, ofConstant t, hread, by simp [constants_ofConstant]⟩

end Graph

/-- Only loading an archive looks at how many elements a tensor has: it gives every tensor that
is sized, has extents of one machine word and fits a file, and none that is not sized, so none
that is not filled but for extents that multiply to more than a word holds. As a value or as a
constant, a tensor is read from some bytes exactly when its numbers fit their words. As JSON,
where the extents of `s` can be read next to some elements and the elements of `t` next to some
extents, a tensor of these extents and these elements can be read. -/
theorem decoded_tensors (s t : Tensor) :
    ((∃ file leaves name, Archive.leaves file = .ok leaves ∧ (name, t) ∈ leaves) →
      t.Sized ∧ (t.Filled ↔ Tensor.volume t.shape < UInt64.size)) ∧
    (t.Storable → Archive.obstacle? [("", t)] = none →
      ∃ file leaves name, Archive.leaves file = .ok leaves ∧ (name, t) ∈ leaves) ∧
    ((∃ bytes v, Value.deserialize bytes = .ok v ∧ t ∈ v.leaves) ↔ t.Fits) ∧
    ((∃ bytes g, Graph.ofBytes bytes = .ok g ∧ t ∈ g.constants) ↔ t.Fits) ∧
    ((∃ j, Tensor.ofJson? j = some s) → (∃ j, Tensor.ofJson? j = some t) →
      ∃ j, Tensor.ofJson? j = some ⟨s.shape, t.data⟩) := by
  refine ⟨?_, Archive.exists_leaves_of_storable, Value.exists_deserialize_iff,
    Graph.exists_ofBytes_iff, ?_⟩
  · rintro ⟨file, leaves, name, hload, hmem⟩
    have hsized : t.Sized := Archive.sized_of_leaves hload (name, t) hmem
    exact ⟨hsized, hsized.filled_iff⟩
  · rintro ⟨j, hs⟩ ⟨k, ht⟩
    obtain ⟨shape, -, -, hshape, -⟩ := Tensor.ofJson?_eq_some_iff.mp hs
    obtain ⟨-, data, -, -, hdata⟩ := Tensor.ofJson?_eq_some_iff.mp ht
    exact Tensor.exists_ofJson?_of_fields hshape hdata

/-- One tensor with two elements and one that says two and has one: the archive holds the first
only, and bytes give both. -/
theorem decoded_tensors_pair :
    let full : Tensor := ⟨[2], .int32 [7, 8]⟩
    let short : Tensor := ⟨[2], .int32 [7]⟩
    full.Storable ∧ Archive.obstacle? [("", full)] = none ∧ full.Filled ∧
    (∃ file leaves name, Archive.leaves file = .ok leaves ∧ (name, full) ∈ leaves) ∧
    ¬ (∃ file leaves name, Archive.leaves file = .ok leaves ∧ (name, short) ∈ leaves) ∧
    (∃ bytes v, Value.deserialize bytes = .ok v ∧ short ∈ v.leaves) ∧
    (∃ bytes g, Graph.ofBytes bytes = .ok g ∧ short ∈ g.constants) ∧
    ∃ j, Tensor.ofJson? j = some short := by
  intro full short
  have hstorable : full.Storable := ⟨by decide, by decide⟩
  have hroom : Archive.obstacle? [("", full)] = none := by decide
  have hfits : short.Fits := ⟨by decide, by decide, (by decide : 1 < UInt64.size)⟩
  have hfull : Tensor.ofJson? full.toJson = some full := by decide +kernel
  have hone : Tensor.ofJson? (Tensor.toJson ⟨[1], .int32 [7]⟩) = some ⟨[1], .int32 [7]⟩ := by
    decide +kernel
  obtain ⟨hfilled, harchived, -⟩ := decoded_tensors short full
  obtain ⟨hsized, -, hvalue, hgraph, -⟩ := decoded_tensors full short
  obtain ⟨-, -, -, -, hjson⟩ := decoded_tensors full ⟨[1], .int32 [7]⟩
  have hleaf := harchived hstorable hroom
  refine ⟨hstorable, hroom, (hfilled hleaf).2.mpr (by decide), hleaf, ?_, hvalue.mpr hfits,
    hgraph.mpr hfits, hjson ⟨_, hfull⟩ ⟨_, hone⟩⟩
  intro h
  exact absurd (hsized h).1 (by decide)

/-- Two elements announced and one there: read as a value, as a graph, and as text. Two extents
of 2^32, whose product wraps around to the number of elements that are there, which is none: read
from an archive. -/
theorem unfilled_decoded :
    let t : Tensor := ⟨[2], .int32 [7]⟩
    let bytes : List UInt8 := [70, 69, 68, 82, 83, 86, 65, 76, 1, 0, 0, 0, 0, 0, 0, 0,
      1, 0, 0, 0, 0, 0, 0, 0, 2, 0, 0, 0, 0, 0, 0, 0, 1, 0, 0, 0,
      1, 0, 0, 0, 0, 0, 0, 0, 7, 0, 0, 0]
    let text := "[\"fedgraph.v1\",null,\x7b\"Tensor\":[\"I32\",[[\x7b\"Static\":2\x7d]]]\x7d," ++
      "[[0,\x7b\"Constant\":[[2],\x7b\"I32\":[7]\x7d]\x7d,[]," ++
      "\x7b\"Tensor\":[\"I32\",[[\x7b\"Static\":2\x7d]]]\x7d]],0]"
    let large : Tensor := ⟨[2 ^ 32, 2 ^ 32], .int32 []⟩
    (¬ t.Filled ∧ Value.deserialize bytes = .ok (.tensor t) ∧
      Graph.ofBytes (Graph.ofConstant t).write = .ok (Graph.ofConstant t) ∧
      Graph.ofJsonText text = .ok (Graph.ofConstant t)) ∧
    ¬ large.Filled ∧ Archive.leaves (Archive.content [("", large)]) = .ok [("", large)] := by
  intro t bytes text large
  have hfits : t.Fits := ⟨by decide, by decide, (by decide : 1 < UInt64.size)⟩
  have hread := Graph.ofBytes_write_append (Graph.fits_ofConstant hfits) []
  have hbytes : (Value.tensor t).serialize = bytes := by decide +kernel
  have htext : (Json.parse? text).bind Graph.ofJson? = some (Graph.ofConstant t) := by
    decide +kernel
  have hstorable : large.Storable := ⟨by decide, by decide⟩
  rw [List.append_nil, Graph.accept_ofConstant] at hread
  refine ⟨⟨by decide, ?_, hread, ?_⟩, by decide, ?_⟩
  · exact Value.deserialize_eq_ok_iff.mpr ⟨.tensor hfits, hbytes ▸ List.prefix_refl _⟩
  · rw [Graph.ofJsonText, htext]
    exact Graph.accept_ofConstant t
  · exact Archive.leaves_content (by decide) (List.forall_mem_singleton.mpr hstorable)

end GraphFusion
