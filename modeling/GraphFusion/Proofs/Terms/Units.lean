import GraphFusion.Graph.Interpreter
import GraphFusion.Terms.Construct
import GraphFusion.Proofs.Decoding

/-!
Nodes made of graphs, and what is read back from them. A node is made of any graph that passes
verification, while a reader asks for the current format version as well. So a node gives back
its graph, and its bytes run as the graph does, exactly when the graph has that version; of any
other node only the type is of use.
-/

namespace GraphFusion

namespace CompiledUnit

theorem ofGraph_eq_ok_iff {g : Graph} {u : CompiledUnit} : ofGraph g = .ok u ↔ u.graph = g := by
  unfold ofGraph
  constructor
  · intro h
    split at h
    · cases h
      rfl
    · cases h
  · intro h
    subst h
    split
    · rfl
    · rename_i e he
      rw [u.verified] at he
      cases he

variable {u : CompiledUnit}

theorem load_of_version (hversion : u.graph.formatVersion = Graph.currentVersion) :
    u.load = .ok u.graph := by
  rw [load, Graph.checkVersion, if_pos hversion]
  rfl

theorem load_of_version_ne (hversion : u.graph.formatVersion ≠ Graph.currentVersion) :
    u.load = .error (.versionMismatch u.graph.formatVersion) := by
  rw [load, Graph.checkVersion, if_neg hversion]
  rfl

/-- A node keeps the bytes of its graph, and loading it is reading them. -/
theorem ofBytes_write (hfits : u.graph.Fits) : Graph.ofBytes u.graph.write = u.load := by
  have hread := Graph.ofBytes_write_append hfits []
  rw [List.append_nil] at hread
  rw [hread]
  by_cases hversion : u.graph.formatVersion = Graph.currentVersion
  · rw [load_of_version hversion]
    exact Graph.accept_eq_ok_iff.mpr ⟨rfl, hversion, u.verified⟩
  · rw [load_of_version_ne hversion, Graph.accept_of_version_ne hversion]

theorem executeBytes_write (hfits : u.graph.Fits) (a : Option Value) :
    Graph.executeBytes u.graph.write a =
      (u.load.mapError fun e => .fault (.unreadableGraph e)) >>= fun g => g.execute a := by
  rw [Graph.executeBytes, ofBytes_write hfits]
  cases u.load <;> rfl

end CompiledUnit

namespace Term

theorem ofGraph_eq_ok_iff {g : Graph} {t : Term} :
    ofGraph g = .ok t ↔ ∃ u : CompiledUnit, u.graph = g ∧ t = .compiled u := by
  rw [ofGraph, bind_eq_ok]
  constructor
  · intro h
    obtain ⟨u, hu, ht⟩ := h
    cases ht
    exact ⟨u, CompiledUnit.ofGraph_eq_ok_iff.mp hu, rfl⟩
  · intro h
    obtain ⟨u, hu, ht⟩ := h
    subst ht
    exact ⟨u, CompiledUnit.ofGraph_eq_ok_iff.mpr hu, rfl⟩

/-- A graph is made into a node exactly when it passes verification. The node has the type of the
graph. If the graph has the current format version, the node gives back exactly this graph, and
running its bytes is running the graph; if not, loading the node and running its bytes both fail
on the version. -/
theorem ofGraph_outcome {g : Graph} (hfits : g.Fits) :
    ((∃ t, ofGraph g = .ok t) ↔ g.verify = .ok ()) ∧
    ∀ t, ofGraph g = .ok t → t.type = g.type ∧ ∃ u, t = .compiled u ∧ u.graph = g ∧
      Graph.ofBytes u.graph.write = u.load ∧
      (g.formatVersion = Graph.currentVersion →
        u.load = .ok g ∧ ∀ a, Graph.executeBytes u.graph.write a = g.execute a) ∧
      (g.formatVersion ≠ Graph.currentVersion →
        u.load = .error (.versionMismatch g.formatVersion) ∧
        ∀ a, Graph.executeBytes u.graph.write a =
          .error (.fault (.unreadableGraph (.versionMismatch g.formatVersion)))) := by
  refine ⟨⟨?_, ?_⟩, ?_⟩
  · intro h
    obtain ⟨t, ht⟩ := h
    obtain ⟨u, hu, -⟩ := ofGraph_eq_ok_iff.mp ht
    rw [← hu]
    exact u.verified
  · intro hverify
    exact ⟨_, ofGraph_eq_ok_iff.mpr ⟨⟨g, hverify⟩, rfl, rfl⟩⟩
  · intro t ht
    obtain ⟨u, hu, heq⟩ := ofGraph_eq_ok_iff.mp ht
    subst hu heq
    have htype : (Term.compiled u).type = u.graph.type := by simp only [type, CompiledUnit.type]
    refine ⟨htype, u, rfl, rfl, CompiledUnit.ofBytes_write hfits, ?_, ?_⟩
    · intro hversion
      have hload := CompiledUnit.load_of_version hversion
      refine ⟨hload, fun a => ?_⟩
      rw [CompiledUnit.executeBytes_write hfits, hload]
      rfl
    · intro hversion
      have hload := CompiledUnit.load_of_version_ne hversion
      refine ⟨hload, fun a => ?_⟩
      rw [CompiledUnit.executeBytes_write hfits, hload]
      rfl

/-- A constant that is no number comes back bit for bit, and runs. -/
theorem ofGraph_outcome_constant :
    let nan : Tensor := ⟨[], .float32 [⟨0x7fc00001⟩]⟩
    let g := Graph.ofConstant nan
    g.Fits ∧ g.verify = .ok () ∧ ∃ u, ofGraph g = .ok (.compiled u) ∧ u.load = .ok g ∧
      Graph.executeBytes u.graph.write none = .ok (.tensor nan) := by
  intro nan g
  have hfits : g.Fits := Graph.fits_ofConstant ⟨by decide, nofun, show 1 < UInt64.size by decide⟩
  have hverify : g.verify = .ok () := by decide +kernel
  obtain ⟨hmade, hnode⟩ := ofGraph_outcome hfits
  obtain ⟨t, ht⟩ := hmade.mpr hverify
  obtain ⟨-, u, heq, -, -, hcurrent, -⟩ := hnode t ht
  obtain ⟨hload, hrun⟩ := hcurrent rfl
  have hexecute : g.execute none = .ok (.tensor nan) := rfl
  exact ⟨hfits, hverify, u, heq ▸ ht, hload, (hrun none).trans hexecute⟩

/-- A graph of another version passes verification, runs and is made into a node, but the node
gives no graph and its bytes do not run. -/
theorem ofGraph_otherVersion :
    let seven : Tensor := ⟨[], .int32 [7]⟩
    let g : Graph := { Graph.ofConstant seven with formatVersion := "fedgraph.v0" }
    g.Fits ∧ g.verify = .ok () ∧ g.execute none = .ok (.tensor seven) ∧
      ∃ u, ofGraph g = .ok (.compiled u) ∧ u.load = .error (.versionMismatch "fedgraph.v0") ∧
        Graph.executeBytes u.graph.write none =
          .error (.fault (.unreadableGraph (.versionMismatch "fedgraph.v0"))) := by
  intro seven g
  have hseven : seven.Fits := ⟨by decide, nofun, show 1 < UInt64.size by decide⟩
  have hfits : g.Fits := { Graph.fits_ofConstant hseven with formatVersion := by decide }
  have hverify : g.verify = .ok () := by decide +kernel
  have hversion : g.formatVersion ≠ Graph.currentVersion := by decide
  have hload := CompiledUnit.load_of_version_ne (u := ⟨g, hverify⟩) hversion
  have hmade : ofGraph g = .ok (.compiled ⟨g, hverify⟩) := ofGraph_eq_ok_iff.mpr ⟨_, rfl, rfl⟩
  have hrun := CompiledUnit.executeBytes_write (u := ⟨g, hverify⟩) hfits none
  rw [hload] at hrun
  exact ⟨hfits, hverify, rfl, ⟨g, hverify⟩, hmade, hload, hrun⟩

end Term

end GraphFusion
