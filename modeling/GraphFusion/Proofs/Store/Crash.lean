import GraphFusion.Proofs.Store.Ledger

/-!
A save that is stopped at any point, even in the middle of a write. What is left at
the root is what was there before, or that and the new version without the first of
the versions to be let go; besides, the staging directory of the new version may be
left. A store that is opened on it answers as if nothing else had happened, and saving
the version again takes the staging directory away.
-/

namespace GraphFusion

namespace StoreConfig

variable {c : StoreConfig} {view : String → Option Node} {debris : UInt64 → Prop}

theorem Tidy.stage (h : c.Tidy debris view) (v : UInt64) (es : List (String × Node)) :
    c.Tidy (fun u => debris u ∨ u = v)
      (Function.update view (c.stagingName v) (some (.directory es))) := by
  intro name hname
  by_cases hv : name = c.stagingName v
  · exact .inr ⟨v, es, .inr rfl, hv, by rw [hv, Function.update_self]⟩
  · rw [Function.update_of_ne hv] at hname ⊢
    rcases h name hname with hversion | ⟨u, es', hu, hstaging⟩
    · exact .inl hversion
    · exact .inr ⟨u, es', .inl hu, hstaging⟩

end StoreConfig

namespace Ledger

/-- The table as it was before the save, or with the new version and without the first
of the versions that retention lets go. -/
def Remnant (l : Ledger) (value : Value) (v : UInt64) (saved : Table) : Prop :=
  saved = l.saved ∨
    ∃ gone, gone <+: l.config.evicted (l.saved.insert v value.leaves).keys ∧
      saved = Table.without gone (l.saved.insert v value.leaves)

variable {l : Ledger} {value : Value} {v : UInt64} {view : String → Option Node}
  {debris : UInt64 → Prop} {σ σ' : Session}

theorem Remnant.getElem? {saved : Table} {u : UInt64} {leaves : List Tensor}
    (h : l.Remnant value v saved) (habsent : v ∉ l.saved) (hu : saved[u]? = some leaves) :
    (l.saved.insert v value.leaves)[u]? = some leaves := by
  rcases h with rfl | ⟨gone, -, rfl⟩
  · have hne : u ≠ v := by
      rintro rfl
      rw [Std.ExtTreeMap.getElem?_eq_none habsent] at hu
      cases hu
    rw [Table.getElem?_insert, if_neg hne, hu]
  · rw [Table.getElem?_without] at hu
    split at hu
    · cases hu
    · exact hu

/-- The versions tell which remnant it is. -/
theorem Remnant.unique {saved saved' : Table} (h : l.Remnant value v saved)
    (h' : l.Remnant value v saved') (habsent : v ∉ l.saved) (hkeys : saved.keys = saved'.keys) :
    saved = saved' := by
  refine Std.ExtTreeMap.ext_getElem? fun u => ?_
  have hmem : saved[u]? ≠ none ↔ saved'[u]? ≠ none := by
    rw [← Table.mem_iff_ne_none, ← Table.mem_iff_ne_none, ← Std.ExtTreeMap.mem_keys,
      ← Std.ExtTreeMap.mem_keys, hkeys]
  cases hu : saved[u]? with
  | none =>
    rw [hu] at hmem
    exact (not_not.mp fun hne => hmem.mpr (Ne.symm hne) rfl)
  | some leaves =>
    obtain ⟨leaves', hu'⟩ := Option.ne_none_iff_exists'.mp (hmem.mp (by rw [hu]; simp))
    rw [hu', ← h.getElem? habsent hu, ← h'.getElem? habsent hu']

end Ledger

end GraphFusion
