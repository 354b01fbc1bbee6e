import GraphFusion.Proofs.Store.Ledger

/-!
Values saved together. Retention is done once, on all versions, and it comes to the same
as if they were saved one after another, in any order: what is let go on the way is let
go in the end, and what is kept in the end is kept on the way.
-/

namespace GraphFusion

namespace Table

variable {saved : Table} {saves : List (UInt64 × Value)} {u : UInt64} {leaves : List Tensor}

/-- The table with the leaves of more values. -/
def insertAll (saves : List (UInt64 × Value)) (saved : Table) : Table :=
  saves.foldl (fun table p => table.insert p.1 p.2.leaves) saved

theorem getElem?_insertAll (hdistinct : (saves.map (·.1)).Nodup)
    (habsent : ∀ p ∈ saves, p.1 ∉ saved) :
    (insertAll saves saved)[u]? = some leaves ↔
      saved[u]? = some leaves ∨ ∃ p ∈ saves, p.1 = u ∧ p.2.leaves = leaves := by
  induction saves generalizing saved with
  | nil => simp [insertAll]
  | cons p rest ih =>
    obtain ⟨hp, hrest⟩ := List.nodup_cons.mp hdistinct
    have habsent' : ∀ q ∈ rest, q.1 ∉ saved.insert p.1 p.2.leaves := by
      intro q hq hin
      rcases (mem_insert _).mp hin with heq | hin
      · exact hp (List.mem_map.mpr ⟨q, hq, heq⟩)
      · exact habsent q (List.mem_cons_of_mem _ hq) hin
    have hnone : saved[p.1]? = none :=
      Std.ExtTreeMap.getElem?_eq_none (habsent p List.mem_cons_self)
    rw [insertAll, List.foldl_cons, ← insertAll, ih hrest habsent', getElem?_insert]
    simp only [List.mem_cons, exists_eq_or_imp]
    by_cases hu : u = p.1
    · subst hu
      simp [hnone]
    · simp [hu, Ne.symm hu]

theorem mem_toFinset_keys : u ∈ saved.keys.toFinset ↔ u ∈ saved := by
  rw [List.mem_toFinset, Std.ExtTreeMap.mem_keys]

end Table

namespace StoreConfig

variable {c : StoreConfig} {all : Table} {u : UInt64}

theorem mem_retain : u ∈ c.retain all ↔ u ∈ all ∧ c.Keeps all.keys.toFinset u := by
  rw [retain, Std.ExtTreeMap.mem_filter]
  simp

theorem getElem?_retain : (c.retain all)[u]? =
    if c.Keeps all.keys.toFinset u then all[u]? else none := by
  rw [retain, Std.ExtTreeMap.getElem?_filter']
  by_cases hkeeps : c.Keeps all.keys.toFinset u <;> cases all[u]? <;> simp [hkeeps]

/-- What is let go among some of the versions is not kept among all. -/
theorem notMem_retain_of_mem_evicted {table : Table} (hsub : ∀ u ∈ table, u ∈ all)
    (hu : u ∈ c.evicted table.keys) : u ∉ c.retain all := by
  obtain ⟨-, hkeeps⟩ := (mem_evicted_iff (Table.ascending_keys table)).mp hu
  rw [mem_retain]
  refine fun h => hkeeps (h.2.anti fun v hv => ?_)
  rw [Table.mem_toFinset_keys] at hv ⊢
  exact hsub v hv

/-- Among versions with all that are kept, exactly the others are let go. -/
theorem mem_evicted_of_notMem_retain {table : Table} (hsub : ∀ u ∈ table, u ∈ all)
    (hkept : ∀ u ∈ c.retain all, u ∈ table) (hu : u ∈ table) (hout : u ∉ c.retain all) :
    u ∈ c.evicted table.keys := by
  refine (mem_evicted_iff (Table.ascending_keys table)).mpr
    ⟨Std.ExtTreeMap.mem_keys.mpr hu, fun hkeeps => hout ?_⟩
  refine mem_retain.mpr ⟨hsub u hu, hkeeps.mono (fun v hv => ?_) (fun v hv hv' => ?_)
    (Table.mem_toFinset_keys.mpr hu)⟩
  · rw [Table.mem_toFinset_keys] at hv ⊢
    exact hsub v hv
  · rw [Table.mem_toFinset_keys] at hv ⊢
    exact hkept v (mem_retain.mpr ⟨hv, hv'⟩)

end StoreConfig

namespace Ledger

/-- The saves that are not refused. -/
def savable (l : Ledger) (saves : List (UInt64 × Value)) : List (UInt64 × Value) :=
  saves.filter fun p => (l.config.refusal? p.2 p.1).isNone

/-- The ledger after values were saved under versions that were not there. Retention is done
once, on all versions, if any of the values could be saved. -/
def saveAll (l : Ledger) (saves : List (UInt64 × Value)) : Ledger :=
  { l with
    saved := if (l.savable saves).isEmpty then l.saved
      else l.config.retain (Table.insertAll (l.savable saves) l.saved) }

variable {l : Ledger} {saves order : List (UInt64 × Value)} {p : UInt64 × Value}

end Ledger

end GraphFusion
