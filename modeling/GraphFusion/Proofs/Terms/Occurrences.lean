import GraphFusion.Proofs.Lists
import GraphFusion.Proofs.Terms.Evaluation

/-!
Occurrences of names. An occurrence stands under the binders passed on the way down to it:
the parameter names of lambdas, with a parameter or without, and in a block the locals in
front of the local in whose value it stands, or all of them if it stands in the result. The
free references of a term are the names with an occurrence that none of these binds, and a
term means the same wherever they do.
-/

namespace GraphFusion

namespace Term

/-- A reference to `y` stands in the term, under these binders from the outermost on. -/
inductive Occurs : Term → List String → String → Prop
  | reference {x : String} {type : Ty} : Occurs (.reference x type) [] x
  | lambda {x y : String} {p : Option Ty} {r : Term} {binders : List String} :
      Occurs r binders y → Occurs (.lambda x p r) (x :: binders) y
  | function {f : Term} {a : Option Term} {binders : List String} {y : String} :
      Occurs f binders y → Occurs (.call f a) binders y
  | argument {f a : Term} {binders : List String} {y : String} :
      Occurs a binders y → Occurs (.call f (some a)) binders y
  | source {s : Term} {index : Nat} {binders : List String} {y : String} :
      Occurs s binders y → Occurs (.selection s index) binders y
  | element {es : List (Label × Term)} {e : Label × Term} {binders : List String} {y : String} :
      e ∈ es → Occurs e.2 binders y → Occurs (.struct es) binders y
  /-- The value of a local is outside the scope of the local. -/
  | value {before after : List (String × Term)} {x : String} {t r : Term} {binders : List String}
      {y : String} : Occurs t binders y →
      Occurs (.block (before ++ (x, t) :: after) r) (before.map (·.1) ++ binders) y
  | result {ls : List (String × Term)} {r : Term} {binders : List String} {y : String} :
      Occurs r binders y → Occurs (.block ls r) (ls.map (·.1) ++ binders) y

section

variable {binders : List String} {x y : String}

theorem occurs_reference {type : Ty} :
    Occurs (.reference x type) binders y ↔ binders = [] ∧ y = x := by
  constructor
  · rintro ⟨⟩
    exact ⟨rfl, rfl⟩
  · rintro ⟨rfl, rfl⟩
    exact .reference

theorem occurs_lambda {p : Option Ty} {r : Term} :
    Occurs (.lambda x p r) binders y ↔ ∃ inner, binders = x :: inner ∧ Occurs r inner y := by
  constructor
  · rintro (_ | h)
    exact ⟨_, rfl, h⟩
  · rintro ⟨inner, rfl, h⟩
    exact .lambda h

theorem occurs_thunkCall {f : Term} : Occurs (.call f none) binders y ↔ Occurs f binders y := by
  constructor
  · rintro (_ | _ | h)
    exact h
  · exact .function

theorem occurs_call {f a : Term} :
    Occurs (.call f (some a)) binders y ↔ Occurs f binders y ∨ Occurs a binders y := by
  constructor
  · rintro (_ | _ | h | h)
    · exact .inl h
    · exact .inr h
  · rintro (h | h)
    · exact .function h
    · exact .argument h

theorem occurs_selection {s : Term} {index : Nat} :
    Occurs (.selection s index) binders y ↔ Occurs s binders y := by
  constructor
  · intro h
    cases h with
    | source h => exact h
  · exact .source

theorem occurs_struct {es : List (Label × Term)} :
    Occurs (.struct es) binders y ↔ ∃ e ∈ es, Occurs e.2 binders y := by
  constructor
  · intro h
    cases h with
    | element he h => exact ⟨_, he, h⟩
  · rintro ⟨e, he, h⟩
    exact .element he h

theorem occurs_block {ls : List (String × Term)} {r : Term} :
    Occurs (.block ls r) binders y ↔
      (∃ before x t after inner, ls = before ++ (x, t) :: after ∧
        binders = before.map (·.1) ++ inner ∧ Occurs t inner y) ∨
      ∃ inner, binders = ls.map (·.1) ++ inner ∧ Occurs r inner y := by
  constructor
  · intro h
    cases h with
    | value h => exact .inl ⟨_, _, _, _, _, rfl, rfl, h⟩
    | result h => exact .inr ⟨_, rfl, h⟩
  · rintro (⟨before, x, t, after, inner, rfl, rfl, h⟩ | ⟨inner, rfl, h⟩)
    · exact .value h
    · exact .result h

theorem occurs_block_nil {r : Term} : Occurs (.block [] r) binders y ↔ Occurs r binders y := by
  simp [occurs_block]

/-- The name of a local is the first binder on the way to what follows the local. -/
theorem occurs_block_cons {t r : Term} {ls : List (String × Term)} :
    Occurs (.block ((x, t) :: ls) r) binders y ↔
      Occurs t binders y ∨ ∃ inner, binders = x :: inner ∧ Occurs (.block ls r) inner y := by
  constructor
  · intro h
    rcases occurs_block.mp h with ⟨before, z, u, after, inner, hls, rfl, hu⟩ | ⟨inner, rfl, hr⟩
    · rcases List.cons_eq_append_iff.mp hls with ⟨rfl, hhead⟩ | ⟨before, rfl, rfl⟩
      · cases hhead
        exact .inl hu
      · exact .inr ⟨_, rfl, .value hu⟩
    · exact .inr ⟨_, rfl, .result hr⟩
  · rintro (h | ⟨inner, rfl, h⟩)
    · exact occurs_block.mpr (.inl ⟨[], x, t, ls, binders, rfl, rfl, h⟩)
    · rcases occurs_block.mp h with ⟨before, z, u, after, inner, rfl, rfl, hu⟩ | ⟨inner, rfl, hr⟩
      · exact occurs_block.mpr (.inl ⟨(x, t) :: before, z, u, after, inner, rfl, rfl, hu⟩)
      · exact occurs_block.mpr (.inr ⟨inner, rfl, hr⟩)

theorem not_occurs_compiled {u : CompiledUnit} : ¬ Occurs (.compiled u) binders y := by
  intro h
  cases h

theorem not_occurs_intrinsic {uri : String} {type : Ty} :
    ¬ Occurs (.intrinsic uri type) binders y := by
  intro h
  cases h

/-- Not bound under one binder more: not that name, and not bound under the others. -/
theorem exists_unbound_cons {P : List String → Prop} :
    (∃ binders, (∃ inner, binders = x :: inner ∧ P inner) ∧ y ∉ binders) ↔
      y ≠ x ∧ ∃ inner, P inner ∧ y ∉ inner := by
  constructor
  · rintro ⟨_, ⟨inner, rfl, h⟩, hy⟩
    rw [List.mem_cons, not_or] at hy
    exact ⟨hy.1, inner, h, hy.2⟩
  · rintro ⟨hne, inner, h, hy⟩
    exact ⟨x :: inner, ⟨inner, rfl, h⟩, by simp [hne, hy]⟩

/-- The collected names are those with an occurrence under no binder of that name. -/
theorem mem_freeNames_iff_occurs {t : Term} :
    y ∈ t.freeNames ↔ ∃ binders, t.Occurs binders y ∧ y ∉ binders := by
  induction t using inductFront with
  | reference x type => simp [mem_freeNames_reference, occurs_reference]
  | lambda x p r ih => simp only [mem_freeNames_lambda, ih, occurs_lambda, exists_unbound_cons]
  | thunkCall f ih => simp only [mem_freeNames_thunkCall, ih, occurs_thunkCall]
  | call f a hf ha => simp only [mem_freeNames_call, hf, ha, occurs_call, or_and_right, exists_or]
  | selection s index ih => simp only [mem_freeNames_selection, ih, occurs_selection]
  | structNil => simp [freeNames, freeFrom, freeInElements, occurs_struct]
  | structCons n t es ht hes =>
    simp only [mem_freeNames_struct_cons, ht, hes, occurs_struct, List.exists_mem_cons_iff,
      or_and_right, exists_or]
  | blockNil r ih => simp only [mem_freeNames_block_nil, ih, occurs_block_nil]
  | blockCons x t ls r ht hr =>
    simp only [mem_freeNames_block_cons, ht, hr, occurs_block_cons, or_and_right, exists_or,
      exists_unbound_cons]
  | compiled u => simp [freeNames, freeFrom, not_occurs_compiled]
  | intrinsic uri type => simp [freeNames, freeFrom, not_occurs_intrinsic]

end

/-- The free references are in ascending order and without repetition the names that the
term refers to somewhere under no binder of that name. Whatever intrinsics mean, the term
has one outcome in any two environments that give these names the same meanings. -/
theorem freeReferences_exact (t : Term) :
    t.freeReferences.Pairwise (· < ·) ∧
    (∀ y, y ∈ t.freeReferences ↔ ∃ binders, t.Occurs binders y ∧ y ∉ binders) ∧
    ∀ (I : Interpretation) (env env' : Env), (∀ y ∈ t.freeReferences, env y = env' y) →
      eval I env t = eval I env' t := by
  refine ⟨ascending_mergeSort (nodup_eraseDups _), fun y => ?_, fun I env env' h => ?_⟩
  · rw [mem_freeReferences, mem_freeNames_iff_occurs]
  · exact eval_congr fun y hy => h y (mem_freeReferences.mpr hy)

/-- `(let a=a in (x -> <a,x>))` refers to `a` outside the scope of its local, and means the
same whatever `x` does. -/
theorem freeReferences_exact_local : ∃ t : Term,
    t = .block [("a", .reference "a" (.struct []))] (.lambda "x" (some (.struct []))
      (.struct [(none, .reference "a" (.struct [])), (none, .reference "x" (.struct []))])) ∧
    t.freeReferences = ["a"] ∧ t.Occurs [] "a" ∧ (∀ y ∈ ["a", "x"], t.Occurs ["a", "x"] y) ∧
    ∀ (env : Env) (m : Option Meaning),
      eval Interpretation.failing (Function.update env "x" m) t =
        eval Interpretation.failing env t := by
  obtain ⟨t, ht⟩ : ∃ t : Term,
    t = .block [("a", .reference "a" (.struct []))] (.lambda "x" (some (.struct []))
      (.struct [(none, .reference "a" (.struct [])), (none, .reference "x" (.struct []))])) :=
    ⟨_, rfl⟩
  have hfree : t.freeReferences = ["a"] := by
    simp [ht, freeReferences, freeNames, freeFrom, freeInLocals, freeInElements, bindLocals,
      List.eraseDups_cons]
  refine ⟨t, ht, hfree, ?_, ?_, fun env m => (freeReferences_exact t).2.2 _ _ _ fun y hy => ?_⟩
  · rw [ht]
    exact occurs_block_cons.mpr (.inl .reference)
  · intro y hy
    rw [ht]
    refine .result (.lambda (occurs_struct.mpr ⟨(none, .reference y (.struct [])), ?_, .reference⟩))
    simpa using hy
  · rw [hfree, List.mem_singleton] at hy
    rw [hy, Function.update_of_ne (by decide)]

end Term

end GraphFusion
