import GraphFusion.Fusion.Normalize
import GraphFusion.Proofs.Terms.Refinement
import Mathlib.Data.List.Nodup
import Mathlib.Data.List.Perm.Subperm

/-!
Inlining the locals of blocks. A substitution takes the names of one context to
terms of another. Below a binder that some substituted term mentions, the binder
gets a name that no term of the tree mentions and that was not handed out before,
so nothing that stands for a name is ever captured. Each step of the inliner
keeps this, and what it makes of a term refines the term.
-/

namespace GraphFusion

theorem freshName_injective : Function.Injective freshName := by
  intro m n h
  have hrepr : m.repr = n.repr := (String.append_right_inj _).mp h
  have hdigits : Nat.toDigits 10 m = Nat.toDigits 10 n := by
    simpa using congrArg String.toList hrepr
  simpa using congrArg (Nat.ofDigitChars 10 · 0) hdigits

theorem nextFresh_spec (used : List String) (start : Nat) :
    start ≤ nextFresh used start ∧ freshName (nextFresh used start) ∉ used := by
  unfold nextFresh
  cases h : (List.range' start (used.length + 1)).find? fun n => !used.contains (freshName n) with
  | some n =>
    have hmem := List.mem_range'_1.mp (List.mem_of_find?_eq_some h)
    have hnew := List.find?_some h
    simp only [Bool.not_eq_true', List.contains_eq_mem, decide_eq_false_iff_not] at hnew
    exact ⟨hmem.1, hnew⟩
  | none =>
    -- more names than are used cannot all be used
    exfalso
    have hall := List.find?_eq_none.mp h
    have hsub : (List.range' start (used.length + 1)).map freshName ⊆ used := by
      intro x hx
      obtain ⟨n, hn, rfl⟩ := List.mem_map.mp hx
      simpa using hall n hn
    have hnodup : ((List.range' start (used.length + 1)).map freshName).Nodup :=
      List.Nodup.map freshName_injective List.nodup_range'
    have hle := (List.subperm_of_subset hnodup hsub).length_le
    simp only [List.length_map, List.length_range'] at hle
    omega

namespace Term

attribute [local simp] names namesInElements namesInLocals

theorem names_struct_cons (n : Label) (t : Term) (es : List (Label × Term)) :
    (Term.struct ((n, t) :: es)).names = t.names ++ (Term.struct es).names := by
  simp only [names, namesInElements]

theorem names_block_cons (x : String) (t : Term) (ls : List (String × Term)) (r : Term) :
    (Term.block ((x, t) :: ls) r).names = x :: (t.names ++ (Term.block ls r).names) := by
  simp [names, namesInLocals]

/-- A free name is a name of the term. -/
theorem mem_names_of_mem_freeNames {t : Term} {y : String} (h : y ∈ t.freeNames) :
    y ∈ t.names := by
  induction t using inductFront with
  | reference x type => simpa [names] using mem_freeNames_reference.mp h
  | lambda x p r ih => simpa [names] using .inr (ih (mem_freeNames_lambda.mp h).2)
  | thunkCall f ih => simpa [names] using ih (mem_freeNames_thunkCall.mp h)
  | call f a hf ha => simpa [names] using (mem_freeNames_call.mp h).imp hf ha
  | selection s index ih => simpa [names] using ih (mem_freeNames_selection.mp h)
  | structNil => simp [freeNames, freeFrom, freeInElements] at h
  | structCons n t es ht hes =>
    rw [names_struct_cons, List.mem_append]
    exact (mem_freeNames_struct_cons.mp h).imp ht hes
  | blockNil r ih => simpa [names, namesInLocals] using ih (mem_freeNames_block_nil.mp h)
  | blockCons x t ls r ht hr =>
    rw [names_block_cons, List.mem_cons, List.mem_append]
    exact .inr ((mem_freeNames_block_cons.mp h).imp ht fun h => hr h.2)
  | compiled u => simp [freeNames, freeFrom] at h
  | intrinsic uri type => simp [freeNames, freeFrom] at h

namespace Substitution

/-- The term that a reference becomes. -/
def image (s : Substitution) (x : String) (type : Ty) : Term :=
  (s.lookup x).getD (.reference x type)

section

variable {s : Substitution} {x y z : String} {type : Ty} {p : Option Ty} {t : Term}

theorem lookup_without_self : (s.without x).lookup x = none := by
  induction s with
  | nil => rfl
  | cons e s ih =>
    obtain ⟨z, t⟩ := e
    by_cases hz : z = x
    · subst hz
      simpa [without] using ih
    · have hne : (x == z) = false := by simpa using fun h => hz h.symm
      simpa [without, hz, List.lookup_cons, hne] using ih

theorem lookup_without_of_ne (h : y ≠ x) : (s.without x).lookup y = s.lookup y := by
  induction s with
  | nil => rfl
  | cons e s ih =>
    obtain ⟨z, t⟩ := e
    by_cases hz : z = x
    · subst hz
      have hne : (y == z) = false := by simpa using h
      simpa [without, List.lookup_cons, hne] using ih
    · by_cases hy : y = z
      · subst hy
        simp [without, hz]
      · have hne : (y == z) = false := by simpa using hy
        simpa [without, hz, List.lookup_cons, hne] using ih

theorem image_without_self : (s.without x).image x type = .reference x type := by
  rw [image, lookup_without_self, Option.getD_none]

theorem image_without_of_ne (h : y ≠ x) : (s.without x).image y type = s.image y type := by
  rw [image, lookup_without_of_ne h, image]

theorem image_extend_self : (s.extend x t).image x type = t := by
  simp [image, extend]

theorem image_extend_of_ne (h : y ≠ x) : (s.extend x t).image y type = s.image y type := by
  have hne : (y == x) = false := by simpa using h
  rw [image, extend, List.lookup_cons, hne, ← image_without_of_ne h, image]

theorem mem_of_mem_without {e : String × Term} (h : e ∈ s.without x) : e ∈ s :=
  (List.mem_filter.mp h).1

/-- Below a binder `x` of type `p` that becomes `z`, that name stands for `x` and the rest
is as before. -/
def renamed (s : Substitution) (x : String) (p : Option Ty) (z : String) : Substitution :=
  (p.map fun type => (x, Term.reference z type)).toList ++ s.without x

theorem mem_renamed {e : String × Term} (h : e ∈ s.renamed x p z) :
    (∃ type, p = some type ∧ e = (x, .reference z type)) ∨ e ∈ s := by
  rcases List.mem_append.mp h with h | h
  · obtain ⟨type, hp, rfl⟩ := Option.map_eq_some_iff.mp (Option.mem_toList.mp h)
    exact .inl ⟨type, hp, rfl⟩
  · exact .inr (mem_of_mem_without h)

theorem image_renamed_self : (s.renamed x (some type) z).image x type = .reference z type := by
  simp [image, renamed]

theorem lookup_renamed_of_ne (h : y ≠ x) : (s.renamed x p z).lookup y = s.lookup y := by
  have hbeq : (y == x) = false := by simpa using h
  rw [renamed, ← lookup_without_of_ne (s := s) h]
  cases p with
  | none => rfl
  | some type => simp [List.lookup_cons, hbeq]

theorem image_renamed_of_ne (h : y ≠ x) : (s.renamed x p z).image y type = s.image y type := by
  rw [image, lookup_renamed_of_ne h, image]

theorem mem_of_lookup (h : s.lookup x = some t) : (x, t) ∈ s := by
  obtain ⟨before, after, rfl, -⟩ := List.lookup_eq_some_iff.mp h
  simp

/-- What holds of a reference and of everything substituted holds of what it becomes. -/
theorem image_of_forall {Q : Term → Prop} (hs : ∀ e ∈ s, Q e.2) (h : Q (.reference x type)) :
    Q (s.image x type) := by
  rw [image]
  cases hlookup : s.lookup x with
  | none => exact h
  | some t => exact hs (x, t) (mem_of_lookup hlookup)

/-- A name that no substituted term mentions occurs in no image but its own. -/
theorem notMem_freeNames_image (hs : s.mentions x = false) (h : y ≠ x) :
    x ∉ (s.image y type).freeNames := by
  have hall : ∀ e ∈ s, x ∉ e.2.freeNames := by simpa [mentions] using hs
  refine image_of_forall (Q := fun t => x ∉ t.freeNames) hall ?_
  rw [mem_freeNames_reference]
  exact h.symm

end

/-- A name of the tree, or one of the first `n` fresh names. -/
def Named (used : List String) (n : Nat) (x : String) : Prop :=
  x ∈ used ∨ ∃ k < n, x = freshName k

theorem Named.mono {used : List String} {m n : Nat} {x : String} (h : Named used m x)
    (hmn : m ≤ n) : Named used n x := by
  refine h.imp_right ?_
  rintro ⟨k, hk, rfl⟩
  exact ⟨k, by omega, rfl⟩

theorem not_named_fresh {used : List String} {m n : Nat} (hmn : m ≤ n)
    (hnew : freshName n ∉ used) : ¬ Named used m (freshName n) := by
  rintro (hmem | ⟨k, hk, heq⟩)
  · exact hnew hmem
  · have := freshName_injective heq
    omega

/-- The substitution takes the names of `Γ` to terms over `Δ`. The names of `Δ` are
used in the tree or are among the first `n` fresh ones. -/
structure Takes (used : List String) (n : Nat) (s : Substitution) (Γ Δ : Context) : Prop where
  image_typed : ∀ x type, Γ x = some type →
    (s.image x type).Typed Δ ∧ (s.image x type).type = type
  named : ∀ x type, Δ x = some type → x ∈ used ∨ ∃ k < n, x = freshName k

/-- In `env'` every image is defined at least as much as its name is in `env`. -/
def Simulates (I : Interpretation) (s : Substitution) (Γ : Context) (env env' : Env) : Prop :=
  ∀ x type, Γ x = some type →
    ∃ m m', env x = some m ∧ m.type = type ∧ m.Refines m' ∧ eval I env' (s.image x type) = .ok m'

/-- Below a binder `x` that becomes `z`, the substitution for what is inside. -/
structure Enters (s : Substitution) (Γ : Context) (x : String) (p : Option Ty) (z : String)
    (inner : Substitution) : Prop where
  bound : ∀ type, p = some type → inner.image x type = .reference z type
  kept : ∀ y type, y ≠ x → Γ y = some type →
    inner.image y type = s.image y type ∧ z ∉ (s.image y type).freeNames

variable {used : List String} {n : Nat} {s inner : Substitution} {Γ Δ : Context}
  {x z : String} {p : Option Ty} {I : Interpretation} {env env' : Env}

theorem Takes.mono {n' : Nat} (hs : s.Takes used n Γ Δ) (hn : n ≤ n') : s.Takes used n' Γ Δ :=
  ⟨hs.image_typed, fun x type hx => Named.mono (hs.named x type hx) hn⟩

theorem Simulates.fits (h : s.Simulates I Γ env env') : env.Fits Γ := by
  intro x type hx
  obtain ⟨m, m', hm, htype, -, -⟩ := h x type hx
  exact ⟨m, hm, htype⟩

theorem Enters.takes {n' : Nat} (h : s.Enters Γ x p z inner) (hs : s.Takes used n Γ Δ)
    (hn : n ≤ n') (hz : z ∈ used ∨ ∃ k < n', z = freshName k) :
    inner.Takes used n' (Function.update Γ x p) (Function.update Δ z p) := by
  constructor
  · intro y type hy
    by_cases heq : y = x
    · subst heq
      rw [Function.update_self] at hy
      rw [h.bound type hy, Typed, Function.update_self, Term.type]
      exact ⟨hy, rfl⟩
    · rw [Function.update_of_ne heq] at hy
      obtain ⟨himage, hfree⟩ := h.kept y type heq hy
      obtain ⟨htyped, htype⟩ := hs.image_typed y type hy
      rw [himage]
      refine ⟨(typed_congr fun w hw => ?_).mp htyped, htype⟩
      have hne : w ≠ z := by
        rintro rfl
        exact hfree hw
      rw [Function.update_of_ne hne]
  · intro y type hy
    by_cases heq : y = z
    · exact heq ▸ hz
    · rw [Function.update_of_ne heq] at hy
      exact (hs.mono hn).named y type hy

theorem Enters.simulates (h : s.Enters Γ x p z inner) (hs : s.Simulates I Γ env env')
    {a a' : Option Meaning} (ha : Meaning.ArgumentRefines a a') (hp : a.map (·.type) = p) :
    inner.Simulates I (Function.update Γ x p) (Function.update env x a)
      (Function.update env' z a') := by
  intro y type hy
  by_cases heq : y = x
  · subst heq
    rw [Function.update_self] at hy
    rw [h.bound type hy, Function.update_self]
    subst hp
    cases ha with
    | none => cases hy
    | @some m m' hmm' =>
      exact ⟨m, m', rfl, Option.some.inj hy, hmm', eval_reference (Function.update_self ..)⟩
  · rw [Function.update_of_ne heq] at hy
    obtain ⟨himage, hfree⟩ := h.kept y type heq hy
    obtain ⟨m, m', hm, htype, hmm', heval⟩ := hs y type hy
    rw [himage, Function.update_of_ne heq]
    refine ⟨m, m', hm, htype, hmm', ?_⟩
    rw [← heval]
    refine eval_congr fun w hw => ?_
    have hne : w ≠ z := by
      rintro rfl
      exact hfree hw
    exact Function.update_of_ne hne ..

/-- A local that is substituted by what it becomes. -/
theorem Takes.extend {t t' : Term} (hs : s.Takes used n Γ Δ) (ht' : t'.Typed Δ)
    (htype : t'.type = t.type) :
    (s.extend x t').Takes used n (Function.update Γ x (some t.type)) Δ := by
  refine ⟨fun y type hy => ?_, hs.named⟩
  by_cases heq : y = x
  · subst heq
    rw [Function.update_self] at hy
    cases hy
    rw [image_extend_self]
    exact ⟨ht', htype⟩
  · rw [Function.update_of_ne heq] at hy
    rw [image_extend_of_ne heq]
    exact hs.image_typed y type hy

theorem Simulates.extend {t' : Term} {type : Ty} {m m' : Meaning} (hs : s.Simulates I Γ env env')
    (hm : m.type = type) (hmm' : m.Refines m') (heval : eval I env' t' = .ok m') :
    (s.extend x t').Simulates I (Function.update Γ x (some type))
      (Function.update env x (some m)) env' := by
  intro y ytype hy
  by_cases heq : y = x
  · subst heq
    rw [Function.update_self] at hy
    cases hy
    rw [image_extend_self, Function.update_self]
    exact ⟨m, m', rfl, hm, hmm', heval⟩
  · rw [Function.update_of_ne heq] at hy
    rw [image_extend_of_ne heq, Function.update_of_ne heq]
    exact hs y ytype hy

end Substitution

open Substitution

section

variable {used : List String} {s : Substitution} {σ : Inlining} {Γ Δ : Context} {p : Option Ty}

theorem enters_same {x : String} (h : (s.without x).mentions x = false) :
    s.Enters Γ x p x (s.without x) where
  bound _ _ := image_without_self
  kept y type hne _ := by
    have hfree : x ∉ ((s.without x).image y type).freeNames := notMem_freeNames_image h hne
    rw [image_without_of_ne hne] at hfree
    exact ⟨image_without_of_ne hne, hfree⟩

theorem enters_fresh {n k : Nat} (hs : s.Takes used n Γ Δ) (hk : n ≤ k) (hnew : freshName k ∉ used)
    (x : String) : s.Enters Γ x p (freshName k) (s.renamed x p (freshName k)) where
  bound type hp := by
    subst hp
    exact image_renamed_self
  kept y type hne hy := by
    refine ⟨image_renamed_of_ne hne, fun hfree => ?_⟩
    -- what occurs in an image stands in `Δ`, and the new name does not
    obtain ⟨ztype, hz⟩ := (hs.image_typed y type hy).1.exists_type hfree
    exact not_named_fresh hk hnew (hs.named _ ztype hz)

/-- A binder that nothing substituted mentions keeps its name. -/
theorem enterLambda_same {x : String} (h : (s.without x).mentions x = false) (σ : Inlining)
    (p : Option Ty) : Yields (enterLambda used s x p) σ (x, s.without x) σ := by
  simp only [enterLambda, h, Bool.false_eq_true, if_false]
  exact .pure _ _

/-- A binder that would capture gets the next fresh name. -/
theorem enterLambda_fresh {x : String} (h : (s.without x).mentions x = true) (σ : Inlining)
    (p : Option Ty) :
    Yields (enterLambda used s x p) σ
      (freshName (nextFresh used σ.nextName), s.renamed x p (freshName (nextFresh used σ.nextName)))
      ⟨nextFresh used σ.nextName + 1, σ.rewrites + 1⟩ := by
  simp only [enterLambda, h, if_true]
  rfl

theorem enterLambda_spec (hs : s.Takes used σ.nextName Γ Δ) {x : String} (hx : x ∈ used)
    (p : Option Ty) :
    ∃ z inner σ', Yields (enterLambda used s x p) σ (z, inner) σ' ∧ σ.nextName ≤ σ'.nextName ∧
      s.Enters Γ x p z inner ∧
      inner.Takes used σ'.nextName (Function.update Γ x p) (Function.update Δ z p) := by
  cases hcapture : (s.without x).mentions x with
  | false =>
    have henters := enters_same (Γ := Γ) (p := p) hcapture
    exact ⟨x, s.without x, σ, enterLambda_same hcapture σ p, Nat.le_refl _, henters,
      henters.takes hs (Nat.le_refl _) (.inl hx)⟩
  | true =>
    obtain ⟨hle, hnew⟩ := nextFresh_spec used σ.nextName
    have henters := enters_fresh (p := p) hs hle hnew x
    refine ⟨_, _, _, enterLambda_fresh hcapture σ p, Nat.le_succ_of_le hle, henters, ?_⟩
    exact henters.takes hs (Nat.le_succ_of_le hle) (.inr ⟨_, Nat.lt_succ_self _, rfl⟩)

/-- What inlining makes of a term: a term over the new context that refines it. -/
structure Inlined (s : Substitution) (Γ Δ : Context) (t t' : Term) : Prop where
  typed : t'.Typed Δ
  type_eq : t'.type = t.type
  refines : ∀ I, I.Monotone → ∀ env env', s.Simulates I Γ env env' →
    OutcomeRefines (eval I env t) (eval I env' t')

/-- Inlining the term succeeds with a term that refines it. -/
def Inlines (used : List String) (t : Term) : Prop :=
  ∀ (s : Substitution) (Γ Δ : Context) (σ : Inlining), s.Takes used σ.nextName Γ Δ → t.Typed Γ →
    t.names ⊆ used →
    ∃ t' σ', Yields (inline used s t) σ t' σ' ∧ σ.nextName ≤ σ'.nextName ∧ Inlined s Γ Δ t t'

attribute [local simp] inline inlineElements inlineLocals

theorem inlineElements_spec {es : List (Label × Term)} (hes : ∀ e ∈ es, Inlines used e.2)
    (hs : s.Takes used σ.nextName Γ Δ) (ht : (Term.struct es).Typed Γ)
    (hused : (Term.struct es).names ⊆ used) :
    ∃ parts σ', Yields (inlineElements used s es) σ parts σ' ∧ σ.nextName ≤ σ'.nextName ∧
      parts.length = es.length ∧
      Inlined s Γ Δ (.struct es) (.struct ((es.map (·.1)).zip parts)) := by
  induction es generalizing σ with
  | nil =>
    refine ⟨[], σ, .pure _ _, Nat.le_refl _, rfl, typed_struct_nil, rfl, ?_⟩
    intro I _ env env' _
    rw [List.map_nil, List.zip_nil_left, eval_struct_nil, eval_struct_nil]
    exact outcomeRefines_ok (Meaning.refines_self rfl)
  | cons e es ih =>
    obtain ⟨n, t⟩ := e
    rw [List.forall_mem_cons] at hes
    rw [typed_struct_cons] at ht
    rw [names_struct_cons, List.append_subset] at hused
    obtain ⟨t', σ₁, hrun, hle, hinl⟩ := hes.1 s Γ Δ σ hs ht.1 hused.1
    obtain ⟨parts, σ₂, hruns, hles, hlen, hinls⟩ := ih hes.2 (hs.mono hle) ht.2 hused.2
    refine ⟨t' :: parts, σ₂, ?_, Nat.le_trans hle hles, by simp [hlen], ?_⟩
    · rw [inlineElements]
      exact hrun.bind (hruns.bind (.pure _ _))
    · have htype := hinls.type_eq
      simp only [Term.type, Ty.struct.injEq] at htype
      rw [List.map_cons, List.zip_cons_cons]
      refine ⟨typed_struct_cons.mpr ⟨hinl.typed, hinls.typed⟩, ?_, fun I hI env env' hsim => ?_⟩
      · rw [type_struct_cons, type_struct_cons, hinl.type_eq, htype]
      · rw [eval_struct_cons, eval_struct_cons]
        refine (hinl.refines I hI env env' hsim).bind fun m m' _ _ hmm' => ?_
        refine (hinls.refines I hI env env' hsim).bind fun v v' hv _ hvv' => outcomeRefines_ok ?_
        have hvtype := type_of_eval ht.2 hsim.fits hv
        rw [Term.type] at hvtype
        exact hmm'.cons n hvv' hvtype

theorem inlineLocals_spec {ls : List (String × Term)} (hls : ∀ l ∈ ls, Inlines used l.2)
    (hs : s.Takes used σ.nextName Γ Δ) (ht : LocalsTyped Γ ls) (hused : namesInLocals ls ⊆ used) :
    ∃ inner σ', Yields (inlineLocals used s ls) σ inner σ' ∧ σ.nextName ≤ σ'.nextName ∧
      inner.Takes used σ'.nextName (Γ.extend ls) Δ ∧
      ∀ I, I.Monotone → ∀ env env', s.Simulates I Γ env env' → ∀ behind,
        evalLocals I env ls = .ok behind → inner.Simulates I (Γ.extend ls) behind env' := by
  induction ls generalizing s Γ σ with
  | nil =>
    refine ⟨s, σ, .pure _ _, Nat.le_refl _, hs, ?_⟩
    intro I _ env env' hsim behind h
    cases h
    exact hsim
  | cons l ls ih =>
    obtain ⟨x, t⟩ := l
    rw [List.forall_mem_cons] at hls
    rw [LocalsTyped] at ht
    simp only [namesInLocals, List.cons_append, List.cons_subset, List.append_subset] at hused
    obtain ⟨t', σ₁, hrun, hle, hinl⟩ := hls.1 s Γ Δ σ hs ht.1 hused.2.1
    have hs₁ := (hs.mono hle).extend (x := x) hinl.typed hinl.type_eq
    obtain ⟨inner, σ₂, hruns, hles, htakes, hsims⟩ := ih hls.2 hs₁ ht.2 hused.2.2
    refine ⟨inner, σ₂, ?_, Nat.le_trans hle hles, htakes, fun I hI env env' hsim behind h => ?_⟩
    · rw [inlineLocals]
      exact hrun.bind hruns
    · rw [evalLocals] at h
      obtain ⟨m, hm, h⟩ := bind_eq_ok.mp h
      obtain ⟨m', hm', hmm'⟩ := hinl.refines I hI env env' hsim m hm
      have hmtype := type_of_eval ht.1 hsim.fits hm
      exact hsims I hI _ env' (hsim.extend hmtype hmm' hm') behind h

theorem yields_rebuild {node node' : Term} {parts : List Term}
    (h : node.withChildren parts = .ok node') : Yields (rebuild node parts) σ node' σ := by
  rw [rebuild, h]
  rfl

theorem inlines_reference (x : String) (type : Ty) : Inlines used (.reference x type) := by
  intro s Γ Δ σ hs ht _
  simp only [Typed] at ht
  obtain ⟨htyped, htype⟩ := hs.image_typed x type ht
  refine ⟨s.image x type, σ, rfl, Nat.le_refl _, htyped, ?_, fun I _ env env' hsim => ?_⟩
  · rw [htype, Term.type]
  · obtain ⟨m, m', hm, -, hmm', heval⟩ := hsim x type ht
    rw [eval_reference hm, heval]
    exact outcomeRefines_ok hmm'

theorem Inlines.lambda {r : Term} (ih : Inlines used r) (x : String) (p : Option Ty) :
    Inlines used (.lambda x p r) := by
  intro s Γ Δ σ hs ht hused
  simp only [Typed] at ht
  simp only [names, List.cons_subset] at hused
  obtain ⟨z, inner, σ₁, henter, hle₁, henters, htakes⟩ := enterLambda_spec hs hused.1 p
  obtain ⟨r', σ₂, hrun, hle₂, hinl⟩ := ih inner _ _ σ₁ htakes ht hused.2
  refine ⟨.lambda z p r', σ₂, ?_, Nat.le_trans hle₁ hle₂, ?_, ?_, fun I hI env env' hsim => ?_⟩
  · rw [inline]
    exact henter.bind (hrun.bind (.pure _ _))
  · rw [Typed]
    exact hinl.typed
  · simp only [Term.type, hinl.type_eq]
  · simp only [eval, hinl.type_eq]
    refine outcomeRefines_ok (Meaning.function_refines fun a a' ha hp => ?_)
    exact hinl.refines I hI _ _ (henters.simulates hsim ha hp)

theorem Inlines.thunkCall {f : Term} (ih : Inlines used f) : Inlines used (.call f none) := by
  intro s Γ Δ σ hs ht hused
  simp only [Typed] at ht
  obtain ⟨ht, r, hf⟩ := ht
  rw [names] at hused
  obtain ⟨f', σ₁, hrun, hle, hinl⟩ := ih s Γ Δ σ hs ht hused
  have hf' := hinl.type_eq.trans hf
  refine ⟨.call f' none, σ₁, ?_, hle, ?_, ?_, fun I hI env env' hsim => ?_⟩
  · rw [inline]
    exact hrun.bind (yields_rebuild (apply_none hf'))
  · rw [Typed]
    exact ⟨hinl.typed, r, hf'⟩
  · simp only [Term.type, hinl.type_eq]
  · simp only [eval]
    exact (hinl.refines I hI env env' hsim).bind fun m m' _ _ hmm' => hmm'.apply .none

theorem Inlines.call {f a : Term} (hf : Inlines used f) (ha : Inlines used a) :
    Inlines used (.call f (some a)) := by
  intro s Γ Δ σ hs ht hused
  simp only [Typed] at ht
  obtain ⟨htf, hta, r, hftype⟩ := ht
  rw [names, List.append_subset] at hused
  obtain ⟨f', σ₁, hfrun, hle₁, hfinl⟩ := hf s Γ Δ σ hs htf hused.1
  obtain ⟨a', σ₂, harun, hle₂, hainl⟩ := ha s Γ Δ σ₁ (hs.mono hle₁) hta hused.2
  have hf' : f'.type = .function (some a'.type) r := by
    rw [hfinl.type_eq, hainl.type_eq, hftype]
  refine ⟨.call f' (some a'), σ₂, ?_, Nat.le_trans hle₁ hle₂, ?_, ?_, fun I hI env env' hsim => ?_⟩
  · rw [inline]
    exact hfrun.bind (harun.bind (yields_rebuild (apply_some hf')))
  · rw [Typed]
    exact ⟨hfinl.typed, hainl.typed, r, hf'⟩
  · simp only [Term.type, hfinl.type_eq]
  · simp only [eval]
    refine (hfinl.refines I hI env env' hsim).bind fun m m' _ _ hmm' => ?_
    exact (hainl.refines I hI env env' hsim).bind fun v v' _ _ hvv' => hmm'.apply (.some hvv')

theorem Inlines.selection {t : Term} (ih : Inlines used t) (index : Nat) :
    Inlines used (.selection t index) := by
  intro s Γ Δ σ hs ht hused
  simp only [Typed] at ht
  obtain ⟨ht, type, hindex⟩ := ht
  rw [names] at hused
  obtain ⟨t', σ₁, hrun, hle, hinl⟩ := ih s Γ Δ σ hs ht hused
  have hindex' : t'.type.element? index = some type := by rw [hinl.type_eq, hindex]
  refine ⟨.selection t' index, σ₁, ?_, hle, ?_, ?_, fun I hI env env' hsim => ?_⟩
  · rw [inline]
    exact hrun.bind (yields_rebuild (select_eq_ok hindex'))
  · rw [Typed]
    exact ⟨hinl.typed, type, hindex'⟩
  · simp only [Term.type, hinl.type_eq]
  · simp only [eval]
    exact (hinl.refines I hI env env' hsim).bind fun m m' _ _ hmm' => hmm'.select index

theorem Inlines.struct {es : List (Label × Term)} (hes : ∀ e ∈ es, Inlines used e.2) :
    Inlines used (.struct es) := by
  intro s Γ Δ σ hs ht hused
  obtain ⟨parts, σ₁, hrun, hle, hlen, hinl⟩ := inlineElements_spec hes hs ht hused
  refine ⟨.struct ((es.map (·.1)).zip parts), σ₁, ?_, hle, hinl⟩
  rw [inline]
  exact hrun.bind (yields_rebuild (withChildren_struct hlen))

/-- The result takes over what the locals leave, and the block is gone. -/
theorem Inlines.block {ls : List (String × Term)} {r : Term}
    (hls : ∀ l ∈ ls, Inlines used l.2) (hr : Inlines used r) : Inlines used (.block ls r) := by
  intro s Γ Δ σ hs ht hused
  simp only [Typed] at ht
  simp only [names, List.append_subset] at hused
  obtain ⟨inner, σ₁, hrun, hle₁, htakes, hsims⟩ := inlineLocals_spec hls hs ht.1 hused.1
  obtain ⟨r', σ₂, hrrun, hle₂, hinl⟩ :=
    hr inner _ Δ { σ₁ with rewrites := σ₁.rewrites + 1 } htakes ht.2 hused.2
  have hcount : Yields countRewrite σ₁ () { σ₁ with rewrites := σ₁.rewrites + 1 } := rfl
  refine ⟨r', σ₂, ?_, Nat.le_trans hle₁ hle₂, hinl.typed, ?_, fun I hI env env' hsim => ?_⟩
  · rw [inline]
    exact hrun.bind (hcount.bind hrrun)
  · rw [hinl.type_eq, type_block]
  · intro v hv
    simp only [eval] at hv
    obtain ⟨behind, hbehind, hv⟩ := bind_eq_ok.mp hv
    exact hinl.refines I hI behind env' (hsims I hI env env' hsim behind hbehind) v hv

theorem inlines_compiled (u : CompiledUnit) : Inlines used (.compiled u) := by
  intro s Γ Δ σ hs ht _
  simp only [Typed] at ht
  refine ⟨.compiled u, σ, rfl, Nat.le_refl _, by simpa only [Typed] using ht, rfl, ?_⟩
  intro I _ env env' _
  simp only [eval]
  exact outcomeRefines_ok (Meaning.ofGraph_refines_self ht.sound)

theorem inlines_intrinsic (uri : String) (type : Ty) : Inlines used (.intrinsic uri type) := by
  intro s Γ Δ σ hs ht _
  refine ⟨.intrinsic uri type, σ, rfl, Nat.le_refl _, by simp only [Typed], rfl, ?_⟩
  intro I hI env env' _
  simp only [eval]
  exact outcomeRefines_ok (.mk (hI uri type))

end

/-- The inliner gets through every typed term. -/
theorem inlines (used : List String) (t : Term) : Inlines used t := by
  induction t using induct with
  | reference x type => exact inlines_reference x type
  | lambda x p r ih => exact ih.lambda x p
  | thunkCall f ih => exact ih.thunkCall
  | call f a hf ha => exact hf.call ha
  | selection s index ih => exact ih.selection index
  | struct es hes => exact .struct hes
  | block ls r hls hr => exact .block hls hr
  | compiled u => exact inlines_compiled u
  | intrinsic uri type => exact inlines_intrinsic uri type

/-- Inlining the blocks of a typed term succeeds with a term that refines it. -/
theorem inlineBlocks_refined {Γ : Context} {t : Term} (ht : t.Typed Γ) :
    ∃ t' n, t.inlineBlocks = .ok (t', n) ∧ Refined Γ t t' := by
  have hs : Substitution.Takes t.names Inlining.start.nextName []
      (Γ.restrict t) (Γ.restrict t) := by
    refine ⟨fun x type hx => ⟨?_, rfl⟩, fun x type hx => .inl ?_⟩
    · change (Term.reference x type).Typed _
      rwa [Typed]
    · exact mem_names_of_mem_freeNames (Context.restrict_eq_some.mp hx).1
  obtain ⟨t', σ, hrun, -, hinl⟩ := inlines t.names t [] _ _ .start hs ht.restrict fun _ h => h
  refine ⟨t', σ.rewrites, ?_, ⟨hinl.typed.of_restrict, hinl.type_eq⟩, fun I hI env env' henv => ?_⟩
  · rw [inlineBlocks, hrun]
  · refine hinl.refines I hI env env' fun x type hx => ?_
    obtain ⟨m, m', hm, hm', htype, hmm'⟩ := henv.restrict t x type hx
    exact ⟨m, m', hm, htype, hmm', eval_reference hm'⟩

end Term

end GraphFusion
