import GraphFusion.Proofs.Graph.Built
import GraphFusion.Terms.Scope
import Mathlib.Logic.Function.Basic

/-!
Typed terms. A context gives the types of the names in scope. A reference has
the type of its binder, a call and a selection fit, and compiled units are built;
a lambda without a parameter binds nothing and hides its name. Typing looks only
at the free names of a term.
-/

namespace GraphFusion

namespace Term

/-- Induction with a hypothesis for every element and every local. -/
@[elab_as_elim]
theorem induct {motive : Term → Prop} (reference : ∀ x type, motive (.reference x type))
    (lambda : ∀ x p r, motive r → motive (.lambda x p r))
    (thunkCall : ∀ f, motive f → motive (.call f none))
    (call : ∀ f a, motive f → motive a → motive (.call f (some a)))
    (selection : ∀ s index, motive s → motive (.selection s index))
    (struct : ∀ es, (∀ e ∈ es, motive e.2) → motive (.struct es))
    (block : ∀ ls r, (∀ l ∈ ls, motive l.2) → motive r → motive (.block ls r))
    (compiled : ∀ u, motive (.compiled u))
    (intrinsic : ∀ uri type, motive (.intrinsic uri type)) (t : Term) : motive t :=
  @Term.rec motive (fun a => ∀ t, a = some t → motive t) (fun es => ∀ e ∈ es, motive e.2)
    (fun ls => ∀ l ∈ ls, motive l.2) (fun e => motive e.2) (fun l => motive l.2)
    reference lambda
    (fun f a hf ha =>
      match a, ha with
      | none, _ => thunkCall f hf
      | some a, ha => call f a hf (ha a rfl))
    (fun s index hs => selection s index hs) struct block compiled intrinsic
    (fun _ h => nomatch h) (fun _ ht _ h => Option.some.inj h ▸ ht)
    (fun _ h => nomatch h) (fun _ _ he hes => List.forall_mem_cons.mpr ⟨he, hes⟩)
    (fun _ h => nomatch h) (fun _ _ hl hls => List.forall_mem_cons.mpr ⟨hl, hls⟩)
    (fun _ _ h => h) (fun _ _ h => h) t

/-- Induction that takes elements and locals off the front. -/
@[elab_as_elim]
theorem inductFront {motive : Term → Prop} (reference : ∀ x type, motive (.reference x type))
    (lambda : ∀ x p r, motive r → motive (.lambda x p r))
    (thunkCall : ∀ f, motive f → motive (.call f none))
    (call : ∀ f a, motive f → motive a → motive (.call f (some a)))
    (selection : ∀ s index, motive s → motive (.selection s index))
    (structNil : motive (.struct []))
    (structCons : ∀ n t es, motive t → motive (.struct es) → motive (.struct ((n, t) :: es)))
    (blockNil : ∀ r, motive r → motive (.block [] r))
    (blockCons : ∀ x t ls r, motive t → motive (.block ls r) → motive (.block ((x, t) :: ls) r))
    (compiled : ∀ u, motive (.compiled u))
    (intrinsic : ∀ uri type, motive (.intrinsic uri type)) (t : Term) : motive t := by
  induction t using induct with
  | reference x type => exact reference x type
  | lambda x p r hr => exact lambda x p r hr
  | thunkCall f hf => exact thunkCall f hf
  | call f a hf ha => exact call f a hf ha
  | selection s index hs => exact selection s index hs
  | struct es hes =>
    induction es with
    | nil => exact structNil
    | cons e es ih =>
      have h := List.forall_mem_cons.mp hes
      exact structCons e.1 e.2 es h.1 (ih h.2)
  | block ls r hls hr =>
    induction ls with
    | nil => exact blockNil r hr
    | cons l ls ih =>
      have h := List.forall_mem_cons.mp hls
      exact blockCons l.1 l.2 ls r h.1 (ih h.2)
  | compiled u => exact compiled u
  | intrinsic uri type => exact intrinsic uri type

attribute [local simp] freeFrom freeInElements freeInLocals

theorem freeFrom_struct_cons (bound : List String) (n : Label) (t : Term)
    (es : List (Label × Term)) :
    freeFrom bound (.struct ((n, t) :: es)) = freeFrom bound t ++ freeFrom bound (.struct es) := by
  simp only [freeFrom, freeInElements]

theorem freeFrom_block_cons (bound : List String) (x : String) (t : Term)
    (ls : List (String × Term)) (r : Term) :
    freeFrom bound (.block ((x, t) :: ls) r) =
      freeFrom bound t ++ freeFrom (x :: bound) (.block ls r) := by
  simp [freeFrom, freeInLocals, bindLocals]

/-- The names bound around a term are not free, and the others are free as they
are in the term alone. -/
theorem mem_freeFrom {t : Term} {bound : List String} {y : String} :
    y ∈ freeFrom bound t ↔ y ∉ bound ∧ y ∈ t.freeNames := by
  rw [freeNames]
  induction t using inductFront generalizing bound with
  | reference x type =>
    simp only [freeFrom]
    by_cases hx : x ∈ bound
    · simp only [if_pos hx, List.not_mem_nil, if_false, List.mem_singleton, false_iff]
      rintro ⟨hy, rfl⟩
      exact hy hx
    · simp only [if_neg hx, List.not_mem_nil, if_false, List.mem_singleton]
      constructor
      · rintro rfl
        exact ⟨hx, rfl⟩
      · exact fun h => h.2
  | lambda x p r ih =>
    simp only [freeFrom]
    rw [ih, @ih [x]]
    simp only [List.mem_cons, not_or, List.not_mem_nil, not_false_eq_true]
    tauto
  | thunkCall f ih => simpa only [freeFrom] using ih
  | call f a hf ha =>
    simp only [freeFrom, List.mem_append]
    rw [hf, ha]
    tauto
  | selection s index ih => simpa only [freeFrom] using ih
  | structNil => simp [freeFrom, freeInElements]
  | structCons n t es ht hes =>
    simp only [freeFrom_struct_cons, List.mem_append]
    rw [ht, hes]
    tauto
  | blockNil r ih => simpa [freeFrom, freeInLocals, bindLocals] using ih
  | blockCons x t ls r ht hr =>
    simp only [freeFrom_block_cons, List.mem_append]
    rw [ht, hr, @hr [x]]
    simp only [List.mem_cons, not_or, List.not_mem_nil, not_false_eq_true]
    tauto
  | compiled u => simp [freeFrom]
  | intrinsic uri type => simp [freeFrom]

section

variable {y : String}

theorem mem_freeNames_reference {x : String} {type : Ty} :
    y ∈ (Term.reference x type).freeNames ↔ y = x := by
  simp [freeNames, freeFrom]

theorem mem_freeNames_lambda {x : String} {p : Option Ty} {r : Term} :
    y ∈ (Term.lambda x p r).freeNames ↔ y ≠ x ∧ y ∈ r.freeNames := by
  rw [freeNames, freeFrom, mem_freeFrom]
  simp

theorem mem_freeNames_thunkCall {f : Term} :
    y ∈ (Term.call f none).freeNames ↔ y ∈ f.freeNames := by
  rw [freeNames, freeFrom, freeNames]

theorem mem_freeNames_call {f a : Term} :
    y ∈ (Term.call f (some a)).freeNames ↔ y ∈ f.freeNames ∨ y ∈ a.freeNames := by
  rw [freeNames, freeFrom, List.mem_append, freeNames, freeNames]

theorem mem_freeNames_selection {s : Term} {index : Nat} :
    y ∈ (Term.selection s index).freeNames ↔ y ∈ s.freeNames := by
  rw [freeNames, freeFrom, freeNames]

theorem mem_freeNames_struct_cons {n : Label} {t : Term} {es : List (Label × Term)} :
    y ∈ (Term.struct ((n, t) :: es)).freeNames ↔
      y ∈ t.freeNames ∨ y ∈ (Term.struct es).freeNames := by
  rw [freeNames, freeFrom_struct_cons, List.mem_append, freeNames, freeNames]

theorem mem_freeNames_block_nil {r : Term} :
    y ∈ (Term.block [] r).freeNames ↔ y ∈ r.freeNames := by
  simp [freeNames, freeFrom, freeInLocals, bindLocals]

theorem mem_freeNames_block_cons {x : String} {t : Term} {ls : List (String × Term)} {r : Term} :
    y ∈ (Term.block ((x, t) :: ls) r).freeNames ↔
      y ∈ t.freeNames ∨ (y ≠ x ∧ y ∈ (Term.block ls r).freeNames) := by
  have h : y ∈ freeFrom [x] (.block ls r) ↔ y ∉ [x] ∧ y ∈ (Term.block ls r).freeNames :=
    mem_freeFrom
  rw [List.mem_singleton] at h
  rw [← h, freeNames, freeNames, freeFrom_block_cons, List.mem_append]

theorem mem_freeReferences {t : Term} : y ∈ t.freeReferences ↔ y ∈ t.freeNames := by
  rw [freeReferences, List.mem_mergeSort, List.mem_eraseDups]

end

end Term

/-- Types of the names in scope. -/
abbrev Context := String → Option Ty

namespace Context

/-- The context behind the locals of a block. -/
def extend (Γ : Context) : List (String × Term) → Context
  | [] => Γ
  | (x, t) :: ls => extend (Function.update Γ x (some t.type)) ls

/-- The context of the free names of a term alone. -/
def restrict (Γ : Context) (t : Term) : Context := fun x => if x ∈ t.freeNames then Γ x else none

variable {Γ : Context} {t : Term} {x : String} {type : Ty}

theorem restrict_eq (h : x ∈ t.freeNames) : Γ.restrict t x = Γ x := if_pos h

theorem restrict_eq_some : Γ.restrict t x = some type ↔ x ∈ t.freeNames ∧ Γ x = some type := by
  rw [restrict]
  split <;> simp_all

end Context

namespace Term

mutual

/-- Every name in the term stands in the context with the type that its
references carry, calls and selections fit, and compiled units are built. -/
def Typed (Γ : Context) : Term → Prop
  | .reference x type => Γ x = some type
  | .lambda x p r => Typed (Function.update Γ x p) r
  | .call f none => Typed Γ f ∧ ∃ r, f.type = .function none r
  | .call f (some a) => Typed Γ f ∧ Typed Γ a ∧ ∃ r, f.type = .function (some a.type) r
  | .selection s index => Typed Γ s ∧ ∃ type, s.type.element? index = some type
  | .struct es => ElementsTyped Γ es
  | .block ls r => LocalsTyped Γ ls ∧ Typed (Γ.extend ls) r
  | .compiled u => u.graph.Built
  | .intrinsic .. => True

def ElementsTyped (Γ : Context) : List (Label × Term) → Prop
  | [] => True
  | (_, t) :: es => Typed Γ t ∧ ElementsTyped Γ es

def LocalsTyped (Γ : Context) : List (String × Term) → Prop
  | [] => True
  | (x, t) :: ls => Typed Γ t ∧ LocalsTyped (Function.update Γ x (some t.type)) ls

end

attribute [local simp] Typed ElementsTyped LocalsTyped

section

variable {Γ : Context}

@[simp] theorem typed_struct_nil : Typed Γ (.struct []) := by
  simp only [Typed, ElementsTyped]

theorem typed_struct_cons {n : Label} {t : Term} {es : List (Label × Term)} :
    Typed Γ (.struct ((n, t) :: es)) ↔ Typed Γ t ∧ Typed Γ (.struct es) := by
  simp only [Typed, ElementsTyped]

theorem typed_struct {es : List (Label × Term)} :
    Typed Γ (.struct es) ↔ ∀ e ∈ es, Typed Γ e.2 := by
  induction es with
  | nil => simp
  | cons e es ih => rw [typed_struct_cons, ih, List.forall_mem_cons]

theorem typed_block_nil {r : Term} : Typed Γ (.block [] r) ↔ Typed Γ r := by
  simp only [Typed, LocalsTyped, Context.extend, true_and]

theorem typed_block_cons {x : String} {t : Term} {ls : List (String × Term)} {r : Term} :
    Typed Γ (.block ((x, t) :: ls) r) ↔
      Typed Γ t ∧ Typed (Function.update Γ x (some t.type)) (.block ls r) := by
  simp only [Typed, LocalsTyped, Context.extend, and_assoc]

theorem LocalsTyped.exists_context {ls : List (String × Term)} (h : LocalsTyped Γ ls) :
    ∀ l ∈ ls, ∃ Δ, Typed Δ l.2 := by
  induction ls generalizing Γ with
  | nil => exact List.forall_mem_nil _
  | cons l ls ih =>
    rw [LocalsTyped] at h
    exact List.forall_mem_cons.mpr ⟨⟨Γ, h.1⟩, ih h.2⟩

/-- The children of a typed term are typed where they stand. -/
theorem Typed.exists_context {t : Term} (ht : Typed Γ t) : ∀ c ∈ t.children, ∃ Δ, Typed Δ c := by
  cases t with
  | reference | compiled | intrinsic => exact List.forall_mem_nil _
  | lambda x p r =>
    rw [Typed] at ht
    exact List.forall_mem_singleton.mpr ⟨_, ht⟩
  | call f a =>
    cases a with
    | none =>
      rw [Typed] at ht
      exact List.forall_mem_singleton.mpr ⟨Γ, ht.1⟩
    | some a =>
      rw [Typed] at ht
      exact List.forall_mem_cons.mpr ⟨⟨Γ, ht.1⟩, List.forall_mem_singleton.mpr ⟨Γ, ht.2.1⟩⟩
  | selection s index =>
    rw [Typed] at ht
    exact List.forall_mem_singleton.mpr ⟨Γ, ht.1⟩
  | struct es => exact List.forall_mem_map.mpr fun e he => ⟨Γ, typed_struct.mp ht e he⟩
  | block ls r =>
    rw [Typed] at ht
    exact List.forall_mem_append.mpr ⟨List.forall_mem_map.mpr ht.1.exists_context,
      List.forall_mem_singleton.mpr ⟨_, ht.2⟩⟩

end

/-- Contexts that agree below a binder agree with the binder in front. -/
theorem agree_update {α : Type} {Γ Δ : String → Option α} {x : String} {P : String → Prop}
    (h : ∀ y, y ≠ x → P y → Γ y = Δ y) (a : Option α) :
    ∀ y, P y → Function.update Γ x a y = Function.update Δ x a y := by
  intro y hy
  by_cases heq : y = x
  · subst heq
    simp
  · simp [Function.update_of_ne heq, h y heq hy]

theorem typed_congr {t : Term} {Γ Δ : Context} (h : ∀ y ∈ t.freeNames, Γ y = Δ y) :
    Typed Γ t ↔ Typed Δ t := by
  induction t using inductFront generalizing Γ Δ with
  | reference x type => simp only [Typed, h x (mem_freeNames_reference.mpr rfl)]
  | lambda x p r ih =>
    simp only [Typed]
    exact ih (agree_update (fun y hne hy => h y (mem_freeNames_lambda.mpr ⟨hne, hy⟩)) p)
  | thunkCall f ih => simp only [Typed, ih fun y hy => h y (mem_freeNames_thunkCall.mpr hy)]
  | call f a hf ha =>
    simp only [Typed, hf fun y hy => h y (mem_freeNames_call.mpr (.inl hy)),
      ha fun y hy => h y (mem_freeNames_call.mpr (.inr hy))]
  | selection s index ih =>
    simp only [Typed, ih fun y hy => h y (mem_freeNames_selection.mpr hy)]
  | structNil => simp
  | structCons n t es ht hes =>
    rw [typed_struct_cons, typed_struct_cons,
      ht fun y hy => h y (mem_freeNames_struct_cons.mpr (.inl hy)),
      hes fun y hy => h y (mem_freeNames_struct_cons.mpr (.inr hy))]
  | blockNil r ih =>
    rw [typed_block_nil, typed_block_nil, ih fun y hy => h y (mem_freeNames_block_nil.mpr hy)]
  | blockCons x t ls r ht hr =>
    rw [typed_block_cons, typed_block_cons,
      ht fun y hy => h y (mem_freeNames_block_cons.mpr (.inl hy)),
      hr (agree_update (fun y hne hy => h y (mem_freeNames_block_cons.mpr (.inr ⟨hne, hy⟩))) _)]
  | compiled u => simp only [Typed]
  | intrinsic uri type => simp only [Typed]

/-- A free name of a typed term stands in the context. -/
theorem Typed.exists_type {t : Term} {Γ : Context} (ht : Typed Γ t) {y : String}
    (hy : y ∈ t.freeNames) : ∃ type, Γ y = some type := by
  induction t using inductFront generalizing Γ with
  | reference x type =>
    rw [mem_freeNames_reference] at hy
    subst hy
    exact ⟨type, by simpa only [Typed] using ht⟩
  | lambda x p r ih =>
    obtain ⟨hne, hy⟩ := mem_freeNames_lambda.mp hy
    simp only [Typed] at ht
    simpa [Function.update_of_ne hne] using ih ht hy
  | thunkCall f ih =>
    simp only [Typed] at ht
    exact ih ht.1 (mem_freeNames_thunkCall.mp hy)
  | call f a hf ha =>
    simp only [Typed] at ht
    exact (mem_freeNames_call.mp hy).elim (hf ht.1) (ha ht.2.1)
  | selection s index ih =>
    simp only [Typed] at ht
    exact ih ht.1 (mem_freeNames_selection.mp hy)
  | structNil => simp [freeNames, freeFrom, freeInElements] at hy
  | structCons n t es hn hes =>
    rw [typed_struct_cons] at ht
    exact (mem_freeNames_struct_cons.mp hy).elim (hn ht.1) (hes ht.2)
  | blockNil r ih => exact ih (typed_block_nil.mp ht) (mem_freeNames_block_nil.mp hy)
  | blockCons x t ls r hn hr =>
    rw [typed_block_cons] at ht
    rcases mem_freeNames_block_cons.mp hy with hy | ⟨hne, hy⟩
    · exact hn ht.1 hy
    · simpa [Function.update_of_ne hne] using hr ht.2 hy
  | compiled u => simp [freeNames, freeFrom] at hy
  | intrinsic uri type => simp [freeNames, freeFrom] at hy

theorem Typed.restrict {t : Term} {Γ : Context} (ht : t.Typed Γ) : t.Typed (Γ.restrict t) :=
  (typed_congr fun _ hx => (Context.restrict_eq hx).symm).mp ht

/-- What is typed over the free names of a term is typed over all names. -/
theorem Typed.of_restrict {t t' : Term} {Γ : Context} (ht' : t'.Typed (Γ.restrict t)) :
    t'.Typed Γ := by
  refine (typed_congr fun x hx => ?_).mp ht'
  obtain ⟨type, htype⟩ := ht'.exists_type hx
  rw [htype, (Context.restrict_eq_some.mp htype).2]

end Term

end GraphFusion
