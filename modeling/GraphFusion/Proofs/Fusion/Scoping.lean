import GraphFusion.Proofs.Fusion.Capturing
import GraphFusion.Proofs.Fusion.Traversal

/-!
Free names under passes. A lambda without a parameter has a name all the same, and
hides the references to it in its result from the free names around it. A pass
invents no free name: what it makes of a term has free names of the term only, but
for those that a lambda without a parameter hid and that come into view when a
call of it is replaced by its result.
-/

namespace GraphFusion

namespace Term

/-- Some lambda without a parameter in the term has this name, and refers to it. -/
inductive Hides : Term → String → Prop
  | here {x : String} {r : Term} : x ∈ r.freeNames → Hides (.lambda x none r) x
  | inside {t c : Term} {y : String} : c ∈ t.children → Hides c y → Hides t y

/-- The free and the hidden names of `t'` are those of `t`. A hidden name may have
come into view if it is `exposed`. -/
structure Confined (exposed : Prop) (t t' : Term) : Prop where
  free : ∀ y ∈ t'.freeNames, y ∈ t.freeNames ∨ exposed ∧ t.Hides y
  hidden : ∀ y, t'.Hides y → t.Hides y

section

variable {exposed : Prop} {t t' t'' : Term} {y : String}

theorem Hides.exists_child (h : t.Hides y) (ht : ∀ x r, t ≠ .lambda x none r) :
    ∃ c ∈ t.children, c.Hides y := by
  cases h with
  | here _ => exact absurd rfl (ht _ _)
  | inside hc hy => exact ⟨_, hc, hy⟩

theorem Confined.refl (t : Term) : Confined exposed t t := ⟨fun _ h => .inl h, fun _ h => h⟩

theorem Confined.trans (h : Confined exposed t t') (h' : Confined exposed t' t'') :
    Confined exposed t t'' where
  free y hy := by
    rcases h'.free y hy with hy | ⟨hexposed, hy⟩
    · exact h.free y hy
    · exact .inr ⟨hexposed, h.hidden y hy⟩
  hidden y hy := h.hidden y (h'.hidden y hy)

theorem Confined.mono {exposed' : Prop} (h : Confined exposed t t') (he : exposed → exposed') :
    Confined exposed' t t' :=
  ⟨fun y hy => (h.free y hy).imp_right (.imp_left he), h.hidden⟩

theorem mem_freeNames_struct {es : List (Label × Term)} :
    y ∈ (Term.struct es).freeNames ↔ ∃ e ∈ es, y ∈ e.2.freeNames := by
  induction es with
  | nil => simp [freeNames, freeFrom, freeInElements]
  | cons e es ih => rw [mem_freeNames_struct_cons, ih, List.exists_mem_cons_iff]

theorem Plain.mem_freeNames (ht : t.Plain) :
    y ∈ t.freeNames ↔ ∃ c ∈ t.children, y ∈ c.freeNames := by
  cases t with
  | call f a =>
    cases a with
    | none => simp [mem_freeNames_thunkCall, children]
    | some a => simp [mem_freeNames_call, children]
  | selection s index => simp [mem_freeNames_selection, children]
  | struct es => simp only [mem_freeNames_struct, children, List.mem_map, exists_exists_and_eq_and]
  | _ => exact ht.elim

theorem Plain.hides (ht : t.Plain) : t.Hides y ↔ ∃ c ∈ t.children, c.Hides y := by
  constructor
  · intro h
    refine h.exists_child fun x r heq => ?_
    rw [heq] at ht
    exact ht
  · rintro ⟨c, hc, hy⟩
    exact .inside hc hy

theorem Plain.over {Q : Term → Term → Prop} {Γ : Context} (ht : t.Plain)
    (h : Over (fun _ => Q) Γ t t') : t'.Plain := by
  cases h with
  | thunkCall _ | call _ _ | selection _ | struct _ => trivial
  | _ => exact ht.elim

theorem not_hides_reference {x : String} {type : Ty} : ¬ (Term.reference x type).Hides y := by
  rintro (_ | ⟨hc, -⟩)
  cases hc

theorem not_hides_compiled {u : CompiledUnit} : ¬ (Term.compiled u).Hides y := by
  rintro (_ | ⟨hc, -⟩)
  cases hc

theorem hides_block_cons {x : String} {u r : Term} {ls : List (String × Term)} :
    (Term.block ((x, u) :: ls) r).Hides y ↔ u.Hides y ∨ (Term.block ls r).Hides y := by
  constructor
  · rintro (_ | ⟨hc, hy⟩)
    rcases List.mem_cons.mp hc with rfl | hc
    · exact .inl hy
    · exact .inr (.inside hc hy)
  · rintro (hy | hy)
    · exact .inside List.mem_cons_self hy
    · obtain ⟨c, hc, hy⟩ := hy.exists_child (by simp)
      exact .inside (List.mem_cons_of_mem _ hc) hy

theorem OverLocals.free {Γ : Context} {ls ls' : List (String × Term)} {r r' : Term}
    (hls : OverLocals (fun _ => Confined exposed) Γ ls ls') (hr : Confined exposed r r')
    (hy : y ∈ (Term.block ls' r').freeNames) :
    y ∈ (Term.block ls r).freeNames ∨ exposed ∧ (Term.block ls r).Hides y := by
  induction hls with
  | nil =>
    rw [mem_freeNames_block_nil] at hy ⊢
    exact (hr.free y hy).imp_right (.imp_right (.inside (by simp [children])))
  | cons hu _ ih =>
    rw [mem_freeNames_block_cons] at hy ⊢
    rw [hides_block_cons]
    rcases hy with hy | ⟨hne, hy⟩
    · exact (hu.free y hy).imp .inl (.imp_right .inl)
    · exact (ih hy).imp (fun hy => .inr ⟨hne, hy⟩) (.imp_right .inr)

/-- Rebuilt over confined children, a node is confined. -/
theorem Over.confined {Γ : Context} (h : Over (fun _ => Confined exposed) Γ t t') :
    Confined exposed t t' where
  free y hy := by
    have hplain : t.Plain → y ∈ t.freeNames ∨ exposed ∧ t.Hides y := by
      intro ht
      obtain ⟨c', hc', hy⟩ := (ht.over h).mem_freeNames.mp hy
      obtain ⟨c, hc, hconfined⟩ := exists_mem_of_forall₂ h.forall₂_children hc'
      rw [ht.mem_freeNames]
      exact (hconfined.free y hy).imp (fun hy => ⟨c, hc, hy⟩) (.imp_right (.inside hc))
    cases h with
    | thunkCall | call | selection | struct => exact hplain trivial
    | reference | compiled | intrinsic => exact .inl hy
    | lambda hr =>
      rw [mem_freeNames_lambda] at hy ⊢
      exact (hr.free y hy.2).imp (fun h => ⟨hy.1, h⟩) (.imp_right (.inside List.mem_cons_self))
    | block hls hr => exact hls.free hr hy
  hidden y hy := by
    have hchildren := h.forall₂_children
    cases hy with
    | here hx =>
      cases h with
      | lambda hr =>
        rcases hr.free _ hx with hx | ⟨-, hx⟩
        · exact .here hx
        · exact .inside List.mem_cons_self hx
    | inside hc hy =>
      obtain ⟨c, hc, hconfined⟩ := exists_mem_of_forall₂ hchildren hc
      exact .inside hc (hconfined.hidden y hy)

/-- A term that the constructors build stays one, and is confined. -/
def Scoped (exposed : Prop) (t t' : Term) : Prop :=
  t.Constructed → t'.Constructed ∧ Confined exposed t t'

theorem Scoped.trans (h : Scoped exposed t t') (h' : Scoped exposed t' t'') :
    Scoped exposed t t'' := by
  intro ht
  obtain ⟨ht', hconfined⟩ := h ht
  obtain ⟨ht'', hconfined'⟩ := h' ht'
  exact ⟨ht'', hconfined.trans hconfined'⟩

theorem Over.scoped {Γ : Context} (h : Over (fun _ => Scoped exposed) Γ t t')
    (hfits : t.Fits → t'.Fits) : Scoped exposed t t' := by
  intro ht
  have hchildren : ∀ c ∈ t.children, ∀ c', Scoped exposed c c' →
      c'.Constructed ∧ Confined exposed c c' := fun c hc c' hcc' => hcc' (ht.child hc)
  have hover := h.mono_of_mem hchildren
  refine ⟨.node (hfits ht.here) fun c' hc' => ?_, (hover.mono fun _ _ _ h => h.2).confined⟩
  obtain ⟨c, -, hconstructed, -⟩ := exists_mem_of_forall₂ hover.forall₂_children hc'
  exact hconstructed

end

section

variable {exposed : Prop} {t t' : Term} {y : String}

theorem hides_block_nil {r : Term} : (Term.block [] r).Hides y ↔ r.Hides y := by
  constructor
  · rintro (_ | ⟨hc, hy⟩)
    obtain rfl := List.mem_singleton.mp hc
    exact hy
  · exact .inside List.mem_cons_self

/-- The result of a called lambda that takes nothing comes out of its binder. -/
theorem calledLambdaToBlock?_scoped (ht : t.Constructed) (h : t.calledLambdaToBlock? = some t') :
    t'.Constructed ∧ Confined True t t' := by
  unfold calledLambdaToBlock? at h
  split at h
  · rename_i x type r a
    cases h
    have hr : r.Constructed := (ht.child List.mem_cons_self).child List.mem_cons_self
    have ha : a.Constructed := ht.child (List.mem_cons_of_mem _ List.mem_cons_self)
    refine ⟨.node trivial (by simp [children, hr, ha]), fun y hy => .inl ?_, fun y hy => ?_⟩
    · rw [mem_freeNames_block_cons, mem_freeNames_block_nil] at hy
      rw [mem_freeNames_call, mem_freeNames_lambda]
      exact hy.symm
    · rw [hides_block_cons, hides_block_nil] at hy
      rcases hy with hy | hy
      · exact .inside (List.mem_cons_of_mem _ List.mem_cons_self) hy
      · exact .inside List.mem_cons_self (.inside List.mem_cons_self hy)
  · rename_i x p r a hother
    cases h
    have hr : r.Constructed := (ht.child List.mem_cons_self).child List.mem_cons_self
    have hp : p = none := by
      have hfits := ht.here
      simp only [Fits, apply, type] at hfits
      cases p with
      | none => rfl
      | some type =>
        cases a with
        | none => cases hfits
        | some a => exact (hother type a rfl rfl).elim
    subst hp
    refine ⟨.node trivial (by simp [children, hr]), fun y hy => ?_, fun y hy => ?_⟩
    · rw [mem_freeNames_block_nil] at hy
      by_cases hyx : y = x
      · subst hyx
        exact .inr ⟨trivial, .inside List.mem_cons_self (.here hy)⟩
      · have hfree : y ∈ (Term.lambda x none r).freeNames := mem_freeNames_lambda.mpr ⟨hyx, hy⟩
        cases a with
        | none => exact .inl (mem_freeNames_thunkCall.mpr hfree)
        | some a => exact .inl (mem_freeNames_call.mpr (.inl hfree))
    · exact .inside List.mem_cons_self (.inside List.mem_cons_self (hides_block_nil.mp hy))
  · cases h

theorem elementOfStruct?_scoped (ht : t.Constructed) (h : t.elementOfStruct? = some t') :
    t'.Constructed ∧ Confined exposed t t' := by
  unfold elementOfStruct? at h
  split at h
  · rename_i es index
    obtain ⟨e, he, rfl⟩ := Option.map_eq_some_iff.mp h
    have hmem : e ∈ es := List.mem_of_getElem? he
    have hchild : e.2 ∈ (Term.struct es).children := List.mem_map_of_mem hmem
    refine ⟨(ht.child List.mem_cons_self).child hchild, fun y hy => .inl ?_, fun y hy => ?_⟩
    · rw [mem_freeNames_selection, mem_freeNames_struct]
      exact ⟨e, hmem, hy⟩
    · exact .inside List.mem_cons_self (.inside hchild hy)
  · cases h

/-- A rewrite that is scoped at every node is scoped. -/
theorem rewriteAll_scoped {rewrite : Term → Except CompileError (Option Term)}
    (hrewrite : ∀ t t', t.Constructed → rewrite t = .ok (some t') →
      t'.Constructed ∧ Confined exposed t t') {n : Nat} (h : rewriteAll rewrite t = .ok (t', n)) :
    Scoped exposed t t' := by
  refine rewriteAll_of_over (Γ := fun _ => none) (fun t t' r hover hfits hr => ?_) h
  refine (hover.scoped hfits).trans fun ht' => ?_
  cases r with
  | none => exact ⟨ht', .refl t'⟩
  | some t'' => exact hrewrite t' t'' ht' hr

theorem PassedOn.scoped {c c' : Term} (h : PassedOn c c') : Scoped exposed c c' := by
  rcases h with ⟨-, rfl⟩ | ⟨-, u, rfl, hfits⟩
  · exact fun hc => ⟨hc, .refl _⟩
  · intro hc
    have hu : (Term.compiled u).Constructed := .node trivial (by simp [children])
    refine ⟨.node hfits (by simp [children, hc, hu]), fun y hy => .inl ?_, fun y hy => ?_⟩
    · rw [mem_freeNames_call] at hy
      simpa [freeNames, freeFrom] using hy
    · have hplain : (Term.call (.compiled u) (some c)).Plain := trivial
      obtain ⟨d, hd, hdy⟩ := hplain.hides.mp hy
      rcases List.mem_cons.mp hd with rfl | hd
      · exact absurd hdy not_hides_compiled
      · obtain rfl := List.mem_singleton.mp hd
        exact hdy

theorem wrapChildren?_scoped (ht : t.Constructed) (h : t.wrapChildren? = .ok (some t')) :
    t'.Constructed ∧ Confined exposed t t' := by
  rcases wrapChildren?_cases (Γ := fun _ => none) h with ⟨hnone, -⟩ | ⟨u, hsome, hfits, hover⟩
  · cases hnone
  · cases hsome
    exact (hover.mono fun _ _ _ => PassedOn.scoped).scoped (fun _ => hfits) ht

end

namespace Substitution

section

variable {s : Substitution} {x y : String} {t : Term}

theorem mentions_iff : s.mentions y = true ↔ ∃ e ∈ s, y ∈ e.2.freeNames := by
  simp [mentions]

theorem mentions_of_without (h : (s.without x).mentions y = true) : s.mentions y = true := by
  obtain ⟨e, he, hy⟩ := mentions_iff.mp h
  exact mentions_iff.mpr ⟨e, mem_of_mem_without he, hy⟩

theorem mentions_extend (h : (s.extend x t).mentions y = true) :
    y ∈ t.freeNames ∨ s.mentions y = true := by
  obtain ⟨e, he, hy⟩ := mentions_iff.mp h
  rcases List.mem_cons.mp he with rfl | he
  · exact .inl hy
  · exact .inr (mentions_of_without (x := x) (mentions_iff.mpr ⟨e, he, hy⟩))

theorem mentions_of_lookup (h : s.lookup x = some t) (hy : y ∈ t.freeNames) :
    s.mentions y = true :=
  mentions_iff.mpr ⟨(x, t), mem_of_lookup h, hy⟩

theorem lookup_of_lookup_without (h : (s.without x).lookup y = none) (hne : y ≠ x) :
    s.lookup y = none := by
  rwa [lookup_without_of_ne hne] at h

theorem lookup_extend_eq_none (h : (s.extend x t).lookup y = none) :
    y ≠ x ∧ s.lookup y = none := by
  by_cases hne : y = x
  · subst hne
    simp [extend] at h
  · have hbeq : (y == x) = false := by simpa using hne
    rw [extend, List.lookup_cons, hbeq] at h
    exact ⟨hne, lookup_of_lookup_without h hne⟩

end

/-- What inlining makes of a term: its free names are free in the term and stand for
themselves, or are free in what is substituted, and it hides what these hide. -/
structure Replaced (s : Substitution) (t t' : Term) : Prop where
  free : ∀ y ∈ t'.freeNames, (y ∈ t.freeNames ∧ s.lookup y = none) ∨ s.mentions y = true
  hidden : ∀ y, t'.Hides y → t.Hides y ∨ ∃ e ∈ s, e.2.Hides y

/-- All names free in what is substituted are used in the tree or were handed out. -/
def Covered (used : List String) (n : Nat) (s : Substitution) : Prop :=
  ∀ y, s.mentions y = true → Named used n y

variable {used : List String} {m n : Nat} {s : Substitution} {x : String} {t t' : Term}

theorem Covered.mono (hs : s.Covered used m) (hmn : m ≤ n) : s.Covered used n :=
  fun y hy => (hs y hy).mono hmn

theorem Replaced.named (h : Replaced s t t') (hs : s.Covered used n) (ht : t.names ⊆ used)
    {y : String} (hy : y ∈ t'.freeNames) : Named used n y := by
  rcases h.free y hy with ⟨hy, -⟩ | hy
  · exact .inl (ht (mem_names_of_mem_freeNames hy))
  · exact hs y hy

theorem Covered.extend (hs : s.Covered used n) (h : Replaced s t t') (ht : t.names ⊆ used) :
    (s.extend x t').Covered used n := by
  intro y hy
  rcases mentions_extend hy with hy | hy
  · exact h.named hs ht hy
  · exact hs y hy

/-- Below a binder `x` of type `p` that becomes `z`: other names stand for what they stood
for, except that `x` may be left standing where it is free in what is substituted. A new
name is used nowhere, and none is put in for `x` where there is no parameter. -/
structure Narrowed (used : List String) (s : Substitution) (σ : Inlining) (x : String)
    (p : Option Ty) (z : String) (inner : Substitution) (σ' : Inlining) : Prop where
  before : σ.Before σ'
  covered : s.Covered used σ.nextName → inner.Covered used σ'.nextName
  lookup : ∀ y, y ≠ z → inner.lookup y = none →
    (y ≠ x ∧ s.lookup y = none) ∨ s.mentions y = true
  mentions : ∀ y, y ≠ z → inner.mentions y = true → s.mentions y = true
  hidden : ∀ y, ∀ e ∈ inner, e.2.Hides y → ∃ e ∈ s, e.2.Hides y
  thunk : p = none → s.Covered used σ.nextName → inner.mentions z = false ∧ (z ∈ used → z = x)

theorem narrowed_same (σ : Inlining) (h : (s.without x).mentions x = false) (p : Option Ty) :
    Narrowed used s σ x p x (s.without x) σ where
  before := .refl σ
  covered hs y hy := hs y (mentions_of_without hy)
  lookup _ hne hy := .inl ⟨hne, lookup_of_lookup_without hy hne⟩
  mentions _ _ hy := mentions_of_without hy
  hidden _ e he hy := ⟨e, mem_of_mem_without he, hy⟩
  thunk _ _ := ⟨h, fun _ => rfl⟩

theorem narrowed_fresh {σ : Inlining} {k : Nat} (hk : σ.nextName ≤ k) (hnew : freshName k ∉ used)
    (h : (s.without x).mentions x = true) (p : Option Ty) :
    Narrowed used s σ x p (freshName k) (s.renamed x p (freshName k))
      ⟨k + 1, σ.rewrites + 1⟩ where
  before := ⟨Nat.le_succ_of_le hk, Nat.le_succ _⟩
  covered hs y hy := by
    obtain ⟨e, he, hy⟩ := mentions_iff.mp hy
    rcases mem_renamed he with ⟨type, -, rfl⟩ | he
    · obtain rfl := mem_freeNames_reference.mp hy
      exact .inr ⟨k, Nat.lt_succ_self k, rfl⟩
    · exact (hs y (mentions_iff.mpr ⟨e, he, hy⟩)).mono (Nat.le_succ_of_le hk)
  lookup y _ hy := by
    by_cases hne : y = x
    · exact .inr (hne ▸ mentions_of_without h)
    · rw [lookup_renamed_of_ne hne] at hy
      exact .inl ⟨hne, hy⟩
  mentions y hne hy := by
    obtain ⟨e, he, hy⟩ := mentions_iff.mp hy
    rcases mem_renamed he with ⟨type, -, rfl⟩ | he
    · exact absurd (mem_freeNames_reference.mp hy) hne
    · exact mentions_iff.mpr ⟨e, he, hy⟩
  hidden y e he hy := by
    rcases mem_renamed he with ⟨type, -, rfl⟩ | he
    · exact absurd hy not_hides_reference
    · exact ⟨e, he, hy⟩
  thunk hp hs := by
    subst hp
    refine ⟨?_, fun hmem => absurd hmem hnew⟩
    rw [← Bool.not_eq_true]
    intro hmentions
    exact not_named_fresh hk hnew (hs _ (mentions_of_without hmentions))

theorem narrowed_of_yields {σ σ' : Inlining} {p : Option Ty} {z : String} {inner : Substitution}
    (h : Yields (enterLambda used s x p) σ (z, inner) σ') :
    Narrowed used s σ x p z inner σ' := by
  cases hcapture : (s.without x).mentions x with
  | false =>
    obtain ⟨hpair, rfl⟩ := (enterLambda_same hcapture σ p).unique h
    cases hpair
    exact narrowed_same σ hcapture p
  | true =>
    obtain ⟨hle, hnew⟩ := nextFresh_spec used σ.nextName
    obtain ⟨hpair, rfl⟩ := (enterLambda_fresh hcapture σ p).unique h
    cases hpair
    exact narrowed_fresh hle hnew hcapture p

end Substitution

open Substitution

section

variable {used : List String} {s : Substitution} {σ σ' : Inlining} {t t' : Term}

/-- Inlining the term replaces it, where it succeeds. -/
def InlinesScoped (used : List String) (t : Term) : Prop :=
  ∀ (s : Substitution) (σ : Inlining) (t' : Term) (σ' : Inlining),
    s.Covered used σ.nextName → t.names ⊆ used → Yields (inline used s t) σ t' σ' →
      σ.Before σ' ∧ Replaced s t t'

theorem replaced_of_withChildren {parts : List Term} (ht : t.Plain)
    (h : t.withChildren parts = .ok t') (hparts : List.Forall₂ (Replaced s) t.children parts) :
    Replaced s t t' := by
  have hover : Over (fun _ => Replaced s) (fun _ => none) t t' := over_of_withChildren h hparts
  constructor
  · intro y hy
    obtain ⟨c', hc', hy⟩ := (ht.over hover).mem_freeNames.mp hy
    obtain ⟨c, hc, hreplaced⟩ := exists_mem_of_forall₂ hover.forall₂_children hc'
    rw [ht.mem_freeNames]
    exact (hreplaced.free y hy).imp_left fun hy => ⟨⟨c, hc, hy.1⟩, hy.2⟩
  · intro y hy
    obtain ⟨c', hc', hy⟩ := (ht.over hover).hides.mp hy
    obtain ⟨c, hc, hreplaced⟩ := exists_mem_of_forall₂ hover.forall₂_children hc'
    exact (hreplaced.hidden y hy).imp_left (.inside hc)

theorem Plain.names_subset (ht : t.Plain) {c : Term} (hc : c ∈ t.children) :
    c.names ⊆ t.names := by
  cases t with
  | call f a =>
    cases a with
    | none =>
      obtain rfl := List.mem_singleton.mp hc
      rw [names]
      exact List.Subset.refl _
    | some a =>
      rw [names]
      rcases List.mem_cons.mp hc with rfl | hc
      · exact List.subset_append_left _ _
      · obtain rfl := List.mem_singleton.mp hc
        exact List.subset_append_right _ _
  | selection u index =>
    obtain rfl := List.mem_singleton.mp hc
    rw [names]
    exact List.Subset.refl _
  | struct es =>
    induction es with
    | nil => cases hc
    | cons e es ih =>
      rw [names_struct_cons]
      rcases List.mem_cons.mp hc with rfl | hc
      · exact List.subset_append_left _ _
      · exact List.Subset.trans (ih ht hc) (List.subset_append_right _ _)
  | _ => exact ht.elim

theorem mapM_inline_scoped {ts parts : List Term} (hts : ∀ u ∈ ts, InlinesScoped used u)
    (hs : s.Covered used σ.nextName) (hused : ∀ u ∈ ts, u.names ⊆ used)
    (h : Yields (ts.mapM (inline used s)) σ parts σ') :
    σ.Before σ' ∧ List.Forall₂ (Replaced s) ts parts := by
  induction ts generalizing σ parts with
  | nil =>
    rw [List.mapM_nil] at h
    obtain ⟨rfl, rfl⟩ := yields_pure.mp h
    exact ⟨.refl σ, .nil⟩
  | cons t ts ih =>
    rw [List.forall_mem_cons] at hts hused
    rw [List.mapM_cons] at h
    obtain ⟨t', σ₁, ht, h⟩ := yields_bind.mp h
    obtain ⟨rest, σ₂, hrest, h⟩ := yields_bind.mp h
    obtain ⟨rfl, rfl⟩ := yields_pure.mp h
    obtain ⟨hbefore, hreplaced⟩ := hts.1 s σ t' σ₁ hs hused.1 ht
    obtain ⟨hbefore', hall⟩ := ih hts.2 (hs.mono hbefore.nextName) hused.2 hrest
    exact ⟨hbefore.trans hbefore', .cons hreplaced hall⟩

theorem inlinesScoped_of_plain (ht : t.Plain) (h : ∀ c ∈ t.children, InlinesScoped used c) :
    InlinesScoped used t := by
  intro s σ t' σ' hs hused hrun
  rw [inline_of_plain ht] at hrun
  obtain ⟨parts, σ₁, hparts, hrun⟩ := yields_bind.mp hrun
  obtain ⟨hnew, rfl⟩ := yields_rebuild_iff.mp hrun
  obtain ⟨hbefore, hall⟩ :=
    mapM_inline_scoped h hs (fun c hc => List.Subset.trans (ht.names_subset hc) hused) hparts
  exact ⟨hbefore, replaced_of_withChildren ht hnew hall⟩

/-- A term without free names that is left as it is. -/
theorem inlinesScoped_of_closed (hinline : ∀ s, inline used s t = pure t)
    (hfree : t.freeNames = []) : InlinesScoped used t := by
  intro s σ t' σ' _ _ h
  rw [hinline] at h
  obtain ⟨rfl, rfl⟩ := yields_pure.mp h
  exact ⟨.refl σ, by simp [hfree], fun y hy => .inl hy⟩

/-- A lambda is renamed where its name would capture one in what is substituted; one
without a parameter is not renamed in its result. -/
theorem inlinesScoped_lambda {x : String} {p : Option Ty} {r : Term}
    (hr : InlinesScoped used r) : InlinesScoped used (.lambda x p r) := by
  intro s σ t' σ' hs hused h
  rw [names, List.cons_subset] at hused
  rw [inline] at h
  obtain ⟨⟨z, inner⟩, σ₁, henter, h⟩ := yields_bind.mp h
  obtain ⟨r', σ₂, hrun, h⟩ := yields_bind.mp h
  obtain ⟨rfl, rfl⟩ := yields_pure.mp h
  have hnarrowed := narrowed_of_yields henter
  obtain ⟨hbefore, hreplaced⟩ := hr inner σ₁ r' σ₂ (hnarrowed.covered hs) hused.2 hrun
  refine ⟨hnarrowed.before.trans hbefore, fun y hy => ?_, fun y hy => ?_⟩
  · obtain ⟨hne, hy⟩ := mem_freeNames_lambda.mp hy
    rcases hreplaced.free y hy with ⟨hy, hlookup⟩ | hmentions
    · rw [mem_freeNames_lambda]
      exact (hnarrowed.lookup y hne hlookup).imp_left fun h => ⟨⟨h.1, hy⟩, h.2⟩
    · exact .inr (hnarrowed.mentions y hne hmentions)
  · cases hy with
    | here hz =>
      -- nothing that is substituted mentions the name, so it was hidden before
      obtain ⟨hfresh, hsame⟩ := hnarrowed.thunk rfl hs
      rcases hreplaced.free z hz with ⟨hz, -⟩ | hmentions
      · obtain rfl := hsame (hused.2 (mem_names_of_mem_freeNames hz))
        exact .inl (.here hz)
      · rw [hfresh] at hmentions
        cases hmentions
    | inside hc hy =>
      obtain rfl := List.mem_singleton.mp hc
      rcases hreplaced.hidden y hy with hy | ⟨e, he, hy⟩
      · exact .inl (.inside List.mem_cons_self hy)
      · exact .inr (hnarrowed.hidden y e he hy)

theorem inlinesScoped_block_nil {r : Term} (hr : InlinesScoped used r) :
    InlinesScoped used (.block [] r) := by
  intro s σ t' σ' hs hused h
  rw [inline_block_nil] at h
  obtain ⟨_, σ₁, hcount, h⟩ := yields_bind.mp h
  cases hcount
  have hused' : r.names ⊆ used := by simpa [names, namesInLocals] using hused
  obtain ⟨hbefore, hreplaced⟩ := hr s ⟨σ.nextName, σ.rewrites + 1⟩ t' σ' hs hused' h
  refine ⟨⟨hbefore.nextName, Nat.le_of_succ_le hbefore.rewrites⟩, fun y hy => ?_, fun y hy => ?_⟩
  · rw [mem_freeNames_block_nil]
    exact hreplaced.free y hy
  · rw [hides_block_nil]
    exact hreplaced.hidden y hy

theorem inlinesScoped_block_cons {x : String} {u r : Term} {ls : List (String × Term)}
    (hu : InlinesScoped used u) (hr : InlinesScoped used (.block ls r)) :
    InlinesScoped used (.block ((x, u) :: ls) r) := by
  intro s σ t' σ' hs hused h
  rw [names_block_cons, List.cons_subset, List.append_subset] at hused
  rw [inline_block_cons] at h
  obtain ⟨u', σ₁, hrun, h⟩ := yields_bind.mp h
  obtain ⟨hbefore, hreplaced⟩ := hu s σ u' σ₁ hs hused.2.1 hrun
  have hs₁ := (hs.mono hbefore.nextName).extend hreplaced hused.2.1 (x := x)
  obtain ⟨hbefore', hreplaced'⟩ := hr _ σ₁ t' σ' hs₁ hused.2.2 h
  refine ⟨hbefore.trans hbefore', fun y hy => ?_, fun y hy => ?_⟩
  · rw [mem_freeNames_block_cons]
    rcases hreplaced'.free y hy with ⟨hy, hlookup⟩ | hmentions
    · obtain ⟨hne, hlookup⟩ := lookup_extend_eq_none hlookup
      exact .inl ⟨.inr ⟨hne, hy⟩, hlookup⟩
    · rcases mentions_extend hmentions with hy | hmentions
      · exact (hreplaced.free y hy).imp_left fun h => ⟨.inl h.1, h.2⟩
      · exact .inr hmentions
  · rw [hides_block_cons]
    rcases hreplaced'.hidden y hy with hy | ⟨e, he, hy⟩
    · exact .inl (.inr hy)
    · rcases List.mem_cons.mp he with rfl | he
      · exact (hreplaced.hidden y hy).imp_left .inl
      · exact .inr ⟨e, mem_of_mem_without he, hy⟩

theorem inlinesScoped (used : List String) (t : Term) : InlinesScoped used t := by
  induction t using induct with
  | reference x type =>
    intro s σ t' σ' hs _ h
    rw [inline] at h
    obtain ⟨rfl, rfl⟩ := yields_pure.mp h
    refine ⟨.refl σ, ?_⟩
    cases hlookup : s.lookup x with
    | none =>
      refine ⟨fun y hy => .inl ⟨hy, ?_⟩, fun y hy => .inl hy⟩
      obtain rfl := mem_freeNames_reference.mp hy
      exact hlookup
    | some u =>
      exact ⟨fun y hy => .inr (mentions_of_lookup hlookup hy),
        fun y hy => .inr ⟨(x, u), mem_of_lookup hlookup, hy⟩⟩
  | lambda x p r hr => exact inlinesScoped_lambda hr
  | thunkCall f hf => exact inlinesScoped_of_plain trivial (by simpa [children] using hf)
  | call f a hf ha =>
    exact inlinesScoped_of_plain trivial (by simpa [children] using ⟨hf, ha⟩)
  | selection u index hu => exact inlinesScoped_of_plain trivial (by simpa [children] using hu)
  | struct es hes => exact inlinesScoped_of_plain trivial (List.forall_mem_map.mpr hes)
  | block ls r hls hr =>
    induction ls with
    | nil => exact inlinesScoped_block_nil hr
    | cons l ls ih =>
      rw [List.forall_mem_cons] at hls
      exact inlinesScoped_block_cons hls.1 (ih hls.2)
  | compiled u => exact inlinesScoped_of_closed (fun _ => by rw [inline]) rfl
  | intrinsic uri type => exact inlinesScoped_of_closed (fun _ => by rw [inline]) rfl

end

theorem inlineBlocks_scoped {exposed : Prop} {t t' : Term} {n : Nat}
    (h : t.inlineBlocks = .ok (t', n)) : Scoped exposed t t' := by
  obtain ⟨σ, hrun, -⟩ := inlineBlocks_eq_ok_iff.mp h
  have hempty : Substitution.Covered t.names 0 [] := nofun
  obtain ⟨-, hreplaced⟩ := inlinesScoped t.names t [] .start t' σ hempty (List.Subset.refl _) hrun
  refine fun _ => ⟨(inlineBlocks_unblocked h).mono fun _ h => h.1, fun y hy => .inl ?_,
    fun y hy => ?_⟩
  · rcases hreplaced.free y hy with ⟨hy, -⟩ | hmentions
    · exact hy
    · cases hmentions
  · rcases hreplaced.hidden y hy with hy | ⟨e, he, -⟩
    · exact hy
    · cases he

/-- References of the term `t` and structs of them. -/
inductive RefersTo (t : Term) : Term → Prop
  | reference {x : String} {type : Ty} : x ∈ t.freeNames → RefersTo t (.reference x type)
  | tuple {ts : List Term} : (∀ u ∈ ts, ∃ x type, u = .reference x type ∧ x ∈ t.freeNames) →
      RefersTo t (.tuple ts)

theorem RefersTo.free {t a : Term} (h : RefersTo t a) {y : String} (hy : y ∈ a.freeNames) :
    y ∈ t.freeNames := by
  cases h with
  | reference hx => exact mem_freeNames_reference.mp hy ▸ hx
  | @tuple ts hts =>
    obtain ⟨e, he, hy⟩ := mem_freeNames_struct.mp hy
    obtain ⟨u, hu, rfl⟩ := List.mem_map.mp he
    obtain ⟨x, type, rfl, hx⟩ := hts u hu
    exact mem_freeNames_reference.mp hy ▸ hx

theorem RefersTo.not_hides {t a : Term} (h : RefersTo t a) {y : String} : ¬ a.Hides y := by
  cases h with
  | reference hx => exact not_hides_reference
  | @tuple ts hts =>
    intro hy
    have hplain : (Term.tuple ts).Plain := trivial
    obtain ⟨c, hc, hy⟩ := hplain.hides.mp hy
    obtain ⟨e, he, rfl⟩ := List.mem_map.mp hc
    obtain ⟨u, hu, rfl⟩ := List.mem_map.mp he
    obtain ⟨x, type, rfl, -⟩ := hts u hu
    exact not_hides_reference hy

theorem RefersTo.constructed {t a : Term} (h : RefersTo t a) : a.Constructed := by
  cases h with
  | reference hx => exact everywhere_reference trivial
  | @tuple ts hts =>
    refine .node trivial fun c hc => ?_
    obtain ⟨e, he, rfl⟩ := List.mem_map.mp hc
    obtain ⟨u, hu, rfl⟩ := List.mem_map.mp he
    obtain ⟨x, type, rfl, -⟩ := hts u hu
    exact everywhere_reference trivial

/-- A unit in place of a term. -/
theorem compiled_scoped (exposed : Prop) (t : Term) (u : CompiledUnit) :
    (Term.compiled u).Constructed ∧ Confined exposed t (.compiled u) :=
  ⟨.node trivial (by simp [children]), by simp [freeNames, freeFrom],
    fun _ hy => absurd hy not_hides_compiled⟩

/-- A call of a graph on references of the term in place of it. -/
theorem callGraph_scoped {exposed : Prop} {t t' : Term} {g : Graph} {a : Option Term}
    (h : callGraph g a = .ok t') (ha : ∀ b ∈ a, RefersTo t b) :
    t'.Constructed ∧ Confined exposed t t' := by
  obtain ⟨u, rfl, hfits⟩ := exists_of_callGraph h
  have hplain : (Term.call (.compiled u) a).Plain := trivial
  have hunit := compiled_scoped exposed t u
  refine ⟨.node hfits ?_, fun y hy => .inl ?_, fun y hy => ?_⟩
  · exact List.forall_mem_cons.mpr
      ⟨hunit.1, fun b hb => (ha b (Option.mem_toList.mp hb)).constructed⟩
  · obtain ⟨c, hc, hy⟩ := hplain.mem_freeNames.mp hy
    rcases List.mem_cons.mp hc with rfl | hb
    · simp [freeNames, freeFrom] at hy
    · exact (ha c (Option.mem_toList.mp hb)).free hy
  · obtain ⟨c, hc, hy⟩ := hplain.hides.mp hy
    rcases List.mem_cons.mp hc with rfl | hb
    · exact absurd hy not_hides_compiled
    · exact absurd hy (ha c (Option.mem_toList.mp hb)).not_hides

theorem exists_reference_of_calledGraph? {t c : Term} {u : CompiledUnit} {a : Option Term}
    (h : c.calledGraph? = some (u, a)) (hc : ∀ y ∈ c.freeNames, y ∈ t.freeNames) :
    ∀ b ∈ a, ∃ x type, b = .reference x type ∧ x ∈ t.freeNames := by
  obtain ⟨rfl, href⟩ := calledGraph?_eq_some h
  intro b hb
  obtain rfl := Option.mem_def.mp hb
  obtain ⟨x, type, rfl⟩ := href b rfl
  refine ⟨x, type, rfl, hc x ?_⟩
  exact mem_freeNames_call.mpr (.inr (mem_freeNames_reference.mpr rfl))

/-- Every argument of the parts is a reference of the term. -/
def PartsReferTo (t : Term) (parts : List (Label × Graph × Option Term)) : Prop :=
  ∀ part ∈ parts, ∀ b ∈ part.2.2, ∃ x type, b = .reference x type ∧ x ∈ t.freeNames

theorem partsReferTo_of_calledElements {t : Term} {es : List (Label × Term)}
    (hes : ∀ e ∈ es, ∀ y ∈ e.2.freeNames, y ∈ t.freeNames)
    {parts : List (Label × Graph × Option Term)} (h : calledElements es = .ok (some parts)) :
    PartsReferTo t parts := by
  induction es generalizing parts with
  | nil =>
    cases h
    exact List.forall_mem_nil _
  | cons e es ih =>
    obtain ⟨label, c⟩ := e
    rw [List.forall_mem_cons] at hes
    rw [calledElements] at h
    cases hcalled : c.calledGraph? with
    | none =>
      rw [hcalled] at h
      cases h
    | some called =>
      obtain ⟨u, a⟩ := called
      rw [hcalled] at h
      obtain ⟨g, -, h⟩ := bind_eq_ok.mp h
      obtain ⟨rest, hrest, h⟩ := bind_eq_ok.mp h
      cases rest with
      | none => cases h
      | some rest =>
        cases h
        exact List.forall_mem_cons.mpr
          ⟨exists_reference_of_calledGraph? hcalled hes.1, ih hes.2 hrest⟩

/-- What a pattern puts in place of `t`: a unit, or a call of a graph on nothing, on a
reference of `t` or, if `t` is a struct, on a struct of such references. -/
inductive Replacement (t : Term) : Term → Prop
  | unit (u : CompiledUnit) : Replacement t (.compiled u)
  | called {g : Graph} {a : Option Term} {t' : Term} : callGraph g a = .ok t' →
      (∀ b ∈ a, ∃ x type, b = .reference x type ∧ x ∈ t.freeNames) → Replacement t t'
  | gathered {es : List (Label × Term)} {g : Graph} {refs : List Term} {t' : Term} :
      t = .struct es → callGraph g (some (.tuple refs)) = .ok t' → refs ≠ [] →
      (∀ b ∈ refs, ∃ x type, b = .reference x type ∧ x ∈ t.freeNames) → Replacement t t'

theorem Replacement.scoped {exposed : Prop} {t t' : Term} (h : Replacement t t') :
    t'.Constructed ∧ Confined exposed t t' := by
  cases h with
  | unit u => exact compiled_scoped exposed t u
  | called hcall hrefs =>
    refine callGraph_scoped hcall fun b hb => ?_
    obtain ⟨x, type, rfl, hx⟩ := hrefs b hb
    exact .reference hx
  | gathered _ hcall _ hrefs =>
    refine callGraph_scoped hcall fun b hb => ?_
    cases hb
    exact .tuple hrefs

theorem replacement_of_fuseElements {es : List (Label × Term)} {t' : Term}
    {parts : List (Label × Graph × Option Term)} (hparts : PartsReferTo (.struct es) parts)
    (h : fuseElements parts = .ok t') : Replacement (.struct es) t' := by
  rw [Pattern.fuseElements_eq] at h
  cases hshared : parts.findSome? fun part => part.2.2 with
  | none =>
    rw [hshared] at h
    obtain ⟨fused, -, h⟩ := bind_eq_ok.mp h
    exact .called h nofun
  | some shared =>
    rw [hshared] at h
    obtain ⟨lifted, hlifted, h⟩ := bind_eq_ok.mp h
    obtain ⟨fused, -, h⟩ := bind_eq_ok.mp h
    obtain ⟨first, hfirst, heq⟩ := List.exists_of_findSome?_eq_some hshared
    rw [mapM_eq_ok_iff] at hlifted
    refine .gathered rfl h (fun hnil => ?_) fun b hb => ?_
    · -- there is an element with an argument
      rw [List.map_eq_nil_iff] at hnil
      subst hnil
      rw [List.forall₂_nil_right_iff.mp hlifted] at hfirst
      cases hfirst
    · obtain ⟨q, hq, rfl⟩ := List.mem_map.mp hb
      obtain ⟨⟨label, g, a⟩, hmem, hq⟩ := exists_mem_of_forall₂ hlifted hq
      cases a with
      | none =>
        obtain ⟨g', -, hq⟩ := bind_eq_ok.mp hq
        cases hq
        exact hparts first hfirst shared heq
      | some a =>
        cases hq
        exact hparts _ hmem a rfl

end Term

open Term in
/-- One case for each pattern: where it matches there is room for a match. -/
theorem Pattern.rewrite?_replacement {p : Pattern} {t t' : Term}
    (h : p.rewrite? t = .ok (some t')) : 0 < t.fusionBound ∧ Replacement t t' := by
  unfold Pattern.rewrite? at h
  split at h
  · split at h
    · split at h
      · cases h
        exact ⟨Nat.one_pos, .unit _⟩
      · cases h
    · cases h
  · obtain ⟨empty, -, h⟩ := bind_eq_ok.mp h
    obtain ⟨c, hc, h⟩ := bind_eq_ok.mp h
    cases h
    exact ⟨Nat.two_pos, .called hc fun b hb => by cases hb⟩
  · rename_i es _
    obtain ⟨found, hfound, h⟩ := bind_eq_ok.mp h
    cases found with
    | none => cases h
    | some parts =>
      obtain ⟨c, hc, h⟩ := bind_eq_ok.mp h
      cases h
      have hparts : PartsReferTo (.struct es) parts := partsReferTo_of_calledElements
        (fun e he y hy => mem_freeNames_struct.mpr ⟨e, he, hy⟩) hfound
      exact ⟨Nat.two_pos, replacement_of_fuseElements hparts hc⟩
  · split at h
    · cases h
    · rename_i hcalled
      obtain ⟨g, -, h⟩ := bind_eq_ok.mp h
      obtain ⟨projected, -, h⟩ := bind_eq_ok.mp h
      obtain ⟨c, hc, h⟩ := bind_eq_ok.mp h
      cases h
      exact ⟨Nat.one_pos, .called hc (exists_reference_of_calledGraph? hcalled fun y hy =>
        mem_freeNames_selection.mpr hy)⟩
  · split at h
    · cases h
    · rename_i hcalled
      obtain ⟨g, -, h⟩ := bind_eq_ok.mp h
      obtain ⟨g', -, h⟩ := bind_eq_ok.mp h
      obtain ⟨composed, -, h⟩ := bind_eq_ok.mp h
      obtain ⟨c, hc, h⟩ := bind_eq_ok.mp h
      cases h
      obtain ⟨rfl, -⟩ := calledGraph?_eq_some hcalled
      exact ⟨Nat.one_pos, .called hc (exists_reference_of_calledGraph? hcalled fun y hy =>
        mem_freeNames_call.mpr (.inr hy))⟩
  · split at h
    · cases h
    · rename_i shared hshared
      obtain ⟨replicate, -, h⟩ := bind_eq_ok.mp h
      obtain ⟨g, -, h⟩ := bind_eq_ok.mp h
      obtain ⟨composed, -, h⟩ := bind_eq_ok.mp h
      obtain ⟨c, hc, h⟩ := bind_eq_ok.mp h
      cases h
      obtain ⟨x, type, rfl, ⟨label, es', rfl⟩, -⟩ := replicatedReference?_eq_some hshared
      refine ⟨Nat.one_pos, .called hc fun b hb => ?_⟩
      cases hb
      refine ⟨x, type, rfl, mem_freeNames_call.mpr (.inr ?_)⟩
      exact mem_freeNames_struct_cons.mpr (.inl (mem_freeNames_reference.mpr rfl))
  · split at h
    · split at h
      · cases h
        exact ⟨Nat.one_pos, .unit _⟩
      · obtain ⟨g, -, h⟩ := bind_eq_ok.mp h
        obtain ⟨lifted, -, h⟩ := bind_eq_ok.mp h
        obtain ⟨c, hc, h⟩ := bind_eq_ok.mp h
        cases h
        obtain ⟨v, -, rfl⟩ := ofGraph_eq_ok_iff.mp (mapError_eq_ok.mp hc)
        exact ⟨Nat.one_pos, .unit v⟩
    · cases h
  · cases h

theorem Pattern.rewrite?_of_firstMatch? {p : Pattern} {t t' : Term} {ps : List Pattern}
    (h : Pattern.firstMatch? t ps = .ok (some (p, t'))) : p.rewrite? t = .ok (some t') := by
  induction ps with
  | nil => cases h
  | cons q ps ih =>
    rw [Pattern.firstMatch?] at h
    obtain ⟨found, hfound, h⟩ := bind_eq_ok.mp h
    cases found with
    | none => exact ih h
    | some u =>
      cases h
      exact hfound

namespace Term

/-- Repeating patterns at a node keeps it scoped. -/
theorem fuseWithin_scoped {exposed : Prop} {t current : Term} (type : Ty) (bound : Nat)
    (changed : Bool) (h : Scoped exposed t current) :
    Ensures (fuseWithin type bound current changed)
      (fun p => Scoped exposed t p.1 ∧ (changed = true → p.2 = true) ∧
        (p.2 = false → p.1 = current)) (fun _ => True) := by
  induction bound generalizing current changed with
  | zero => exact ensures_pure ⟨h, id, fun _ => rfl⟩
  | succ bound ih =>
    refine Ensures.bind (P := fun found => ∀ p next, found = some (p, next) →
      Scoped exposed t next) (ensures_mk_pure ?_ fun _ _ => trivial) fun found hfound => ?_
    · intro found hfound p next heq
      subst heq
      exact h.trans fun _ =>
        (Pattern.rewrite?_replacement (Pattern.rewrite?_of_firstMatch? hfound)).2.scoped
    · cases found with
      | none => exact ensures_pure ⟨h, id, fun _ => rfl⟩
      | some found =>
        obtain ⟨p, next⟩ := found
        dsimp only
        split
        · exact fun _ => trivial
        · refine ensures_modify.bind fun _ _ => ?_
          refine (ih true (hfound p next rfl)).mono (fun q hq => ⟨hq.1, fun _ => hq.2.1 rfl,
            fun hfalse => ?_⟩) fun _ h => h
          rw [hq.2.1 rfl] at hfalse
          cases hfalse

theorem fuseAll_scoped (exposed : Prop) (t : Term) :
    Ensures (fuseAll t) (fun p => Scoped exposed t p.1) (fun _ => True) := by
  refine fuseAll_of_transform (Q := Scoped exposed t)
    ((transform_ensures (Γ := fun _ => none) (fun _ => trivial) ?_ t).mono (fun _ hp => hp.1)
      fun _ h => h)
  intro t t' hover hfits
  refine fusingStep_ensures ?_
  refine (fuseWithin_scoped t'.type t'.fusionBound false (hover.scoped hfits)).mono
    (fun p hp => ⟨hp.1, hp.2.2⟩) fun _ h => h

end Term

open Term

/-- Only replacing called lambdas can bring hidden names into view. -/
theorem Pass.run_scoped (pass : Pass) (t : Term) :
    Ensures (pass.run t) (fun p => Scoped (pass = .calledLambdasToBlocks) t p.1)
      (fun _ => True) := by
  cases pass with
  | calledLambdasToBlocks =>
    refine ensures_mk_pure (fun p hp => ?_) fun _ _ => trivial
    refine rewriteAll_scoped (fun u u' hu h => ?_) hp
    have hconfined := calledLambdaToBlock?_scoped hu (Except.ok.inj h)
    exact ⟨hconfined.1, hconfined.2.mono fun _ => rfl⟩
  | inlineBlocks =>
    exact ensures_mk_pure (fun p hp => inlineBlocks_scoped hp) fun _ _ => trivial
  | selectionsFromStructs =>
    refine ensures_mk_pure (fun p hp => ?_) fun _ _ => trivial
    exact rewriteAll_scoped (fun u u' hu h => elementOfStruct?_scoped hu (Except.ok.inj h)) hp
  | identitiesAtLeaves =>
    refine ensures_mk_pure (fun p hp => ?_) fun _ _ => trivial
    exact rewriteAll_scoped (fun u u' hu h => wrapChildren?_scoped hu h) hp
  | fusion => exact fuseAll_scoped _ t

theorem Step.runAll_scoped {exposed : Prop} (counted : Bool) (steps : List Step) (t : Term)
    (hexposed : .calledLambdasToBlocks ∈ Step.passesOf steps → exposed) :
    Ensures (Step.runAll counted steps t) (fun p => Scoped exposed t p.1) (fun _ => True) := by
  refine runAll_ensures_of_passes steps (P := Scoped exposed t) (fun pass hpass u hu => ?_)
    fun ht => ⟨ht, .refl t⟩
  refine (pass.run_scoped u).mono (fun p hp => hu.trans fun hu' => ?_) fun _ h => h
  obtain ⟨hp', hconfined⟩ := hp hu'
  exact ⟨hp', hconfined.mono fun heq => hexposed (heq ▸ hpass)⟩

theorem Term.lower_scoped (s : Settings) (t : Term) :
    Ensures (Term.lower s (some t)) (fun p => Scoped True t p.1) (fun _ => True) := by
  have hnormal : Ensures ((Pipeline.normalization s).run t) (fun p => Scoped True t p.1)
      (fun _ => True) := Step.runAll_scoped _ _ t fun _ => trivial
  refine hnormal.bind fun p hp => (fuseAll_scoped True p.1).bind fun q hq => ?_
  dsimp only
  split
  · exact ensures_modify.bind fun _ _ => ensures_pure (hp.trans hq)
  · exact ensures_pure (hp.trans hq)

/-- No pass invents a free reference, and so no list of steps and no lowering does: what
is free in the outcome was free in the term, or a called lambda without a parameter may
have hidden it there. -/
theorem Step.runAll_freeReferences {t : Term} (ht : t.Constructed) :
    (∀ pass : Pass, Ensures (pass.run t)
      (fun p => ∀ y ∈ p.1.freeReferences,
        y ∈ t.freeReferences ∨ pass = .calledLambdasToBlocks ∧ t.Hides y) (fun _ => True)) ∧
    (∀ (counted : Bool) (steps : List Step), Ensures (Step.runAll counted steps t)
      (fun p => ∀ y ∈ p.1.freeReferences, y ∈ t.freeReferences ∨
        .calledLambdasToBlocks ∈ Step.passesOf steps ∧ t.Hides y) (fun _ => True)) ∧
    ∀ s : Settings, Ensures (Term.lower s (some t))
      (fun p => ∀ y ∈ p.1.freeReferences, y ∈ t.freeReferences ∨ t.Hides y)
      (fun _ => True) := by
  have hfree : ∀ {exposed : Prop} {t' : Term}, Scoped exposed t t' →
      ∀ y ∈ t'.freeReferences, y ∈ t.freeReferences ∨ exposed ∧ t.Hides y := by
    intro exposed t' h y hy
    rw [mem_freeReferences] at hy ⊢
    exact (h ht).2.free y hy
  refine ⟨fun pass => ?_, fun counted steps => ?_, fun s => ?_⟩
  · exact (pass.run_scoped t).mono (fun _ h => hfree h) fun _ h => h
  · exact (Step.runAll_scoped counted steps t id).mono (fun _ h => hfree h) fun _ h => h
  · exact (t.lower_scoped s).mono (fun _ h y hy => (hfree h y hy).imp_right And.right) fun _ h => h

/-- `(let y=x in (x -> y))`, where the inner lambda has a name to avoid. -/
theorem Step.runAll_freeReferences_capture :
    Ensures (Pass.inlineBlocks.run (.block [("y", .reference "x" (.struct []))]
        (.lambda "x" none (.reference "y" (.struct [])))))
      (fun p => ∀ y ∈ p.1.freeReferences,
        y ∈ (Term.block [("y", .reference "x" (.struct []))]
          (.lambda "x" none (.reference "y" (.struct [])))).freeReferences) (fun _ => True) := by
  have hlambda : (Term.lambda "x" none (.reference "y" (.struct []))).Constructed :=
    .node trivial (List.forall_mem_singleton.mpr (everywhere_reference trivial))
  have ht : (Term.block [("y", .reference "x" (.struct []))]
      (.lambda "x" none (.reference "y" (.struct [])))).Constructed :=
    .node trivial (List.forall_mem_cons.mpr ⟨everywhere_reference trivial,
      List.forall_mem_singleton.mpr hlambda⟩)
  have h := (Step.runAll_freeReferences ht).1 .inlineBlocks
  exact h.mono (fun p hp y hy => (hp y hy).resolve_right (by simp)) fun _ h => h

/-- `( -> x)()` becomes the block `(let in x)`, where the name `x` of the lambda is free. -/
theorem Step.not_freeReferences_subset : ¬ ∀ (t : Term), t.Constructed → ∀ pass : Pass,
    Ensures (pass.run t) (fun p => ∀ y ∈ p.1.freeReferences, y ∈ t.freeReferences)
      (fun _ => True) := by
  intro h
  have hlambda : (Term.lambda "x" none (.reference "x" (.struct []))).Constructed :=
    .node trivial (List.forall_mem_singleton.mpr (everywhere_reference trivial))
  have ht : (Term.call (.lambda "x" none (.reference "x" (.struct []))) none).Constructed :=
    .node rfl (List.forall_mem_singleton.mpr hlambda)
  have hrun : Yields (Pass.calledLambdasToBlocks.run
      (.call (.lambda "x" none (.reference "x" (.struct []))) none)) []
      (.block [] (.reference "x" (.struct [])), 1) [] := rfl
  have hmem := (h _ ht .calledLambdasToBlocks).of_yields hrun "x"
    (mem_freeReferences.mpr (mem_freeNames_block_nil.mpr (mem_freeNames_reference.mpr rfl)))
  rw [mem_freeReferences, mem_freeNames_thunkCall, mem_freeNames_lambda] at hmem
  exact hmem.1 rfl

end GraphFusion
