import GraphFusion.Proofs.Fusion.Scoping
import GraphFusion.Proofs.Terms.Alpha

/-!
Well bound terms under rewriting. Whether a call or a selection fits depends on the
types of its parts alone, so a node that fits can be rebuilt over children of the same
types, and is then of the same type; it is well bound where its new children are. What
is well bound may be moved to any place that carries its free names.
-/

namespace GraphFusion

theorem Ty.eq_of_checkEquivalent {expected found : Ty} {u : Unit}
    (h : expected.checkEquivalent found = .ok u) : expected = found := by
  unfold checkEquivalent at h
  split at h
  · assumption
  · cases h

namespace Term

section

variable {C D : Carries} {t t' : Term} {x : String}

theorem Carries.bind_of_forall {P : String → Prop}
    (h : ∀ y, y ≠ x → P y → ∀ type, C y type → D y type) (p : Option Ty) :
    ∀ y, P y → ∀ type, C.bind x p y type → D.bind x p y type := by
  intro y hy type hC
  by_cases hyx : y = x
  · subst hyx
    rwa [Carries.bind_self] at hC ⊢
  · rw [Carries.bind_of_ne hyx] at hC ⊢
    exact h y hyx hy type hC

/-- A name without a type carries nothing, so to bind it takes away. -/
theorem Carries.of_bind_none {y : String} {type : Ty} (h : C.bind x none y type) : C y type := by
  by_cases hyx : y = x
  · subst hyx
    cases Carries.bind_self.mp h
  · rwa [Carries.bind_of_ne hyx] at h

/-- Only what the free names carry matters. -/
theorem WellBound.congr (ht : t.WellBound C)
    (h : ∀ y ∈ t.freeNames, ∀ type, C y type → D y type) : t.WellBound D := by
  induction ht generalizing D with
  | reference hC => exact .reference (h _ (mem_freeNames_reference.mpr rfl) _ hC)
  | lambda _ ih =>
    refine .lambda (ih (Carries.bind_of_forall (fun y hne hy => ?_) _))
    exact h y (mem_freeNames_lambda.mpr ⟨hne, hy⟩)
  | thunkCall _ htype ih =>
    exact .thunkCall (ih fun y hy => h y (mem_freeNames_thunkCall.mpr hy)) htype
  | call _ _ ihf iha =>
    exact .call (ihf fun y hy => h y (mem_freeNames_call.mpr (.inl hy)))
      (iha fun y hy => h y (mem_freeNames_call.mpr (.inr hy)))
  | selection _ ih => exact .selection (ih fun y hy => h y (mem_freeNames_selection.mpr hy))
  | structNil => exact .structNil
  | structCons _ _ ih ihs =>
    exact .structCons (ih fun y hy => h y (mem_freeNames_struct_cons.mpr (.inl hy)))
      (ihs fun y hy => h y (mem_freeNames_struct_cons.mpr (.inr hy)))
  | blockNil _ ih => exact .blockNil (ih fun y hy => h y (mem_freeNames_block_nil.mpr hy))
  | blockCons _ _ ih ihs =>
    refine .blockCons (ih fun y hy => h y (mem_freeNames_block_cons.mpr (.inl hy)))
      (ihs (Carries.bind_of_forall (fun y hne hy => ?_) _))
    exact h y (mem_freeNames_block_cons.mpr (.inr ⟨hne, hy⟩))
  | compiled => exact .compiled
  | intrinsic => exact .intrinsic

theorem WellBound.mono (ht : t.WellBound C) (h : ∀ y type, C y type → D y type) :
    t.WellBound D := ht.congr fun y _ => h y

/-- Below a binder that none of its names is. -/
theorem WellBound.under_binder (ht : t.WellBound C) (hx : x ∉ t.freeNames) (p : Option Ty) :
    t.WellBound (C.bind x p) := by
  refine ht.congr fun y hy type hC => ?_
  rwa [Carries.bind_of_ne]
  rintro rfl
  exact hx hy

theorem WellBound.exists_carried (ht : t.WellBound C) {y : String} (hy : y ∈ t.freeNames) :
    ∃ type, C y type := by
  induction ht with
  | reference hC =>
    obtain rfl := mem_freeNames_reference.mp hy
    exact ⟨_, hC⟩
  | lambda _ ih =>
    obtain ⟨hne, hy⟩ := mem_freeNames_lambda.mp hy
    simpa only [Carries.bind_of_ne hne] using ih hy
  | thunkCall _ _ ih => exact ih (mem_freeNames_thunkCall.mp hy)
  | call _ _ ihf iha => exact (mem_freeNames_call.mp hy).elim ihf iha
  | selection _ ih => exact ih (mem_freeNames_selection.mp hy)
  | structNil => simp [freeNames, freeFrom, freeInElements] at hy
  | structCons _ _ ih ihs => exact (mem_freeNames_struct_cons.mp hy).elim ih ihs
  | blockNil _ ih => exact ih (mem_freeNames_block_nil.mp hy)
  | blockCons _ _ ih ihs =>
    rcases mem_freeNames_block_cons.mp hy with hy | ⟨hne, hy⟩
    · exact ih hy
    · simpa only [Carries.bind_of_ne hne] using ihs hy
  | compiled => simp [freeNames, freeFrom] at hy
  | intrinsic => simp [freeNames, freeFrom] at hy

theorem wellBound_struct {es : List (Label × Term)} :
    (Term.struct es).WellBound C ↔ ∀ e ∈ es, e.2.WellBound C := by
  induction es with
  | nil => exact ⟨fun _ => List.forall_mem_nil _, fun _ => .structNil⟩
  | cons e es ih =>
    rw [List.forall_mem_cons, ← ih]
    constructor
    · rintro (_ | _)
      exact ⟨‹_›, ‹_›⟩
    · rintro ⟨he, hes⟩
      exact .structCons he hes

end

section

variable {f a s : Term} {index : Nat}

theorem fits_thunkCall : (Term.call f none).Fits ↔ ∃ r, f.type = .function none r := by
  change f.apply none = _ ↔ _
  constructor
  · intro h
    unfold apply at h
    split at h
    · rename_i p r htype
      cases p with
      | none => exact ⟨r, htype⟩
      | some p => cases h
    · cases h
  · rintro ⟨r, h⟩
    exact apply_none h

theorem fits_call : (Term.call f (some a)).Fits ↔ ∃ r, f.type = .function (some a.type) r := by
  change f.apply (some a) = _ ↔ _
  constructor
  · intro h
    unfold apply at h
    split at h
    · rename_i p r htype
      cases p with
      | none => cases h
      | some p =>
        obtain ⟨_, hequal, -⟩ := bind_eq_ok.mp h
        exact ⟨r, by rw [htype, Ty.eq_of_checkEquivalent hequal]⟩
    · cases h
  · rintro ⟨r, h⟩
    exact apply_some h

theorem fits_selection :
    (Term.selection s index).Fits ↔ ∃ type, s.type.element? index = some type := by
  change s.select index = _ ↔ _
  constructor
  · intro h
    obtain ⟨types, htypes, h⟩ := bind_eq_ok.mp h
    have htype : s.type = .struct types := by
      unfold elementsOf at htypes
      split at htypes
      · rename_i types' htype
        rw [htype, Except.ok.inj htypes]
      · cases htypes
    split at h
    · rename_i hlt
      exact ⟨types[index].2, Ty.element?_eq_some.mpr
        ⟨types, types[index].1, htype, List.getElem?_eq_getElem hlt⟩⟩
    · cases h
  · rintro ⟨type, h⟩
    exact select_eq_ok h

end

section

variable {Γ : Context} {C D : Carries} {t t' : Term}

/-- A node that fits can be rebuilt over children of the same types. -/
theorem exists_rebuilt {parts : List Term} (ht : t.Fits)
    (h : List.Forall₂ (fun c c' => c'.type = c.type) t.children parts) :
    ∃ t', t.withChildren parts = .ok t' := by
  cases t with
  | call f a =>
    obtain ⟨f', rest, hf, hrest, rfl⟩ := List.forall₂_cons_left_iff.mp h
    cases a with
    | none =>
      obtain rfl := List.forall₂_nil_left_iff.mp hrest
      obtain ⟨r, hr⟩ := fits_thunkCall.mp ht
      exact ⟨_, apply_none (hf.trans hr)⟩
    | some a =>
      obtain ⟨a', _, ha, hnil, rfl⟩ := List.forall₂_cons_left_iff.mp hrest
      obtain rfl := List.forall₂_nil_left_iff.mp hnil
      obtain ⟨r, hr⟩ := fits_call.mp ht
      refine ⟨_, apply_some (r := r) ?_⟩
      rw [hf, hr, ha]
  | selection s index =>
    obtain ⟨s', _, hs, hnil, rfl⟩ := List.forall₂_cons_left_iff.mp h
    obtain rfl := List.forall₂_nil_left_iff.mp hnil
    obtain ⟨type, htype⟩ := fits_selection.mp ht
    have hselect : s'.type.element? index = some type := by rw [hs, htype]
    exact ⟨_, select_eq_ok hselect⟩
  | lambda x p r =>
    obtain ⟨r', _, -, hnil, rfl⟩ := List.forall₂_cons_left_iff.mp h
    obtain rfl := List.forall₂_nil_left_iff.mp hnil
    exact ⟨_, rfl⟩
  | struct es => exact ⟨_, withChildren_struct (by simpa [children] using h.length_eq.symm)⟩
  | block ls r =>
    obtain ⟨init, r', rfl, hls, -⟩ := exists_concat_of_forall₂ h
    exact ⟨_, withChildren_block (by simpa using hls.length_eq.symm)⟩
  | reference | compiled | intrinsic =>
    cases h
    exact ⟨_, rfl⟩

theorem Over.type_eq (h : Over (fun _ c c' => c'.type = c.type) Γ t t') : t'.type = t.type := by
  cases h with
  | reference | compiled | intrinsic => rfl
  | lambda hr => simp only [type, hr]
  | thunkCall hf => simp only [type, hf]
  | call hf _ => simp only [type, hf]
  | selection hs => simp only [type, hs]
  | struct hes =>
    simp only [type, Ty.struct.injEq, elementTypes_eq_map]
    exact (map_eq_map_of_forall₂ hes fun e e' h => by rw [h.1, h.2]).symm
  | block _ hr => simp only [type, hr]

/-- A plain node binds no name. -/
theorem Plain.wellBound_iff (ht : t.Plain) (hfits : t.Fits) :
    t.WellBound C ↔ ∀ c ∈ t.children, c.WellBound C := by
  cases t with
  | call f a =>
    cases a with
    | none =>
      obtain ⟨r, hr⟩ := fits_thunkCall.mp hfits
      rw [children, Option.toList_none, List.forall_mem_singleton]
      constructor
      · rintro (_ | _)
        assumption
      · exact fun hf => .thunkCall hf hr
    | some a =>
      rw [children, Option.toList_some, List.forall_mem_cons, List.forall_mem_singleton]
      constructor
      · rintro (_ | _)
        exact ⟨‹_›, ‹_›⟩
      · exact fun h => .call h.1 h.2
  | selection s index =>
    rw [children, List.forall_mem_singleton]
    constructor
    · rintro (_ | _)
      assumption
    · exact .selection
  | struct es => rw [wellBound_struct, children, List.forall_mem_map]
  | _ => exact ht.elim

/-- Of the same type as the old term, and well bound where that was. -/
structure KeepsBinding (t t' : Term) : Prop where
  type : t'.type = t.type
  wellBound : ∀ C, t.WellBound C → t'.WellBound C

theorem KeepsBinding.trans {t'' : Term} (h : KeepsBinding t t') (h' : KeepsBinding t' t'') :
    KeepsBinding t t'' :=
  ⟨h'.type.trans h.type, fun C ht => h'.wellBound C (h.wellBound C ht)⟩

theorem OverLocals.wellBound {ls ls' : List (String × Term)} {r r' : Term}
    (h : OverLocals (fun _ => KeepsBinding) Γ ls ls') (hr : KeepsBinding r r')
    (ht : (Term.block ls r).WellBound C) : (Term.block ls' r').WellBound C := by
  induction h generalizing C with
  | nil =>
    cases ht with
    | blockNil ht => exact .blockNil (hr.wellBound C ht)
  | cons htt' _ ih =>
    cases ht with
    | blockCons ht hrest =>
      refine .blockCons (htt'.wellBound C ht) ?_
      rw [htt'.type]
      exact ih hrest

/-- A node over children that keep their bindings keeps its own. -/
theorem Over.keepsBinding (h : Over (fun _ => KeepsBinding) Γ t t') : KeepsBinding t t' := by
  refine ⟨(h.mono fun _ _ _ h => h.type).type_eq, fun C ht => ?_⟩
  cases h with
  | reference | compiled | intrinsic => exact ht
  | lambda hr =>
    cases ht with
    | lambda ht => exact .lambda (hr.wellBound _ ht)
  | thunkCall hf =>
    cases ht with
    | thunkCall ht htype => exact .thunkCall (hf.wellBound C ht) (hf.type.trans htype)
  | call hf ha =>
    cases ht with
    | call htf hta => exact .call (hf.wellBound C htf) (ha.wellBound C hta)
  | selection hs =>
    cases ht with
    | selection ht => exact .selection (hs.wellBound C ht)
  | struct hes =>
    rw [wellBound_struct] at ht ⊢
    exact forall_of_forall₂ hes fun e e' he h => h.2.wellBound C (ht e he)
  | block hls hr => exact hls.wellBound hr ht

/-- A rewrite that keeps types never makes a term that fits fail. -/
theorem exists_rewriteAll {P : Term → Prop} {Q : Term → Term → Prop} {rewrite : Term → Option Term}
    (hfits : ∀ t, P t → t.Fits) (htype : ∀ t t', Q t t' → t'.type = t.type)
    (hrewrite : ∀ t t', P t → Over (fun _ => Q) Γ t t' → t'.Fits → Q t ((rewrite t').getD t'))
    (ht : t.Everywhere P) :
    ∃ t' n, rewriteAll (fun u => .ok (rewrite u)) t = .ok (t', n) ∧ Q t t' := by
  have hstep : ∀ t t', P t → Over (fun _ => Q) Γ t t' → (t.Fits → t'.Fits) →
      Ensures (countingStep (fun u => .ok (rewrite u)) t')
        (fun p => Q t p.1 ∧ (p.2 = false → p.1 = t')) (fun _ => False) := by
    intro t t' hP hover hkept
    refine countingStep_ensures (fun r hr => ?_) fun e he => by cases he
    cases hr
    exact hrewrite t t' hP hover (hkept (hfits t hP))
  -- the rewrite has no errors, so only rebuilding a node could fail
  have hrebuilt : ∀ (t : Term) (parts : List Term) (e : TypeError), P t →
      List.Forall₂ Q t.children parts → t.withChildren parts = .error e → False := by
    intro t parts e hP hparts hnew
    obtain ⟨t', ht'⟩ := exists_rebuilt (hfits t hP) (hparts.imp fun c c' => htype c c')
    cases ht'.symm.trans hnew
  obtain ⟨⟨t', changed⟩, n, hrun, hQ, -⟩ :=
    (transform_ensures_of_everywhere hrebuilt hstep ht).exists_yields 0
  exact ⟨t', n, rewriteAll_eq_ok_iff.mpr ⟨changed, hrun⟩, hQ⟩

end

end Term

end GraphFusion
