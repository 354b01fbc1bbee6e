import GraphFusion.Proofs.Terms.Evaluation

/-!
Trees that differ only in the names of their binders. Two trees are alpha
equivalent when their references stand for one another, the free ones under their
own names; a tree is well bound when a reference carries the type of its binder
and no function that takes something is called on nothing. A scope pairs the names
of two trees together with the types of their references. Two well bound trees
that are alpha equivalent are alike in the scope of their free names, and what is
alike in a scope depends only on the free names of the two trees.
-/

namespace GraphFusion

namespace Term

/-- Which names of one tree stand for which of another. -/
abbrev Pairing := String → String → Prop

/-- Behind a binder that is `x` in one tree and `y` in the other. -/
def Pairing.bind (P : Pairing) (x y : String) : Pairing := fun a b =>
  (a = x ∧ b = y) ∨ (a ≠ x ∧ b ≠ y ∧ P a b)

/-- The same tree up to the names of lambdas and locals. -/
inductive AlphaEq : Pairing → Term → Term → Prop
  | reference {P : Pairing} {x y : String} {type : Ty} :
      P x y → AlphaEq P (.reference x type) (.reference y type)
  | lambda {P : Pairing} {x y : String} {p : Option Ty} {r r' : Term} :
      AlphaEq (P.bind x y) r r' → AlphaEq P (.lambda x p r) (.lambda y p r')
  | thunkCall {P : Pairing} {f f' : Term} :
      AlphaEq P f f' → AlphaEq P (.call f none) (.call f' none)
  | call {P : Pairing} {f f' a a' : Term} :
      AlphaEq P f f' → AlphaEq P a a' → AlphaEq P (.call f (some a)) (.call f' (some a'))
  | selection {P : Pairing} {s s' : Term} {index : Nat} :
      AlphaEq P s s' → AlphaEq P (.selection s index) (.selection s' index)
  | structNil {P : Pairing} : AlphaEq P (.struct []) (.struct [])
  | structCons {P : Pairing} {label : Label} {t t' : Term} {es es' : List (Label × Term)} :
      AlphaEq P t t' → AlphaEq P (.struct es) (.struct es') →
        AlphaEq P (.struct ((label, t) :: es)) (.struct ((label, t') :: es'))
  | blockNil {P : Pairing} {r r' : Term} :
      AlphaEq P r r' → AlphaEq P (.block [] r) (.block [] r')
  | blockCons {P : Pairing} {x y : String} {t t' r r' : Term} {ls ls' : List (String × Term)} :
      AlphaEq P t t' → AlphaEq (P.bind x y) (.block ls r) (.block ls' r') →
        AlphaEq P (.block ((x, t) :: ls) r) (.block ((y, t') :: ls') r')
  | compiled {P : Pairing} {u : CompiledUnit} : AlphaEq P (.compiled u) (.compiled u)
  | intrinsic {P : Pairing} {uri : String} {type : Ty} :
      AlphaEq P (.intrinsic uri type) (.intrinsic uri type)

/-- The types that references to a name may carry. -/
abbrev Carries := String → Ty → Prop

/-- Below a binder of type `p`; to one without a type there are no references. -/
def Carries.bind (C : Carries) (x : String) (p : Option Ty) : Carries :=
  Function.update C x fun type => p = some type

theorem Carries.bind_self {C : Carries} {x : String} {p : Option Ty} {type : Ty} :
    C.bind x p x type ↔ p = some type := by
  rw [bind, Function.update_self]

theorem Carries.bind_of_ne {C : Carries} {x y : String} {p : Option Ty} (h : y ≠ x) :
    C.bind x p y = C y := Function.update_of_ne h ..

/-- References below a binder carry its type, and what is called on nothing takes
nothing. -/
inductive WellBound : Carries → Term → Prop
  | reference {C : Carries} {x : String} {type : Ty} : C x type → WellBound C (.reference x type)
  | lambda {C : Carries} {x : String} {p : Option Ty} {r : Term} :
      WellBound (C.bind x p) r → WellBound C (.lambda x p r)
  | thunkCall {C : Carries} {f : Term} {type : Ty} :
      WellBound C f → f.type = .function none type → WellBound C (.call f none)
  | call {C : Carries} {f a : Term} :
      WellBound C f → WellBound C a → WellBound C (.call f (some a))
  | selection {C : Carries} {s : Term} {index : Nat} :
      WellBound C s → WellBound C (.selection s index)
  | structNil {C : Carries} : WellBound C (.struct [])
  | structCons {C : Carries} {label : Label} {t : Term} {es : List (Label × Term)} :
      WellBound C t → WellBound C (.struct es) → WellBound C (.struct ((label, t) :: es))
  | blockNil {C : Carries} {r : Term} : WellBound C r → WellBound C (.block [] r)
  | blockCons {C : Carries} {x : String} {t r : Term} {ls : List (String × Term)} :
      WellBound C t → WellBound (C.bind x (some t.type)) (.block ls r) →
        WellBound C (.block ((x, t) :: ls) r)
  | compiled {C : Carries} {u : CompiledUnit} : WellBound C (.compiled u)
  | intrinsic {C : Carries} {uri : String} {type : Ty} : WellBound C (.intrinsic uri type)

theorem Carries.bind_of_update {Γ : Context} {C : Carries}
    (hC : ∀ x type, Γ x = some type → C x type) (x : String) (p : Option Ty) (y : String)
    (type : Ty) (hy : Function.update Γ x p y = some type) : C.bind x p y type := by
  by_cases hyx : y = x
  · subst hyx
    rwa [Function.update_self, ← Carries.bind_self] at hy
  · rw [Function.update_of_ne hyx] at hy
    rw [Carries.bind_of_ne hyx]
    exact hC y type hy

/-- A typed term is well bound: free references carry the types of the context. -/
theorem Typed.wellBound {t : Term} {Γ : Context} {C : Carries} (ht : t.Typed Γ)
    (hC : ∀ x type, Γ x = some type → C x type) : t.WellBound C := by
  induction t using inductFront generalizing Γ C with
  | reference x type =>
    simp only [Typed] at ht
    exact .reference (hC x type ht)
  | lambda x p r ih =>
    simp only [Typed] at ht
    exact .lambda (ih ht (Carries.bind_of_update hC x p))
  | thunkCall f ih =>
    simp only [Typed] at ht
    obtain ⟨hf, type, hftype⟩ := ht
    exact .thunkCall (ih hf hC) hftype
  | call f a hf ha =>
    simp only [Typed] at ht
    exact .call (hf ht.1 hC) (ha ht.2.1 hC)
  | selection s index ih =>
    simp only [Typed] at ht
    exact .selection (ih ht.1 hC)
  | structNil => exact .structNil
  | structCons label t es hhead hrest =>
    rw [typed_struct_cons] at ht
    exact .structCons (hhead ht.1 hC) (hrest ht.2 hC)
  | blockNil r ih => exact .blockNil (ih (typed_block_nil.mp ht) hC)
  | blockCons x t ls r hhead hrest =>
    rw [typed_block_cons] at ht
    exact .blockCons (hhead ht.1 hC) (hrest ht.2 (Carries.bind_of_update hC x (some t.type)))
  | compiled u => exact .compiled
  | intrinsic uri type => exact .intrinsic

/-- Names of two trees that stand for each other, each for one other name, with the
types that references to them carry. -/
structure Scope where
  pairs : String → String → Ty → Prop
  unique : ∀ {a b a' b' : String} {type type' : Ty},
    pairs a b type → pairs a' b' type' → (a = a' ↔ b = b')

namespace Scope

/-- Behind a binder of type `p`; below one without a type its name stands for nothing. -/
def bind (S : Scope) (x y : String) (p : Option Ty) : Scope where
  pairs a b type := (a = x ∧ b = y ∧ p = some type) ∨ (a ≠ x ∧ b ≠ y ∧ S.pairs a b type)
  unique := by
    rintro a b a' b' type type' (⟨rfl, rfl, -⟩ | ⟨hax, hby, h⟩) (⟨rfl, rfl, -⟩ | ⟨hax', hby', h'⟩)
    · simp
    · simp [hax'.symm, hby'.symm]
    · simp [hax, hby]
    · exact S.unique h h'

/-- Every name stands for itself. -/
def all : Scope where
  pairs a b _ := a = b
  unique := by
    rintro a _ a' _ type type' rfl rfl
    exact Iff.rfl

/-- The names that occur in both lists stand for themselves. -/
def among (xs ys : List String) : Scope where
  pairs a b _ := a = b ∧ a ∈ xs ∧ b ∈ ys
  unique := by
    rintro a _ a' _ type type' ⟨rfl, -⟩ ⟨rfl, -⟩
    exact Iff.rfl

end Scope

/-- Alpha equivalent in a scope, with references typed as their binders. The type of
a local is the one that the references to it carry. -/
inductive Alike : Scope → Term → Term → Prop
  | reference {S : Scope} {x y : String} {type : Ty} :
      S.pairs x y type → Alike S (.reference x type) (.reference y type)
  | lambda {S : Scope} {x y : String} {p : Option Ty} {r r' : Term} :
      Alike (S.bind x y p) r r' → Alike S (.lambda x p r) (.lambda y p r')
  | thunkCall {S : Scope} {f f' : Term} {type : Ty} :
      Alike S f f' → f.type = .function none type → Alike S (.call f none) (.call f' none)
  | call {S : Scope} {f f' a a' : Term} :
      Alike S f f' → Alike S a a' → Alike S (.call f (some a)) (.call f' (some a'))
  | selection {S : Scope} {s s' : Term} {index : Nat} :
      Alike S s s' → Alike S (.selection s index) (.selection s' index)
  | structNil {S : Scope} : Alike S (.struct []) (.struct [])
  | structCons {S : Scope} {label : Label} {t t' : Term} {es es' : List (Label × Term)} :
      Alike S t t' → Alike S (.struct es) (.struct es') →
        Alike S (.struct ((label, t) :: es)) (.struct ((label, t') :: es'))
  | blockNil {S : Scope} {r r' : Term} : Alike S r r' → Alike S (.block [] r) (.block [] r')
  | blockCons {S : Scope} {x y : String} {type : Ty} {t t' r r' : Term}
      {ls ls' : List (String × Term)} :
      Alike S t t' → Alike (S.bind x y (some type)) (.block ls r) (.block ls' r') →
        Alike S (.block ((x, t) :: ls) r) (.block ((y, t') :: ls') r')
  | compiled {S : Scope} {u : CompiledUnit} : Alike S (.compiled u) (.compiled u)
  | intrinsic {S : Scope} {uri : String} {type : Ty} :
      Alike S (.intrinsic uri type) (.intrinsic uri type)

theorem Scope.pairs_of_bind {P : Pairing} {C D : Carries} {S : Scope}
    (hS : ∀ a b type, P a b → C a type → D b type → S.pairs a b type) (x y : String) (p q : Option Ty)
    (a b : String) (type : Ty) (hab : P.bind x y a b)
    (ha : C.bind x p a type) (hb : D.bind y q b type) : (S.bind x y p).pairs a b type := by
  rcases hab with ⟨rfl, rfl⟩ | ⟨hax, hby, hab⟩
  · exact .inl ⟨rfl, rfl, Carries.bind_self.mp ha⟩
  · rw [Carries.bind_of_ne hax] at ha
    rw [Carries.bind_of_ne hby] at hb
    exact .inr ⟨hax, hby, hS a b type hab ha hb⟩

/-- Well bound trees that are alpha equivalent are alike. -/
theorem AlphaEq.alike {P : Pairing} {t u : Term} (h : AlphaEq P t u) {C D : Carries} {S : Scope}
    (ht : t.WellBound C) (hu : u.WellBound D)
    (hS : ∀ a b type, P a b → C a type → D b type → S.pairs a b type) : Alike S t u := by
  induction h generalizing C D S with
  | reference hxy =>
    cases ht with | reference hC =>
    cases hu with | reference hD => exact .reference (hS _ _ _ hxy hC hD)
  | lambda _ ih =>
    cases ht with | lambda ht =>
    cases hu with | lambda hu => exact .lambda (ih ht hu (Scope.pairs_of_bind hS _ _ _ _))
  | thunkCall _ ih =>
    cases ht with | thunkCall ht htype =>
    cases hu with | thunkCall hu _ => exact .thunkCall (ih ht hu hS) htype
  | call _ _ ihf iha =>
    cases ht with | call htf hta =>
    cases hu with | call huf hua => exact .call (ihf htf huf hS) (iha hta hua hS)
  | selection _ ih =>
    cases ht with | selection ht =>
    cases hu with | selection hu => exact .selection (ih ht hu hS)
  | structNil => exact .structNil
  | structCons _ _ ih ihs =>
    cases ht with | structCons ht hts =>
    cases hu with | structCons hu hus => exact .structCons (ih ht hu hS) (ihs hts hus hS)
  | blockNil _ ih =>
    cases ht with | blockNil ht =>
    cases hu with | blockNil hu => exact .blockNil (ih ht hu hS)
  | blockCons _ _ ih ihs =>
    cases ht with | blockCons ht hts =>
    cases hu with | blockCons hu hus =>
    exact .blockCons (ih ht hu hS) (ihs hts hus (Scope.pairs_of_bind hS _ _ _ _))
  | compiled => exact .compiled
  | intrinsic => exact .intrinsic

variable {S : Scope} {t u : Term}

theorem Pairing.bind_of_pairs {P : Pairing} (hP : ∀ a b type, S.pairs a b type → P a b)
    (x y : String) (p : Option Ty) (a b : String) (type : Ty)
    (hab : (S.bind x y p).pairs a b type) : P.bind x y a b := by
  rcases hab with ⟨ha, hb, -⟩ | ⟨ha, hb, hab⟩
  · exact .inl ⟨ha, hb⟩
  · exact .inr ⟨ha, hb, hP a b type hab⟩

/-- The names of two terms that are paired in a scope are paired in another. -/
def Scope.KeptOn (S S' : Scope) (t u : Term) : Prop :=
  ∀ a ∈ t.freeNames, ∀ b ∈ u.freeNames, ∀ type, S.pairs a b type → S'.pairs a b type

theorem Scope.KeptOn.part {S' : Scope} (h : S.KeptOn S' t u) {c d : Term}
    (hc : ∀ a ∈ c.freeNames, a ∈ t.freeNames) (hd : ∀ b ∈ d.freeNames, b ∈ u.freeNames) :
    S.KeptOn S' c d :=
  fun a ha b hb => h a (hc a ha) b (hd b hb)

theorem Scope.KeptOn.below {S' : Scope} (h : S.KeptOn S' t u) {x y : String} {c d : Term}
    (hc : ∀ a, a ≠ x → a ∈ c.freeNames → a ∈ t.freeNames)
    (hd : ∀ b, b ≠ y → b ∈ d.freeNames → b ∈ u.freeNames) (p : Option Ty) :
    (S.bind x y p).KeptOn (S'.bind x y p) c d := by
  rintro a ha b hb type (hab | ⟨hax, hby, hab⟩)
  · exact .inl hab
  · exact .inr ⟨hax, hby, h a (hc a hax ha) b (hd b hby hb) type hab⟩

/-- Every free name of two terms stands in the scope. -/
structure Scope.Covers (S : Scope) (t u : Term) : Prop where
  left : ∀ a ∈ t.freeNames, ∃ b type, S.pairs a b type
  right : ∀ b ∈ u.freeNames, ∃ a type, S.pairs a b type

theorem Scope.Covers.of_bind {x y : String} {p : Option Ty} (h : (S.bind x y p).Covers t u) :
    (∀ a, a ≠ x → a ∈ t.freeNames → ∃ b type, S.pairs a b type) ∧
      ∀ b, b ≠ y → b ∈ u.freeNames → ∃ a type, S.pairs a b type := by
  refine ⟨fun a hax ha => ?_, fun b hby hb => ?_⟩
  · obtain ⟨b, type, ⟨rfl, -⟩ | ⟨-, -, hab⟩⟩ := h.left a ha
    · exact absurd rfl hax
    · exact ⟨b, type, hab⟩
  · obtain ⟨a, type, ⟨-, rfl, -⟩ | ⟨-, -, hab⟩⟩ := h.right b hb
    · exact absurd rfl hby
    · exact ⟨a, type, hab⟩

namespace Alike

theorem alphaEq (h : Alike S t u) {P : Pairing} (hP : ∀ a b type, S.pairs a b type → P a b) :
    AlphaEq P t u := by
  induction h generalizing P with
  | reference hxy => exact .reference (hP _ _ _ hxy)
  | lambda _ ih => exact .lambda (ih (Pairing.bind_of_pairs hP _ _ _))
  | thunkCall _ _ ih => exact .thunkCall (ih hP)
  | call _ _ ihf iha => exact .call (ihf hP) (iha hP)
  | selection _ ih => exact .selection (ih hP)
  | structNil => exact .structNil
  | structCons _ _ ih ihs => exact .structCons (ih hP) (ihs hP)
  | blockNil _ ih => exact .blockNil (ih hP)
  | blockCons _ _ ih ihs => exact .blockCons (ih hP) (ihs (Pairing.bind_of_pairs hP _ _ _))
  | compiled => exact .compiled
  | intrinsic => exact .intrinsic

theorem type_eq (h : Alike S t u) : u.type = t.type := by
  induction h with
  | reference _ | structNil | compiled | intrinsic => rfl
  | lambda _ ih => simp only [type, ih]
  | thunkCall _ _ ih => simp only [type, ih]
  | call _ _ ih _ => simp only [type, ih]
  | selection _ ih => simp only [type, ih]
  | structCons _ _ ih ihs =>
    simp only [type, Ty.struct.injEq] at ihs
    rw [type_struct_cons, type_struct_cons, ih, ihs]
  | blockNil _ ih => simpa only [type] using ih
  | blockCons _ _ _ ihs => simpa only [type] using ihs

/-- Alike trees have the same compiled units in the same places. -/
theorem units_eq (h : Alike S t u) : u.units = t.units := by
  induction h with
  | reference _ | structNil | compiled | intrinsic => rfl
  | lambda _ ih => simpa only [units] using ih
  | thunkCall _ _ ih => simpa only [units] using ih
  | call _ _ ihf iha => simp only [units, ihf, iha]
  | selection _ ih => simpa only [units] using ih
  | structCons _ _ ih ihs =>
    simp only [units] at ihs
    simp only [units, elementUnits, ih, ihs]
  | blockNil _ ih => simpa only [units, localUnits, List.nil_append] using ih
  | blockCons _ _ ih ihs =>
    simp only [units] at ihs
    simp only [units, localUnits, List.append_assoc, ih, ihs]

/-- Another scope will do that pairs the free names in the same way. -/
theorem congr (h : Alike S t u) {S' : Scope} (hS : S.KeptOn S' t u) : Alike S' t u := by
  induction h generalizing S' with
  | reference hxy =>
    exact .reference (hS _ (mem_freeNames_reference.mpr rfl) _ (mem_freeNames_reference.mpr rfl)
      _ hxy)
  | lambda _ ih =>
    exact .lambda (ih (hS.below (fun a hne ha => mem_freeNames_lambda.mpr ⟨hne, ha⟩)
      (fun b hne hb => mem_freeNames_lambda.mpr ⟨hne, hb⟩) _))
  | thunkCall _ htype ih =>
    exact .thunkCall (ih (hS.part (fun a => mem_freeNames_thunkCall.mpr)
      fun b => mem_freeNames_thunkCall.mpr)) htype
  | call _ _ ihf iha =>
    exact .call
      (ihf (hS.part (fun a ha => mem_freeNames_call.mpr (.inl ha))
        fun b hb => mem_freeNames_call.mpr (.inl hb)))
      (iha (hS.part (fun a ha => mem_freeNames_call.mpr (.inr ha))
        fun b hb => mem_freeNames_call.mpr (.inr hb)))
  | selection _ ih =>
    exact .selection (ih (hS.part (fun a => mem_freeNames_selection.mpr)
      fun b => mem_freeNames_selection.mpr))
  | structNil => exact .structNil
  | structCons _ _ ih ihs =>
    exact .structCons
      (ih (hS.part (fun a ha => mem_freeNames_struct_cons.mpr (.inl ha))
        fun b hb => mem_freeNames_struct_cons.mpr (.inl hb)))
      (ihs (hS.part (fun a ha => mem_freeNames_struct_cons.mpr (.inr ha))
        fun b hb => mem_freeNames_struct_cons.mpr (.inr hb)))
  | blockNil _ ih =>
    exact .blockNil (ih (hS.part (fun a => mem_freeNames_block_nil.mpr)
      fun b => mem_freeNames_block_nil.mpr))
  | blockCons _ _ ih ihs =>
    exact .blockCons
      (ih (hS.part (fun a ha => mem_freeNames_block_cons.mpr (.inl ha))
        fun b hb => mem_freeNames_block_cons.mpr (.inl hb)))
      (ihs (hS.below (fun a hne ha => mem_freeNames_block_cons.mpr (.inr ⟨hne, ha⟩))
        (fun b hne hb => mem_freeNames_block_cons.mpr (.inr ⟨hne, hb⟩)) _))
  | compiled => exact .compiled
  | intrinsic => exact .intrinsic

/-- A term below a lambda that binds nothing. -/
theorem of_bind_none {x y : String} (h : Alike (S.bind x y none) t u) : Alike S t u := by
  refine h.congr fun a _ b _ type hab => ?_
  rcases hab with ⟨-, -, hnone⟩ | ⟨-, -, hab⟩
  · cases hnone
  · exact hab

/-- A name that stands for none on the left and for none on the right. -/
theorem under_binder (h : Alike S t u) {x y : String} (hx : x ∉ t.freeNames)
    (hy : y ∉ u.freeNames) (p : Option Ty) : Alike (S.bind x y p) t u := by
  refine h.congr fun a ha b hb type hab => .inr ⟨?_, ?_, hab⟩
  · rintro rfl
    exact hx ha
  · rintro rfl
    exact hy hb

theorem covers (h : Alike S t u) : S.Covers t u := by
  induction h with
  | @reference S x y type hxy =>
    refine ⟨fun a ha => ⟨y, type, ?_⟩, fun b hb => ⟨x, type, ?_⟩⟩
    · rwa [mem_freeNames_reference.mp ha]
    · rwa [mem_freeNames_reference.mp hb]
  | lambda _ ih =>
    obtain ⟨hleft, hright⟩ := ih.of_bind
    refine ⟨fun a ha => ?_, fun b hb => ?_⟩
    · exact hleft a (mem_freeNames_lambda.mp ha).1 (mem_freeNames_lambda.mp ha).2
    · exact hright b (mem_freeNames_lambda.mp hb).1 (mem_freeNames_lambda.mp hb).2
  | thunkCall _ _ ih =>
    exact ⟨fun a ha => ih.left a (mem_freeNames_thunkCall.mp ha),
      fun b hb => ih.right b (mem_freeNames_thunkCall.mp hb)⟩
  | call _ _ ihf iha =>
    exact ⟨fun a ha => (mem_freeNames_call.mp ha).elim (ihf.left a) (iha.left a),
      fun b hb => (mem_freeNames_call.mp hb).elim (ihf.right b) (iha.right b)⟩
  | selection _ ih =>
    exact ⟨fun a ha => ih.left a (mem_freeNames_selection.mp ha),
      fun b hb => ih.right b (mem_freeNames_selection.mp hb)⟩
  | structNil => constructor <;> simp [freeNames, freeFrom, freeInElements]
  | structCons _ _ ih ihs =>
    exact ⟨fun a ha => (mem_freeNames_struct_cons.mp ha).elim (ih.left a) (ihs.left a),
      fun b hb => (mem_freeNames_struct_cons.mp hb).elim (ih.right b) (ihs.right b)⟩
  | blockNil _ ih =>
    exact ⟨fun a ha => ih.left a (mem_freeNames_block_nil.mp ha),
      fun b hb => ih.right b (mem_freeNames_block_nil.mp hb)⟩
  | blockCons _ _ ih ihs =>
    obtain ⟨hleft, hright⟩ := ihs.of_bind
    exact ⟨fun a ha => (mem_freeNames_block_cons.mp ha).elim (ih.left a) fun h => hleft a h.1 h.2,
      fun b hb => (mem_freeNames_block_cons.mp hb).elim (ih.right b) fun h => hright b h.1 h.2⟩
  | compiled => constructor <;> simp [freeNames, freeFrom]
  | intrinsic => constructor <;> simp [freeNames, freeFrom]

/-- Elements that are alike, one by one. -/
theorem struct_iff {es : List (Label × Term)} :
    Alike S (.struct es) u ↔
      ∃ es', u = .struct es' ∧ List.Forall₂ (fun e e' => e.1 = e'.1 ∧ Alike S e.2 e'.2) es es' := by
  constructor
  · intro h
    induction es generalizing u with
    | nil =>
      cases h with
      | structNil => exact ⟨[], rfl, .nil⟩
    | cons e es ih =>
      cases h with
      | structCons ht hes =>
        obtain ⟨es', heq, hall⟩ := ih hes
        cases heq
        exact ⟨_, rfl, .cons ⟨rfl, ht⟩ hall⟩
  · rintro ⟨es', rfl, hall⟩
    induction hall with
    | nil => exact .structNil
    | @cons e e' es es' he _ ih =>
      obtain ⟨label, t⟩ := e
      obtain ⟨label', t'⟩ := e'
      obtain ⟨rfl, ht⟩ := he
      exact .structCons ht ih

end Alike

end Term

end GraphFusion
