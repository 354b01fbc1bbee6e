import GraphFusion.Proofs.Terms.Equivalence

/-!
Refinement of meanings. A meaning refines another of its type when it is the same
up to functions that succeed more often: on arguments that refine each other,
wherever the one succeeds the other succeeds with a result that refines it. At
types of data this is equality. What refines itself is monotone in definedness;
everything that terms stand for is, as long as the intrinsics and the names in
scope are, and a node over refined children is refined.
-/

namespace GraphFusion

namespace Ty

mutual

/-- `c'` is `c`, up to functions that succeed more often. -/
def Refines : (t : Ty) → t.Carrier → t.Carrier → Prop
  | .tensor _, c, c' => c = c'
  | .struct es, c, c' => ElementsRefine es c c'
  | .function none r, f, f' => ∀ c, f = Except.ok c → ∃ c', f' = Except.ok c' ∧ Refines r c c'
  | .function (some p) r, f, f' => ∀ a a', Refines p a a' →
      ∀ c, f a = Except.ok c → ∃ c', f' a' = Except.ok c' ∧ Refines r c c'

def ElementsRefine : (es : List (Label × Ty)) → ElementCarriers es → ElementCarriers es → Prop
  | [], _, _ => True
  | (_, t) :: es, c, c' => Refines t c.1 c'.1 ∧ ElementsRefine es c.2 c'.2

end

theorem refines_struct {es : List (Label × Ty)} {c c' : Carrier (.struct es)} :
    Refines (.struct es) c c' ↔ ElementsRefine es c c' := by
  rw [Refines]

theorem elementsRefine_cons {n : Label} {t : Ty} {es : List (Label × Ty)}
    {c c' : ElementCarriers ((n, t) :: es)} :
    ElementsRefine ((n, t) :: es) c c' ↔ Refines t c.1 c'.1 ∧ ElementsRefine es c.2 c'.2 := by
  rw [ElementsRefine]

theorem refines_function_none {r : Ty} {f f' : Carrier (.function none r)} :
    Refines (.function none r) f f' ↔
      ∀ c, f = Except.ok c → ∃ c', f' = Except.ok c' ∧ Refines r c c' := by
  rw [Refines]

theorem refines_function_some {p r : Ty} {f f' : Carrier (.function (some p) r)} :
    Refines (.function (some p) r) f f' ↔ ∀ a a', Refines p a a' →
      ∀ c, f a = Except.ok c → ∃ c', f' a' = Except.ok c' ∧ Refines r c c' := by
  rw [Refines]

mutual

/-- Refinement of data is equality. -/
theorem refines_iff_eq : ∀ {t : Ty} {c c' : t.Carrier}, t.isData = true →
    (t.Refines c c' ↔ c = c')
  | .tensor _, _, _, _ => by rw [Refines]
  | .struct es, _, _, h => by
    rw [Refines]
    exact elementsRefine_iff_eq (by rwa [isData] at h)
  | .function .., _, _, h => by simp [isData] at h

theorem elementsRefine_iff_eq : ∀ {es : List (Label × Ty)} {c c' : ElementCarriers es},
    elementsAreData es = true → (ElementsRefine es c c' ↔ c = c')
  | [], _, _, _ => by
    rw [ElementsRefine]
    exact ⟨fun _ => rfl, fun _ => trivial⟩
  | (_, _) :: _, c, c', h => by
    simp only [elementsAreData, Bool.and_eq_true] at h
    rw [elementsRefine_cons, refines_iff_eq h.1, elementsRefine_iff_eq h.2]
    exact ⟨fun heq => Prod.ext heq.1 heq.2, fun heq => by rw [heq]; exact ⟨rfl, rfl⟩⟩

end

mutual

/-- Types whose functions take data. -/
def FirstOrder : Ty → Prop
  | .tensor _ => True
  | .struct es => ElementsFirstOrder es
  | .function none r => FirstOrder r
  | .function (some p) r => p.isData = true ∧ FirstOrder r

def ElementsFirstOrder : List (Label × Ty) → Prop
  | [] => True
  | (_, t) :: es => FirstOrder t ∧ ElementsFirstOrder es

end

mutual

/-- A function of data has nothing to tell apart. -/
theorem refines_self_of_firstOrder :
    ∀ {t : Ty} (c : t.Carrier), t.FirstOrder → t.Refines c c
  | .tensor _, _, _ => by rw [Refines]
  | .struct es, c, h => by
    rw [FirstOrder] at h
    exact refines_struct.mpr (elementsRefine_self_of_firstOrder c h)
  | .function none r, f, h => by
    rw [FirstOrder] at h
    exact refines_function_none.mpr fun c hc => ⟨c, hc, refines_self_of_firstOrder c h⟩
  | .function (some p) r, f, h => by
    rw [FirstOrder] at h
    refine refines_function_some.mpr fun a a' ha c hc => ?_
    obtain rfl := (refines_iff_eq h.1).mp ha
    exact ⟨c, hc, refines_self_of_firstOrder c h.2⟩

theorem elementsRefine_self_of_firstOrder :
    ∀ {es : List (Label × Ty)} (c : ElementCarriers es), ElementsFirstOrder es →
      ElementsRefine es c c
  | [], _, _ => by rw [ElementsRefine]; trivial
  | (_, _) :: _, c, h => by
    rw [ElementsFirstOrder] at h
    exact elementsRefine_cons.mpr
      ⟨refines_self_of_firstOrder c.1 h.1, elementsRefine_self_of_firstOrder c.2 h.2⟩

end

mutual

theorem zero_refines_self : ∀ t : Ty, t.Refines t.zero t.zero
  | .tensor _ => by rw [Refines]
  | .struct es => refines_struct.mpr (elementZeros_refine_self es)
  | .function none _ => refines_function_none.mpr fun _ h => by
    simp only [zero] at h
    cases h
  | .function (some _) _ => refines_function_some.mpr fun _ _ _ _ h => by
    simp only [zero] at h
    cases h

theorem elementZeros_refine_self :
    ∀ es : List (Label × Ty), ElementsRefine es (elementZeros es) (elementZeros es)
  | [] => by rw [ElementsRefine]; trivial
  | (_, t) :: es => elementsRefine_cons.mpr ⟨zero_refines_self t, elementZeros_refine_self es⟩

end

end Ty

namespace Meaning

/-- Meanings of one type, the second refining the first. -/
inductive Refines : Meaning → Meaning → Prop
  | mk {t : Ty} {c c' : t.Carrier} : t.Refines c c' → Refines ⟨t, c⟩ ⟨t, c'⟩

theorem Refines.type_eq {m m' : Meaning} (h : m.Refines m') : m'.type = m.type := by
  cases h
  rfl

theorem Refines.eq_of_isData {m m' : Meaning} (h : m.Refines m') (hdata : m.type.isData = true) :
    m' = m := by
  cases h with
  | mk h => rw [(Ty.refines_iff_eq hdata).mp h]

theorem refines_self {m : Meaning} (hdata : m.type.isData = true) : m.Refines m :=
  .mk ((Ty.refines_iff_eq hdata).mpr rfl)

/-- Arguments that are both missing or refine each other. -/
inductive ArgumentRefines : Option Meaning → Option Meaning → Prop
  | none : ArgumentRefines none none
  | some {m m' : Meaning} : m.Refines m' → ArgumentRefines (some m) (some m')

end Meaning

/-- Where the first succeeds, the second succeeds with a meaning that refines it. -/
def OutcomeRefines (r r' : Except Failure Meaning) : Prop :=
  ∀ m, r = .ok m → ∃ m', r' = .ok m' ∧ m.Refines m'

theorem OutcomeRefines.bind {r r' : Except Failure Meaning}
    {k k' : Meaning → Except Failure Meaning} (hr : OutcomeRefines r r')
    (hk : ∀ m m', r = .ok m → r' = .ok m' → m.Refines m' → OutcomeRefines (k m) (k' m')) :
    OutcomeRefines (r >>= k) (r' >>= k') := by
  intro v hv
  obtain ⟨m, hm, hv⟩ := bind_eq_ok.mp hv
  obtain ⟨m', hm', hmm'⟩ := hr m hm
  obtain ⟨v', hv', hvv'⟩ := hk m m' hm hm' hmm' v hv
  exact ⟨v', by rw [hm', ok_bind, hv'], hvv'⟩

theorem outcomeRefines_ok {m m' : Meaning} (h : m.Refines m') :
    OutcomeRefines (.ok m) (.ok m') := by
  intro v hv
  cases hv
  exact ⟨m', rfl, h⟩

namespace Meaning

theorem Refines.apply {m m' : Meaning} {a a' : Option Meaning} (hm : m.Refines m')
    (ha : ArgumentRefines a a') : OutcomeRefines (m.apply a) (m'.apply a') := by
  intro v hv
  cases hm with
  | @mk t f f' h =>
    cases t with
    | tensor type => cases ha <;> cases hv
    | struct es => cases ha <;> cases hv
    | function p r =>
      cases p with
      | none =>
        cases ha with
        | some _ => cases hv
        | none =>
          obtain ⟨c, hc, hv⟩ := bind_eq_ok.mp hv
          cases hv
          obtain ⟨c', rfl, hcc'⟩ := Ty.refines_function_none.mp h c hc
          exact ⟨⟨r, c'⟩, rfl, .mk hcc'⟩
      | some p =>
        cases ha with
        | none => cases hv
        | @some x x' hx =>
          obtain ⟨y, hy, hv⟩ := bind_eq_ok.mp hv
          obtain ⟨c, hc, hv⟩ := bind_eq_ok.mp hv
          cases hv
          cases hx with
          | @mk u y₀ y' hyy' =>
            by_cases hu : u = p
            · subst hu
              have hy₀ : as u ⟨u, y₀⟩ = .ok y₀ := as_self ⟨u, y₀⟩
              rw [hy₀] at hy
              cases hy
              obtain ⟨c', hc', hcc'⟩ := Ty.refines_function_some.mp h _ _ hyy' c hc
              refine ⟨⟨r, c'⟩, ?_, .mk hcc'⟩
              have hy' : as u ⟨u, y'⟩ = .ok y' := as_self ⟨u, y'⟩
              change (as u ⟨u, y'⟩ >>= fun x => (f' x : Except Failure r.Carrier) >>= fun c =>
                Except.ok (Meaning.mk r c)) = _
              rw [hy', ok_bind, hc', ok_bind]
            · simp [as, hu] at hy

/-- A function refines another when its body does on arguments that refine each
other. -/
theorem function_refines {p : Option Ty} {r : Ty}
    {body body' : Option Meaning → Except Failure Meaning}
    (h : ∀ a a', ArgumentRefines a a' → a.map (·.type) = p → OutcomeRefines (body a) (body' a')) :
    (function p r body).Refines (function p r body') := by
  have hbody : ∀ a a', ArgumentRefines a a' → a.map (·.type) = p → ∀ c, (body a >>= as r) = .ok c →
      ∃ c', (body' a' >>= as r) = .ok c' ∧ r.Refines c c' := by
    intro a a' ha hp c hc
    obtain ⟨m, hm, hc⟩ := bind_eq_ok.mp hc
    obtain ⟨m', hm', hmm'⟩ := h a a' ha hp m hm
    cases hmm' with
    | @mk t d d' hdd' =>
      by_cases ht : t = r
      · subst ht
        have hd : as t ⟨t, d⟩ = .ok d := as_self ⟨t, d⟩
        have hd' : as t ⟨t, d'⟩ = .ok d' := as_self ⟨t, d'⟩
        rw [hd] at hc
        cases hc
        exact ⟨d', by rw [hm', ok_bind, hd'], hdd'⟩
      · simp [as, ht] at hc
  cases p with
  | none =>
    exact .mk (Ty.refines_function_none.mpr fun c hc => hbody none none .none rfl c hc)
  | some p =>
    exact .mk (Ty.refines_function_some.mpr fun a a' ha c hc =>
      hbody _ _ (.some (.mk ha)) rfl c hc)

theorem elementsOf_refine : ∀ {es : List (Label × Ty)} {c c' : Ty.ElementCarriers es},
    Ty.ElementsRefine es c c' →
      List.Forall₂ (fun e e' => e.1 = e'.1 ∧ e.2.Refines e'.2) (elementsOf es c) (elementsOf es c')
  | [], _, _, _ => .nil
  | (_, _) :: _, _, _, h =>
    have h := Ty.elementsRefine_cons.mp h
    .cons ⟨rfl, .mk h.1⟩ (elementsOf_refine h.2)

theorem select_mk {es : List (Label × Ty)} (c : Ty.Carrier (.struct es)) (index : Nat) :
    select ⟨.struct es, c⟩ index =
      (elementsOf es c)[index]?.elim (.error .illTyped) fun e => .ok e.2 := by
  have helements : elements? ⟨.struct es, c⟩ = some (elementsOf es c) := rfl
  rw [select, helements, Option.bind_some]
  cases (elementsOf es c)[index]? <;> rfl

theorem Refines.select {m m' : Meaning} (h : m.Refines m') (index : Nat) :
    OutcomeRefines (m.select index) (m'.select index) := by
  intro v hv
  cases h with
  | @mk t c c' h =>
    cases t with
    | tensor type => cases hv
    | function p r => cases hv
    | struct es =>
      have hall := elementsOf_refine (Ty.refines_struct.mp h)
      rw [select_mk] at hv ⊢
      cases hget : (elementsOf es c)[index]? with
      | none =>
        rw [hget] at hv
        cases hv
      | some e =>
        rw [hget] at hv
        cases hv
        obtain ⟨e', he', -, hee'⟩ := exists_right_of_forall₂ hall hget
        rw [he']
        exact ⟨e'.2, rfl, hee'⟩

theorem Refines.cons {m m' s s' : Meaning} {es : List (Label × Ty)} (n : Label)
    (hm : m.Refines m') (hs : s.Refines s') (hes : s.type = .struct es) :
    (Meaning.cons n m s).Refines (Meaning.cons n m' s') := by
  cases hm with
  | @mk t c c' hc =>
    cases hs with
    | @mk u d d' hd =>
      simp only at hes
      subst hes
      rw [cons_mk n t c es d, cons_mk n t c' es d']
      exact .mk (Ty.refines_struct.mpr (Ty.elementsRefine_cons.mpr ⟨hc, Ty.refines_struct.mp hd⟩))

/-- What a graph computes is fixed on every argument of data. -/
theorem ofGraph_refines_self {g : Graph} (hg : g.Sound) : (ofGraph g).Refines (ofGraph g) := by
  refine function_refines fun a a' ha hp => ?_
  have heq : a' = a := by
    cases ha with
    | none => rfl
    | some h => rw [h.eq_of_isData (hg.parameter_isData hp.symm)]
  subst heq
  intro m hm
  refine ⟨m, hm, refines_self ?_⟩
  split at hm
  · rw [type_of_returned hm]
    exact hg.result_isData
  · cases hm

end Meaning

/-- Intrinsics that succeed as often, and with results defined as much, when their
arguments are defined more. -/
def Interpretation.Monotone (I : Interpretation) : Prop :=
  ∀ (uri : String) (type : Ty), type.Refines (I uri type) (I uri type)

theorem Interpretation.failing_monotone : Interpretation.failing.Monotone :=
  fun _ type => type.zero_refines_self

/-- The environment gives each free reference of the term a value of its type: data,
or a function that is monotone in definedness, as intrinsics and lambdas are. -/
def Env.GivesMonotone (env : Env) (Γ : Context) (t : Term) : Prop :=
  ∀ x ∈ t.freeNames, ∃ m, env x = some m ∧ Γ x = some m.type ∧ m.Refines m

/-- The second environment gives every name of the context a meaning of its type
that refines the one it has in the first. -/
def Env.Refines (Γ : Context) (env env' : Env) : Prop :=
  ∀ x type, Γ x = some type →
    ∃ m m', env x = some m ∧ env' x = some m' ∧ m.type = type ∧ m.Refines m'

namespace Env

variable {Γ : Context} {env env' : Env}

theorem Refines.fits (h : Env.Refines Γ env env') : env.Fits Γ := by
  intro x type hx
  obtain ⟨m, m', hm, -, htype, -⟩ := h x type hx
  exact ⟨m, hm, htype⟩

theorem Refines.fits_right (h : Env.Refines Γ env env') : env'.Fits Γ := by
  intro x type hx
  obtain ⟨m, m', -, hm', htype, hmm'⟩ := h x type hx
  exact ⟨m', hm', hmm'.type_eq.trans htype⟩

theorem GivesMonotone.refines {t : Term} (h : env.GivesMonotone Γ t) :
    Env.Refines (Γ.restrict t) env env := by
  intro x type hx
  obtain ⟨hfree, hx⟩ := Context.restrict_eq_some.mp hx
  obtain ⟨m, hm, htype, hmm⟩ := h x hfree
  exact ⟨m, m, hm, hm, Option.some.inj (htype.symm.trans hx), hmm⟩

theorem Refines.restrict (h : Env.Refines Γ env env') (t : Term) :
    Env.Refines (Γ.restrict t) env env' := by
  intro x type hx
  exact h x type (Context.restrict_eq_some.mp hx).2

theorem Refines.update (h : Env.Refines Γ env env') {a a' : Option Meaning} {p : Option Ty}
    (ha : Meaning.ArgumentRefines a a') (hp : a.map (·.type) = p) (x : String) :
    Env.Refines (Function.update Γ x p) (Function.update env x a) (Function.update env' x a') := by
  intro y type hy
  by_cases heq : y = x
  · subst heq
    rw [Function.update_self] at hy
    subst hp
    cases ha with
    | none => cases hy
    | @some m m' hmm' =>
      simp only [Function.update_self]
      exact ⟨m, m', rfl, rfl, Option.some.inj hy, hmm'⟩
  · simp only [Function.update_of_ne heq] at hy ⊢
    exact h y type hy

theorem Refines.bind (h : Env.Refines Γ env env') {m m' : Meaning} {type : Ty}
    (hmm' : m.Refines m') (hm : m.type = type) (x : String) :
    Env.Refines (Function.update Γ x (some type)) (Function.update env x (some m))
      (Function.update env' x (some m')) :=
  h.update (.some hmm') (congrArg some hm) x

end Env

namespace Term

/-- The new term is typed as the old one, and succeeds where the old one does with
a meaning that refines the old one. -/
def Refined (Γ : Context) (t t' : Term) : Prop :=
  KeepsType Γ t t' ∧ ∀ I, I.Monotone → ∀ env env', Env.Refines Γ env env' →
    OutcomeRefines (eval I env t) (eval I env' t')

variable {I : Interpretation} {Γ : Context}

/-- The new term is typed as the old one, and gives the same result where the old
one gives one. -/
def KeepsResult (Γ : Context) (t t' : Term) : Prop :=
  KeepsType Γ t t' ∧ ∀ I env, env.Fits Γ → ∀ m, eval I env t = .ok m → eval I env t' = .ok m

theorem SameMeaning.keepsResult {t t' : Term} (h : SameMeaning Γ t t') : KeepsResult Γ t t' :=
  ⟨h.1, fun I env henv _ hm => (h.2 I env henv).trans hm⟩

theorem KeepsResult.refl {t : Term} (ht : t.Typed Γ) : KeepsResult Γ t t :=
  (SameMeaning.refl ht).keepsResult

/-- A term that keeps the results of a refined one is refined. -/
theorem Refined.trans_keepsResult {t t' t'' : Term} (h : Refined Γ t t')
    (h' : KeepsResult Γ t' t'') : Refined Γ t t'' := by
  refine ⟨h.1.trans h'.1, fun I hI env env' henv v hv => ?_⟩
  obtain ⟨v', hv', hvv'⟩ := h.2 I hI env env' henv v hv
  exact ⟨v', h'.2 I env' henv.fits_right v' hv', hvv'⟩

theorem struct_refines {es es' : List (Label × Term)} {env env' : Env} (hI : I.Monotone)
    (henv : Env.Refines Γ env env') (ht : (Term.struct es).Typed Γ)
    (h : List.Forall₂ (fun e e' => e.1 = e'.1 ∧ Refined Γ e.2 e'.2) es es') :
    OutcomeRefines (eval I env (.struct es)) (eval I env' (.struct es')) := by
  induction h with
  | nil =>
    rw [eval_struct_nil, eval_struct_nil]
    exact outcomeRefines_ok (Meaning.refines_self rfl)
  | @cons e e' es es' he _ ih =>
    obtain ⟨n, t⟩ := e
    obtain ⟨n', t'⟩ := e'
    obtain ⟨hn, -, ht'⟩ := he
    simp only at hn ht'
    subst hn
    rw [typed_struct_cons] at ht
    rw [eval_struct_cons, eval_struct_cons]
    refine (ht' I hI env env' henv).bind fun m m' _ _ hmm' => ?_
    refine (ih ht.2).bind fun s s' hs _ hss' => outcomeRefines_ok ?_
    have hstype := type_of_eval ht.2 henv.fits hs
    rw [type] at hstype
    exact hmm'.cons n hss' hstype

theorem block_refines {ls ls' : List (String × Term)} {r r' : Term} {env env' : Env}
    (hI : I.Monotone) (henv : Env.Refines Γ env env') (ht : LocalsTyped Γ ls)
    (h : OverLocals Refined Γ ls ls') (hr : Refined (Γ.extend ls) r r') :
    OutcomeRefines (eval I env (.block ls r)) (eval I env' (.block ls' r')) := by
  induction h generalizing env env' with
  | nil =>
    rw [eval_block_nil, eval_block_nil]
    exact hr.2 I hI env env' henv
  | @cons Γ x t t' ls ls' hl _ ih =>
    rw [LocalsTyped] at ht
    rw [eval_block_cons, eval_block_cons]
    refine (hl.2 I hI env env' henv).bind fun m m' hm _ hmm' => ?_
    exact ih (henv.bind hmm' (type_of_eval ht.1 henv.fits hm) x) ht.2 hr

/-- A node over refined children is refined. -/
theorem Over.refined {t t' : Term} (ht : t.Typed Γ) (h : Over Refined Γ t t') :
    Refined Γ t t' := by
  refine ⟨(h.mono fun _ _ _ h => h.1).keepsType ht, fun I hI env env' henv => ?_⟩
  cases h with
  | @reference x type =>
    simp only [Typed] at ht
    obtain ⟨m, m', hm, hm', -, hmm'⟩ := henv x type ht
    rw [eval_reference hm, eval_reference hm']
    exact outcomeRefines_ok hmm'
  | @lambda x p r r' hr =>
    simp only [eval, hr.1.2]
    refine outcomeRefines_ok (Meaning.function_refines fun a a' ha hp => ?_)
    exact hr.2 I hI _ _ (henv.update ha hp x)
  | thunkCall hf =>
    simp only [eval]
    exact (hf.2 I hI env env' henv).bind fun m m' _ _ hmm' => hmm'.apply .none
  | call hf ha =>
    simp only [eval]
    refine (hf.2 I hI env env' henv).bind fun m m' _ _ hmm' => ?_
    exact (ha.2 I hI env env' henv).bind fun v v' _ _ hvv' => hmm'.apply (.some hvv')
  | @selection s s' index hs =>
    simp only [eval]
    exact (hs.2 I hI env env' henv).bind fun m m' _ _ hmm' => hmm'.select index
  | struct hes => exact struct_refines hI henv ht hes
  | block hls hr =>
    simp only [Typed] at ht
    exact block_refines hI henv ht.1 hls hr
  | @compiled u =>
    simp only [Typed] at ht
    simp only [eval]
    exact outcomeRefines_ok (Meaning.ofGraph_refines_self ht.sound)
  | @intrinsic uri type =>
    simp only [eval]
    exact outcomeRefines_ok (.mk (hI uri type))

/-- A typed term refines itself. -/
theorem Refined.refl {t : Term} (ht : t.Typed Γ) : Refined Γ t t := by
  induction t using induct generalizing Γ with
  | reference x type => exact Over.reference.refined ht
  | lambda x p r ih =>
    have hr := ht
    simp only [Typed] at hr
    exact (Over.lambda (ih hr)).refined ht
  | thunkCall f ih =>
    have hf := ht
    simp only [Typed] at hf
    exact (Over.thunkCall (ih hf.1)).refined ht
  | call f a ihf iha =>
    have hcall := ht
    simp only [Typed] at hcall
    exact (Over.call (ihf hcall.1) (iha hcall.2.1)).refined ht
  | selection s index ih =>
    have hs := ht
    simp only [Typed] at hs
    exact (Over.selection (ih hs.1)).refined ht
  | struct es ih =>
    have hes := typed_struct.mp ht
    refine (Over.struct (List.forall₂_same.mpr fun e he => ⟨rfl, ?_⟩)).refined ht
    exact ih e he (hes e he)
  | block ls r ihls ihr =>
    have hblock := ht
    simp only [Typed] at hblock
    have hls := OverLocals.refl hblock.1 fun l hl Γ h => ihls l hl h
    exact (Over.block hls (ihr hblock.2)).refined ht
  | compiled u => exact Over.compiled.refined ht
  | intrinsic uri type => exact Over.intrinsic.refined ht

/-- What a typed term stands for is monotone in definedness, and may stand in an
environment for others. -/
theorem eval_refines_self {t : Term} {env : Env} {m : Meaning} (hI : I.Monotone)
    (ht : t.Typed Γ) (henv : env.GivesMonotone Γ t) (h : eval I env t = .ok m) :
    m.Refines m := by
  obtain ⟨m', hm', hmm'⟩ := (Refined.refl ht.restrict).2 I hI env env henv.refines m h
  rw [h] at hm'
  cases hm'
  exact hmm'

end Term

end GraphFusion
