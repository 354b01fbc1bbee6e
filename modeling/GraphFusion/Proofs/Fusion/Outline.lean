import GraphFusion.Proofs.Fusion.Exactness

/-!
What fusion makes of one node. Patterns see of a fused term only its outline: a
reference, copies of one, a unit, a unit called on a name or on nothing, or none
of these. The outline of what a node fuses to follows from the outlines of its
children, and so does whether fusing the node fails.
-/

namespace GraphFusion

/-- What patterns see of a fused term. -/
inductive Outline where
  | reference (name : String)
  /-- A struct of references to one name. -/
  | copies (name : String)
  | unit
  /-- A unit called on a name, or on nothing. -/
  | called (argument : Option String)
  | other
  deriving DecidableEq

namespace Outline

def isCalled : Outline → Bool
  | called _ => true
  | _ => false

/-- The name that a unit is called on. -/
def argument? : Outline → Option String
  | called argument => argument
  | _ => none

/-- A unit called on elements that refer to the given names, or share the first. -/
def share (names : List String) : Outline :=
  match names.head? with
  | none => called none
  | some x => if names.all (· == x) then called (some x) else other

/-- A struct of fused elements. -/
def pack (elements : List Outline) : Outline :=
  if elements.all isCalled then share (elements.filterMap argument?)
  else
    match elements.head? with
    | some (reference x) => if elements.all (· == reference x) then copies x else other
    | _ => other

/-- A selection from a fused term. -/
def select : Outline → Outline
  | called argument => called argument
  | _ => other

/-- A call of a fused term on a fused term, or on nothing. -/
def apply : Outline → Option Outline → Outline
  | unit, none => called none
  | unit, some (reference x) => called (some x)
  | unit, some (copies x) => called (some x)
  | unit, some (called argument) => called argument
  | _, _ => other

/-- A lambda around a fused term. -/
def bind (parameter : String) (type : Option Ty) : Outline → Outline
  | called none => unit
  | called (some x) => if parameter = x ∧ type.isSome then unit else other
  | _ => other

theorem select_eq_other {o : Outline} (h : ∀ a, o ≠ called a) : o.select = other := by
  cases o with
  | called a => exact absurd rfl (h a)
  | reference | copies | unit | other => rfl

theorem bind_eq_other {o : Outline} (h : ∀ a, o ≠ .called a) (x : String) (p : Option Ty) :
    o.bind x p = .other := by
  cases o with
  | called a => exact absurd rfl (h a)
  | reference | copies | unit | other => rfl

end Outline

namespace Term

mutual

/-- The outline of what a tree fuses to. -/
def fusedOutline : Term → Outline
  | .reference x _ => .reference x
  | .lambda x p r => (fusedOutline r).bind x p
  | .call f none => (fusedOutline f).apply none
  | .call f (some a) => (fusedOutline f).apply (some (fusedOutline a))
  | .selection s _ => (fusedOutline s).select
  | .struct es => .pack (elementOutlines es)
  | .block .. => .other
  | .compiled _ => .unit
  | .intrinsic .. => .other

def elementOutlines : List (Label × Term) → List Outline
  | [] => []
  | (_, t) :: es => fusedOutline t :: elementOutlines es

end

theorem elementOutlines_eq_map (es : List (Label × Term)) :
    elementOutlines es = es.map fun e => e.2.fusedOutline := by
  induction es with
  | nil => rfl
  | cons e es ih =>
    obtain ⟨n, t⟩ := e
    rw [elementOutlines, ih, List.map_cons]

/-- The outline of a fused term. -/
def outline : Term → Outline
  | .reference x _ => .reference x
  | .compiled _ => .unit
  | .call (.compiled _) none => .called none
  | .call (.compiled _) (some (.reference x _)) => .called (some x)
  | .struct es =>
    match replicatedReference? es with
    | some (.reference x _) => .copies x
    | _ => .other
  | _ => .other

/-- The outline of what a node over fused children fuses to. -/
def nodeOutline : Term → Outline
  | .lambda x p r => r.outline.bind x p
  | .call f a => f.outline.apply (a.map outline)
  | .selection s _ => s.outline.select
  | .struct es => .pack (es.map fun e => e.2.outline)
  | t => t.outline

/-- A lambda over the type, which is not data, around a unit called on nothing. -/
def StuckOn (type : Ty) : Term → Prop
  | .lambda _ p r => p = some type ∧ type.isData = false ∧ r.outline = .called none
  | _ => False

section

variable {t : Term}

/-- What an outline says of a term that has it. -/
def HasOutline (t : Term) : Outline → Prop
  | .reference x => ∃ type, t = .reference x type
  | .copies _ => ∃ es, t = .struct es ∧ (replicatedReference? es).isSome
  | .unit => ∃ u, t = .compiled u
  | .called _ => t.calledGraph?.isSome
  | .other => True

theorem hasOutline_outline (t : Term) : t.HasOutline t.outline := by
  unfold outline
  split
  · exact ⟨_, rfl⟩
  · exact ⟨_, rfl⟩
  · rfl
  · rfl
  · rename_i es
    split
    · rename_i hcopies
      exact ⟨es, rfl, by rw [hcopies]; rfl⟩
    · trivial
  · trivial

theorem outline_eq_reference {x : String} :
    t.outline = .reference x ↔ ∃ type, t = .reference x type := by
  constructor
  · intro h
    have hspec := hasOutline_outline t
    rwa [h] at hspec
  · rintro ⟨type, rfl⟩
    rfl

theorem outline_eq_unit : t.outline = .unit ↔ ∃ u, t = .compiled u := by
  constructor
  · intro h
    have hspec := hasOutline_outline t
    rwa [h] at hspec
  · rintro ⟨u, rfl⟩
    rfl

theorem exists_struct_of_copies {x : String} (h : t.outline = .copies x) :
    ∃ es, t = .struct es ∧ (replicatedReference? es).isSome := by
  have hspec := hasOutline_outline t
  rwa [h] at hspec

theorem outline_ne_called (h : t.calledGraph? = none) (a : Option String) :
    t.outline ≠ .called a := by
  intro houtline
  have hspec := hasOutline_outline t
  rw [houtline, HasOutline, h] at hspec
  cases hspec

/-- The name that an argument refers to. -/
def referredName? : Option Term → Option String
  | some (.reference x _) => some x
  | _ => none

theorem outline_callCompiled (u : CompiledUnit) {a : Option Term}
    (ha : ∀ b ∈ a, ∃ x type, b = .reference x type) :
    (Term.call (.compiled u) a).outline = .called (referredName? a) := by
  cases a with
  | none => rfl
  | some b =>
    obtain ⟨x, type, rfl⟩ := ha b rfl
    rfl

theorem outline_of_called {u : CompiledUnit} {a : Option Term}
    (h : t.calledGraph? = some (u, a)) : t.outline = .called (referredName? a) := by
  obtain ⟨rfl, ha⟩ := calledGraph?_eq_some h
  exact outline_callCompiled u ha

theorem isCalled_outline : t.outline.isCalled = t.calledGraph?.isSome := by
  cases h : t.calledGraph? with
  | none =>
    cases houtline : t.outline with
    | called a => exact absurd houtline (outline_ne_called h a)
    | reference | copies | unit | other => rfl
  | some called =>
    rw [outline_of_called (u := called.1) (a := called.2) h]
    rfl

theorem replicatedReference?_cons (label : Label) (x : String) (type : Ty)
    (es : List (Label × Term)) :
    replicatedReference? ((label, .reference x type) :: es) =
      if ((label, .reference x type) :: es).all (fun e => e.2.outline == .reference x) then
        some (.reference x type)
      else none := by
  rw [replicatedReference?]
  refine if_congr ?_ rfl rfl
  rw [List.all_eq_true, List.all_eq_true]
  refine forall₂_congr fun e _ => ?_
  obtain ⟨n, c⟩ := e
  rw [beq_iff_eq, outline_eq_reference]
  cases c <;> simp

/-- A struct with an element that is not called is seen as copies or not at all. -/
theorem outline_struct {es : List (Label × Term)} (h : ∃ e ∈ es, e.2.calledGraph? = none) :
    (Term.struct es).outline = .pack (es.map fun e => e.2.outline) := by
  obtain ⟨e, he, hcalled⟩ := h
  have huncalled : (es.map fun e => e.2.outline).all Outline.isCalled = false := by
    rw [List.all_eq_false]
    refine ⟨e.2.outline, List.mem_map_of_mem he, ?_⟩
    rw [isCalled_outline, hcalled]
    simp
  rw [Outline.pack, huncalled]
  cases es with
  | nil => cases he
  | cons c es =>
    obtain ⟨label, c⟩ := c
    simp only [List.head?_map, List.head?_cons, Option.map_some, Bool.false_eq_true, if_false]
    by_cases hc : ∃ x type, c = .reference x type
    · obtain ⟨x, type, rfl⟩ := hc
      change (match replicatedReference? ((label, .reference x type) :: es) with
        | some (.reference x _) => Outline.copies x
        | _ => .other) = if (((label, Term.reference x type) :: es).map fun e => e.2.outline).all
          (· == .reference x) then .copies x else .other
      rw [replicatedReference?_cons, List.all_map]
      by_cases hall : ((label, Term.reference x type) :: es).all
          (fun e => e.2.outline == .reference x) = true
      · rw [if_pos hall]
        exact (if_pos hall).symm
      · rw [if_neg hall]
        exact (if_neg hall).symm
    · have hnone : replicatedReference? ((label, c) :: es) = none := by
        cases c <;> first | rfl | exact absurd ⟨_, _, rfl⟩ hc
      have hhead : ∀ x, c.outline ≠ .reference x := by
        intro x hx
        obtain ⟨type, rfl⟩ := outline_eq_reference.mp hx
        exact hc ⟨x, type, rfl⟩
      rw [outline, hnone]
      change Outline.other = _
      split
      · rename_i x hx
        exact absurd (Option.some.inj hx) (hhead x)
      · rfl

theorem outlines_of_parted {es : List (Label × Term)} {parts : List (Label × Graph × Option Term)}
    (h : Pattern.Parted es parts) :
    (es.map fun e => e.2.outline) = parts.map fun part => .called (referredName? part.2.2) := by
  induction h with
  | nil => rfl
  | cons hpart _ ih =>
    obtain ⟨u, hcalled, -, -⟩ := hpart
    rw [List.map_cons, List.map_cons, ih, outline_of_called hcalled]

/-- The names that called elements refer to. -/
def referredNames (parts : List (Label × Graph × Option Term)) : List String :=
  parts.filterMap fun part => referredName? part.2.2

theorem referredNames_cons (part : Label × Graph × Option Term)
    (parts : List (Label × Graph × Option Term)) :
    referredNames (part :: parts) = (referredName? part.2.2).toList ++ referredNames parts := by
  rw [referredNames, List.filterMap_cons]
  cases referredName? part.2.2 <;> rfl

theorem pack_parted {es : List (Label × Term)} {parts : List (Label × Graph × Option Term)}
    (h : Pattern.Parted es parts) :
    Outline.pack (es.map fun e => e.2.outline) = .share (referredNames parts) := by
  rw [outlines_of_parted h, Outline.pack, if_pos, List.filterMap_map]
  · rfl
  · rw [List.all_map, List.all_eq_true]
    exact fun part _ => rfl

section

variable {parts : List (Label × Graph × Option Term)}

theorem head?_referredNames {x : String} {type : Ty}
    (hparts : ∀ part ∈ parts, ∀ b ∈ part.2.2, ∃ x type, b = .reference x type)
    (h : (parts.findSome? fun part => part.2.2) = some (.reference x type)) :
    (referredNames parts).head? = some x := by
  induction parts with
  | nil => cases h
  | cons part parts ih =>
    rw [List.forall_mem_cons] at hparts
    rw [List.findSome?_cons] at h
    rw [referredNames_cons]
    cases ha : part.2.2 with
    | none =>
      rw [ha] at h
      exact ih hparts.2 h
    | some b =>
      rw [ha] at h
      cases h
      rfl

/-- Elements without an argument do not stand in the way of copies. -/
theorem all_referredNames (x : String) (type : Ty)
    (hparts : ∀ part ∈ parts, ∀ b ∈ part.2.2, ∃ x type, b = .reference x type) :
    (parts.all fun part => (part.2.2.getD (.reference x type)).outline == .reference x) =
      (referredNames parts).all (· == x) := by
  induction parts with
  | nil => rfl
  | cons part parts ih =>
    rw [List.forall_mem_cons] at hparts
    rw [List.all_cons, ih hparts.2, referredNames_cons, List.all_append]
    cases ha : part.2.2 with
    | none => simp [outline, referredName?]
    | some b =>
      obtain ⟨y, ytype, rfl⟩ := hparts.1 b ha
      simp [outline, referredName?, Bool.beq_eq_decide_eq]

/-- The argument that called elements share, as patterns see it. -/
theorem sharedArgument_outline
    (hparts : ∀ part ∈ parts, ∀ b ∈ part.2.2, ∃ x type, b = .reference x type) :
    (Pattern.sharedArgument parts = none ∧ Outline.share (referredNames parts) = .called none) ∨
      ∃ x type args, Pattern.sharedArgument parts = some (.struct args) ∧
        (replicatedReference? args = some (.reference x type) ∧
            Outline.share (referredNames parts) = .called (some x) ∨
          replicatedReference? args = none ∧ Outline.share (referredNames parts) = .other) := by
  rw [Pattern.sharedArgument]
  cases hfind : parts.findSome? fun part => part.2.2 with
  | none =>
    have hnone := List.findSome?_eq_none_iff.mp hfind
    have hnames : referredNames parts = [] := by
      rw [referredNames, List.filterMap_eq_nil_iff]
      intro part hmem
      rw [hnone part hmem]
      rfl
    exact .inl ⟨rfl, by rw [hnames]; rfl⟩
  | some shared =>
    obtain ⟨part, hmem, hpart⟩ := List.exists_of_findSome?_eq_some hfind
    obtain ⟨x, type, rfl⟩ := hparts part hmem shared hpart
    have hhead := head?_referredNames hparts hfind
    have hall := all_referredNames x type hparts
    refine .inr ⟨x, type, _, rfl, ?_⟩
    cases parts with
    | nil => cases hmem
    | cons first rest =>
      -- the first element has the shared argument, be it its own or not
      have hfirst : first.2.2.getD (.reference x type) = .reference x type := by
        rw [List.findSome?_cons] at hfind
        cases ha : first.2.2 with
        | none => rfl
        | some b =>
          rw [ha] at hfind
          cases hfind
          rfl
      have hcopies : replicatedReference? ((((first :: rest).map fun part =>
          part.2.2.getD (.reference x type)).map fun t => (none, t))) =
            if (referredNames (first :: rest)).all (· == x) then some (.reference x type)
            else none := by
        rw [← hall, List.map_cons, List.map_cons, hfirst, replicatedReference?_cons]
        simp only [List.all_cons, List.all_map, hfirst]
        rfl
      rw [hcopies, Outline.share, hhead]
      by_cases hsame : (referredNames (first :: rest)).all (· == x) = true
      · exact .inl ⟨if_pos hsame, if_pos hsame⟩
      · exact .inr ⟨if_neg hsame, if_neg hsame⟩

end

/-- Fusing the node gives a term with the outline that the node announces; it fails
exactly when the node is stuck, and then on the type that the node is stuck on. -/
def Resolves (t : Term) : Prop :=
  Ensures (fuseNode t) (fun p => p.1.outline = t.nodeOutline ∧ ∀ type, ¬ t.StuckOn type)
    fun e => ∃ type, t.StuckOn type ∧ e = .graph (.invalid (.parameterNotData type))

theorem resolves_of_unmatched (hmatch : Pattern.firstMatch? t Pattern.all = .ok none)
    (houtline : t.outline = t.nodeOutline) (hstuck : ∀ type, ¬ t.StuckOn type) : t.Resolves :=
  fuseWithin_stop hmatch ⟨houtline, hstuck⟩

theorem resolves_of_match {p : Pattern} {next : Term}
    (hmatch : Pattern.firstMatch? t Pattern.all = .ok (some (p, next)))
    (htype : next.type = t.type) (hbound : t.fusionBound = 1)
    (houtline : next.outline = t.nodeOutline) (hstuck : ∀ type, ¬ t.StuckOn type) :
    t.Resolves := by
  rw [Resolves, fuseNode, hbound]
  exact fuseWithin_match hmatch htype (ensures_pure ⟨houtline, hstuck⟩)

theorem resolves_of_error {type : Ty} (hmatch : Pattern.firstMatch? t Pattern.all =
      .error (.graph (.invalid (.parameterNotData type))))
    (hbound : t.fusionBound = 1) (hstuck : t.StuckOn type) : t.Resolves := by
  rw [Resolves, fuseNode, hbound]
  refine Ensures.bind (P := fun _ => False) (ensures_mk_pure ?_ ?_) fun _ h => h.elim
  · intro found hfound
    rw [hmatch] at hfound
    cases hfound
  · intro e he
    rw [hmatch] at he
    cases he
    exact ⟨type, hstuck, rfl⟩

variable {Γ : Context}

/-- A lambda around a unit called on a name is left alone unless it binds the name. -/
theorem resolves_lambda_of_argument {x y : String} {p : Option Ty} {ytype : Ty} {r : Term}
    {u : CompiledUnit} (ht : (Term.lambda x p r).Typed Γ)
    (hr : r.calledGraph? = some (u, some (.reference y ytype))) :
    (Term.lambda x p r).Resolves := by
  have houtline : r.outline = .called (some y) := outline_of_called hr
  have hstuck : ∀ type, ¬ (Term.lambda x p r).StuckOn type := by
    rintro type ⟨-, -, hnone⟩
    rw [houtline] at hnone
    cases hnone
  by_cases hwraps : x = y ∧ p.isSome
  · obtain ⟨rfl, hp⟩ := hwraps
    obtain ⟨type, rfl⟩ := Option.isSome_iff_exists.mp hp
    have hsame := Pattern.lambdaWrappingGraph_same ht hr
    have hmatch : Pattern.firstMatch? (.lambda x (some type) r) Pattern.all =
        .ok (some (.lambdaWrappingGraph, .compiled u)) := by
      simp [Pattern.firstMatch?, Pattern.all, Pattern.rewrite?, hr]
    refine resolves_of_match hmatch hsame.1.2 rfl ?_ hstuck
    rw [nodeOutline, houtline]
    simp [Outline.bind, outline]
  · have hmatch : Pattern.firstMatch? (.lambda x p r) Pattern.all = .ok none := by
      cases p <;> simp_all [Pattern.firstMatch?, Pattern.all, Pattern.rewrite?]
    refine resolves_of_unmatched hmatch ?_ hstuck
    rw [nodeOutline, houtline]
    simp [Outline.bind, outline, hwraps]

/-- A lambda around a unit called on nothing becomes a unit, which ignores its argument
if there is one. This needs an argument that is data. -/
theorem resolves_lambda_of_thunk {x : String} {p : Option Ty} {r : Term} {u : CompiledUnit}
    (ht : (Term.lambda x p r).Typed Γ) (hr : r.calledGraph? = some (u, none)) :
    (Term.lambda x p r).Resolves := by
  have houtline : r.outline = .called none := outline_of_called hr
  have hnode : Outline.unit = (Term.lambda x p r).nodeOutline := by
    rw [nodeOutline, houtline]
    rfl
  cases p with
  | none =>
    have hsame := Pattern.lambdaWrappingNoArgGraph_same_none ht hr
    have hmatch : Pattern.firstMatch? (.lambda x none r) Pattern.all =
        .ok (some (.lambdaWrappingNoArgGraph, .compiled u)) := by
      simp [Pattern.firstMatch?, Pattern.all, Pattern.rewrite?, hr]
    refine resolves_of_match hmatch hsame.1.2 rfl hnode ?_
    rintro type ⟨htype, -⟩
    cases htype
  | some type =>
    have hbefore : ∀ q ∈ [Pattern.lambdaWrappingGraph, .structOfCalledGraphs,
        .selectionFromCalledGraph, .calledComposition, .calledGraphOnReplicatedArg],
        q.rewrite? (.lambda x (some type) r) = .ok none := by
      simp [Pattern.rewrite?, hr]
    cases hdata : type.isData with
    | true =>
      obtain ⟨u', hrewrite, hsame⟩ := Pattern.lambdaWrappingNoArgGraph_same_some ht hr hdata
      refine resolves_of_match (firstMatch?_append _ [] hbefore hrewrite) hsame.1.2 rfl hnode ?_
      rintro type' ⟨htype, hfalse, -⟩
      cases htype
      rw [hdata] at hfalse
      cases hfalse
    | false =>
      have hmatch : Pattern.firstMatch? (.lambda x (some type) r) Pattern.all =
          .error (.graph (.invalid (.parameterNotData type))) := by
        refine (firstMatch?_skip _ [.lambdaWrappingNoArgGraph] hbefore).trans ?_
        rw [Pattern.firstMatch?, Pattern.lambdaWrappingNoArgGraph_error ht hr hdata]
        rfl
      exact resolves_of_error hmatch rfl ⟨rfl, hdata, houtline⟩

theorem resolves_lambda {x : String} {p : Option Ty} {r : Term}
    (ht : (Term.lambda x p r).Typed Γ) : (Term.lambda x p r).Resolves := by
  cases hr : r.calledGraph? with
  | none =>
    have hmatch : Pattern.firstMatch? (.lambda x p r) Pattern.all = .ok none := by
      cases p <;> simp [Pattern.firstMatch?, Pattern.all, Pattern.rewrite?, hr]
    refine resolves_of_unmatched hmatch (Outline.bind_eq_other (outline_ne_called hr) x p).symm ?_
    rintro type ⟨-, -, hnone⟩
    exact outline_ne_called hr none hnone
  | some called =>
    obtain ⟨u, a⟩ := called
    cases a with
    | none => exact resolves_lambda_of_thunk ht hr
    | some b =>
      obtain ⟨y, ytype, rfl⟩ := (calledGraph?_eq_some hr).2 b rfl
      exact resolves_lambda_of_argument ht hr

theorem resolves_selection {s : Term} {index : Nat} (ht : (Term.selection s index).Typed Γ) :
    (Term.selection s index).Resolves := by
  cases hs : s.calledGraph? with
  | none =>
    have hmatch : Pattern.firstMatch? (.selection s index) Pattern.all = .ok none := by
      simp [Pattern.firstMatch?, Pattern.all, Pattern.rewrite?, hs]
    exact resolves_of_unmatched hmatch (Outline.select_eq_other (outline_ne_called hs)).symm
      fun type h => h
  | some called =>
    obtain ⟨u, a⟩ := called
    obtain ⟨u', hrewrite, hsame⟩ := Pattern.selectionFromCalledGraph_same ht hs
    have hmatch := firstMatch?_append [.lambdaWrappingGraph, .structOfCalledGraphs]
      [.calledComposition, .calledGraphOnReplicatedArg, .lambdaWrappingNoArgGraph]
      (by simp [Pattern.rewrite?]) hrewrite
    refine resolves_of_match hmatch hsame.1.2 rfl ?_ fun type h => h
    rw [nodeOutline, outline_of_called hs]
    exact outline_callCompiled u' (calledGraph?_eq_some hs).2

/-- A call of anything but a unit is left alone. -/
theorem resolves_call_of_ne {f : Term} {a : Option Term} (hf : ∀ u, f ≠ .compiled u) :
    (Term.call f a).Resolves := by
  have hmatch : Pattern.firstMatch? (.call f a) Pattern.all = .ok none := by
    cases f with
    | compiled u => exact absurd rfl (hf u)
    | _ => simp [Pattern.firstMatch?, Pattern.all, Pattern.rewrite?]
  have houtline : (Term.call f a).outline = .other := by
    cases f with
    | compiled u => exact absurd rfl (hf u)
    | _ => rfl
  have hnode : (Term.call f a).nodeOutline = .other := by
    rw [nodeOutline]
    cases hunit : f.outline with
    | unit =>
      obtain ⟨u, rfl⟩ := outline_eq_unit.mp hunit
      exact absurd rfl (hf u)
    | reference | copies | called | other => rfl
  exact resolves_of_unmatched hmatch (houtline.trans hnode.symm) fun type h => h

/-- A call of a unit on what patterns make nothing of. -/
theorem resolves_call_of_opaque {u : CompiledUnit} {b : Term} (hcalled : b.calledGraph? = none)
    (href : ∀ x type, b ≠ .reference x type)
    (hcopies : ∀ es, b = .struct es → replicatedReference? es = none) :
    (Term.call (.compiled u) (some b)).Resolves := by
  have hmatch : Pattern.firstMatch? (.call (.compiled u) (some b)) Pattern.all = .ok none := by
    cases b with
    | struct es =>
      simp [Pattern.firstMatch?, Pattern.all, Pattern.rewrite?, hcalled, hcopies es rfl]
    | _ => simp [Pattern.firstMatch?, Pattern.all, Pattern.rewrite?, hcalled]
  have houtline : (Term.call (.compiled u) (some b)).outline = .other := by
    cases b with
    | reference x type => exact absurd rfl (href x type)
    | _ => rfl
  have hnode : (Term.call (.compiled u) (some b)).nodeOutline = .other := by
    rw [nodeOutline, Option.map_some, outline]
    cases hb : b.outline with
    | reference x =>
      obtain ⟨type, heq⟩ := outline_eq_reference.mp hb
      exact absurd heq (href x type)
    | copies x =>
      obtain ⟨es, heq, hsome⟩ := exists_struct_of_copies hb
      rw [hcopies es heq] at hsome
      cases hsome
    | called a => exact absurd hb (outline_ne_called hcalled a)
    | unit | other => rfl
  exact resolves_of_unmatched hmatch (houtline.trans hnode.symm) fun type h => h

theorem resolves_call_of_called {u inner : CompiledUnit} {b : Term} {c : Option Term}
    (ht : (Term.call (.compiled u) (some b)).Typed Γ) (hb : b.calledGraph? = some (inner, c)) :
    (Term.call (.compiled u) (some b)).Resolves := by
  obtain ⟨u', hrewrite, hsame⟩ := Pattern.calledComposition_same ht hb
  have hmatch := firstMatch?_append
    [.lambdaWrappingGraph, .structOfCalledGraphs, .selectionFromCalledGraph]
    [.calledGraphOnReplicatedArg, .lambdaWrappingNoArgGraph] (by simp [Pattern.rewrite?]) hrewrite
  have hargument := (calledGraph?_eq_some hb).2
  have hbound : fusionBound (.call (.compiled u) (some b)) = 1 := by
    rw [(calledGraph?_eq_some hb).1]
    rfl
  refine resolves_of_match hmatch hsame.1.2 hbound ?_ fun type h => h
  rw [nodeOutline, Option.map_some, outline_of_called hb]
  exact outline_callCompiled u' hargument

theorem resolves_call_of_copies {u : CompiledUnit} {es : List (Label × Term)} {shared : Term}
    (ht : (Term.call (.compiled u) (some (.struct es))).Typed Γ)
    (hcopies : replicatedReference? es = some shared) :
    (Term.call (.compiled u) (some (.struct es))).Resolves := by
  obtain ⟨u', hrewrite, hsame⟩ := Pattern.calledGraphOnReplicatedArg_same ht hcopies
  obtain ⟨x, type, rfl, -⟩ := Pattern.replicatedReference?_eq_some hcopies
  have hmatch := firstMatch?_append [.lambdaWrappingGraph, .structOfCalledGraphs,
    .selectionFromCalledGraph, .calledComposition] [.lambdaWrappingNoArgGraph]
    (by simp [Pattern.rewrite?, calledGraph?]) hrewrite
  refine resolves_of_match hmatch hsame.1.2 rfl ?_ fun type h => h
  rw [nodeOutline, Option.map_some, outline, outline, outline, hcopies]
  rfl

theorem resolves_call {f : Term} {a : Option Term} (ht : (Term.call f a).Typed Γ) :
    (Term.call f a).Resolves := by
  by_cases hf : ∃ u, f = .compiled u
  · obtain ⟨u, rfl⟩ := hf
    cases a with
    | none => exact ensures_pure ⟨rfl, fun type h => h⟩
    | some b =>
      cases hb : b.calledGraph? with
      | some called => exact resolves_call_of_called ht hb
      | none =>
        cases b with
        | reference x type => exact ensures_pure ⟨rfl, fun type h => h⟩
        | struct es =>
          cases hcopies : replicatedReference? es with
          | some shared => exact resolves_call_of_copies ht hcopies
          | none =>
            refine resolves_call_of_opaque hb (by simp) fun es' heq => ?_
            cases heq
            exact hcopies
        | _ => exact resolves_call_of_opaque hb (by simp) (by simp)
  · exact resolves_call_of_ne fun u hu => hf ⟨u, hu⟩

theorem references_of_parted {es : List (Label × Term)}
    {parts : List (Label × Graph × Option Term)} (h : Pattern.Parted es parts) :
    ∀ part ∈ parts, ∀ b ∈ part.2.2, ∃ x type, b = .reference x type :=
  forall_of_forall₂ h fun _ _ _ hpart => by
    obtain ⟨u, hcalled, -, -⟩ := hpart
    exact (calledGraph?_eq_some hcalled).2

theorem resolves_struct {es : List (Label × Term)} (ht : (Term.struct es).Typed Γ) :
    (Term.struct es).Resolves := by
  rcases Pattern.structOfCalledGraphs_same ht with
    ⟨hnone, huncalled⟩ | ⟨parts, u, hparted, hrewrite, hsame⟩
  · have hmatch : Pattern.firstMatch? (.struct es) Pattern.all = .ok none := by
      simp only [Pattern.firstMatch?, Pattern.all, hnone, ok_bind]
      simp [Pattern.rewrite?]
    exact resolves_of_unmatched hmatch (outline_struct huncalled) fun type h => h
  · have hmatch := firstMatch?_append [.lambdaWrappingGraph]
      [.selectionFromCalledGraph, .calledComposition, .calledGraphOnReplicatedArg,
        .lambdaWrappingNoArgGraph] (by simp [Pattern.rewrite?]) hrewrite
    have hnode : (Term.struct es).nodeOutline = .share (referredNames parts) :=
      pack_parted hparted
    refine fuseWithin_match hmatch hsame.1.2 ?_
    rw [hnode]
    rcases sharedArgument_outline (references_of_parted hparted) with
      ⟨hnone, hshare⟩ | ⟨x, type, args, hargs, ⟨hcopies, hshare⟩ | ⟨hcopies, hshare⟩⟩
    · rw [hnone, hshare]
      exact fuseWithin_stop rfl ⟨rfl, fun type h => h⟩
    · rw [hargs] at hsame ⊢
      rw [hshare]
      obtain ⟨u', hrewrite', hsame'⟩ := Pattern.calledGraphOnReplicatedArg_same hsame.1.1 hcopies
      have hmatch' := firstMatch?_append [.lambdaWrappingGraph, .structOfCalledGraphs,
        .selectionFromCalledGraph, .calledComposition] [.lambdaWrappingNoArgGraph]
        (by simp [Pattern.rewrite?, calledGraph?]) hrewrite'
      exact fuseWithin_match hmatch' (hsame'.1.2.trans hsame.1.2)
        (ensures_pure ⟨rfl, fun type h => h⟩)
    · rw [hargs, hshare]
      refine fuseWithin_stop ?_ ⟨rfl, fun type h => h⟩
      simp [Pattern.firstMatch?, Pattern.all, Pattern.rewrite?, calledGraph?, hcopies]

theorem resolves {t : Term} (ht : t.Typed Γ) : t.Resolves := by
  cases t with
  | lambda x p r => exact resolves_lambda ht
  | call f a => exact resolves_call ht
  | selection s index => exact resolves_selection ht
  | struct es => exact resolves_struct ht
  | reference | block | compiled | intrinsic => exact ensures_pure ⟨rfl, fun type h => h⟩

end

end Term

end GraphFusion
