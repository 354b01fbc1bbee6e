import GraphFusion.Proofs.Fusion.Normalization

/-!
Glue around compiled units: references to data, selections, structs, called
units, blocks and called lambdas. The first pass leaves no called lambda, the
second no block, and the third brings neither back; the last one leaves no
reference that is not the argument of a unit.
-/

namespace GraphFusion

namespace Term

/-- What a glue term is used as: data, or one of the two things that glue calls. -/
inductive GlueKind where
  | data
  | unit
  | lambda

/-- Glue terms, with called lambdas and with blocks where these are allowed. -/
inductive Glue (lambdas blocks : Bool) : GlueKind → Term → Prop
  | reference {x : String} {type : Ty} :
      type.isData = true → Glue lambdas blocks .data (.reference x type)
  | selection {s : Term} {index : Nat} :
      Glue lambdas blocks .data s → Glue lambdas blocks .data (.selection s index)
  | struct {es : List (Label × Term)} :
      (∀ e ∈ es, Glue lambdas blocks .data e.2) → Glue lambdas blocks .data (.struct es)
  | unit {u : CompiledUnit} : Glue lambdas blocks .unit (.compiled u)
  | thunkCall {f : Term} :
      Glue lambdas blocks .unit f → Glue lambdas blocks .data (.call f none)
  | unitCall {f a : Term} : Glue lambdas blocks .unit f → Glue lambdas blocks .data a →
      Glue lambdas blocks .data (.call f (some a))
  | lambda {x : String} {type : Ty} {r : Term} : type.isData = true →
      Glue lambdas blocks .data r → Glue lambdas blocks .lambda (.lambda x (some type) r)
  | lambdaCall {f a : Term} : lambdas = true → Glue lambdas blocks .lambda f →
      Glue lambdas blocks .data a → Glue lambdas blocks .data (.call f (some a))
  | block {ls : List (String × Term)} {r : Term} : blocks = true →
      (∀ l ∈ ls, Glue lambdas blocks .data l.2) → Glue lambdas blocks .data r →
      Glue lambdas blocks .data (.block ls r)

variable {l b l' b' : Bool} {k : GlueKind} {Γ : Context} {t t' : Term}

theorem Glue.mono (hl : l = true → l' = true) (hb : b = true → b' = true) (h : Glue l b k t) :
    Glue l' b' k t := by
  induction h with
  | reference hdata => exact .reference hdata
  | selection _ ih => exact .selection ih
  | struct _ ih => exact .struct ih
  | unit => exact .unit
  | thunkCall _ ih => exact .thunkCall ih
  | unitCall _ _ ihf iha => exact .unitCall ihf iha
  | lambda hdata _ ih => exact .lambda hdata ih
  | lambdaCall hallowed _ _ ihf iha => exact .lambdaCall (hl hallowed) ihf iha
  | block hallowed _ _ ihls ihr => exact .block (hb hallowed) ihls ihr

/-- The new term is typed as the old one, and glue of the second sort when the old
one is glue of the first. -/
def Reshapes (l b l' b' : Bool) (Γ : Context) (t t' : Term) : Prop :=
  KeepsType Γ t t' ∧ ∀ k, Glue l b k t → Glue l' b' k t'

theorem OverLocals.glue {ls ls' : List (String × Term)}
    (h : OverLocals (Reshapes l b l' b') Γ ls ls') (hls : ∀ l₀ ∈ ls, Glue l b .data l₀.2) :
    ∀ l₀ ∈ ls', Glue l' b' .data l₀.2 := by
  induction h with
  | nil => simp
  | cons ht _ ih =>
    rw [List.forall_mem_cons] at hls ⊢
    exact ⟨ht.2 _ hls.1, ih hls.2⟩

/-- A node over reshaped children is reshaped, unless it is of a kind that the new
sort of glue does not have. -/
theorem Over.glue (hover : Over (Reshapes l b l' b') Γ t t') (h : Glue l b k t)
    (hl : ∀ f a, t = .call f (some a) → Glue l b .lambda f → l' = true)
    (hb : ∀ ls r, t = .block ls r → b' = true) : Glue l' b' k t' := by
  cases h with
  | reference hdata =>
    cases hover
    exact .reference hdata
  | selection hs =>
    cases hover with
    | selection hR => exact .selection (hR.2 _ hs)
  | struct hes =>
    cases hover with
    | struct hR => exact .struct (forall_of_forall₂ hR fun e _ he hR => hR.2.2 _ (hes e he))
  | unit =>
    cases hover
    exact .unit
  | thunkCall hf =>
    cases hover with
    | thunkCall hR => exact .thunkCall (hR.2 _ hf)
  | unitCall hf ha =>
    cases hover with
    | call hRf hRa => exact .unitCall (hRf.2 _ hf) (hRa.2 _ ha)
  | lambda hdata hr =>
    cases hover with
    | lambda hR => exact .lambda hdata (hR.2 _ hr)
  | lambdaCall _ hf ha =>
    cases hover with
    | call hRf hRa => exact .lambdaCall (hl _ _ rfl hf) (hRf.2 _ hf) (hRa.2 _ ha)
  | block _ hls hr =>
    cases hover with
    | block hRls hRr => exact .block (hb _ _ rfl) (hRls.glue hls) (hRr.2 _ hr)

theorem Glue.calledLambdaToBlock?_eq_none (h : Glue false b k t) :
    t.calledLambdaToBlock? = none := by
  cases h with
  | thunkCall hf | unitCall hf _ =>
    cases hf
    rfl
  | lambdaCall hallowed => cases hallowed
  | _ => rfl

/-- Without called lambdas. -/
theorem calledLambdasToBlocks_reshapes (ht : t.Typed Γ) :
    ∃ t' n, t.calledLambdasToBlocks = .ok (t', n) ∧ Reshapes true true false true Γ t t' := by
  refine rewriteAll_keeps (fun _ _ _ h => h.1.2) (fun Γ t t' ht hover => ?_) ht
  have hkeeps := (hover.mono fun _ _ _ h => h.1).keepsType ht
  refine ⟨_, rfl, ?_, fun k h => ?_⟩
  · cases hreplacement : t'.calledLambdaToBlock? with
    | none => exact hkeeps
    | some t'' => exact hkeeps.trans (calledLambdaToBlock?_same hkeeps.1 hreplacement).1
  · by_cases hcall : ∃ f a, t = .call f (some a) ∧ Glue true true .lambda f
    · obtain ⟨f, a, rfl, hf⟩ := hcall
      cases hover with
      | call hRf hRa =>
        have hf' := hRf.2 _ hf
        cases hf' with
        | lambda hdata hr =>
          cases h with
          | unitCall hu =>
        cases hu
        cases hf
          | lambdaCall _ _ ha =>
            refine .block rfl ?_ hr
            rw [List.forall_mem_singleton]
            exact hRa.2 _ ha
    · have hglue := hover.glue h (fun f a heq hf => (hcall ⟨f, a, heq, hf⟩).elim) fun _ _ _ => rfl
      rw [hglue.calledLambdaToBlock?_eq_none]
      exact hglue

theorem Glue.elementOfStruct? (h : Glue l b k t) (hsome : t.elementOfStruct? = some t') :
    Glue l b k t' := by
  unfold Term.elementOfStruct? at hsome
  split at hsome
  · rename_i es index
    obtain ⟨e, hindex, rfl⟩ := Option.map_eq_some_iff.mp hsome
    cases h with
    | selection hs =>
      cases hs with
      | struct hes => exact hes e (List.mem_of_getElem? hindex)
  · cases hsome

/-- No selection brings a called lambda or a block back. -/
theorem selectionsFromStructs_reshapes (ht : t.Typed Γ) :
    ∃ t' n, t.selectionsFromStructs = .ok (t', n) ∧ Reshapes l b l b Γ t t' := by
  refine rewriteAll_keeps (fun _ _ _ h => h.1.2) (fun Γ t t' ht hover => ?_) ht
  have hkeeps := (hover.mono fun _ _ _ h => h.1).keepsType ht
  have hglue : ∀ k, Glue l b k t → Glue l b k t' := by
    intro k h
    refine hover.glue h (fun f a heq hf => ?_) fun ls r heq => ?_
    · subst heq
      cases h with
      | unitCall hu =>
        cases hu
        cases hf
      | lambdaCall hallowed => exact hallowed
    · subst heq
      cases h with
      | block hallowed => exact hallowed
  refine ⟨_, rfl, ?_, fun k h => ?_⟩
  · cases hreplacement : t'.elementOfStruct? with
    | none => exact hkeeps
    | some t'' => exact hkeeps.trans (elementOfStruct?_keepsResult hkeeps.1 hreplacement).1
  · cases hreplacement : t'.elementOfStruct? with
    | none => exact hglue k h
    | some t'' => exact (hglue k h).elementOfStruct? hreplacement

theorem rebuild_ensures {node : Term} {parts : List Term} {Q : Term → Prop}
    (h : ∀ c, node.withChildren parts = .ok c → Q c) :
    Ensures (rebuild node parts) Q (fun _ => True) := by
  refine ensures_mk_pure (fun c hc => ?_) fun _ _ => trivial
  cases hparts : node.withChildren parts with
  | error e =>
    rw [hparts] at hc
    cases hc
  | ok c' =>
    rw [hparts] at hc
    cases hc
    exact h c hparts

section

variable {Q : Term → Prop} {used : List String} {s : Substitution}

/-- What holds of everything substituted, and of the name that a parameter gets, holds of
everything substituted below the binder. -/
theorem enterLambda_ensures (hs : ∀ e ∈ s, Q e.2) {x : String} {p : Option Ty}
    (hreference : ∀ z type, p = some type → Q (.reference z type)) :
    Ensures (enterLambda used s x p) (fun q => ∀ e ∈ q.2, Q e.2) (fun _ => True) := by
  intro σ
  cases hcapture : (s.without x).mentions x with
  | false =>
    rw [enterLambda_same hcapture σ p]
    exact fun e he => hs e (Substitution.mem_of_mem_without he)
  | true =>
    rw [enterLambda_fresh hcapture σ p]
    intro e he
    rcases Substitution.mem_renamed he with ⟨type, hp, rfl⟩ | he
    · exact hreference _ type hp
    · exact hs e he

/-- What inlining makes of the locals joins what is substituted. -/
theorem inlineLocals_ensures {ls : List (String × Term)}
    (h : ∀ l ∈ ls, ∀ s : Substitution, (∀ e ∈ s, Q e.2) →
      Ensures (inline used s l.2) Q (fun _ => True)) (hs : ∀ e ∈ s, Q e.2) :
    Ensures (inlineLocals used s ls) (fun inner => ∀ e ∈ inner, Q e.2) (fun _ => True) := by
  induction ls generalizing s with
  | nil => exact ensures_pure hs
  | cons l ls ih =>
    rw [List.forall_mem_cons] at h
    refine (h.1 s hs).bind fun t ht => ih h.2 ?_
    exact List.forall_mem_cons.mpr ⟨ht, fun e he => hs e (Substitution.mem_of_mem_without he)⟩

end

/-- A substitution of glue without blocks. -/
def Substitution.Flat (s : Substitution) : Prop := ∀ e ∈ s, Glue false false .data e.2

theorem inlineElements_flat {used : List String} {s : Substitution} {es : List (Label × Term)}
    (h : ∀ e ∈ es, Ensures (inline used s e.2) (Glue false false .data) (fun _ => True)) :
    Ensures (inlineElements used s es) (fun parts => ∀ t ∈ parts, Glue false false .data t)
      (fun _ => True) := by
  induction es with
  | nil => exact ensures_pure (by simp)
  | cons e es ih =>
    rw [List.forall_mem_cons] at h
    exact h.1.bind fun t ht => (ih h.2).bind fun parts hparts =>
      ensures_pure (List.forall_mem_cons.mpr ⟨ht, hparts⟩)

/-- Inlining glue without called lambdas leaves no block. -/
theorem inline_flat {used : List String} (h : Glue false true k t) {s : Substitution}
    (hs : s.Flat) : Ensures (inline used s t) (Glue false false k) (fun _ => True) := by
  induction h generalizing s with
  | reference hdata => exact ensures_pure (Substitution.image_of_forall hs (.reference hdata))
  | selection _ ih =>
    rw [inline]
    refine (ih hs).bind fun t' ht' => rebuild_ensures fun c hc => ?_
    rw [eq_selection_of_select hc]
    exact .selection ht'
  | @struct es _ ih =>
    rw [inline]
    refine (inlineElements_flat fun e he => ih e he hs).bind fun parts hparts => ?_
    refine rebuild_ensures fun c hc => ?_
    by_cases hlen : parts.length = es.length
    · rw [withChildren_struct hlen] at hc
      cases hc
      exact .struct fun e he => hparts e.2 (List.of_mem_zip he).2
    · simp [withChildren, children, hlen] at hc
  | unit => exact ensures_pure .unit
  | thunkCall _ ih =>
    rw [inline]
    refine (ih hs).bind fun f' hf' => rebuild_ensures fun c hc => ?_
    rw [eq_call_of_apply hc]
    exact .thunkCall hf'
  | unitCall _ _ ihf iha =>
    rw [inline]
    refine (ihf hs).bind fun f' hf' => (iha hs).bind fun a' ha' => rebuild_ensures fun c hc => ?_
    rw [eq_call_of_apply hc]
    exact .unitCall hf' ha'
  | @lambda x type r hdata _ ih =>
    rw [inline]
    have hreference : ∀ z type', some type = some type' →
        Glue false false .data (.reference z type') := by
      rintro z _ ⟨⟩
      exact .reference hdata
    exact (enterLambda_ensures hs hreference).bind fun p hp => (ih hp).bind fun r' hr' =>
      ensures_pure (.lambda hdata hr')
  | lambdaCall hallowed => cases hallowed
  | block _ _ _ ihls ihr =>
    rw [inline]
    refine (inlineLocals_ensures (fun l hl s hs => ihls l hl hs) hs).bind fun inner hinner => ?_
    exact ensures_modify.bind fun _ _ => ihr hinner

theorem inlineBlocks_flat (h : Glue false true k t) {n : Nat}
    (hrun : t.inlineBlocks = .ok (t', n)) : Glue false false k t' := by
  have hflat : Ensures (inline t.names [] t) (Glue false false k) fun _ => True :=
    inline_flat h fun _ h => by cases h
  specialize hflat .start
  rw [inlineBlocks] at hrun
  generalize (inline t.names [] t).run.run .start = outcome at hflat hrun
  rcases outcome with ⟨e | t'', s⟩
  · cases hrun
  · cases hrun
    exact hflat

/-- Glue without called lambdas and blocks whose references are all arguments of
units. -/
inductive Wrapped : Term → Prop
  | thunkCall {u : CompiledUnit} : Wrapped (.call (.compiled u) none)
  | referenceCall {u : CompiledUnit} {x : String} {type : Ty} :
      Wrapped (.call (.compiled u) (some (.reference x type)))
  | unitCall {u : CompiledUnit} {a : Term} : Wrapped a → Wrapped (.call (.compiled u) (some a))
  | selection {s : Term} {index : Nat} : Wrapped s → Wrapped (.selection s index)
  | struct {es : List (Label × Term)} : (∀ e ∈ es, Wrapped e.2) → Wrapped (.struct es)

/-- A wrapped term, or a reference that is still to be wrapped. -/
def Wrappable (t : Term) : Prop := Wrapped t ∨ t.isDataReference = true

theorem exists_reference {t : Term} (h : t.isDataReference = true) :
    ∃ x type, t = .reference x type := by
  rw [isDataReference, Bool.and_eq_true] at h
  cases t with
  | reference x type => exact ⟨x, type, rfl⟩
  | _ => cases h.1

theorem Wrappable.wraps (h : Wrappable t) (hwraps : Wraps Γ t t') : Wrapped t' := by
  have hwrap := hwraps.2
  rcases h with h | h
  · have hnot : ¬ t.isDataReference = true := by
      intro href
      obtain ⟨x, type, rfl⟩ := exists_reference href
      cases h
    rw [if_neg hnot] at hwrap
    rwa [hwrap]
  · rw [if_pos h] at hwrap
    obtain ⟨u, rfl⟩ := hwrap
    obtain ⟨x, type, rfl⟩ := exists_reference h
    exact .referenceCall

/-- What the last pass makes of the parts of flat glue. -/
structure Wrapping (Γ : Context) (t t' : Term) : Prop where
  keepsType : KeepsType Γ t t'
  data : Glue false false .data t → Wrappable t'
  unit : Glue false false .unit t → ∃ u, t' = .compiled u
  lambda : Glue false false .lambda t →
    ∃ x type r, t' = .lambda x (some type) r ∧ type.isData = true ∧ Wrapped r

theorem wrapChildren?_wrapping (ht : t.Typed Γ) (hover : Over Wrapping Γ t t') :
    ∃ replacement, t'.wrapChildren? = .ok replacement ∧ Wrapping Γ t (replacement.getD t') := by
  have hkeeps := (hover.mono fun _ _ _ h => h.keepsType).keepsType ht
  obtain ⟨replacement, hok, hsame, hchildren⟩ := wrapChildren?_spec hkeeps.1
  refine ⟨replacement, hok, hkeeps.trans hsame.1, fun h => ?_, fun h => ?_, fun h => ?_⟩
  · cases h with
    | @reference x type hdata =>
      cases hover
      cases hok
      exact .inr (by simp [isDataReference, isReference, Term.type, hdata])
    | selection hs =>
      cases hover with
      | selection hwrapping =>
        rcases hchildren with ⟨u, a, heq, -⟩ | hwraps
        · cases heq
        · generalize replacement.getD _ = new at hwraps ⊢
          cases hwraps with
          | selection hw => exact .inl (.selection ((hwrapping.data hs).wraps hw))
    | struct hes =>
      cases hover with
      | struct hwrapping =>
        rcases hchildren with ⟨u, a, heq, -⟩ | hwraps
        · cases heq
        · generalize replacement.getD _ = new at hwraps ⊢
          cases hwraps with
          | struct hw =>
            have hwrappable := forall_of_forall₂ (Q := fun e => Wrappable e.2) hwrapping
              fun e _ he hR => hR.2.data (hes e he)
            have hwrapped := forall_of_forall₂ (Q := fun e => Wrapped e.2) hw
              fun e _ he hR => (hwrappable e he).wraps hR.2
            exact .inl (.struct hwrapped)
    | thunkCall hf =>
      cases hover with
      | thunkCall hwrapping =>
        obtain ⟨u, rfl⟩ := hwrapping.unit hf
        cases hok
        exact .inl .thunkCall
    | unitCall hf ha =>
      cases hover with
      | call hfwrapping hawrapping =>
        obtain ⟨u, rfl⟩ := hfwrapping.unit hf
        cases hok
        rcases hawrapping.data ha with hwrapped | href
        · exact .inl (.unitCall hwrapped)
        · obtain ⟨x, type, rfl⟩ := exists_reference href
          exact .inl .referenceCall
    | lambdaCall hallowed => cases hallowed
    | block hallowed => cases hallowed
  · cases h with
    | @unit u =>
      cases hover
      cases hok
      exact ⟨u, rfl⟩
  · cases h with
    | lambda hdata hr =>
      cases hover with
      | lambda hwrapping =>
        rcases hchildren with ⟨u, a, heq, -⟩ | hwraps
        · cases heq
        · generalize replacement.getD _ = new at hwraps ⊢
          cases hwraps with
          | lambda hw => exact ⟨_, _, _, rfl, hdata, (hwrapping.data hr).wraps hw⟩

/-- The last pass leaves no reference bare below the lambda. -/
theorem identitiesAtLeaves_wrapping (ht : t.Typed Γ) :
    ∃ t' n, t.identitiesAtLeaves = .ok (t', n) ∧ Wrapping Γ t t' :=
  rewriteAll_keeps (fun _ _ _ h => h.keepsType.2) (fun _ _ _ => wrapChildren?_wrapping) ht

end Term

end GraphFusion
