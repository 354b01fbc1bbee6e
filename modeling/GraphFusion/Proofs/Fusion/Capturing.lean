import GraphFusion.Proofs.Fusion.Inlining
import GraphFusion.Proofs.Terms.Mirroring

/-!
Inlining two alike trees side by side. A lambda is renamed on one side and not on
the other as its name happens to be mentioned there, so the two runs hand out
different names and count different numbers of renamings. They stay in step all the
same: the substitutions take names that stand for each other to alike terms, and
every name that occurs in these has been used in its tree or handed out before, so
the next fresh name occurs in none. A renaming takes a substituted local, whose
block counts as a rewrite too, so both runs count rewrites or neither does.
-/

namespace GraphFusion

namespace Term

namespace Inlining

/-- Neither counter has gone back. -/
structure Before (σ σ' : Inlining) : Prop where
  nextName : σ.nextName ≤ σ'.nextName
  rewrites : σ.rewrites ≤ σ'.rewrites

theorem Before.refl (σ : Inlining) : σ.Before σ := ⟨Nat.le_refl _, Nat.le_refl _⟩

theorem Before.trans {σ₁ σ₂ σ₃ : Inlining} (h : σ₁.Before σ₂) (h' : σ₂.Before σ₃) :
    σ₁.Before σ₃ :=
  ⟨Nat.le_trans h.nextName h'.nextName, Nat.le_trans h.rewrites h'.rewrites⟩

end Inlining

namespace Substitution

/-- Below a binder `x` of type `p` that becomes `z`: the parameter stands for itself,
the other names for what they stood for, and `z` captures no name in that. -/
structure Entered (used : List String) (s : Substitution) (σ : Inlining) (x : String)
    (p : Option Ty) (z : String) (inner : Substitution) (σ' : Inlining) : Prop where
  before : σ.Before σ'
  named : Named used σ'.nextName z
  bound : ∀ type, p = some type → inner.image x type = .reference z type
  kept : ∀ y type, y ≠ x → inner.image y type = s.image y type
  uncaptured : ∀ y type, y ≠ x →
    (∀ w ∈ (s.image y type).freeNames, Named used σ.nextName w) → z ∉ (s.image y type).freeNames
  idle : s = [] → inner = [] ∧ σ' = σ

theorem entered_same {used : List String} {s : Substitution} (σ : Inlining) {x : String}
    (hx : x ∈ used) (h : (s.without x).mentions x = false) (p : Option Ty) :
    Entered used s σ x p x (s.without x) σ where
  before := .refl σ
  named := .inl hx
  bound _ _ := image_without_self
  kept _ _ hne := image_without_of_ne hne
  uncaptured y type hne _ := by
    rw [← image_without_of_ne hne]
    exact notMem_freeNames_image h hne
  idle := by
    rintro rfl
    exact ⟨rfl, rfl⟩

theorem entered_fresh {used : List String} {s : Substitution} {σ : Inlining} {k : Nat}
    (hk : σ.nextName ≤ k) (hnew : freshName k ∉ used) (hs : s ≠ []) (x : String) (p : Option Ty) :
    Entered used s σ x p (freshName k) (s.renamed x p (freshName k)) ⟨k + 1, σ.rewrites + 1⟩ where
  before := ⟨Nat.le_succ_of_le hk, Nat.le_succ _⟩
  named := .inr ⟨k, Nat.lt_succ_self k, rfl⟩
  bound type hp := by
    subst hp
    exact image_renamed_self
  kept _ _ hne := image_renamed_of_ne hne
  uncaptured _ _ _ hnamed hmem := not_named_fresh hk hnew (hnamed _ hmem)
  idle h := absurd h hs

theorem exists_entered (used : List String) (s : Substitution) (σ : Inlining) {x : String}
    (hx : x ∈ used) (p : Option Ty) :
    ∃ z inner σ', Yields (enterLambda used s x p) σ (z, inner) σ' ∧
      Entered used s σ x p z inner σ' := by
  cases hcapture : (s.without x).mentions x with
  | false =>
    exact ⟨_, _, _, enterLambda_same hcapture σ p, entered_same σ hx hcapture p⟩
  | true =>
    obtain ⟨hle, hnew⟩ := nextFresh_spec used σ.nextName
    have hs : s ≠ [] := by
      rintro rfl
      simp [without, mentions] at hcapture
    exact ⟨_, _, _, enterLambda_fresh hcapture σ p, entered_fresh hle hnew hs x p⟩

/-- Names that stand for each other in `S` are taken to terms that are alike in `T`,
and the names of `T` have been used or handed out on either side. -/
structure Corresponds (used used' : List String) (n n' : Nat) (S T : Scope)
    (s s' : Substitution) : Prop where
  images : ∀ a b type, S.pairs a b type → Alike T (s.image a type) (s'.image b type)
  named : ∀ a b type, T.pairs a b type → Named used n a ∧ Named used' n' b

variable {used used' : List String} {n n' : Nat} {S T : Scope} {s s' : Substitution}

theorem Corresponds.mono (h : Corresponds used used' n n' S T s s') {m m' : Nat} (hm : n ≤ m)
    (hm' : n' ≤ m') : Corresponds used used' m m' S T s s' :=
  ⟨h.images, fun a b type hab => (h.named a b type hab).imp (·.mono hm) (·.mono hm')⟩

theorem Corresponds.enter {σ σ' σ₁ σ₁' : Inlining} {x y z z' : String} {p : Option Ty}
    {inner inner' : Substitution} (h : Corresponds used used' σ.nextName σ'.nextName S T s s')
    (he : Entered used s σ x p z inner σ₁) (he' : Entered used' s' σ' y p z' inner' σ₁') :
    Corresponds used used' σ₁.nextName σ₁'.nextName (S.bind x y p) (T.bind z z' p) inner
      inner' := by
  constructor
  · rintro a b type (⟨rfl, rfl, hp⟩ | ⟨hax, hby, hab⟩)
    · rw [he.bound type hp, he'.bound type hp]
      exact .reference (.inl ⟨rfl, rfl, hp⟩)
    · have himages := h.images a b type hab
      rw [he.kept a type hax, he'.kept b type hby]
      refine himages.under_binder (he.uncaptured a type hax fun w hw => ?_)
        (he'.uncaptured b type hby fun w hw => ?_) p
      · obtain ⟨w', wtype, hww'⟩ := himages.covers.left w hw
        exact (h.named w w' wtype hww').1
      · obtain ⟨w', wtype, hww'⟩ := himages.covers.right w hw
        exact (h.named w' w wtype hww').2
  · rintro a b type (⟨rfl, rfl, -⟩ | ⟨-, -, hab⟩)
    · exact ⟨he.named, he'.named⟩
    · exact (h.named a b type hab).imp (·.mono he.before.nextName) (·.mono he'.before.nextName)

/-- Locals that are substituted by alike terms. -/
theorem Corresponds.extend (h : Corresponds used used' n n' S T s s') {t u : Term}
    (htu : Alike T t u) (x y : String) (p : Option Ty) :
    Corresponds used used' n n' (S.bind x y p) T (s.extend x t) (s'.extend y u) := by
  refine ⟨?_, h.named⟩
  rintro a b type (⟨rfl, rfl, -⟩ | ⟨hax, hby, hab⟩)
  · rwa [image_extend_self, image_extend_self]
  · rw [image_extend_of_ne hax, image_extend_of_ne hby]
    exact h.images a b type hab

end Substitution

open Substitution

section

variable {α β γ δ : Type} {R : α → β → Prop} {Q : γ → δ → Prop} {level level' : Prop}
  {s s' : Substitution} {σ σ' : Inlining}

/-- Nothing has been substituted, and both runs have counted rewrites or neither has. -/
def Level (s s' : Substitution) (σ σ' : Inlining) : Prop :=
  s = [] ∧ s' = [] ∧ (0 < σ.rewrites ↔ 0 < σ'.rewrites)

/-- Two runs from `σ` and `σ'` have got to related results. If they are level, both
have counted rewrites or neither has. -/
structure InStep (R : α → β → Prop) (level : Prop) (σ σ' : Inlining) (p : α × Inlining)
    (q : β × Inlining) : Prop where
  related : R p.1 q.1
  before : σ.Before p.2
  before' : σ'.Before q.2
  counted : level → (0 < p.2.rewrites ↔ 0 < q.2.rewrites)

theorem InStep.imp {p : α × Inlining} {q : β × Inlining} (h : InStep R level σ σ' p q)
    (hlevel : level' → level) : InStep R level' σ σ' p q :=
  ⟨h.related, h.before, h.before', fun h' => h.counted (hlevel h')⟩

theorem InStep.stay {a : α} {b : β} (h : R a b) (hlevel : level → Level s s' σ σ') :
    InStep R level σ σ' (a, σ) (b, σ') :=
  ⟨h, .refl σ, .refl σ', fun h' => (hlevel h').2.2⟩

/-- Runs under the same substitutions, one after the other. -/
theorem InStep.bind {x : Compile Inlining α} {y : Compile Inlining β} {f : α → Compile Inlining γ}
    {g : β → Compile Inlining δ} (h : SameRun (InStep R level σ σ') x σ y σ')
    (hlevel : Level s s' σ σ' → level)
    (hfg : ∀ a b σ₁ σ₁', R a b → σ.Before σ₁ → σ'.Before σ₁' →
      SameRun (InStep Q (Level s s' σ₁ σ₁') σ₁ σ₁') (f a) σ₁ (g b) σ₁') :
    SameRun (InStep Q (Level s s' σ σ') σ σ') (x >>= f) σ (y >>= g) σ' := by
  refine SameRun.bind h fun a σ₁ b σ₁' hab => ?_
  refine (hfg a b σ₁ σ₁' hab.related hab.before hab.before').mono fun p q hpq => ?_
  refine ⟨hpq.related, hab.before.trans hpq.before, hab.before'.trans hpq.before',
    fun hl => hpq.counted ?_⟩
  exact ⟨hl.1, hl.2.1, hab.counted (hlevel hl)⟩

end

/-- Blocks count as rewrites. -/
def IsBlock : Term → Prop
  | .block .. => True
  | _ => False

/-- Inlining the term and one that is alike gives alike terms in step. -/
def InlinesAlike (used used' : List String) (t : Term) : Prop :=
  ∀ (S T : Scope) (u : Term) (s s' : Substitution) (σ σ' : Inlining), Alike S t u →
    Corresponds used used' σ.nextName σ'.nextName S T s s' → t.names ⊆ used → u.names ⊆ used' →
      SameRun (InStep (Alike T) (t.IsBlock ∨ Level s s' σ σ') σ σ') (inline used s t) σ
        (inline used' s' u) σ'

section

variable {used used' : List String} {S T : Scope} {s s' : Substitution} {σ σ' : Inlining}

theorem InlinesAlike.of_not_block {t : Term} (ht : ¬ t.IsBlock)
    (h : ∀ (S T : Scope) (u : Term) (s s' : Substitution) (σ σ' : Inlining), Alike S t u →
      Corresponds used used' σ.nextName σ'.nextName S T s s' → t.names ⊆ used → u.names ⊆ used' →
        SameRun (InStep (Alike T) (Level s s' σ σ') σ σ') (inline used s t) σ
          (inline used' s' u) σ') : InlinesAlike used used' t :=
  fun S T u s s' σ σ' htu hs hused hused' =>
    (h S T u s s' σ σ' htu hs hused hused').mono fun _ _ hpq =>
      hpq.imp fun hlevel => hlevel.resolve_left ht

theorem rebuild_alike {scopes : List Scope} {t u : Term} {parts parts' : List Term}
    (h : SameNode T scopes t u) (hparts : InScopes Alike scopes parts parts') :
    SameRun (InStep (Alike T) (Level s s' σ σ') σ σ') (rebuild t parts) σ (rebuild u parts') σ' := by
  refine (SameRun.mk_pure ((h.withChildren hparts).mapError CompileError.type)).mono ?_
  rintro ⟨t', _⟩ ⟨u', _⟩ ⟨h, rfl, rfl⟩
  exact .stay h id

theorem inlineElements_alike {es es' : List (Label × Term)}
    (hes : ∀ e ∈ es, InlinesAlike used used' e.2) (h : Alike S (.struct es) (.struct es'))
    (hs : Corresponds used used' σ.nextName σ'.nextName S T s s')
    (hused : (Term.struct es).names ⊆ used) (hused' : (Term.struct es').names ⊆ used') :
    SameRun (InStep (fun parts parts' => ∃ scopes, SameNode T scopes (.struct es) (.struct es') ∧
        InScopes Alike scopes parts parts') (Level s s' σ σ') σ σ')
      (inlineElements used s es) σ (inlineElements used' s' es') σ' := by
  induction es generalizing es' σ σ' with
  | nil =>
    cases h
    exact .pure (.stay ⟨[], .structNil, .nil⟩ id)
  | cons e es ih =>
    obtain ⟨label, t⟩ := e
    cases h with
    | @structCons _ _ _ u _ es' ht h =>
      rw [List.forall_mem_cons] at hes
      rw [names_struct_cons, List.append_subset] at hused hused'
      rw [inlineElements, inlineElements]
      refine InStep.bind (hes.1 S T u s s' σ σ' ht hs hused.1 hused'.1) .inr
        fun t₁ u₁ σ₁ σ₁' htu hle hle' => ?_
      have hs₁ := hs.mono hle.nextName hle'.nextName
      refine InStep.bind (ih hes.2 h hs₁ hused.2 hused'.2) id
        fun parts parts' σ₂ σ₂' hparts _ _ => ?_
      obtain ⟨scopes, hnode, hparts⟩ := hparts
      exact .pure (.stay ⟨_, .structCons hnode, .cons htu hparts⟩ id)

theorem inline_block_nil (used : List String) (s : Substitution) (r : Term) :
    inline used s (.block [] r) = countRewrite >>= fun _ => inline used s r := by
  simp only [inline, inlineLocals, pure_bind]

theorem inline_block_cons (used : List String) (s : Substitution) (x : String) (t : Term)
    (ls : List (String × Term)) (r : Term) :
    inline used s (.block ((x, t) :: ls) r) =
      inline used s t >>= fun t' => inline used (s.extend x t') (.block ls r) := by
  simp only [inline, inlineLocals, bind_assoc]

theorem inlinesAlike_block_nil {r : Term} (hr : InlinesAlike used used' r) :
    InlinesAlike used used' (.block [] r) := by
  intro S T u s s' σ σ' h hs hused hused'
  cases h with
  | @blockNil _ _ r' h =>
    rw [inline_block_nil, inline_block_nil]
    refine SameRun.modify.bind fun _ σ₁ _ σ₁' hcount => ?_
    obtain ⟨rfl, rfl⟩ := hcount
    have hrun := hr S T r' s s' ⟨σ.nextName, σ.rewrites + 1⟩ ⟨σ'.nextName, σ'.rewrites + 1⟩ h hs
      (by simpa [names, namesInLocals] using hused) (by simpa [names, namesInLocals] using hused')
    refine hrun.mono fun p q hpq => ?_
    have hle := hpq.before.rewrites
    have hle' := hpq.before'.rewrites
    simp only at hle hle'
    exact ⟨hpq.related, ⟨hpq.before.nextName, by omega⟩, ⟨hpq.before'.nextName, by omega⟩,
      fun _ => by omega⟩

theorem inlinesAlike_block_cons {x : String} {t r : Term} {ls : List (String × Term)}
    (ht : InlinesAlike used used' t) (hr : InlinesAlike used used' (.block ls r)) :
    InlinesAlike used used' (.block ((x, t) :: ls) r) := by
  intro S T u s s' σ σ' h hs hused hused'
  cases h with
  | @blockCons _ _ y type _ t' _ r' _ ls' htu h =>
    rw [names_block_cons, List.cons_subset, List.append_subset] at hused hused'
    rw [inline_block_cons, inline_block_cons]
    refine SameRun.bind (ht S T t' s s' σ σ' htu hs hused.2.1 hused'.2.1)
      fun t₁ σ₁ u₁ σ₁' h₁ => ?_
    have hs₁ := (hs.mono h₁.before.nextName h₁.before'.nextName).extend h₁.related x y (some type)
    refine (hr _ T _ _ _ σ₁ σ₁' h hs₁ hused.2.2 hused'.2.2).mono fun p q hpq => ?_
    exact ⟨hpq.related, h₁.before.trans hpq.before, h₁.before'.trans hpq.before',
      fun _ => hpq.counted (.inl trivial)⟩

theorem inlinesAlike_lambda {x : String} {p : Option Ty} {r : Term}
    (hr : InlinesAlike used used' r) : InlinesAlike used used' (.lambda x p r) := by
  refine .of_not_block id fun S T u s s' σ σ' h hs hused hused' => ?_
  cases h with
  | @lambda _ _ y _ _ r' h =>
    rw [names, List.cons_subset] at hused hused'
    obtain ⟨z, inner, σ₁, hrun, hentered⟩ := exists_entered used s σ hused.1 p
    obtain ⟨z', inner', σ₁', hrun', hentered'⟩ := exists_entered used' s' σ' hused'.1 p
    rw [inline, inline]
    refine SameRun.yields_bind hrun hrun' ?_
    refine SameRun.bind (hr _ _ r' inner inner' σ₁ σ₁' h (hs.enter hentered hentered') hused.2
      hused'.2) fun r₁ σ₂ r₁' σ₂' h₂ => .pure ?_
    refine ⟨.lambda h₂.related, hentered.before.trans h₂.before,
      hentered'.before.trans h₂.before', fun hlevel => h₂.counted (.inr ?_)⟩
    -- where nothing is substituted, no name is captured
    obtain ⟨hempty, hempty', hcounted⟩ := hlevel
    obtain ⟨rfl, rfl⟩ := hentered.idle hempty
    obtain ⟨rfl, rfl⟩ := hentered'.idle hempty'
    exact ⟨rfl, rfl, hcounted⟩

/-- Whatever the substitutions are that a run has come to, as long as they correspond. -/
theorem inlinesAlike (used used' : List String) (t : Term) : InlinesAlike used used' t := by
  induction t using induct with
  | reference x type =>
    refine .of_not_block id fun S T u s s' σ σ' h hs _ _ => ?_
    cases h with
    | reference hxy =>
      rw [inline, inline]
      exact .pure (.stay (hs.images _ _ _ hxy) id)
  | lambda x p r hr => exact inlinesAlike_lambda hr
  | thunkCall f hf =>
    refine .of_not_block id fun S T u s s' σ σ' h hs hused hused' => ?_
    cases h with
    | @thunkCall _ _ f' _ hff' _ =>
      rw [names] at hused hused'
      rw [inline, inline]
      exact InStep.bind (hf S T f' s s' σ σ' hff' hs hused hused') .inr
        fun f₁ f₁' σ₁ σ₁' hf₁ _ _ => rebuild_alike .thunkCall (.cons hf₁ .nil)
  | call f a hf ha =>
    refine .of_not_block id fun S T u s s' σ σ' h hs hused hused' => ?_
    cases h with
    | @call _ _ f' _ a' hff' haa' =>
      rw [names, List.append_subset] at hused hused'
      rw [inline, inline]
      refine InStep.bind (hf S T f' s s' σ σ' hff' hs hused.1 hused'.1) .inr
        fun f₁ f₁' σ₁ σ₁' hf₁ hle hle' => ?_
      have hs₁ := hs.mono hle.nextName hle'.nextName
      exact InStep.bind (ha S T a' s s' σ₁ σ₁' haa' hs₁ hused.2 hused'.2) .inr
        fun a₁ a₁' σ₂ σ₂' ha₁ _ _ => rebuild_alike .call (.cons hf₁ (.cons ha₁ .nil))
  | selection t index ht =>
    refine .of_not_block id fun S T u s s' σ σ' h hs hused hused' => ?_
    cases h with
    | @selection _ _ t' _ htt' =>
      rw [names] at hused hused'
      rw [inline, inline]
      exact InStep.bind (ht S T t' s s' σ σ' htt' hs hused hused') .inr
        fun t₁ t₁' σ₁ σ₁' ht₁ _ _ => rebuild_alike .selection (.cons ht₁ .nil)
  | struct es hes =>
    refine .of_not_block id fun S T u s s' σ σ' h hs hused hused' => ?_
    obtain ⟨es', rfl, -⟩ := Alike.struct_iff.mp h
    rw [inline, inline]
    refine InStep.bind (inlineElements_alike hes h hs hused hused') id
      fun parts parts' σ₁ σ₁' hparts _ _ => ?_
    obtain ⟨scopes, hnode, hparts⟩ := hparts
    exact rebuild_alike hnode hparts
  | block ls r hls hr =>
    induction ls with
    | nil => exact inlinesAlike_block_nil hr
    | cons l ls ih =>
      rw [List.forall_mem_cons] at hls
      exact inlinesAlike_block_cons hls.1 (ih hls.2)
  | compiled v =>
    refine .of_not_block id fun S T u s s' σ σ' h _ _ _ => ?_
    cases h
    rw [inline, inline]
    exact .pure (.stay .compiled id)
  | intrinsic uri type =>
    refine .of_not_block id fun S T u s s' σ σ' h _ _ _ => ?_
    cases h
    rw [inline, inline]
    exact .pure (.stay .intrinsic id)

end

/-- Alike trees are inlined to alike trees, and both change or neither does. -/
theorem inlineBlocks_alike {t u : Term} (h : Alike .all t u) :
    SameOutcome (fun p q => Alike .all p.1 q.1 ∧ (0 < p.2 ↔ 0 < q.2)) t.inlineBlocks
      u.inlineBlocks := by
  have hamong : Alike (.among t.names u.names) t u := by
    refine h.congr fun a ha b hb type hab => ⟨hab, ?_, ?_⟩
    · exact mem_names_of_mem_freeNames ha
    · exact mem_names_of_mem_freeNames hb
  have hs : Corresponds t.names u.names 0 0 (.among t.names u.names) (.among t.names u.names)
      [] [] :=
    ⟨fun _ _ _ hab => .reference hab, fun _ _ _ hab => ⟨.inl hab.2.1, .inl hab.2.2⟩⟩
  have hrun := inlinesAlike t.names u.names t _ _ u [] [] .start .start hamong hs
    (List.Subset.refl _) (List.Subset.refl _)
  have hend : ∀ t : Term, t.inlineBlocks =
      (ending (inline t.names [] t) .start).map fun p => (p.1, p.2.rewrites) := by
    intro t
    rw [inlineBlocks, ending]
    rcases (inline t.names [] t).run.run .start with ⟨e | r, s⟩ <;> rfl
  rw [hend, hend]
  refine SameOutcome.map hrun fun p q hpq => ⟨?_, hpq.counted (.inr ⟨rfl, rfl, Iff.rfl⟩)⟩
  exact hpq.related.congr fun _ _ _ _ _ hab => hab.1

end Term

end GraphFusion
