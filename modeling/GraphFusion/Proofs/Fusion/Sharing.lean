import GraphFusion.Proofs.Fusion.Counting

/-!
Sharing is unobservable. A rewriting passes on a node as it is when none of its children has
changed. On a term that the constructors build it does what rebuilding every node would do,
as long as the step gives back the node itself where it reports no change: the outcome, the
flag, the state and the nodes that the step is shown are the same, whatever is changed and
wherever the step fails. The flag tells whether the step has reported a change anywhere.
-/

namespace GraphFusion

/-- From there on only the values in question matter. -/
theorem Ensures.bind_congr {ε σ α β : Type} {x : ExceptT ε (StateM σ) α}
    {f g : α → ExceptT ε (StateM σ) β} {P : α → Prop} {E : ε → Prop} (hx : Ensures x P E)
    (h : ∀ a, P a → f a = g a) : x >>= f = x >>= g := by
  funext s
  have hs := hx s
  change (x >>= f).run.run s = (x >>= g).run.run s
  rw [run_bind, run_bind]
  rcases hrun : x.run.run s with ⟨e | a, s'⟩
  · rfl
  · rw [hrun] at hs
    dsimp only
    rw [h a hs]

theorem mapM_congr {m : Type → Type} [Monad m] [LawfulMonad m] {α β : Type} {f g : α → m β}
    {l : List α} (h : ∀ a ∈ l, f a = g a) : l.mapM f = l.mapM g := by
  induction l with
  | nil => rfl
  | cons a l ih =>
    rw [List.forall_mem_cons] at h
    rw [List.mapM_cons, List.mapM_cons, h.1, ih h.2]

namespace Term

theorem sizeOf_lt_of_mem_children {t c : Term} (h : c ∈ t.children) : sizeOf c < sizeOf t := by
  cases t with
  | reference | compiled | intrinsic => cases h
  | lambda x p r =>
    obtain rfl := List.mem_singleton.mp h
    simp
  | call f a =>
    rcases List.mem_cons.mp h with rfl | h
    · simp
      omega
    · rw [Option.mem_toList] at h
      subst h
      simp
      omega
  | selection s index =>
    obtain rfl := List.mem_singleton.mp h
    simp
    omega
  | struct es =>
    obtain ⟨⟨n, c⟩, he, rfl⟩ := List.mem_map.mp h
    have hlt := List.sizeOf_lt_of_mem he
    simp at hlt ⊢
    omega
  | block ls r =>
    rcases List.mem_append.mp h with h | h
    · obtain ⟨⟨x, c⟩, hl, rfl⟩ := List.mem_map.mp h
      have hlt := List.sizeOf_lt_of_mem hl
      simp at hlt ⊢
      omega
    · obtain rfl := List.mem_singleton.mp h
      simp

section

variable {σ : Type} (step : NodeStep σ)

/-- Rebuilds a node over the results for its children, whether or not one of them changed,
and applies the step to it. -/
def settleUnshared (node : Term) (parts : List (Term × Bool)) : Compile σ (Term × Bool) := do
  let rebuilt ← Compile.lift ((node.withChildren (parts.map (·.1))).mapError .type)
  let (result, here) ← step rebuilt
  return (result, parts.any (·.2) || here)

/-- Rewriting from the leaves up in which every node is rebuilt. -/
def transformUnshared (t : Term) : Compile σ (Term × Bool) := do
  let parts ← t.children.attach.mapM fun c => transformUnshared c.1
  settleUnshared step t parts
termination_by t
decreasing_by exact sizeOf_lt_of_mem_children c.2

theorem transformUnshared_eq (t : Term) : transformUnshared step t =
    t.children.mapM (transformUnshared step) >>= settleUnshared step t := by
  rw [transformUnshared, List.mapM_subtype (g := transformUnshared step) fun _ _ => rfl,
    List.unattach_attach]

/-- The step gives back the node itself where it reports no change. -/
def Honest : Prop := ∀ t, Ensures (step t) (fun p => p.2 = false → p.1 = t) fun _ => True

end

section

variable {σ : Type} {step : NodeStep σ}

theorem settle_eq_settleUnshared {t : Term} (ht : t.Fits) {parts : List (Term × Bool)}
    (hsame : parts.any (·.2) = false → parts.map (·.1) = t.children) :
    settle step t parts = settleUnshared step t parts := by
  have hrebuilt : (if parts.any (·.2) then
      Compile.lift ((t.withChildren (parts.map (·.1))).mapError .type) else pure t) =
      (Compile.lift ((t.withChildren (parts.map (·.1))).mapError .type) : Compile σ Term) := by
    cases hany : parts.any (·.2) with
    | true => rfl
    | false =>
      rw [hsame hany, withChildren_children ht]
      rfl
  rw [settle_eq, hrebuilt]
  rfl

/-- An honest step makes an honest rewriting. -/
theorem Honest.transform (hstep : Honest step) : Honest (transform step) := fun t =>
  (transform_ensures (Q := fun _ _ => True) (Γ := fun _ => none) (fun _ => trivial)
    (fun _ t' _ _ => (hstep t').mono (fun _ hp => ⟨trivial, hp⟩) fun _ h => h) t).mono
    (fun _ hp => hp.2) fun _ h => h

theorem transform_eq_transformUnshared (hstep : Honest step) {t : Term} (ht : t.Constructed) :
    transform step t = transformUnshared step t := by
  induction ht with
  | @node t hfits _ ih =>
    rw [transform_eq, transformUnshared_eq, ← mapM_congr ih]
    have hparts := ensures_mapM fun c (_ : c ∈ t.children) => hstep.transform c
    exact hparts.bind_congr fun parts hparts =>
      settle_eq_settleUnshared hfits (map_fst_eq_of_forall₂ hparts)

end

/-- A state, the nodes that a step has been shown, and the flags that it has returned. -/
structure Record (σ : Type) where
  state : σ
  shown : List Term
  flags : List Bool

section

variable {σ α β : Type}

/-- The step with a record of what it is shown and of the flags that it returns. -/
def recorded (step : NodeStep σ) : NodeStep (Record σ) := fun node =>
  ExceptT.mk fun r =>
    let run := (step node).run.run r.state
    (run.1, ⟨run.2, r.shown ++ [node], r.flags ++ (run.1.toOption.map (·.2)).toList⟩)

/-- Without the record, the first action does what the second one does. -/
def Erases (x : Compile (Record σ) α) (y : Compile σ α) : Prop :=
  ∀ r, (x.run.run r).1 = (y.run.run r.state).1 ∧ (x.run.run r).2.state = (y.run.run r.state).2

theorem Erases.bind {x : Compile (Record σ) α} {y : Compile σ α} {f : α → Compile (Record σ) β}
    {g : α → Compile σ β} (h : Erases x y) (hfg : ∀ a, Erases (f a) (g a)) :
    Erases (x >>= f) (y >>= g) := by
  intro r
  obtain ⟨hvalue, hstate⟩ := h r
  rw [run_bind, run_bind]
  rcases hx : x.run.run r with ⟨vx, r'⟩
  rcases hy : y.run.run r.state with ⟨vy, s'⟩
  rw [hx, hy] at hvalue hstate
  dsimp only at hvalue hstate
  subst hvalue hstate
  cases vx with
  | error e => exact ⟨rfl, rfl⟩
  | ok a => exact hfg a r'

theorem erases_pure (a : α) : Erases (pure a : Compile (Record σ) α) (pure a) :=
  fun _ => ⟨rfl, rfl⟩

theorem erases_lift (x : Except CompileError α) :
    Erases (Compile.lift x : Compile (Record σ) α) (Compile.lift x) := fun _ => ⟨rfl, rfl⟩

theorem erases_recorded (step : NodeStep σ) (t : Term) : Erases (recorded step t) (step t) :=
  fun _ => ⟨rfl, rfl⟩

theorem Erases.mapM {f : α → Compile (Record σ) β} {g : α → Compile σ β} {l : List α}
    (h : ∀ a ∈ l, Erases (f a) (g a)) : Erases (l.mapM f) (l.mapM g) := by
  induction l with
  | nil =>
    rw [List.mapM_nil, List.mapM_nil]
    exact erases_pure []
  | cons a l ih =>
    rw [List.forall_mem_cons] at h
    rw [List.mapM_cons, List.mapM_cons]
    exact h.1.bind fun b => (ih h.2).bind fun bs => erases_pure (b :: bs)

/-- A rewriting takes no notice of the record. -/
theorem erases_transform (step : NodeStep σ) (t : Term) :
    Erases (transform (recorded step) t) (transform step t) := by
  induction t using inductChildren with
  | node t ih =>
    rw [transform_eq, transform_eq step]
    refine (Erases.mapM ih).bind fun parts => ?_
    rw [settle_eq, settle_eq]
    refine Erases.bind ?_ fun node => (erases_recorded step node).bind fun p => erases_pure _
    split
    · exact erases_lift _
    · exact erases_pure t

/-- What is added to the record of flags has `flag` of the value among it or not. -/
def Tallies (x : Compile (Record σ) α) (flag : α → Bool) : Prop :=
  ∀ r a r', Yields x r a r' → r'.flags.any id = (r.flags.any id || flag a)

end

section

variable {σ : Type} {step : NodeStep σ}

theorem tallies_recorded (t : Term) : Tallies (recorded step t) (·.2) := by
  intro r p r' h
  obtain ⟨hvalue, hrecord⟩ := Prod.mk.inj h
  rw [← hrecord, hvalue]
  simp [Except.toOption]

theorem tallies_settle {t : Term} {parts : List (Term × Bool)} {r r' : Record σ}
    {p : Term × Bool} (h : Yields (settle (recorded step) t parts) r p r') :
    ∃ here, p.2 = (parts.any (·.2) || here) ∧ r'.flags.any id = (r.flags.any id || here) := by
  rw [settle_eq] at h
  obtain ⟨node, r₁, hnode, h⟩ := yields_bind.mp h
  obtain ⟨q, r₂, hstep, hp⟩ := yields_bind.mp h
  obtain ⟨rfl, rfl⟩ := yields_pure.mp hp
  have hr : r₁ = r := by
    split at hnode
    · exact (yields_mk_pure.mp hnode).2
    · exact (yields_pure.mp hnode).2.symm
  subst hr
  exact ⟨q.2, rfl, tallies_recorded node r₁ q r₂ hstep⟩

theorem tallies_mapM {l : List Term}
    (h : ∀ t ∈ l, Tallies (transform (recorded step) t) (·.2)) :
    Tallies (l.mapM (transform (recorded step))) fun parts => parts.any (·.2) := by
  induction l with
  | nil =>
    rw [List.mapM_nil]
    intro r parts r' hrun
    obtain ⟨rfl, rfl⟩ := yields_pure.mp hrun
    simp
  | cons t l ih =>
    rw [List.forall_mem_cons] at h
    rw [List.mapM_cons]
    intro r parts r' hrun
    obtain ⟨p, r₁, hp, hrun⟩ := yields_bind.mp hrun
    obtain ⟨ps, r₂, hps, hrun⟩ := yields_bind.mp hrun
    obtain ⟨rfl, rfl⟩ := yields_pure.mp hrun
    rw [ih h.2 r₁ ps r₂ hps, h.1 r p r₁ hp]
    simp only [List.any_cons, Bool.or_assoc]

/-- The flag of a rewriting joins the flags that the step has returned. -/
theorem tallies_transform (t : Term) : Tallies (transform (recorded step) t) (·.2) := by
  induction t using inductChildren with
  | node t ih =>
    rw [transform_eq]
    intro r p r' hrun
    obtain ⟨parts, r₁, hparts, hrun⟩ := yields_bind.mp hrun
    obtain ⟨here, hp, hflags⟩ := tallies_settle hrun
    rw [hflags, tallies_mapM ih r parts r₁ hparts]
    simp only [hp, Bool.or_assoc]

/-- On a term that the constructors build, where every node can be rebuilt from its own
children, an honest step cannot tell a rewriting that passes on unchanged nodes from one that
rebuilds every node: both do the same, to the last node shown to the step and the last flag
that it returns. The flag of the rewriting is the disjunction of these flags, and if it is
not set the outcome is the term itself. -/
theorem transform_shares (hstep : Honest step) {t : Term} (ht : t.Constructed) :
    t.withChildren t.children = .ok t ∧
    transform step t = transformUnshared step t ∧
    transform (recorded step) t = transformUnshared (recorded step) t ∧
    ∀ s, ∃ record : Record σ,
      (transform (recorded step) t).run.run ⟨s, [], []⟩ =
        (((transform step t).run.run s).1, record) ∧
      record.state = ((transform step t).run.run s).2 ∧
      ∀ t' changed, ((transform step t).run.run s).1 = .ok (t', changed) →
        changed = record.flags.any id ∧ (changed = false → t' = t) := by
  have hrecorded : Honest (recorded step) := by
    intro node r
    exact hstep node r.state
  refine ⟨withChildren_children ht.here, transform_eq_transformUnshared hstep ht,
    transform_eq_transformUnshared hrecorded ht, fun s => ?_⟩
  obtain ⟨hvalue, hstate⟩ := erases_transform step t ⟨s, [], []⟩
  refine ⟨_, Prod.ext hvalue rfl, hstate, fun t' changed h => ⟨?_, fun hfalse => ?_⟩⟩
  · have hrun := hvalue.trans h
    exact (tallies_transform t ⟨s, [], []⟩ (t', changed) _ (Prod.ext hrun rfl)).symm
  · exact (hstep.transform t).of_yields (s := s) (Prod.ext h rfl) hfalse

/-- A step that empties and counts references, on a pair of which only the first element
changes: the pair is rebuilt, its second element passed on. -/
theorem transform_shares_pair : ∃ (step : NodeStep Nat) (t : Term),
    (step = fun node =>
      if node.isReference then do
        modify (· + 1)
        return (.struct [], true)
      else return (node, false)) ∧
    t = .struct [(none, .reference "x" (.struct [])), (none, .intrinsic "f" (.struct []))] ∧
    Honest step ∧ t.Constructed ∧
    transform (recorded step) t = transformUnshared (recorded step) t ∧
    (transform (recorded step) t).run.run ⟨0, [], []⟩ =
      (.ok (.struct [(none, .struct []), (none, .intrinsic "f" (.struct []))], true),
        ⟨1, [.reference "x" (.struct []), .intrinsic "f" (.struct []),
          .struct [(none, .struct []), (none, .intrinsic "f" (.struct []))]],
          [true, false, false]⟩) := by
  obtain ⟨step, hstep⟩ : ∃ step : NodeStep Nat, step = fun node =>
      if node.isReference then do
        modify (· + 1)
        return (.struct [], true)
      else return (node, false) := ⟨_, rfl⟩
  have hhonest : Honest step := by
    intro node
    rw [hstep]
    dsimp only
    split
    · exact ensures_modify.bind fun _ _ => ensures_pure nofun
    · exact ensures_pure fun _ => rfl
  obtain ⟨t, ht⟩ : ∃ t : Term, t = .struct [(none, .reference "x" (.struct [])),
      (none, .intrinsic "f" (.struct []))] := ⟨_, rfl⟩
  have hbuilt : t.Constructed := by
    subst ht
    exact .node trivial (List.forall_mem_cons.mpr ⟨everywhere_reference trivial,
      List.forall_mem_singleton.mpr (.node trivial nofun)⟩)
  refine ⟨step, t, hstep, ht, hhonest, hbuilt, (transform_shares hhonest hbuilt).2.2.1, ?_⟩
  rw [hstep, ht]
  rfl

end

end Term

end GraphFusion
