import GraphFusion.Proofs.Graph.Attempts
import GraphFusion.Proofs.Graph.Compose

/-!
Laws of composition, as equalities of graphs. A graph that is composed is copied into a fresh
builder, where it stands as it is, or behind the code of another graph, where it stands
renumbered; either way a composite is the code of its parts one after the other, however they
were grouped. Projecting is composing with the graph that selects, and the identity has no code.
-/

namespace GraphFusion

theorem Embeds.append {α : Type} {ρ : Nat → Nat} {xs ys : List α} (h : Embeds ρ xs ys)
    (hρ : Follows ρ xs.length ys.length) (zs : List α) : Embeds ρ (xs ++ zs) (ys ++ zs) := by
  induction zs generalizing xs ys with
  | nil => simpa using h
  | cons z zs ih =>
    have hnext := ih (h.concat hρ z) (by simpa using hρ.succ)
    simpa using hnext

namespace Builder

theorem accepts_some_iff {b : Builder} {p : Option Ty} {a : ValueId} :
    b.Accepts p (some a) ↔ ∃ type, p = some type ∧ b.types[a]? = some type := by
  constructor
  · rintro (_ | h)
    exact ⟨_, rfl, h⟩
  · rintro ⟨type, rfl, h⟩
    exact .some h

/-- The value on which a graph is inlined has the type of its parameter. -/
theorem types_of_argument {b b' : Builder} {g : Graph} {a id : ValueId} {type : Ty}
    (h : Yields (Build.inline g (some a)) b id b') (hp : g.parameter = some type) :
    b.types[a]? = some type := by
  obtain ⟨_, htype, ha⟩ := accepts_some_iff.mp (Build.accepts_of_inline h)
  rw [ha, ← htype, hp]

theorem Data.of_append {b : Builder} {code : List Instruction} (h : (b.append code).Data) :
    b.Data ∧ ∀ i ∈ code, i.output.isData = true := by
  rw [Data, types_append] at h
  exact ⟨fun type htype => h type (List.mem_append_left _ htype),
    fun i hi => h _ (List.mem_append_right _ (List.mem_map_of_mem hi))⟩

/-- The values of one builder are among those of another under the numbers that `ρ` gives, and
the next values of both will be numbered alike. -/
structure Renumbers (ρ : Nat → Nat) (c b : Builder) : Prop where
  embeds : Embeds ρ c.types b.types
  follows : Follows ρ c.body.length b.body.length

namespace Renumbers

variable {ρ : Nat → Nat} {c b : Builder}

theorem append (h : c.Renumbers ρ b) (code : List Instruction) :
    (c.append code).Renumbers ρ (b.append (code.map (Instruction.renamed ρ))) := by
  have houtputs : (code.map (Instruction.renamed ρ)).map (·.output) = code.map (·.output) := by
    simp [Instruction.renamed]
  have hfollows := h.follows
  rw [← c.length_types, ← b.length_types] at hfollows
  refine ⟨?_, fun k => ?_⟩
  · rw [types_append, types_append, houtputs]
    exact h.embeds.append hfollows _
  · have hk := h.follows (code.length + k)
    rw [← Nat.add_assoc, ← Nat.add_assoc] at hk
    simpa using hk

theorem types_iff (h : c.Renumbers ρ b) {a : ValueId} (ha : a < c.body.length) {type : Ty} :
    b.types[ρ a]? = some type ↔ c.types[a]? = some type := by
  rw [← c.length_types] at ha
  have hget := List.getElem?_eq_getElem ha
  rw [h.embeds a _ hget, hget]

/-- What is inlined in the one builder is inlined in the other, renumbered, and nothing else. -/
theorem inline_iff (h : c.Renumbers ρ b) {g : Graph} {a : ValueId} (ha : a < c.body.length)
    {id : ValueId} {b' : Builder} : Yields (Build.inline g (some (ρ a))) b id b' ↔
      ∃ old code, Yields (Build.inline g (some a)) c old (c.append code) ∧ id = ρ old ∧
        b' = b.append (code.map (Instruction.renamed ρ)) := by
  have hcopy := g.copy?_map h.follows (some a)
  have haccepts : b.Accepts g.parameter (some (ρ a)) ↔ c.Accepts g.parameter (some a) := by
    simp only [accepts_some_iff, h.types_iff ha]
  rw [Option.map_some] at hcopy
  simp only [Build.yields_inline, haccepts, hcopy]
  constructor
  · rintro ⟨hfits, code, hcode, rfl⟩
    obtain ⟨⟨old, result⟩, hold, hpair⟩ := Option.map_eq_some_iff.mp hcode
    cases hpair
    exact ⟨result, old, ⟨hfits, old, hold, rfl⟩, rfl, rfl⟩
  · rintro ⟨old, code, ⟨hfits, copied, hcopied, heq⟩, rfl, rfl⟩
    have hcode : code = copied := List.append_cancel_left (congrArg Builder.body heq)
    subst hcode
    exact ⟨hfits, _, by rw [hcopied]; rfl, rfl⟩

/-- A builder that has only read its argument, beside one that has a value of that type. -/
theorem start {b : Builder} {x : ValueId} {type : Ty} (hx : b.types[x]? = some type) :
    (Builder.start (some type)).Renumbers (inlinedId b.body.length (some x)) b := by
  refine ⟨?_, follows_inlinedId _ _⟩
  intro n t hn
  cases n with
  | zero =>
    cases hn
    exact hx
  | succ n => cases hn

end Renumbers

end Builder

namespace Graph

/-- The first copy that a fresh builder is given of a graph in sequence is the graph's body. -/
theorem InSequence.inline_start_iff {b b' : Builder} {result new : ValueId} {type : Ty}
    (hg : (b.toGraph type result).InSequence) :
    Yields (Build.inline (b.toGraph type result) (Builder.start b.parameter).argument?)
      (.start b.parameter) new b' ↔ new = result ∧ b' = b := by
  set g := b.toGraph type result with hgraph
  have hids : inlinedId (Builder.start b.parameter).body.length
      (Builder.start b.parameter).argument? = id := by
    funext k
    cases b.parameter with
    | none => exact Nat.zero_add k
    | some p => cases k with
      | zero => rfl
      | succ k => exact Nat.add_comm 1 k
  have hcode : g.inlinedCode (Builder.start b.parameter).body.length
      (Builder.start b.parameter).argument? = g.code := by
    have hrenamed : Instruction.renamed id = id := by
      funext i
      simp [Instruction.renamed]
    rw [inlinedCode, hids, hrenamed, List.map_id]
  have hinlined : (Builder.start b.parameter).inlined g (Builder.start b.parameter).argument? =
      b := by
    have hbody : b.body = (Builder.start b.parameter).body ++ g.code := hg.body_eq
    rw [Builder.inlined, hcode, Builder.append, Builder.start_parameter, ← hbody]
  have hyields := Build.inline_yields_of_inSequence hg (accepts_start (p := b.parameter))
  rw [hids, hinlined] at hyields
  constructor
  · intro h
    exact h.unique hyields
  · rintro ⟨rfl, rfl⟩
    exact hyields

theorem InSequence.inline_start {g : Graph} (hg : g.InSequence) :
    Yields (Build.inline g (Builder.start g.parameter).argument?) (.start g.parameter)
      g.resultId ⟨g.parameter, g.body⟩ := by
  set b : Builder := ⟨g.parameter, g.body⟩
  have heq : g = b.toGraph g.result g.resultId := hg.eq_toGraph
  have hyields := (heq ▸ hg : (b.toGraph g.result g.resultId).InSequence).inline_start_iff.mpr
    ⟨rfl, rfl⟩
  rwa [← heq] at hyields

/-- What a composite is: the code of the inner graph, then that of the outer one on its result. -/
theorem compose_eq_ok_iff {outer inner k : Graph} : compose outer inner = .ok k ↔
    outer.parameter = some inner.result ∧ ∃ middle b id b' type,
      Yields (Build.inline inner (Builder.start inner.parameter).argument?)
        (.start inner.parameter) middle b ∧
      Yields (Build.inline outer (some middle)) b id b' ∧
      b'.types[id]? = some type ∧ b'.Data ∧ k = b'.toGraph type id := by
  have hdata : ∀ {middle b id b' type},
      Yields (Build.inline inner (Builder.start inner.parameter).argument?)
        (.start inner.parameter) middle b → Yields (Build.inline outer (some middle)) b id b' →
      b'.types[id]? = some type → ((b'.toGraph type id).verify = .ok () ↔ b'.Data) :=
    fun hinner houter => (((Builder.inSequence_start _).inline hinner).1.inline houter).1.verify_iff
  rw [compose]
  cases hparameter : outer.parameter with
  | none =>
    constructor
    · intro h
      cases h
    · rintro ⟨h, -⟩
      cases h
  | some p =>
    by_cases hp : p = inner.result
    · subst hp
      simp only [ne_eq, not_true_eq_false, if_false, build_eq_ok, true_and]
      constructor
      · rintro ⟨id, b', type, hyields, htype, hverify, rfl⟩
        obtain ⟨a, s, hargument, hk⟩ := yields_bind.mp hyields
        obtain ⟨rfl, rfl⟩ := hargument.unique (argument?_yields _)
        obtain ⟨middle, b, hinner, houter⟩ := yields_bind.mp hk
        exact ⟨middle, b, id, b', type, hinner, houter, htype,
          (hdata hinner houter htype).mp hverify, rfl⟩
      · rintro ⟨middle, b, id, b', type, hinner, houter, htype, hb', rfl⟩
        exact ⟨id, b', type, (argument?_yields _).bind (hinner.bind houter), htype,
          (hdata hinner houter htype).mpr hb', rfl⟩
    · simp only [ne_eq, hp, not_false_eq_true, if_true]
      constructor
      · intro h
        cases h
      · exact fun h => absurd (Option.some.inj h.1) hp

/-- The graph `k` is the code of `f`, of `g` on its result, and of `h` on the result of that. -/
def Chained (f g h k : Graph) : Prop :=
  g.parameter = some f.result ∧ ∃ x b₁ y b₂ z b₃ type,
    Yields (Build.inline f (Builder.start f.parameter).argument?) (.start f.parameter) x b₁ ∧
    Yields (Build.inline g (some x)) b₁ y b₂ ∧ Yields (Build.inline h (some y)) b₂ z b₃ ∧
    b₃.types[z]? = some type ∧ b₃.Data ∧ k = b₃.toGraph type z

variable {f g h k : Graph}

theorem compose_compose_eq_ok_iff :
    (compose g f >>= fun k => compose h k) = .ok k ↔ Chained f g h k := by
  rw [bind_eq_ok]
  constructor
  · rintro ⟨inner, hinner, houter⟩
    obtain ⟨hp, x, b₁, y, b₂, type, hf, hg, htype, hdata, rfl⟩ := compose_eq_ok_iff.mp hinner
    obtain ⟨hb₁, -⟩ := (Builder.inSequence_start f.parameter).inline hf
    obtain ⟨hb₂, -⟩ := hb₁.inline hg
    obtain ⟨-, y', b, z, b₃, result, hcopy, hh, hresult, hdata', rfl⟩ := compose_eq_ok_iff.mp houter
    obtain ⟨rfl, rfl⟩ := (hb₂.toGraph hdata htype).inline_start_iff.mp hcopy
    exact ⟨hp, x, b₁, y', b, z, b₃, result, hf, hg, hh, hresult, hdata', rfl⟩
  · rintro ⟨hp, x, b₁, y, b₂, z, b₃, type, hf, hg, hh, htype, hdata, rfl⟩
    obtain ⟨hb₁, -⟩ := (Builder.inSequence_start f.parameter).inline hf
    obtain ⟨hb₂, -⟩ := hb₁.inline hg
    obtain ⟨haccepts, code, -, rfl⟩ := Build.yields_inline.mp hh
    obtain ⟨middle, hmiddle, hy⟩ := Builder.accepts_some_iff.mp haccepts
    have hdata₂ := hdata.of_append.1
    refine ⟨b₂.toGraph middle y,
      compose_eq_ok_iff.mpr ⟨hp, x, b₁, y, b₂, middle, hf, hg, hy, hdata₂, rfl⟩,
      compose_eq_ok_iff.mpr ⟨hmiddle, y, b₂, z, _, type, ?_, hh, htype, hdata, rfl⟩⟩
    exact (hb₂.toGraph hdata₂ hy).inline_start_iff.mpr ⟨rfl, rfl⟩

/-- What a graph made of an argument and `code` leaves where it is inlined. -/
theorem InSequence.inline_iff {code : List Instruction} {type result : Ty} {z : ValueId}
    (hk : (((Builder.start (some type)).append code).toGraph result z).InSequence)
    {b b' : Builder} {x id : ValueId} (hx : b.types[x]? = some type) :
    Yields (Build.inline (((Builder.start (some type)).append code).toGraph result z) (some x))
      b id b' ↔ id = inlinedId b.body.length (some x) z ∧
        b' = b.append (code.map (Instruction.renamed (inlinedId b.body.length (some x)))) := by
  have hyields := Build.inline_yields_of_inSequence hk (.some hx)
  constructor
  · intro h
    exact h.unique hyields
  · rintro ⟨rfl, rfl⟩
    exact hyields

/-- Behind other code a composite stands renumbered, and so do its parts. -/
theorem compose_compose_eq_ok_iff_of_verify (hverify : g.verify = .ok ()) :
    (compose h g >>= fun k => compose k f) = .ok k ↔ Chained f g h k := by
  rw [bind_eq_ok]
  constructor
  · rintro ⟨outer, houter, hinner⟩
    obtain ⟨-, y, c₂, z, c₃, type, hg, hh, htype, hdata, rfl⟩ := compose_eq_ok_iff.mp houter
    obtain ⟨hp, x, b₁, z', b₃, result, hf, hcopy, hresult, hdata', rfl⟩ :=
      compose_eq_ok_iff.mp hinner
    obtain ⟨hc₂, hkept₂⟩ := (Builder.inSequence_start g.parameter).inline hg
    obtain ⟨hc₃, hkept₃⟩ := hc₂.inline hh
    have hparameter : g.parameter = some f.result := by
      rw [← hp, ← Builder.start_parameter g.parameter, ← hkept₂, ← hkept₃]
      rfl
    rw [hparameter] at hg
    obtain ⟨hy, cg, -, rfl⟩ := Build.inSequence_of_inline hg
    obtain ⟨-, ch, -, rfl⟩ := Build.inSequence_of_inline hh
    have hx := Builder.types_of_argument hcopy hp
    have hk := hc₃.toGraph hdata htype
    rw [Builder.append_append] at hk hcopy
    obtain ⟨rfl, rfl⟩ := (hk.inline_iff hx).mp hcopy
    have hbeside := Builder.Renumbers.start hx
    have hg' := (hbeside.inline_iff (g := g) Nat.zero_lt_one).mpr ⟨y, cg, hg, rfl, rfl⟩
    have hh' := ((hbeside.append cg).inline_iff (g := h) hy).mpr ⟨z, ch, hh, rfl, rfl⟩
    rw [Builder.append_append, ← List.map_append] at hh'
    exact ⟨hparameter, x, b₁, _, _, _, _, result, hf, hg', hh', hresult, hdata', rfl⟩
  · rintro ⟨hp, x, b₁, y, b₂, z, b₃, type, hf, hg, hh, htype, hdata, rfl⟩
    have hx := Builder.types_of_argument hg hp
    have hresult : h.parameter = some g.result := by
      obtain ⟨t, ht, hy⟩ := Builder.accepts_some_iff.mp (Build.accepts_of_inline hh)
      rw [ht, ← hy, Build.types_of_inline hverify hg]
    have hbeside := Builder.Renumbers.start hx
    obtain ⟨y', cg, hg', rfl, rfl⟩ := (hbeside.inline_iff (g := g) Nat.zero_lt_one).mp hg
    obtain ⟨hy', -⟩ := Build.inSequence_of_inline hg'
    obtain ⟨z', ch, hh', rfl, rfl⟩ := ((hbeside.append cg).inline_iff (g := h) hy').mp hh
    obtain ⟨hz', -⟩ := Build.inSequence_of_inline hh'
    obtain ⟨hc₂, -⟩ := (Builder.inSequence_start (some f.result)).inline hg'
    obtain ⟨hc₃, -⟩ := hc₂.inline hh'
    have hz := (((hbeside.append cg).append ch).types_iff hz').mp htype
    obtain ⟨hdata₂, hch⟩ := hdata.of_append
    obtain ⟨hdata₁, hcg⟩ := hdata₂.of_append
    have hdata₃ := ((Builder.data_start (p := some f.result)
      (by simpa using hdata₁ _ (List.mem_of_getElem? hx))).append
        (fun i hi => hcg (i.renamed _) (List.mem_map_of_mem hi))).append
          fun i hi => hch (i.renamed _) (List.mem_map_of_mem hi)
    have hk := hc₃.toGraph hdata₃ hz
    have houter : compose h g = .ok _ := compose_eq_ok_iff.mpr
      ⟨hresult, y', _, z', _, type, by rw [hp]; exact hg', hh', hz, hdata₃, rfl⟩
    rw [Builder.append_append] at hk houter htype hdata ⊢
    rw [← List.map_append] at htype hdata ⊢
    exact ⟨_, houter, compose_eq_ok_iff.mpr
      ⟨rfl, x, b₁, _, _, type, hf, (hk.inline_iff hx).mpr ⟨rfl, rfl⟩, htype, hdata, rfl⟩⟩

/-- The graph that returns element `index` of its argument, a struct of the given elements. -/
def selector (elements : List (Label × Ty)) (index : Nat) (type : Ty) : Graph :=
  ((Builder.start (some (.struct elements))).append [⟨1, .select index, [0], type⟩]).toGraph type 1

theorem inSequence_selector {elements : List (Label × Ty)} {index : Nat} {label : Label} {type : Ty}
    (hdata : (Ty.struct elements).isData = true) (hindex : elements[index]? = some (label, type)) :
    (selector elements index type).InSequence := by
  have htype : type.isData = true :=
    (Ty.isData_struct elements).mp hdata _ (List.mem_of_getElem? hindex)
  have hcode : CodeInSequence 1 [⟨1, .select index, [0], type⟩] :=
    ⟨⟨rfl, nofun, by simp⟩, trivial⟩
  refine ((Builder.inSequence_start (some (.struct elements))).append hcode).toGraph ?_ rfl
  exact (Builder.data_start (by simpa using hdata)).append (by simpa using htype)

/-- Projecting a verified graph is composing it with a graph that selects. -/
theorem project_eq_ok_iff (hverify : g.verify = .ok ()) {index : Nat} :
    project g index = .ok k ↔ ∃ elements label type, g.result = .struct elements ∧
      elements[index]? = some (label, type) ∧
      compose (selector elements index type) g = .ok k := by
  have hresult := (verify_eq_ok_iff.mp hverify).2.1
  rw [project, build_eq_ok]
  constructor
  · rintro ⟨id, b', type, hyields, htype, hdata, rfl⟩
    obtain ⟨a, s, hargument, hk⟩ := yields_bind.mp hyields
    obtain ⟨rfl, rfl⟩ := hargument.unique (argument?_yields _)
    obtain ⟨x, b, hinline, hselect⟩ := yields_bind.mp hk
    obtain ⟨elements, label, t, hx, hindex, rfl, rfl⟩ := Build.yields_select.mp hselect
    have heq : g.result = .struct elements := by
      have hdeclared := Build.types_of_inline hverify hinline
      rw [hx] at hdeclared
      exact (Option.some.inj hdeclared).symm
    rw [heq] at hresult
    have hcopy := ((inSequence_selector hresult hindex).inline_iff hx).mpr ⟨rfl, rfl⟩
    exact ⟨elements, label, t, heq, hindex, compose_eq_ok_iff.mpr
      ⟨congrArg some heq.symm, x, b, _, _, type, hinline, hcopy, htype, data_of_verify hdata, rfl⟩⟩
  · rintro ⟨elements, label, t, heq, hindex, hcompose⟩
    rw [heq] at hresult
    obtain ⟨-, x, b, id, b', type, hinline, hcopy, htype, hdata, rfl⟩ :=
      compose_eq_ok_iff.mp hcompose
    have hx := Build.types_of_inline hverify hinline
    rw [heq] at hx
    obtain ⟨rfl, rfl⟩ := ((inSequence_selector hresult hindex).inline_iff hx).mp hcopy
    obtain ⟨hb, -⟩ := (Builder.inSequence_start g.parameter).inline hinline
    obtain ⟨hb', -⟩ := hb.inline hcopy
    refine ⟨_, _, type, (argument?_yields _).bind (hinline.bind
      (Build.yields_select.mpr ⟨elements, label, t, hx, hindex, rfl, rfl⟩)), htype, ?_, rfl⟩
    exact (hb'.verify_iff htype).mpr hdata

theorem verify_of_compose (h : compose g f = .ok k) : k.verify = .ok () := by
  obtain ⟨-, x, b₁, y, b₂, type, hf, hg, htype, hdata, rfl⟩ := compose_eq_ok_iff.mp h
  obtain ⟨hb₁, -⟩ := (Builder.inSequence_start f.parameter).inline hf
  exact ((hb₁.inline hg).1.verify_iff htype).mpr hdata

theorem result_of_compose (hverify : g.verify = .ok ()) (h : compose g f = .ok k) :
    k.result = g.result := by
  obtain ⟨-, x, b₁, y, b₂, type, -, hg, htype, -, rfl⟩ := compose_eq_ok_iff.mp h
  have hdeclared := Build.types_of_inline hverify hg
  rw [htype] at hdeclared
  exact Option.some.inj hdeclared

theorem project_compose_eq_ok_iff (hverify : g.verify = .ok ()) {index : Nat} :
    (compose g f >>= fun k => project k index) = .ok k ↔
      (project g index >>= fun k => compose k f) = .ok k := by
  have hregroup : ∀ elements type, (∃ inner, compose g f = .ok inner ∧
        compose (selector elements index type) inner = .ok k) ↔
      ∃ outer, compose (selector elements index type) g = .ok outer ∧ compose outer f = .ok k := by
    intro elements type
    rw [← bind_eq_ok, ← bind_eq_ok, compose_compose_eq_ok_iff,
      compose_compose_eq_ok_iff_of_verify hverify]
  rw [bind_eq_ok, bind_eq_ok]
  constructor
  · rintro ⟨inner, hinner, houter⟩
    obtain ⟨elements, label, type, heq, hindex, hselect⟩ :=
      (project_eq_ok_iff (verify_of_compose hinner)).mp houter
    rw [result_of_compose hverify hinner] at heq
    obtain ⟨outer, hproject, hk⟩ := (hregroup elements type).mp ⟨inner, hinner, hselect⟩
    exact ⟨outer, (project_eq_ok_iff hverify).mpr ⟨elements, label, type, heq, hindex, hproject⟩, hk⟩
  · rintro ⟨outer, hproject, hk⟩
    obtain ⟨elements, label, type, heq, hindex, hselect⟩ := (project_eq_ok_iff hverify).mp hproject
    obtain ⟨inner, hinner, houter⟩ := (hregroup elements type).mpr ⟨outer, hselect, hk⟩
    rw [← result_of_compose hverify hinner] at heq
    exact ⟨inner, hinner, (project_eq_ok_iff (verify_of_compose hinner)).mpr
      ⟨elements, label, type, heq, hindex, houter⟩⟩

theorem inSequence_identity {type : Ty} (hdata : type.isData = true) :
    (((Builder.start (some type)).append []).toGraph type 0).InSequence := by
  have hcode : CodeInSequence (Builder.start (some type)).body.length [] := trivial
  refine ((Builder.inSequence_start (some type)).append hcode).toGraph ?_ rfl
  exact (Builder.data_start (by simpa using hdata)).append (by simp)

theorem identity_eq {type : Ty} (hdata : type.isData = true) :
    identity type = .ok (((Builder.start (some type)).append []).toGraph type 0) :=
  build_eq_ok.mpr ⟨0, (Builder.start (some type)).append [], type, yields_pure.mpr ⟨rfl, rfl⟩, rfl,
    (inSequence_identity hdata).verify, rfl⟩

theorem compose_identity_left (hg : g.InSequence) :
    (identity g.result >>= fun i => compose i g) = .ok g := by
  have hdata : g.result.isData = true := hg.data _ (List.mem_of_getElem? hg.result_type)
  have hidentity := inSequence_identity hdata
  rw [identity_eq hdata, ok_bind, compose_eq_ok_iff]
  set b : Builder := ⟨g.parameter, g.body⟩
  have hresult : b.types[g.resultId]? = some g.result := hg.result_type
  have hlast := (hidentity.inline_iff (b := b) hresult).mpr ⟨rfl, rfl⟩
  have hnone : b.append [] = b := by simp [Builder.append]
  have hid : inlinedId b.body.length (some g.resultId) 0 = g.resultId := rfl
  rw [List.map_nil, hnone, hid] at hlast
  exact ⟨rfl, g.resultId, b, g.resultId, b, g.result, hg.inline_start, hlast, hresult, hg.data,
    hg.eq_toGraph⟩

theorem compose_identity_right (hg : g.InSequence) {type : Ty} (hp : g.parameter = some type) :
    (identity type >>= fun i => compose g i) = .ok g := by
  have hdata : type.isData = true := by
    apply hg.data
    rw [hg.types_eq, hp]
    simp
  have hidentity := inSequence_identity hdata
  rw [identity_eq hdata, ok_bind, compose_eq_ok_iff]
  set b : Builder := ⟨g.parameter, g.body⟩
  have hcopy : Yields (Build.inline g (Builder.start g.parameter).argument?)
      (.start g.parameter) g.resultId b := hg.inline_start
  rw [hp] at hcopy
  exact ⟨hp, 0, _, g.resultId, b, g.result, hidentity.inline_start_iff.mpr ⟨rfl, rfl⟩, hcopy,
    hg.result_type, hg.data, hg.eq_toGraph⟩

theorem toOption_congr {ε α : Type} {x y : Except ε α} (h : ∀ a, x = .ok a ↔ y = .ok a) :
    x.toOption = y.toOption := by
  cases x with
  | ok a => rw [(h a).mp rfl]
  | error e =>
    cases y with
    | ok a => exact absurd ((h a).mpr rfl) nofun
    | error d => rfl

/-- Composites do not depend on how they are grouped: both groupings fail, or both give the same
graph; a projection may be taken before or after. The identity on either side of a graph that a
builder has finished, whatever failed on the way, gives back that graph. -/
theorem compose_laws :
    (∀ f g h : Graph, g.verify = .ok () →
      (compose g f >>= fun k => compose h k).toOption =
        (compose h g >>= fun k => compose k f).toOption) ∧
    (∀ (f g : Graph) (index : Nat), g.verify = .ok () →
      (compose g f >>= fun k => project k index).toOption =
        (project g index >>= fun k => compose k f).toOption) ∧
    ∀ g : Graph, g.Finished →
      (identity g.result >>= fun i => compose i g) = .ok g ∧
      ∀ type, g.parameter = some type → (identity type >>= fun i => compose g i) = .ok g := by
  refine ⟨fun f g h hg => toOption_congr fun k => ?_,
    fun f g index hg => toOption_congr fun k => project_compose_eq_ok_iff hg, fun g hg => ?_⟩
  · rw [compose_compose_eq_ok_iff, compose_compose_eq_ok_iff_of_verify hg]
  · exact ⟨compose_identity_left hg.inSequence, fun type => compose_identity_right hg.inSequence⟩

/-- Ids out of order, an argument that is read late, and steps that fail before the last one. -/
theorem compose_laws_outOfOrder :
    let number : Ty := .tensor ⟨.int32, ⟨[]⟩⟩
    let pair : Ty := .struct [(some "a", number), (none, number)]
    let constant (id : ValueId) (n : Int32) : Instruction :=
      ⟨id, .constant ⟨[], .int32 [n]⟩, [], number⟩
    let f : Graph := ⟨"fedgraph.v0", none, number, [constant 4 2], 4⟩
    let g : Graph := ⟨"fedgraph.v1", some number, number,
      [constant 9 3, ⟨5, .parameter, [], number⟩, ⟨7, .binary .add, [5, 9], number⟩], 7⟩
    let h : Graph := ⟨"fedgraph.v1", some number, pair,
      [⟨3, .parameter, [], number⟩, ⟨1, .pack [some "a", none], [3, 3], pair⟩], 1⟩
    let k : Graph := ⟨"fedgraph.v1", none, pair, [constant 0 2, constant 1 3,
      ⟨2, .binary .add, [0, 1], number⟩, ⟨3, .pack [some "a", none], [2, 2], pair⟩], 3⟩
    let tried : Builder := BuildStep.attemptAll
      [.select 0 0, .inline ⟨"", none, number, [constant 8 1], 6⟩ none, .binary .mul 0 1]
        (.start (some number))
    g.verify = .ok () ∧ h.verify = .ok () ∧
      (compose g f >>= fun i => compose h i).toOption = some k ∧
      (compose h g >>= fun i => compose i f).toOption = some k ∧
      (compose h g >>= fun i => project i 1).toOption =
        (project h 1 >>= fun i => compose i g).toOption ∧
      (tried.toGraph number 2).Finished ∧
      (identity number >>= fun i => compose i (tried.toGraph number 2)) =
        .ok (tried.toGraph number 2) := by
  intro number pair constant f g h k tried
  obtain ⟨hgroup, hproject, hidentity⟩ := compose_laws
  have hg : g.verify = .ok () := by decide +kernel
  have hh : h.verify = .ok () := by decide +kernel
  have hk : (compose g f >>= fun i => compose h i).toOption = some k := by decide +kernel
  have hverify : (tried.toGraph number 2).verify = .ok () := by decide +kernel
  have hfinished : (tried.toGraph number 2).Finished :=
    ⟨some number, _, 2, tried, yields_finish.mpr ⟨number, by decide +kernel, hverify, rfl, rfl⟩⟩
  exact ⟨hg, hh, hk, (hgroup f g h hg).symm.trans hk, hproject g h 1 hh, hfinished,
    (hidentity _ hfinished).1⟩

end Graph

end GraphFusion
