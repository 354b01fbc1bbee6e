import GraphFusion.Graph.Interpreter
import GraphFusion.Proofs.Values.Typing
import GraphFusion.Proofs.Outcome

/-!
What terms stand for. Each type has a set of meanings: tensors that fit, structs
of meanings, and functions that may fail. At types of data the meanings are the
host values of the type, read back and forth by `Ty.value?` and `Ty.ofValue?`.
-/

namespace GraphFusion

/-- Why evaluation gives nothing. The last two never happen on typed terms. -/
inductive Failure where
  | execution (error : ExecutionError)
  /-- An intrinsic gives no result. -/
  | intrinsic (reason : String)
  | unbound (name : String)
  | illTyped

namespace Ty

mutual

/-- The meanings at a type. A function without a parameter is the outcome of
calling it. -/
def Carrier : Ty → Type
  | .tensor type => { t : Tensor // t.conformsTo type = true }
  | .struct es => ElementCarriers es
  | .function none r => Except Failure (Carrier r)
  | .function (some p) r => Carrier p → Except Failure (Carrier r)

def ElementCarriers : List (Label × Ty) → Type
  | [] => Unit
  | (_, t) :: es => Carrier t × ElementCarriers es

end

mutual

/-- Zeros at types of data, and functions that always fail. -/
def zero : (t : Ty) → t.Carrier
  | .tensor type => ⟨type.zero, type.zero_conformsTo⟩
  | .struct es => elementZeros es
  | .function none _ => Except.error (.intrinsic "no result")
  | .function (some _) _ => fun _ => .error (.intrinsic "no result")

def elementZeros : (es : List (Label × Ty)) → ElementCarriers es
  | [] => ()
  | (_, t) :: es => (zero t, elementZeros es)

end

mutual

/-- The host value of a meaning, where there are no functions inside. -/
def value? : (t : Ty) → t.Carrier → Option Value
  | .tensor _, c => some (.tensor c.val)
  | .struct es, c => (elementValues? es c).map .struct
  | .function .., _ => none

def elementValues? : (es : List (Label × Ty)) → ElementCarriers es → Option (List (Label × Value))
  | [], _ => some []
  | (n, t) :: es, c => do
    let v ← value? t c.1
    let vs ← elementValues? es c.2
    return (n, v) :: vs

end

mutual

/-- The meaning of a host value with exactly the names of the type. -/
def ofValue? : (t : Ty) → Value → Option t.Carrier
  | .tensor type, .tensor t => if h : t.conformsTo type = true then some ⟨t, h⟩ else none
  | .struct es, .struct vs => ofElementValues? es vs
  | _, _ => none

def ofElementValues? : (es : List (Label × Ty)) → List (Label × Value) → Option (ElementCarriers es)
  | [], [] => some ()
  | (n, t) :: es, (m, v) :: vs =>
    if n = m then do
      let c ← ofValue? t v
      let cs ← ofElementValues? es vs
      return (c, cs)
    else none
  | _, _ => none

end

mutual

theorem hasType_of_value? :
    ∀ {t : Ty} {c : t.Carrier} {v : Value}, t.value? c = some v → v.HasType t
  | .tensor _, c, _, h => by
    cases h
    simpa only [Value.HasType] using c.property
  | .struct es, c, _, h => by
    simp only [value?, Option.map_eq_some_iff] at h
    obtain ⟨vs, hvs, rfl⟩ := h
    simpa only [Value.HasType] using elementsHaveType_of_elementValues? hvs
  | .function .., _, _, h => by cases h

theorem elementsHaveType_of_elementValues? :
    ∀ {es : List (Label × Ty)} {c : ElementCarriers es} {vs : List (Label × Value)},
      elementValues? es c = some vs → Value.ElementsHaveType vs es
  | [], _, _, h => by
    cases h
    trivial
  | (n, t) :: es, c, _, h => by
    simp only [elementValues?, Option.bind_eq_bind, Option.bind_eq_some_iff] at h
    obtain ⟨v, hv, vs, hvs, h⟩ := h
    cases h
    exact ⟨rfl, hasType_of_value? hv, elementsHaveType_of_elementValues? hvs⟩

end

mutual

/-- Every meaning at a type of data is a host value. -/
theorem exists_value? : ∀ {t : Ty} (c : t.Carrier), t.isData = true → ∃ v, t.value? c = some v
  | .tensor _, c, _ => ⟨.tensor c.val, rfl⟩
  | .struct es, c, h => by
    rw [isData] at h
    obtain ⟨vs, hvs⟩ := exists_elementValues? c h
    exact ⟨.struct vs, by simp only [value?, hvs, Option.map_some]⟩
  | .function .., _, h => by simp [isData] at h

theorem exists_elementValues? : ∀ {es : List (Label × Ty)} (c : ElementCarriers es),
    elementsAreData es = true → ∃ vs, elementValues? es c = some vs
  | [], _, _ => ⟨[], rfl⟩
  | (n, t) :: es, c, h => by
    simp only [elementsAreData, Bool.and_eq_true] at h
    obtain ⟨v, hv⟩ := exists_value? c.1 h.1
    obtain ⟨vs, hvs⟩ := exists_elementValues? c.2 h.2
    exact ⟨(n, v) :: vs, by simp [elementValues?, hv, hvs]⟩

end

mutual

theorem ofValue?_value? :
    ∀ {t : Ty} {c : t.Carrier} {v : Value}, t.value? c = some v → t.ofValue? v = some c
  | .tensor _, c, _, h => by
    cases h
    exact dif_pos c.property
  | .struct es, c, _, h => by
    simp only [value?, Option.map_eq_some_iff] at h
    obtain ⟨vs, hvs, rfl⟩ := h
    exact ofElementValues?_elementValues? hvs
  | .function .., _, _, h => by cases h

theorem ofElementValues?_elementValues? :
    ∀ {es : List (Label × Ty)} {c : ElementCarriers es} {vs : List (Label × Value)},
      elementValues? es c = some vs → ofElementValues? es vs = some c
  | [], _, _, h => by
    cases h
    rfl
  | (n, t) :: es, c, _, h => by
    simp only [elementValues?, Option.bind_eq_bind, Option.bind_eq_some_iff] at h
    obtain ⟨v, hv, vs, hvs, h⟩ := h
    cases h
    simp only [ofElementValues?, ofValue?_value? hv, ofElementValues?_elementValues? hvs]
    rfl

end

mutual

theorem exists_ofValue? :
    ∀ {t : Ty} {v : Value}, v.HasType t → ∃ c, t.ofValue? v = some c ∧ t.value? c = some v
  | .tensor type, .tensor t, h => by
    rw [Value.HasType] at h
    exact ⟨⟨t, h⟩, dif_pos h, rfl⟩
  | .struct es, .struct vs, h => by
    rw [Value.HasType] at h
    obtain ⟨c, hc, hv⟩ := exists_ofElementValues? h
    exact ⟨c, hc, by simp only [value?, hv, Option.map_some]⟩
  | .tensor _, .struct _, h => by simp [Value.HasType] at h
  | .struct _, .tensor _, h => by simp [Value.HasType] at h
  | .function .., .tensor _, h => by simp [Value.HasType] at h
  | .function .., .struct _, h => by simp [Value.HasType] at h

theorem exists_ofElementValues? :
    ∀ {es : List (Label × Ty)} {vs : List (Label × Value)}, Value.ElementsHaveType vs es →
      ∃ c, ofElementValues? es vs = some c ∧ elementValues? es c = some vs
  | [], [], _ => ⟨(), rfl, rfl⟩
  | (n, t) :: es, (m, v) :: vs, h => by
    simp only [Value.ElementsHaveType] at h
    obtain ⟨rfl, hv, hvs⟩ := h
    obtain ⟨c, hc, hcv⟩ := exists_ofValue? hv
    obtain ⟨cs, hcs, hcvs⟩ := exists_ofElementValues? hvs
    refine ⟨(c, cs), ?_, ?_⟩
    · simp only [ofElementValues?, hc, hcs]
      rfl
    · simp only [elementValues?, hcv, hcvs]
      rfl
  | [], _ :: _, h => by simp [Value.ElementsHaveType] at h
  | _ :: _, [], h => by simp [Value.ElementsHaveType] at h

end

end Ty

/-- A meaning with its type. -/
structure Meaning where
  type : Ty
  content : type.Carrier

namespace Meaning

def value? (m : Meaning) : Option Value := m.type.value? m.content

def ofValue? (t : Ty) (v : Value) : Option Meaning := (t.ofValue? v).map (Meaning.mk t)

theorem hasType_of_value? {m : Meaning} {v : Value} (h : m.value? = some v) : v.HasType m.type :=
  Ty.hasType_of_value? h

theorem exists_value? {m : Meaning} (h : m.type.isData = true) : ∃ v, m.value? = some v :=
  Ty.exists_value? m.content h

theorem exists_ofValue? {t : Ty} {v : Value} (h : v.HasType t) :
    ∃ m, ofValue? t v = some m ∧ m.type = t ∧ m.value? = some v := by
  obtain ⟨c, hc, hv⟩ := Ty.exists_ofValue? h
  exact ⟨⟨t, c⟩, by rw [ofValue?, hc]; rfl, rfl, hv⟩

theorem ofValue?_value? {m : Meaning} {v : Value} (h : m.value? = some v) :
    ofValue? m.type v = some m := by
  rw [ofValue?, Ty.ofValue?_value? h]
  rfl

/-- The content at an expected type. -/
def as (t : Ty) (m : Meaning) : Except Failure t.Carrier :=
  if h : m.type = t then .ok (h ▸ m.content) else .error .illTyped

/-- The function that runs `body` on its argument, if it takes one. -/
def function (p : Option Ty) (r : Ty) (body : Option Meaning → Except Failure Meaning) : Meaning :=
  match p with
  | none => ⟨.function none r, body none >>= as r⟩
  | some p => ⟨.function (some p) r, fun (a : p.Carrier) => body (some ⟨p, a⟩) >>= as r⟩

def apply : Meaning → Option Meaning → Except Failure Meaning
  | ⟨.function none r, f⟩, none => do
    let c ← (f : Except Failure r.Carrier)
    return ⟨r, c⟩
  | ⟨.function (some p) r, f⟩, some a => do
    let x ← a.as p
    let c ← (f : p.Carrier → Except Failure r.Carrier) x
    return ⟨r, c⟩
  | _, _ => .error .illTyped

def elementsOf : (es : List (Label × Ty)) → Ty.ElementCarriers es → List (Label × Meaning)
  | [], _ => []
  | (n, t) :: es, c => (n, ⟨t, c.1⟩) :: elementsOf es c.2

def elements? : Meaning → Option (List (Label × Meaning))
  | ⟨.struct es, c⟩ => some (elementsOf es c)
  | _ => none

def elementTypes : List (Label × Meaning) → List (Label × Ty)
  | [] => []
  | (n, m) :: ms => (n, m.type) :: elementTypes ms

def contents : (ms : List (Label × Meaning)) → Ty.ElementCarriers (elementTypes ms)
  | [] => ()
  | (_, m) :: ms => (m.content, contents ms)

def struct (ms : List (Label × Meaning)) : Meaning := ⟨.struct (elementTypes ms), contents ms⟩

/-- A struct with one more element in front. -/
def cons (n : Label) (m s : Meaning) : Meaning := struct ((n, m) :: s.elements?.getD [])

/-- Element `index` of a struct. -/
def select (m : Meaning) (index : Nat) : Except Failure Meaning :=
  match m.elements?.bind (·[index]?) with
  | some (_, e) => .ok e
  | none => .error .illTyped

@[simp] theorem as_self (m : Meaning) : m.as m.type = .ok m.content := by
  simp [as]

theorem function_type (p : Option Ty) (r : Ty) (body : Option Meaning → Except Failure Meaning) :
    (function p r body).type = .function p r := by
  cases p <;> rfl

theorem as_map_mk {r : Ty} (m : Meaning) (h : m.type = r) :
    (m.as r >>= fun c => (.ok ⟨r, c⟩ : Except Failure Meaning)) = .ok m := by
  subst h
  rw [as_self]
  rfl

theorem apply_function {p : Option Ty} {r : Ty} {body : Option Meaning → Except Failure Meaning}
    {a : Option Meaning} (ha : a.map (·.type) = p) (hr : ∀ m, body a = .ok m → m.type = r) :
    (function p r body).apply a = body a := by
  have hbody : (body a >>= as r >>= fun c => (.ok ⟨r, c⟩ : Except Failure Meaning)) = body a := by
    cases h : body a with
    | error e => rfl
    | ok m => exact as_map_mk m (hr m h)
  cases a with
  | none =>
    cases ha
    exact hbody
  | some m =>
    cases ha
    simp only [Option.map_some, function, apply, as_self, ok_bind]
    exact hbody

/-- Functions with equal results on every argument are equal. -/
theorem function_congr {p : Option Ty} {r : Ty}
    {body body' : Option Meaning → Except Failure Meaning}
    (h : ∀ a : Option Meaning, a.map (·.type) = p → body a = body' a) :
    function p r body = function p r body' := by
  cases p with
  | none => simp only [function, h none rfl]
  | some p =>
    have hbody : (fun a : p.Carrier => body (some ⟨p, a⟩) >>= as r) =
        fun a => body' (some ⟨p, a⟩) >>= as r := by
      funext a
      rw [h _ rfl]
    simp only [function, hbody]

theorem type_of_apply {m m' : Meaning} {p : Option Ty} {r : Ty} {a : Option Meaning}
    (hm : m.type = .function p r) (h : m.apply a = .ok m') : m'.type = r := by
  obtain ⟨t, c⟩ := m
  simp only at hm
  subst hm
  cases p with
  | none =>
    cases a with
    | none =>
      obtain ⟨x, -, hx⟩ := bind_eq_ok.mp h
      cases hx
      rfl
    | some a => cases h
  | some p =>
    cases a with
    | none => cases h
    | some a =>
      obtain ⟨x, -, h⟩ := bind_eq_ok.mp h
      obtain ⟨y, -, hy⟩ := bind_eq_ok.mp h
      cases hy
      rfl

theorem elementsOf_contents (ms : List (Label × Meaning)) :
    elementsOf (elementTypes ms) (contents ms) = ms := by
  induction ms with
  | nil => rfl
  | cons m ms ih => simp only [elementTypes, contents, elementsOf, ih]

@[simp] theorem elements?_struct (ms : List (Label × Meaning)) :
    (struct ms).elements? = some ms := by
  simp only [struct, elements?, elementsOf_contents]

/-- Contents of a struct are the contents of its elements. -/
@[elab_as_elim]
theorem contents_cases {P : (es : List (Label × Ty)) → Ty.ElementCarriers es → Prop}
    (h : ∀ ms, P (elementTypes ms) (contents ms)) :
    ∀ (es : List (Label × Ty)) (c : Ty.ElementCarriers es), P es c
  | [], _ => h []
  | (n, t) :: es, c =>
    contents_cases (P := fun es d => P ((n, t) :: es) (c.1, d))
      (fun ms => h ((n, ⟨t, c.1⟩) :: ms)) es c.2

theorem exists_struct {m : Meaning} {es : List (Label × Ty)} (h : m.type = .struct es) :
    ∃ ms, m = struct ms ∧ elementTypes ms = es := by
  obtain ⟨t, c⟩ := m
  simp only at h
  subst h
  exact contents_cases (P := fun es c => ∃ ms, (⟨.struct es, c⟩ : Meaning) = struct ms ∧
    elementTypes ms = es) (fun ms => ⟨ms, rfl, rfl⟩) es c

@[simp] theorem cons_struct (n : Label) (m : Meaning) (ms : List (Label × Meaning)) :
    cons n m (struct ms) = struct ((n, m) :: ms) := by
  simp only [cons, elements?_struct, Option.getD_some]

theorem cons_mk (n : Label) (t : Ty) (c : t.Carrier) (es : List (Label × Ty))
    (d : Ty.ElementCarriers es) :
    cons n ⟨t, c⟩ ⟨.struct es, d⟩ = ⟨.struct ((n, t) :: es), (c, d)⟩ :=
  contents_cases (P := fun es d => cons n ⟨t, c⟩ ⟨.struct es, d⟩ =
    ⟨.struct ((n, t) :: es), (c, d)⟩) (fun ms => cons_struct n ⟨t, c⟩ ms) es d

theorem cons_type {n : Label} {m s : Meaning} {es : List (Label × Ty)} (h : s.type = .struct es) :
    (cons n m s).type = .struct ((n, m.type) :: es) := by
  obtain ⟨ms, rfl, rfl⟩ := exists_struct h
  rw [cons_struct]
  rfl

theorem elementTypes_eq_map (ms : List (Label × Meaning)) :
    elementTypes ms = ms.map fun e => (e.1, e.2.type) := by
  induction ms with
  | nil => rfl
  | cons e ms ih => simp only [elementTypes, List.map_cons, ih]

theorem struct_type (ms : List (Label × Meaning)) :
    (struct ms).type = .struct (ms.map fun e => (e.1, e.2.type)) :=
  congrArg Ty.struct (elementTypes_eq_map ms)

theorem select_struct {ms : List (Label × Meaning)} {index : Nat} {label : Label} {e : Meaning}
    (h : ms[index]? = some (label, e)) : (struct ms).select index = .ok e := by
  simp only [select, elements?_struct, Option.bind_some, h]

theorem exists_select {m : Meaning} {es : List (Label × Ty)} {index : Nat} {label : Label}
    {t : Ty} (hm : m.type = .struct es) (hindex : es[index]? = some (label, t)) :
    ∃ e, m.select index = .ok e ∧ e.type = t := by
  obtain ⟨ms, rfl, rfl⟩ := exists_struct hm
  rw [elementTypes_eq_map, List.getElem?_map, Option.map_eq_some_iff] at hindex
  obtain ⟨⟨n, e⟩, he, heq⟩ := hindex
  cases heq
  exact ⟨e, select_struct he, rfl⟩

theorem elementValues?_contents {ms : List (Label × Meaning)} {vs : List (Label × Value)} :
    Ty.elementValues? (elementTypes ms) (contents ms) = some vs ↔
      List.Forall₂ (fun e f => e.1 = f.1 ∧ e.2.value? = some f.2) ms vs := by
  induction ms generalizing vs with
  | nil =>
    rw [List.forall₂_nil_left_iff]
    exact ⟨fun h => (Option.some.inj h).symm, fun h => congrArg some h.symm⟩
  | cons e ms ih =>
    obtain ⟨n, m⟩ := e
    simp only [elementTypes, contents, Ty.elementValues?, Option.bind_eq_bind,
      Option.bind_eq_some_iff, List.forall₂_cons_left_iff]
    constructor
    · rintro ⟨v, hv, rest, hrest, h⟩
      cases h
      exact ⟨(n, v), rest, ⟨rfl, hv⟩, ih.mp hrest, rfl⟩
    · rintro ⟨⟨n', v⟩, rest, ⟨hn, hv⟩, hrest, rfl⟩
      simp only at hn
      subst hn
      exact ⟨v, hv, rest, ih.mpr hrest, rfl⟩

theorem value?_struct {ms : List (Label × Meaning)} {v : Value} :
    (struct ms).value? = some v ↔ ∃ vs, v = .struct vs ∧
      List.Forall₂ (fun e f => e.1 = f.1 ∧ e.2.value? = some f.2) ms vs := by
  change (Ty.elementValues? _ _).map .struct = some v ↔ _
  rw [Option.map_eq_some_iff]
  constructor
  · rintro ⟨vs, hvs, rfl⟩
    exact ⟨vs, rfl, elementValues?_contents.mp hvs⟩
  · rintro ⟨vs, rfl, hvs⟩
    exact ⟨vs, elementValues?_contents.mpr hvs, rfl⟩

theorem value?_select {m e : Meaning} {v : Value} {index : Nat} (hv : m.value? = some v)
    (h : m.select index = .ok e) : ∃ w, v.element? index = some w ∧ e.value? = some w := by
  obtain ⟨t, c⟩ := m
  cases t with
  | tensor type => cases h
  | function p r => cases h
  | struct es =>
    obtain ⟨ms, hms, -⟩ := exists_struct (m := ⟨.struct es, c⟩) rfl
    rw [hms] at hv h
    obtain ⟨vs, rfl, hvs⟩ := value?_struct.mp hv
    simp only [select, elements?_struct, Option.bind_some] at h
    split at h
    · rename_i n e' hget
      cases h
      obtain ⟨w, hw, -, hvalue⟩ := exists_right_of_forall₂ hvs hget
      exact ⟨w.2, by rw [Value.element?_struct, hw, Option.map_some], hvalue⟩
    · cases h

/-- The outcome of a run as a meaning of type `t`. -/
def returned (t : Ty) (outcome : Except ExecutionError Value) : Except Failure Meaning :=
  match outcome with
  | .error e => .error (.execution e)
  | .ok v =>
    match ofValue? t v with
    | some m => .ok m
    | none => .error .illTyped

/-- The host value of an argument, when there is one and when it has a value. -/
def argument? : Option Meaning → Option (Option Value)
  | none => some none
  | some m => m.value?.map some

/-- The function that a graph computes on the reference interpreter. -/
def ofGraph (g : Graph) : Meaning :=
  function g.parameter g.result fun a =>
    match argument? a with
    | some v => returned g.result (g.execute v)
    | none => .error .illTyped

theorem type_of_returned {t : Ty} {outcome : Except ExecutionError Value} {m : Meaning}
    (h : returned t outcome = .ok m) : m.type = t := by
  cases outcome with
  | error e => cases h
  | ok v =>
    simp only [returned] at h
    split at h
    · rename_i m' hm
      cases h
      obtain ⟨c, -, rfl⟩ := Option.map_eq_some_iff.mp hm
      rfl
    · cases h

theorem returned_ok {m : Meaning} {v : Value} (h : m.value? = some v) :
    returned m.type (.ok v) = .ok m := by
  simp only [returned, ofValue?_value? h]

theorem exists_returned {t : Ty} {v : Value} (h : v.HasType t) :
    ∃ m, returned t (.ok v) = .ok m ∧ m.type = t ∧ m.value? = some v := by
  obtain ⟨m, hm, htype, hv⟩ := exists_ofValue? h
  exact ⟨m, by simp only [returned, hm], htype, hv⟩

theorem value?_cons {n : Label} {m s : Meaning} {v : Value} {vs : List (Label × Value)}
    (hm : m.value? = some v) (hs : s.value? = some (.struct vs)) {es : List (Label × Ty)}
    (htype : s.type = .struct es) : (cons n m s).value? = some (.struct ((n, v) :: vs)) := by
  obtain ⟨ms, rfl, -⟩ := exists_struct htype
  obtain ⟨vs', heq, hvs⟩ := value?_struct.mp hs
  cases heq
  rw [cons_struct]
  exact value?_struct.mpr ⟨_, rfl, .cons ⟨rfl, hm⟩ hvs⟩

/-- A struct returned at once is the struct of what is returned in turn. -/
theorem returned_cons {n : Label} {r : Ty} {rs : List (Label × Ty)} {labels : List Label}
    {x : Except ExecutionError Value} {y : Except ExecutionError (List Value)}
    (hx : ∀ v, x = .ok v → v.HasType r)
    (hy : ∀ vs, y = .ok vs → (Value.struct (labels.zip vs)).HasType (.struct rs)) :
    returned (.struct ((n, r) :: rs)) ((fun vs => .struct ((n :: labels).zip vs)) <$> (do
      let v ← x
      let vs ← y
      return v :: vs)) = (do
      let m ← returned r x
      let s ← returned (.struct rs) ((fun vs => .struct (labels.zip vs)) <$> y)
      return cons n m s) := by
  cases x with
  | error e => rfl
  | ok v =>
    obtain ⟨m, hm, hmtype, hmvalue⟩ := exists_returned (hx v rfl)
    rw [hm, ok_bind, ok_bind]
    cases y with
    | error e => rfl
    | ok vs =>
      obtain ⟨s, hs, hstype, hsvalue⟩ := exists_returned (hy vs rfl)
      rw [ok_map, hs, ok_bind, ok_bind, pure_eq_ok, pure_eq_ok, ok_map, List.zip_cons_cons,
        ← hmtype, ← cons_type hstype]
      exact returned_ok (value?_cons hmvalue hsvalue hstype)

theorem ofGraph_type (g : Graph) : (ofGraph g).type = g.type := function_type _ _ _

end Meaning

end GraphFusion
