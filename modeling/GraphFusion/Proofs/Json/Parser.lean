import GraphFusion.Json.Parser
import GraphFusion.Proofs.Json.Lexer

/-!
Reading what is printed. From the tokens of a value the automaton comes to that value with
the containers around it untouched, so that every value whose numbers are decimal is read
back from its text.
-/

namespace GraphFusion.Json

/-- The state in which the automaton is after further tokens. -/
def resume (tokens : List Token) (s : State) : Option State := tokens.foldlM State.step s

theorem resume_cons {s s' : State} {t : Token} (h : s.step t = some s') (ts : List Token) :
    resume (t :: ts) s = resume ts s' := by
  rw [resume, List.foldlM_cons, h]
  rfl

/-- No value begins by closing an array. -/
theorem exists_tokens_cons (j : Json) : ∃ t ts, j.tokens = t :: ts ∧ t ≠ .closeBracket := by
  match j with
  | .null | .bool _ | .number _ | .string _ | .array [] | .object [] => exact ⟨_, _, rfl, nofun⟩
  | .array (_ :: _) | .object ((_, _) :: _) => exact ⟨_, _, rfl, nofun⟩

/-- The first item of an array is read like any other. -/
theorem resume_opened (j : Json) (stack : List Frame) (rest : List Token) :
    resume (j.tokens ++ rest) (.opened stack) =
      resume (j.tokens ++ rest) (.awaiting (.array [] :: stack)) := by
  obtain ⟨t, ts, htokens, ht⟩ := exists_tokens_cons j
  have hstep : State.step (.opened stack) t = State.step (.awaiting (.array [] :: stack)) t := by
    cases t <;> first | rfl | exact absurd rfl ht
  rw [htokens, List.cons_append, resume, resume, List.foldlM_cons, List.foldlM_cons, hstep]

mutual

/-- The tokens of a value lead from where one is awaited to where it is complete. -/
theorem resume_tokens : ∀ (j : Json) (stack : List Frame) (rest : List Token),
    resume (j.tokens ++ rest) (.awaiting stack) = resume rest (.complete j stack)
  | .null, _, rest => resume_cons rfl rest
  | .bool _, _, rest => resume_cons rfl rest
  | .number _, _, rest => resume_cons rfl rest
  | .string _, _, rest => resume_cons rfl rest
  | .array [], stack, rest => by
    have hopen : State.step (.awaiting stack) .openBracket = some (.opened stack) := rfl
    exact (resume_cons hopen _).trans (resume_cons rfl rest)
  | .array (j :: items), stack, rest => by
    -- An opened array awaits an item or its end, and only then further items.
    have hopen : State.step (.awaiting stack) .openBracket = some (.opened stack) := rfl
    rw [tokens, List.append_assoc, List.append_assoc, List.cons_append, resume_cons hopen,
      resume_opened, resume_tokens j, List.singleton_append]
    exact resume_itemTokens items j [] stack rest
  | .object [], stack, rest => by
    have hopen : State.step (.awaiting stack) .openBrace = some (.braced stack) := rfl
    exact (resume_cons hopen _).trans (resume_cons rfl rest)
  | .object ((key, j) :: members), stack, rest => by
    have hopen : State.step (.awaiting stack) .openBrace = some (.braced stack) := rfl
    have hkey : State.step (.braced stack) (.string key) = some (.keyed [] key stack) := rfl
    have hcolon : State.step (.keyed [] key stack) .colon =
        some (.awaiting (.object [] key :: stack)) := rfl
    rw [tokens, List.append_assoc, List.append_assoc, List.cons_append, List.cons_append,
      List.cons_append, resume_cons hopen, resume_cons hkey, resume_cons hcolon, resume_tokens j,
      List.singleton_append]
    exact resume_memberTokens members key j [] stack rest

theorem resume_itemTokens : ∀ (items : List Json) (j : Json) (before : List Json)
    (stack : List Frame) (rest : List Token),
    resume (itemTokens items ++ .closeBracket :: rest) (.complete j (.array before :: stack)) =
      resume rest (.complete (.array (before.reverse ++ j :: items)) stack)
  | [], j, before, stack, rest => by
    have hclose : State.step (.complete j (.array before :: stack)) .closeBracket =
        some (.complete (.array (before.reverse ++ [j])) stack) := by
      rw [← List.reverse_cons]
      rfl
    exact resume_cons hclose rest
  | j' :: items, j, before, stack, rest => by
    have hcomma : State.step (.complete j (.array before :: stack)) .comma =
        some (.awaiting (.array (j :: before) :: stack)) := rfl
    rw [itemTokens, List.append_assoc, List.cons_append, resume_cons hcomma, resume_tokens j',
      resume_itemTokens items j' (j :: before), List.reverse_cons, List.append_assoc,
      List.singleton_append]

theorem resume_memberTokens : ∀ (members : List (Text × Json)) (key : Text) (j : Json)
    (before : List (Text × Json)) (stack : List Frame) (rest : List Token),
    resume (memberTokens members ++ .closeBrace :: rest)
        (.complete j (.object before key :: stack)) =
      resume rest (.complete (.object (before.reverse ++ (key, j) :: members)) stack)
  | [], key, j, before, stack, rest => by
    have hclose : State.step (.complete j (.object before key :: stack)) .closeBrace =
        some (.complete (.object (before.reverse ++ [(key, j)])) stack) := by
      rw [← List.reverse_cons]
      rfl
    exact resume_cons hclose rest
  | (key', j') :: members, key, j, before, stack, rest => by
    have hcomma : State.step (.complete j (.object before key :: stack)) .comma =
        some (.separated ((key, j) :: before) stack) := rfl
    have hkey : State.step (.separated ((key, j) :: before) stack) (.string key') =
        some (.keyed ((key, j) :: before) key' stack) := rfl
    have hcolon : State.step (.keyed ((key, j) :: before) key' stack) .colon =
        some (.awaiting (.object ((key, j) :: before) key' :: stack)) := rfl
    rw [memberTokens, List.append_assoc, List.cons_append, List.cons_append, List.cons_append,
      resume_cons hcomma, resume_cons hkey, resume_cons hcolon, resume_tokens j',
      resume_memberTokens members key' j' ((key, j) :: before), List.reverse_cons,
      List.append_assoc, List.singleton_append]

end

/-- A value whose numbers are decimal is read back from its text. -/
theorem parse?_pretty {j : Json} (h : j.Decimal) : parse? j.pretty = some j := by
  have hread := resume_tokens j [] []
  rw [List.append_nil] at hread
  rw [parse?, tokens?_pretty h]
  change (resume j.tokens (.awaiting [])).bind State.value? = some j
  rw [hread]
  rfl

end GraphFusion.Json
