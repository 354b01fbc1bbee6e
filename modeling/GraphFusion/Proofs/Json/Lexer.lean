import GraphFusion.Json.Lexer
import GraphFusion.Json.Printer
import GraphFusion.Proofs.Digits
import Mathlib.Tactic.IntervalCases

/-!
The tokens of printed JSON. Strings give back the text they quote, whatever characters it
has, and numbers the digits they are written with, provided that what follows cannot be read
as a part of them. What a printer puts behind a value never can.
-/

namespace GraphFusion.Json

/-- Nothing at the front of `rest` prolongs a number. -/
def Ends (rest : List Char) : Prop :=
  ∀ c ∈ rest.head?, c.isDigit = false ∧ c ≠ '.' ∧ c ≠ 'e' ∧ c ≠ 'E'

theorem ends_nil : Ends [] := nofun

theorem ends_cons {c : Char} {rest : List Char}
    (h : c.isDigit = false ∧ c ≠ '.' ∧ c ≠ 'e' ∧ c ≠ 'E') : Ends (c :: rest) := by
  rintro _ ⟨⟩
  exact h

theorem ends_newLine (level : Nat) (rest : List Char) : Ends (newLine level ++ rest) :=
  ends_cons (by decide)

section

variable {chars rest : List Char} {c : Char} {t : Token}

/-- Reads one token where it does not begin with a blank. -/
theorem tokens?_of_token? (hblank : isBlank c = false) (h : token? c chars = some (t, rest))
    (hlength : rest.length ≤ chars.length) :
    tokens? (c :: chars) = (tokens? rest).map (t :: ·) := by
  rw [tokens?, hblank, h]
  simp only [Bool.false_eq_true, if_false, hlength, if_true]

theorem tokens?_blanks (n : Nat) (chars : List Char) :
    tokens? (List.replicate n ' ' ++ chars) = tokens? chars := by
  induction n with
  | zero => rfl
  | succ n ih =>
    rw [List.replicate_succ, List.cons_append, tokens?, ih]
    rfl

theorem tokens?_newLine (level : Nat) (chars : List Char) :
    tokens? (newLine level ++ chars) = tokens? chars := by
  rw [newLine, List.cons_append, tokens?, tokens?_blanks]
  rfl

end

section

variable {digits rest : List Char}

theorem digits?_append (hdigits : ∀ c ∈ digits, c.isDigit = true) (hne : digits ≠ [])
    (hrest : ∀ c ∈ rest.head?, c.isDigit = false) :
    digits? (digits ++ rest) = some (digits, rest) := by
  have htake : rest.takeWhile Char.isDigit = [] := by
    cases rest with
    | nil => rfl
    | cons c rest => rw [List.takeWhile_cons_of_neg (by simp [hrest c rfl])]
  have hdrop : rest.dropWhile Char.isDigit = rest := by
    cases rest with
    | nil => rfl
    | cons c rest => rw [List.dropWhile_cons_of_neg (by simp [hrest c rfl])]
  rw [digits?, List.takeWhile_append_of_pos hdigits, List.dropWhile_append_of_pos hdigits, htake,
    hdrop, List.append_nil]
  simp [hne]

theorem isDigit_digitsOf (n : Nat) : ∀ c ∈ Number.digitsOf n, c.isDigit = true :=
  fun _ hc => Nat.isDigit_of_mem_toDigits (by decide) (by decide) hc

theorem digitsOf_ne_nil (n : Nat) : Number.digitsOf n ≠ [] := Nat.toDigits_ne_nil

theorem ofDigitChars_digitsOf (n : Nat) : Nat.ofDigitChars 10 (Number.digitsOf n) 0 = n :=
  Nat.ofDigitChars_ten_toDigits

theorem whole?_digitsOf (n : Nat) (hrest : ∀ c ∈ rest.head?, c.isDigit = false) :
    whole? (Number.digitsOf n ++ rest) = some (n, rest) := by
  rcases Nat.eq_zero_or_pos n with rfl | hpos
  · rfl
  · have hhead : ∀ tail, Number.digitsOf n ++ rest = '0' :: tail → False := by
      intro tail h
      have hfirst : (Number.digitsOf n ++ rest).head? = (Number.digitsOf n).head? :=
        List.head?_append_of_ne_nil _ (digitsOf_ne_nil n)
      exact head?_toDigits hpos (hfirst.symm.trans (congrArg List.head? h))
    rw [whole?.eq_2 _ hhead, digits?_append (isDigit_digitsOf n) (digitsOf_ne_nil n) hrest]
    simp [ofDigitChars_digitsOf]

theorem map_digitValue {fraction : List Nat} (h : ∀ d ∈ fraction, d < 10) :
    (fraction.map Nat.digitChar).map digitValue = fraction := by
  rw [List.map_map]
  refine (List.map_congr_left fun d hd => ?_).trans (List.map_id fraction)
  rw [Function.comp_apply, digitValue, Nat.toNat_digitChar_of_lt_ten (h d hd)]
  exact Nat.add_sub_cancel_left 48 d

theorem fraction?_fractionText {fraction : List Nat} (h : ∀ d ∈ fraction, d < 10)
    (hrest : ∀ c ∈ rest.head?, c.isDigit = false ∧ c ≠ '.') :
    fraction? (Number.fractionText fraction ++ rest) = some (fraction, rest) := by
  cases fraction with
  | nil =>
    refine fraction?.eq_2 rest fun tail htail => ?_
    rw [htail] at hrest
    exact (hrest '.' rfl).2 rfl
  | cons d fraction =>
    have hdigits : ∀ c ∈ (d :: fraction).map Nat.digitChar, c.isDigit = true := by
      intro c hc
      obtain ⟨d', hd', rfl⟩ := List.mem_map.mp hc
      rw [Nat.isDigit_digitChar]
      exact decide_eq_true (h d' hd')
    have hread := digits?_append hdigits (List.cons_ne_nil _ _) fun c hc => (hrest c hc).1
    have htext : Number.fractionText (d :: fraction) ++ rest =
        '.' :: ((d :: fraction).map Nat.digitChar ++ rest) := rfl
    rw [htext, fraction?, hread]
    exact congrArg (fun ds => some (ds, rest)) (map_digitValue h)

theorem exponent?_exponentText (e : Option Exponent) (hrest : Ends rest) :
    exponent? (Number.exponentText e ++ rest) = some (e, rest) := by
  cases e with
  | none =>
    cases rest with
    | nil => rfl
    | cons c rest =>
      obtain ⟨-, -, he, hE⟩ := hrest c rfl
      unfold exponent?
      simp [Number.exponentText, he, hE]
  | some e =>
    obtain ⟨negative, magnitude⟩ := e
    have hread : exponentDigits? negative (Number.digitsOf magnitude ++ rest) =
        some (some ⟨negative, magnitude⟩, rest) := by
      rw [exponentDigits?, digits?_append (isDigit_digitsOf magnitude) (digitsOf_ne_nil magnitude)
        fun c hc => (hrest c hc).1]
      simp [ofDigitChars_digitsOf]
    cases negative <;> exact hread

/-- A number after its sign is read up to what ends it. -/
theorem unsigned?_render {n : Number} (h : ∀ d ∈ n.fraction, d < 10) (hrest : Ends rest) :
    unsigned? n.negative (Number.digitsOf n.whole ++ Number.fractionText n.fraction ++
      Number.exponentText n.exponent ++ rest) = some (.number n, rest) := by
  have hexponent : ∀ c ∈ (Number.exponentText n.exponent ++ rest).head?,
      c.isDigit = false ∧ c ≠ '.' := by
    cases n.exponent with
    | none => exact fun c hc => ⟨(hrest c hc).1, (hrest c hc).2.1⟩
    | some e =>
      rintro _ ⟨⟩
      decide
  have hfraction : ∀ c ∈ (Number.fractionText n.fraction ++
      (Number.exponentText n.exponent ++ rest)).head?, c.isDigit = false := by
    cases n.fraction with
    | nil => exact fun c hc => (hexponent c hc).1
    | cons d fraction =>
      rintro _ ⟨⟩
      decide
  rw [List.append_assoc, List.append_assoc, unsigned?, whole?_digitsOf n.whole hfraction]
  dsimp only [Option.bind_eq_bind, Option.bind_some]
  rw [fraction?_fractionText h hexponent]
  dsimp only [Option.bind_eq_bind, Option.bind_some]
  rw [exponent?_exponentText n.exponent hrest]
  rfl

theorem isBlank_digit {c : Char} (h : c.isDigit = true) : isBlank c = false := by
  rw [← Bool.not_eq_true]
  intro hblank
  simp only [isBlank, Bool.or_eq_true, beq_iff_eq] at hblank
  rcases hblank with ((rfl | rfl) | rfl) | rfl <;> exact absurd h (by decide)

theorem token?_digit {c : Char} (h : c.isDigit = true) :
    token? c rest = unsigned? false (c :: rest) := by
  unfold token?
  split
  all_goals first | (exfalso; revert h; decide) | exact if_pos h

theorem tokens?_number {n : Number} (h : ∀ d ∈ n.fraction, d < 10) (hrest : Ends rest) :
    tokens? (n.render ++ rest) = (tokens? rest).map (.number n :: ·) := by
  have hread := unsigned?_render h hrest
  generalize htail : Number.digitsOf n.whole ++ Number.fractionText n.fraction ++
    Number.exponentText n.exponent ++ rest = chars at hread
  have hrender : n.render ++ rest = (if n.negative then ['-'] else []) ++ chars := by
    rw [← htail, Number.render, List.append_assoc, List.append_assoc, List.append_assoc,
      List.append_assoc, List.append_assoc]
  have hlength : rest.length < chars.length := by
    have hpos := List.length_pos_iff.mpr (digitsOf_ne_nil n.whole)
    simp only [← htail, List.length_append]
    omega
  rw [hrender]
  -- Without a sign the first digit is looked at twice: it selects the rule and is part of it.
  cases hsign : n.negative with
  | true =>
    rw [hsign] at hread
    exact tokens?_of_token? rfl hread (Nat.le_of_lt hlength)
  | false =>
    rw [hsign] at hread
    cases chars with
    | nil => cases hlength
    | cons c chars =>
      have hdigit : c.isDigit = true := by
        refine isDigit_digitsOf n.whole c (List.mem_of_head? ?_)
        have hhead := congrArg List.head? htail
        rw [List.append_assoc, List.append_assoc,
          List.head?_append_of_ne_nil _ (digitsOf_ne_nil n.whole)] at hhead
        exact hhead
      rw [← token?_digit hdigit] at hread
      exact tokens?_of_token? (isBlank_digit hdigit) hread (Nat.le_of_lt_succ hlength)

end

section

variable {rest : List Char}

/-- The symbol that a printed character is read as: control characters that have no short
escape are given by their code. -/
def symbolOf (c : Char) : Symbol :=
  if c.toNat < 32 ∧ c ∉ ['\n', '\r', '\t', '\x08', '\x0c'] then .code c.toNat else .char c

theorem codeOf?_hexDigits {code : Nat} (h : code < 32) :
    codeOf? (Nat.digitChar (code / 4096 % 16)) (Nat.digitChar (code / 256 % 16))
      (Nat.digitChar (code / 16 % 16)) (Nat.digitChar (code / 1 % 16)) = some code := by
  interval_cases code <;> rfl

theorem symbols_short {c d : Char} (hc : c ≠ 'u') (h : shortEscape? c = some d)
    (rest : List Char) :
    symbols ('\\' :: c :: rest) = (symbols rest).map fun r => (.char d :: r.1, r.2) := by
  rw [symbols.eq_4 c rest fun _ _ _ _ _ hu _ => hc hu, h]
  cases symbols rest <;> rfl

theorem symbols_long {code : Nat} (h : code < 32) (rest : List Char) :
    symbols ('\\' :: 'u' :: hexDigits code ++ rest) =
      (symbols rest).map fun r => (.code code :: r.1, r.2) := by
  have hcode := codeOf?_hexDigits h
  change symbols ('\\' :: 'u' :: Nat.digitChar (code / 4096 % 16) ::
    Nat.digitChar (code / 256 % 16) :: Nat.digitChar (code / 16 % 16) ::
    Nat.digitChar (code / 1 % 16) :: rest) = _
  rw [symbols.eq_3, hcode]
  cases symbols rest <;> rfl

theorem symbols_plain {c : Char} (hquote : c ≠ '"') (hback : c ≠ '\\') (h : ¬ c.toNat < 32)
    (rest : List Char) :
    symbols (c :: rest) = (symbols rest).map fun r => (.char c :: r.1, r.2) := by
  rw [symbols.eq_5 c rest hquote (fun _ _ _ _ _ hc _ => hback hc) fun _ _ hc _ => hback hc]
  simp only [beq_eq_false_iff_ne.mpr hback, h, decide_false, Bool.or_false, Bool.false_eq_true,
    if_false]
  cases symbols rest <;> rfl

theorem symbols_escapeChar (c : Char) (rest : List Char) :
    symbols (escapeChar c ++ rest) = (symbols rest).map fun r => (symbolOf c :: r.1, r.2) := by
  unfold escapeChar
  split
  · exact symbols_short (by decide) rfl rest
  · exact symbols_short (by decide) rfl rest
  · exact symbols_short (by decide) rfl rest
  · exact symbols_short (by decide) rfl rest
  · exact symbols_short (by decide) rfl rest
  · rename_i hquote hback hnewline hreturn htab
    split
    · rename_i hbackspace
      obtain rfl : c = '\x08' := Char.toNat_inj.mp hbackspace
      exact symbols_short (by decide) rfl rest
    · rename_i hbackspace
      split
      · rename_i hfeed
        obtain rfl : c = '\x0c' := Char.toNat_inj.mp hfeed
        exact symbols_short (by decide) rfl rest
      · rename_i hfeed
        split
        · rename_i hcontrol
          have hlong : c ∉ ['\n', '\r', '\t', '\x08', '\x0c'] := by
            simp only [List.mem_cons, List.not_mem_nil, or_false, not_or]
            exact ⟨hnewline, hreturn, htab, fun h => hbackspace (h ▸ rfl), fun h => hfeed (h ▸ rfl)⟩
          rw [symbolOf, if_pos ⟨hcontrol, hlong⟩]
          exact symbols_long hcontrol rest
        · rename_i hcontrol
          rw [symbolOf, if_neg fun h => hcontrol h.1]
          exact symbols_plain hquote hback hcontrol rest

theorem symbols_content (content rest : List Char) :
    symbols (content.flatMap escapeChar ++ '"' :: rest) = some (content.map symbolOf, rest) := by
  induction content with
  | nil => exact symbols.eq_2 rest
  | cons c content ih =>
    rw [List.flatMap_cons, List.append_assoc, symbols_escapeChar, ih]
    rfl

theorem characters?_code {unit : Nat} (h : unit < 0xd800) (tail : List Symbol) :
    characters? (.code unit :: tail) = (characters? tail).map (Char.ofNat unit :: ·) := by
  have hleading : isLeadingSurrogate unit = false := by
    simp only [isLeadingSurrogate, Bool.and_eq_false_iff, decide_eq_false_iff_not]
    omega
  have htrailing : isTrailingSurrogate unit = false := by
    simp only [isTrailingSurrogate, Bool.and_eq_false_iff, decide_eq_false_iff_not]
    omega
  match tail with
  | .code trail :: tail =>
    rw [characters?.eq_3, hleading, htrailing]
    rfl
  | [] =>
    rw [characters?.eq_4 unit [] nofun, hleading, htrailing]
    rfl
  | .char c :: tail =>
    rw [characters?.eq_4 unit (.char c :: tail) nofun, hleading, htrailing]
    rfl

theorem characters?_symbolOf (content : List Char) :
    characters? (content.map symbolOf) = some content := by
  induction content with
  | nil => rfl
  | cons c content ih =>
    rw [List.map_cons, symbolOf]
    split
    · rename_i hcode
      have hlow : c.toNat < 0xd800 := by omega
      rw [characters?_code hlow, ih, Char.ofNat_toNat]
      rfl
    · rw [characters?.eq_2, ih]
      rfl

theorem token?_string (chars : List Char) : token? '"' chars =
    (symbols chars).map fun r => (.string ((characters? r.1).map .ofList), r.2) := by
  cases h : symbols chars with
  | none =>
    change (symbols chars).bind _ = _
    rw [h]
    rfl
  | some r =>
    change (symbols chars).bind _ = _
    rw [h]
    rfl

/-- A quoted string is read as the text it quotes, and a lone surrogate as no text. -/
theorem tokens?_quote (text : Text) (rest : List Char) :
    tokens? (quote text ++ rest) = (tokens? rest).map (.string text :: ·) := by
  cases text with
  | none =>
    have htext : quote none ++ rest =
        '"' :: '\\' :: 'u' :: 'd' :: '8' :: '0' :: '0' :: '"' :: rest := rfl
    have hread : token? '"' ('\\' :: 'u' :: 'd' :: '8' :: '0' :: '0' :: '"' :: rest) =
        some (.string none, rest) := by
      have hcode : codeOf? 'd' '8' '0' '0' = some 0xd800 := by decide
      have hlone : characters? [.code 0xd800] = none := by decide
      rw [token?_string, symbols.eq_3, symbols.eq_2, hcode]
      change some (Token.string ((characters? [.code 0xd800]).map .ofList), rest) = _
      rw [hlone, Option.map_none]
    rw [htext]
    refine tokens?_of_token? rfl hread ?_
    simp only [List.length_cons]
    omega
  | some s =>
    have htext : quote (some s) ++ rest =
        '"' :: (s.toList.flatMap escapeChar ++ '"' :: rest) := by
      simp [quote]
    have hread : token? '"' (s.toList.flatMap escapeChar ++ '"' :: rest) =
        some (.string (some s), rest) := by
      rw [token?_string, symbols_content, Option.map_some, characters?_symbolOf, Option.map_some,
        String.ofList_toList]
    rw [htext]
    refine tokens?_of_token? rfl hread ?_
    simp only [List.length_append, List.length_cons]
    omega

end

mutual

/-- The tokens that a value is written with. -/
def tokens : Json → List Token
  | .null => [.null]
  | .bool b => [.bool b]
  | .number n => [.number n]
  | .string text => [.string text]
  | .array [] => [.openBracket, .closeBracket]
  | .array (j :: rest) => .openBracket :: tokens j ++ itemTokens rest ++ [.closeBracket]
  | .object [] => [.openBrace, .closeBrace]
  | .object ((key, j) :: rest) =>
    .openBrace :: .string key :: .colon :: tokens j ++ memberTokens rest ++ [.closeBrace]

def itemTokens : List Json → List Token
  | [] => []
  | j :: rest => .comma :: tokens j ++ itemTokens rest

def memberTokens : List (Text × Json) → List Token
  | [] => []
  | (key, j) :: rest => .comma :: .string key :: .colon :: tokens j ++ memberTokens rest

end

/-- Behind the point of a number there are digits only. -/
inductive Decimal : Json → Prop
  | null : Decimal .null
  | bool (b : Bool) : Decimal (.bool b)
  | number {n : Number} (h : ∀ d ∈ n.fraction, d < 10) : Decimal (.number n)
  | string (text : Text) : Decimal (.string text)
  | array {items : List Json} (h : ∀ j ∈ items, Decimal j) : Decimal (.array items)
  | object {members : List (Text × Json)} (h : ∀ m ∈ members, Decimal m.2) :
    Decimal (.object members)

/-- In front of what may follow, `text` is read as `ts`. -/
def Lexes (follows : List Char → Prop) (text : List Char) (ts : List Token) : Prop :=
  ∀ rest, follows rest → tokens? (text ++ rest) = (tokens? rest).map (ts ++ ·)

/-- Whatever follows. -/
def Always (_ : List Char) : Prop := True

section

variable {P Q : List Char → Prop} {a b : List Char} {as bs : List Token}

theorem Lexes.append (ha : Lexes P a as) (hb : Lexes Q b bs)
    (h : ∀ rest, Q rest → P (b ++ rest)) : Lexes Q (a ++ b) (as ++ bs) := by
  intro rest hrest
  rw [List.append_assoc, ha _ (h rest hrest), hb rest hrest, Option.map_map]
  simp only [Function.comp_def, List.append_assoc]

theorem Lexes.mono (h : Lexes P a as) (hPQ : ∀ rest, Q rest → P rest) : Lexes Q a as :=
  fun rest hrest => h rest (hPQ rest hrest)

theorem Lexes.ends (h : Lexes Always a as) : Lexes Ends a as := h.mono fun _ _ => trivial

theorem Lexes.after (hb : Lexes Q b bs) (ha : Lexes Always a as) : Lexes Q (a ++ b) (as ++ bs) :=
  ha.append hb fun _ _ => trivial

theorem lexes_nil : Lexes P [] [] := fun rest _ => by
  rw [List.nil_append]
  cases tokens? rest <;> rfl

theorem lexes_newLine (level : Nat) : Lexes Always (newLine level) [] := fun rest h =>
  (tokens?_newLine level rest).trans (lexes_nil rest h)

theorem lexes_quote (text : Text) : Lexes Always (quote text) [.string text] :=
  fun rest _ => tokens?_quote text rest

theorem lexes_number {n : Number} (h : ∀ d ∈ n.fraction, d < 10) :
    Lexes Ends n.render [.number n] := fun _ hrest => tokens?_number h hrest

theorem lexes_word {c : Char} {word : List Char} {t : Token} (hblank : isBlank c = false)
    (h : ∀ chars, token? c (word ++ chars) = some (t, chars)) :
    Lexes Always (c :: word) [t] := fun rest _ =>
  tokens?_of_token? hblank (h rest) (by simp)

theorem lexes_mark {c : Char} {t : Token} (hblank : isBlank c = false)
    (h : ∀ chars, token? c chars = some (t, chars)) : Lexes Always [c] [t] :=
  @lexes_word c [] t hblank h

/-- A mark with a new line behind it. -/
theorem lexes_line {c : Char} {t : Token} (hblank : isBlank c = false)
    (h : ∀ chars, token? c chars = some (t, chars)) (level : Nat) :
    Lexes Always (c :: newLine level) [t] :=
  (lexes_newLine level).after (lexes_mark hblank h)

theorem lexes_colon : Lexes Always ": ".toList [.colon] := fun rest _ => by
  have hcolon : tokens? (':' :: ' ' :: rest) = (tokens? (' ' :: rest)).map (.colon :: ·) :=
    tokens?_of_token? rfl rfl (Nat.le_refl _)
  exact hcolon.trans (congrArg _ (tokens?_blanks 1 rest))

theorem ends_renderItems (level : Nat) (items : List Json) {rest : List Char} (h : Ends rest) :
    Ends (renderItems level items ++ rest) := by
  cases items with
  | nil => exact h
  | cons j items => exact ends_cons (by decide)

theorem ends_renderMembers (level : Nat) (members : List (Text × Json)) {rest : List Char}
    (h : Ends rest) : Ends (renderMembers level members ++ rest) := by
  cases members with
  | nil => exact h
  | cons m members => exact ends_cons (by decide)

/-- A bracket after a new line closes what stands before it. -/
theorem Lexes.close {c : Char} {t : Token} (h : Lexes Ends a as) (level : Nat)
    (hblank : isBlank c = false) (htoken : ∀ chars, token? c chars = some (t, chars)) :
    Lexes Always (a ++ newLine level ++ [c]) (as ++ [t]) := by
  rw [List.append_assoc]
  exact h.append ((lexes_mark hblank htoken).after (lexes_newLine level))
    fun rest _ => List.append_assoc .. ▸ ends_newLine level _

end

mutual

/-- A printed value is read as its tokens. -/
theorem lexes_render : ∀ (level : Nat) (j : Json), j.Decimal →
    Lexes Ends (render level j) j.tokens
  | _, .null, _ => (lexes_word rfl fun _ => rfl).ends
  | _, .bool true, _ => (lexes_word rfl fun _ => rfl).ends
  | _, .bool false, _ => (lexes_word rfl fun _ => rfl).ends
  | _, .number n, h => by
    cases h with
    | number h => exact lexes_number h
  | _, .string text, _ => (lexes_quote text).ends
  | _, .array [], _ => by
    have hopen : Lexes Always ['['] [.openBracket] := lexes_mark rfl fun _ => rfl
    have hclose : Lexes Always [']'] [.closeBracket] := lexes_mark rfl fun _ => rfl
    exact (hclose.after hopen).ends
  | level, .array (j :: rest), h => by
    cases h with
    | array h =>
      obtain ⟨hj, hrest⟩ := List.forall_mem_cons.mp h
      have hopen : Lexes Always ('[' :: newLine (level + 1)) [.openBracket] :=
        lexes_line rfl (fun _ => rfl) (level + 1)
      have hitems := ((lexes_render (level + 1) j hj).after hopen).append
        (lexes_renderItems (level + 1) rest hrest) fun _ => ends_renderItems (level + 1) rest
      exact (hitems.close level rfl fun _ => rfl).ends
  | _, .object [], _ => by
    have hopen : Lexes Always ['\x7b'] [.openBrace] := lexes_mark rfl fun _ => rfl
    have hclose : Lexes Always ['\x7d'] [.closeBrace] := lexes_mark rfl fun _ => rfl
    exact (hclose.after hopen).ends
  | level, .object ((key, j) :: rest), h => by
    cases h with
    | object h =>
      obtain ⟨hj, hrest⟩ := List.forall_mem_cons.mp h
      have hopen : Lexes Always ('\x7b' :: newLine (level + 1)) [.openBrace] :=
        lexes_line rfl (fun _ => rfl) (level + 1)
      have hkey := lexes_colon.after ((lexes_quote key).after hopen)
      have hmembers := ((lexes_render (level + 1) j hj).after hkey).append
        (lexes_renderMembers (level + 1) rest hrest) fun _ => ends_renderMembers (level + 1) rest
      exact (hmembers.close level rfl fun _ => rfl).ends

theorem lexes_renderItems : ∀ (level : Nat) (items : List Json), (∀ j ∈ items, j.Decimal) →
    Lexes Ends (renderItems level items) (itemTokens items)
  | _, [], _ => lexes_nil
  | level, j :: rest, h => by
    obtain ⟨hj, hrest⟩ := List.forall_mem_cons.mp h
    have hcomma : Lexes Always (',' :: newLine level) [.comma] :=
      lexes_line rfl (fun _ => rfl) level
    exact ((lexes_render level j hj).after hcomma).append (lexes_renderItems level rest hrest)
      fun _ => ends_renderItems level rest

theorem lexes_renderMembers : ∀ (level : Nat) (members : List (Text × Json)),
    (∀ m ∈ members, m.2.Decimal) →
    Lexes Ends (renderMembers level members) (memberTokens members)
  | _, [], _ => lexes_nil
  | level, (key, j) :: rest, h => by
    obtain ⟨hj, hrest⟩ := List.forall_mem_cons.mp h
    have hcomma : Lexes Always (',' :: newLine level) [.comma] :=
      lexes_line rfl (fun _ => rfl) level
    have hkey := lexes_colon.after ((lexes_quote key).after hcomma)
    exact ((lexes_render level j hj).after hkey).append (lexes_renderMembers level rest hrest)
      fun _ => ends_renderMembers level rest

end

/-- The text of a value is read as its tokens. -/
theorem tokens?_pretty {j : Json} (h : j.Decimal) : tokens? j.pretty.toList = some j.tokens := by
  have hread := lexes_render 0 j h [] ends_nil
  rw [List.append_nil] at hread
  rw [pretty, String.toList_ofList, hread, tokens?.eq_1, Option.map_some, List.append_nil]

end GraphFusion.Json
