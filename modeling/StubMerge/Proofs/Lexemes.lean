import Mathlib.Tactic.SplitIfs
import StubMerge.Token.Scanner

/-!
# What a token depends on

A token is found by looking at the characters behind its first one. It never takes more than there
are (`lexeme_le`). The characters of `delimiters` end every token but a string that is still open
and a comment; so a token that ends before a delimiter is the same before any other delimiter
(`lexeme_swap`). This is what allows a text to be cut by itself and then be put into another one.
-/

namespace StubMerge

/-! ## Tokens take what is there -/

theorem runLength_le (p : Char → Bool) (cs : List Char) : runLength p cs ≤ cs.length :=
  (List.takeWhile_sublist p).length_le

theorem stringLength_le (quote : Char) (cs : List Char) : stringLength quote cs ≤ cs.length := by
  fun_induction stringLength quote cs with
  | case1 => simp
  | case2 => simp
  | case3 c cs ih => simpa using ih
  | case4 => simp
  | case5 c cs _ _ _ ih => simpa using ih

theorem numberLength_le (cs : List Char) : numberLength cs ≤ cs.length := by
  fun_induction numberLength cs with
  | case1 => simp
  | case2 c cs _ ih => simpa using ih
  | case3 => simp

theorem suffixLength_le (cs : List Char) : suffixLength cs ≤ cs.length := by
  unfold suffixLength
  split
  · split <;> simp
  · simp

theorem nameLength_le (cs : List Char) : nameLength cs ≤ cs.length := by
  have h₁ := runLength_le isIdentifierRest cs
  have h₂ := suffixLength_le (cs.drop (runLength isIdentifierRest cs))
  rw [List.length_drop] at h₂
  unfold nameLength
  dsimp only
  omega

theorem symbolLength_le (cs : List Char) : symbolLength cs ≤ cs.length := by
  have h := nameLength_le cs
  unfold symbolLength
  dsimp only
  split
  · next rest heq =>
    have := congrArg List.length heq
    simp only [List.length_drop, List.length_cons] at this
    split <;> omega
  · exact h

theorem colonLexeme_le (previous : Char) (cs : List Char) :
    (colonLexeme previous cs).2 ≤ cs.length := by
  unfold colonLexeme
  split
  · simp
  · next c rest =>
    have h₁ := symbolLength_le (c :: rest)
    have h₂ := stringLength_le c rest
    split_ifs
    all_goals simp_all

/-- A token takes no more characters than there are. -/
theorem lexeme_le (previous first : Char) (cs : List Char) :
    (lexeme previous first cs).2 ≤ cs.length := by
  have one {c : Char} (h : cs.head? = some c) : 1 ≤ cs.length := by
    cases cs with
    | nil => cases h
    | cons => simp
  have two (p q : Char → Bool) :
      runLength p cs + runLength q (cs.drop (runLength p cs)) ≤ cs.length := by
    have h₁ := runLength_le p cs
    have h₂ := runLength_le q (cs.drop (runLength p cs))
    rw [List.length_drop] at h₂
    omega
  unfold lexeme
  split
  all_goals try split_ifs
  all_goals simp_all [runLength_le, stringLength_le, colonLexeme_le, numberLength_le, nameLength_le]
  all_goals grind

/-! ## Delimiters -/

/-- The characters that end every token before them, unless it is a string or a comment. -/
def delimiters : List Char := ['\n', ' ', ',', ';', '(', ')']

/-- What was checked of every character of a list. The check runs over the list: a decision of
`∀ c ∈ cs, p c` may run over all characters there are. -/
@[elab_as_elim]
theorem of_mem_of_all {p : Char → Prop} [DecidablePred p] {cs : List Char} {c : Char} (hc : c ∈ cs)
    (h : cs.all (fun c => decide (p c)) = true) : p c :=
  of_decide_eq_true (List.all_eq_true.1 h c hc)

section Swap

variable (cs ds es : List Char) {d e : Char}

theorem runLength_append_le {p : Char → Bool} (hd : p d = false) :
    runLength p (cs ++ d :: ds) ≤ cs.length := by
  induction cs with
  | nil => simp [runLength, hd]
  | cons c cs ih =>
    simp only [runLength, List.cons_append, List.takeWhile_cons] at ih ⊢
    split <;> simp_all

theorem runLength_swap {p : Char → Bool} (hd : p d = false) (he : p e = false) :
    runLength p (cs ++ e :: es) = runLength p (cs ++ d :: ds) := by
  induction cs with
  | nil => simp [runLength, hd, he]
  | cons c cs ih =>
    simp only [runLength, List.cons_append, List.takeWhile_cons] at ih ⊢
    split <;> simp_all

variable (hd : d ∈ delimiters) (he : e ∈ delimiters)
include hd

theorem beq_of_mem_delimiters {c : Char} (hc : c ∉ delimiters) : (d == c) = false :=
  beq_false_of_ne fun h => hc (h ▸ hd)

theorem suffixLength_delimiter : suffixLength (d :: ds) = 0 := by
  have h : (d == '?' || d == '!') = false := of_mem_of_all hd (by decide)
  simp [suffixLength, h]

theorem suffixLength_append_le : suffixLength (cs ++ d :: ds) ≤ cs.length := by
  cases cs with
  | nil => exact Nat.le_of_eq (suffixLength_delimiter ds hd)
  | cons c cs =>
    simp only [suffixLength, List.cons_append]
    split <;> simp

theorem isIdentifierRest_delimiter : isIdentifierRest d = false :=
  of_mem_of_all hd (by decide)

theorem nameLength_append_le : nameLength (cs ++ d :: ds) ≤ cs.length := by
  have h₁ := runLength_append_le cs ds (isIdentifierRest_delimiter hd)
  have h₂ := suffixLength_append_le (cs.drop (runLength isIdentifierRest (cs ++ d :: ds))) ds hd
  rw [← List.drop_append_of_le_length h₁, List.length_drop] at h₂
  unfold nameLength
  dsimp only
  omega

include he

theorem head?_swap {c : Char} (hc : c ∉ delimiters) :
    ((cs ++ e :: es).head? == some c) = ((cs ++ d :: ds).head? == some c) := by
  cases cs with
  | nil => simp [beq_of_mem_delimiters hd hc, beq_of_mem_delimiters he hc]
  | cons => rfl

theorem suffixLength_swap : suffixLength (cs ++ e :: es) = suffixLength (cs ++ d :: ds) := by
  cases cs with
  | nil => exact (suffixLength_delimiter es he).trans (suffixLength_delimiter ds hd).symm
  | cons c cs =>
    have hne : ((cs ++ e :: es).head? != some '=') = ((cs ++ d :: ds).head? != some '=') :=
      congrArg not (head?_swap cs ds es hd he (by decide))
    simp only [suffixLength, List.cons_append, hne]

theorem nameLength_swap : nameLength (cs ++ e :: es) = nameLength (cs ++ d :: ds) := by
  have hd' := isIdentifierRest_delimiter hd
  have he' := isIdentifierRest_delimiter he
  have hle := runLength_append_le cs ds hd'
  unfold nameLength
  dsimp only
  rw [runLength_swap cs ds es hd' he', List.drop_append_of_le_length hle,
    List.drop_append_of_le_length hle, suffixLength_swap _ ds es hd he]

theorem symbolLength_swap : symbolLength (cs ++ e :: es) = symbolLength (cs ++ d :: ds) := by
  have hle := nameLength_append_le cs ds hd
  unfold symbolLength
  dsimp only
  rw [nameLength_swap cs ds es hd he, List.drop_append_of_le_length hle,
    List.drop_append_of_le_length hle]
  cases cs.drop (nameLength (cs ++ d :: ds)) with
  | nil =>
    have hd' := ne_of_beq_false (beq_of_mem_delimiters hd (by decide : '=' ∉ delimiters))
    have he' := ne_of_beq_false (beq_of_mem_delimiters he (by decide : '=' ∉ delimiters))
    simp [hd', he']
  | cons c later =>
    by_cases hc : c = '='
    · subst hc
      simp only [List.cons_append, head?_swap later ds es hd he (by decide : '>' ∉ delimiters),
        head?_swap later ds es hd he (by decide : '=' ∉ delimiters),
        head?_swap later ds es hd he (by decide : '~' ∉ delimiters)]
    · simp [hc]

theorem numberLength_swap : numberLength (cs ++ e :: es) = numberLength (cs ++ d :: ds) := by
  have hdigit : ∀ c ∈ delimiters, c.isDigit = false := fun c hc => of_mem_of_all hc (by decide)
  induction cs with
  | nil =>
    have h : ∀ c ∈ delimiters, isNumberRest c = false ∧ c ≠ '.' := fun c hc =>
      of_mem_of_all hc (by decide)
    simp [numberLength, h d hd, h e he]
  | cons c cs ih =>
    have hhead : (cs ++ e :: es).head?.any Char.isDigit = (cs ++ d :: ds).head?.any Char.isDigit := by
      cases cs <;> simp [hdigit d hd, hdigit e he]
    simp only [numberLength, List.cons_append, ih, hhead]

omit hd he in
theorem stringLength_cons {quote c : Char} (hc : c ≠ '\\') :
    stringLength quote (c :: cs) = if c == quote then 1 else stringLength quote cs + 1 := by
  rw [stringLength] <;> simp [hc]

omit hd he in
/-- A string that is closed does not depend on what follows. -/
theorem stringLength_swap {quote : Char} (h : stringLength quote (cs ++ d :: ds) ≤ cs.length) :
    stringLength quote (cs ++ e :: es) = stringLength quote (cs ++ d :: ds) := by
  induction cs using stringLength.induct quote with
  | case1 =>
    exfalso
    revert h
    unfold stringLength
    split
    · simp_all
    · simp
    · simp
    · split <;> simp
  | case2 => simp [stringLength] at h
  | case3 c cs ih =>
    simp only [List.cons_append, stringLength, List.length_cons] at h ⊢
    rw [ih (by omega)]
  | case4 c cs hnil hcons hc =>
    have hne : c ≠ '\\' := fun h => by cases cs <;> simp_all
    simp [stringLength_cons _ hne, hc]
  | case5 c cs hnil hcons hc ih =>
    have hne : c ≠ '\\' := fun h => by cases cs <;> simp_all
    rw [List.cons_append, stringLength_cons _ hne, if_neg hc] at h
    rw [List.cons_append, List.cons_append, stringLength_cons _ hne, stringLength_cons _ hne,
      if_neg hc, if_neg hc, ih (by simpa using h)]

theorem colonLexeme_swap {previous : Char}
    (h : (colonLexeme previous (cs ++ d :: ds)).2 ≤ cs.length) :
    colonLexeme previous (cs ++ e :: es) = colonLexeme previous (cs ++ d :: ds) := by
  cases cs with
  | nil =>
    have plain : ∀ c ∈ delimiters, isIdentifierStart c = false ∧ c ≠ ':' ∧ c ≠ '"' ∧ c ≠ '\'' :=
      fun c hc => of_mem_of_all hc (by decide)
    simp [colonLexeme, plain d hd, plain e he]
  | cons c cs =>
    simp only [List.cons_append, colonLexeme] at h ⊢
    split_ifs at h ⊢
    · rfl
    · rfl
    · rw [← List.cons_append, symbolLength_swap (c :: cs) ds es hd he, List.cons_append]
    · rw [stringLength_swap cs ds es (by simpa using h)]
    · rfl

/-- A token that ends before a delimiter does not depend on which one it is, nor on what follows,
unless it is a comment. -/
theorem lexeme_swap {previous first : Char}
    (hkind : (lexeme previous first (cs ++ d :: ds)).1 ≠ .comment)
    (h : (lexeme previous first (cs ++ d :: ds)).2 ≤ cs.length) :
    lexeme previous first (cs ++ e :: es) = lexeme previous first (cs ++ d :: ds) := by
  have swap {c : Char} (hc : c ∉ delimiters) := head?_swap cs ds es hd he hc
  have run {p : Char → Bool} (hp : delimiters.all (fun c => decide (p c = false)) = true) :
      runLength p (cs ++ e :: es) = runLength p (cs ++ d :: ds) := by
    have hd' : p d = false := of_mem_of_all hd hp
    have he' : p e = false := of_mem_of_all he hp
    exact runLength_swap cs ds es hd' he'
  unfold lexeme
  split
  all_goals try rfl
  · rw [swap (by decide), run (by decide)]
  · exact absurd rfl hkind
  · exact colonLexeme_swap cs ds es hd he h
  · rw [swap (by decide), swap (by decide), swap (by decide), run (by decide)]
  · rw [swap (by decide), swap (by decide), run (by decide)]
  · rw [swap (by decide)]
  · rw [swap (by decide), swap (by decide)]
  · rw [stringLength_swap cs ds es h]
  · rw [stringLength_swap cs ds es h]
  · have hle := runLength_append_le (p := (· == '@')) cs ds (beq_of_mem_delimiters hd (by decide))
    dsimp only
    rw [run (by decide), List.drop_append_of_le_length hle, List.drop_append_of_le_length hle,
      runLength_swap _ ds es (isIdentifierRest_delimiter hd) (isIdentifierRest_delimiter he)]
  · rw [run (by decide)]
  · have hle := nameLength_append_le cs ds hd
    dsimp only
    rw [numberLength_swap cs ds es hd he, run (p := isIdentifierRest) (by decide),
      nameLength_swap cs ds es hd he, List.take_append_of_le_length hle,
      List.take_append_of_le_length hle, run (p := isOperator) (by decide)]
    simp

end Swap

end StubMerge
