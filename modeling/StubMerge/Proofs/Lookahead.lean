import StubMerge.Proofs.Words

/-!
# How far a token looks ahead

What a token is depends on at most two of the characters behind it, a string and a comment apart.
So a token of one text is also a token of another text in which it is followed by the same two
characters, or by a character that ends every token. `Resembles ys zs` says that the characters
`zs` may stand for `ys` in this sense, and `Resembles.lexeme_eq` that a token which ends in front of
`ys` ends in front of `zs` as well.
-/

namespace StubMerge

/-- The characters that end every token before them, unless it is a string or a comment. -/
def closers : List Char := delimiters ++ ['[', ']', '\x7b', '\x7d']

theorem mem_closers {d : Char} (h : d ∈ delimiters) : d ∈ closers := List.mem_append_left _ h

/-- What a token sees behind it may be replaced: by something that starts with a closer, or by
something that has the same first token of one character and a closer behind it, or by something
with the same two characters. -/
inductive Resembles : List Char → List Char → Prop where
  | stop {ys ds : List Char} {d : Char} (hd : d ∈ closers) : Resembles ys (d :: ds)
  | near {x d previous : Char} {ys ds : List Char} (hd : d ∈ closers)
      (hx : (lexeme previous x ys).2 = 0) : Resembles (x :: ys) (x :: d :: ds)
  | far {x y : Char} {ys zs : List Char} : Resembles (x :: y :: ys) (x :: y :: zs)

/-- The characters that make a longer token of a sign they stand behind. -/
def extenders : Char → List Char
  | '.' => ['.']
  | '=' => ['>', '=', '~']
  | '<' => ['<', '=']
  | '*' => ['*']
  | '&' => ['&', '.']
  | '?' | '!' => ['=']
  | _ => []

theorem head?_ne_of_mem_extenders {previous first x : Char} {ys : List Char}
    (h : (lexeme previous first ys).2 = 0) (hx : x ∈ extenders first) : ys.head? ≠ some x := by
  intro heq
  obtain ⟨later, rfl⟩ := List.head?_eq_some_iff.1 heq
  unfold extenders at hx
  split at hx
  all_goals
    simp only [List.mem_cons, List.not_mem_nil, or_false] at hx
  all_goals
    rcases hx with rfl | rfl | rfl
  all_goals
    simp [lexeme, isIdentifierStart, isOperator, runLength] at h

namespace Resembles

variable {ys zs : List Char}

theorem ne_nil (h : Resembles ys zs) : zs ≠ [] := by
  cases h <;> simp

/-- No closer passes a test that is passed only by characters which tokens go on with. -/
theorem head (h : Resembles ys zs) {p : Char → Bool}
    (hp : closers.all (fun c => decide (p c = false)) = true)
    (hys : ys.head?.all (fun c => !p c) = true) : zs.head?.all (fun c => !p c) = true := by
  cases h with
  | @stop _ _ d hd =>
    have hd' : p d = false := of_mem_of_all hd hp
    simp [hd']
  | near => exact hys
  | far => exact hys

theorem head?_ne (h : Resembles ys zs) {x : Char} (hx : x ∉ closers) (hys : ys.head? ≠ some x) :
    zs.head? ≠ some x := by
  cases h with
  | stop hd =>
    intro heq
    obtain rfl := Option.some.inj heq
    exact hx hd
  | near => exact hys
  | far => exact hys

/-- A single question or exclamation mark is no token in front of an equals sign. -/
theorem suffixLength_eq (h : Resembles ys zs) (hys : suffixLength ys = 0) :
    suffixLength zs = 0 := by
  cases h with
  | @stop _ _ d hd =>
    have hmark : (d == '?' || d == '!') = false := of_mem_of_all hd (by decide)
    simp [suffixLength, hmark]
  | @near x d previous ys ds hd hx =>
    simp only [suffixLength] at hys ⊢
    split at hys
    · cases hys
    · next hnot =>
      have hmark : (x == '?' || x == '!') = false := by
        refine Bool.eq_false_iff.2 fun hmark => hnot ?_
        have hequals : ys.head? ≠ some '=' := by
          simp only [Bool.or_eq_true, beq_iff_eq] at hmark
          obtain rfl | rfl := hmark
          all_goals exact head?_ne_of_mem_extenders hx (by decide)
        simp [hmark, hequals]
      simp [hmark]
  | far => exact hys

end Resembles

/-! ## Counting in front of other characters -/

section Counting

variable {p : Char → Bool} {cs ys zs : List Char}

theorem runLength_eq_length_iff : runLength p (cs ++ ys) = cs.length ↔
    cs.all p = true ∧ ys.head?.all (fun c => !p c) = true := by
  refine ⟨fun h => ?_, fun h => runLength_append_of_all h.1 h.2⟩
  induction cs with
  | nil =>
    cases ys with
    | nil => simp
    | cons y ys => cases hy : p y <;> simp_all [runLength]
  | cons c cs ih =>
    cases hc : p c
    · simp [runLength, hc] at h
    · simp only [runLength, List.cons_append, List.takeWhile_cons, hc, if_true, List.length_cons,
        Nat.add_right_cancel_iff] at h
      simpa [hc] using ih h

theorem suffixLength_le_one (cs : List Char) : suffixLength cs ≤ 1 := by
  cases cs with
  | nil => exact Nat.zero_le 1
  | cons c cs =>
    rw [suffixLength]
    split
    · exact Nat.le_refl 1
    · exact Nat.zero_le 1

theorem exists_drop_eq_singleton {n : Nat} (h : cs.length = n + 1) :
    ∃ q, cs.drop n = [q] ∧ cs = cs.take n ++ [q] := by
  obtain ⟨q, hq⟩ := List.length_eq_one_iff.1 (show (cs.drop n).length = 1 by simp [h])
  exact ⟨q, hq, by rw [← hq, List.take_append_drop]⟩

/-- A name ends in an identifier character or in a mark that no equals sign follows. -/
theorem nameLength_eq_length_iff : nameLength (cs ++ ys) = cs.length ↔
    (runLength isIdentifierRest (cs ++ ys) = cs.length ∧ suffixLength ys = 0) ∨
      ∃ as q, cs = as ++ [q] ∧ as.all isIdentifierRest = true ∧ (q = '?' ∨ q = '!') ∧
        ys.head? ≠ some '=' := by
  constructor
  · intro h
    generalize hn : runLength isIdentifierRest (cs ++ ys) = n
    have hsum : n + suffixLength ((cs ++ ys).drop n) = cs.length := by rw [← hn]; exact h
    have hle : n ≤ cs.length := Nat.le_of_add_right_le (Nat.le_of_eq hsum)
    rw [List.drop_append_of_le_length hle] at hsum
    obtain rfl | hlt := Nat.eq_or_lt_of_le hle
    · refine .inl ⟨rfl, ?_⟩
      rw [List.drop_length, List.nil_append] at hsum
      omega
    · have hsuffix := suffixLength_le_one (cs.drop n ++ ys)
      obtain ⟨q, hdrop, hcs⟩ := exists_drop_eq_singleton (show cs.length = n + 1 by omega)
      rw [hdrop, List.singleton_append, suffixLength] at hsum
      split at hsum
      · next hq =>
        simp only [Bool.and_eq_true, Bool.or_eq_true, beq_iff_eq, bne_iff_ne, ne_eq] at hq
        refine .inr ⟨cs.take n, q, hcs, ?_, hq.1, hq.2⟩
        rw [hcs, List.append_assoc] at hn
        exact (runLength_eq_length_iff.1 (hn.trans (by simp [hle]))).1
      · omega
  · rintro (⟨hrun, hsuffix⟩ | ⟨as, q, rfl, has, hq, hys⟩)
    · simp [nameLength, hrun, hsuffix]
    · have hrun : runLength isIdentifierRest (as ++ q :: ys) = as.length := by
        refine runLength_append_of_all has ?_
        obtain rfl | rfl := hq <;> rfl
      have hsuffix : suffixLength (q :: ys) = 1 := by
        obtain rfl | rfl := hq <;> simp [suffixLength, hys]
      simp [nameLength, hrun, hsuffix]

/-- Whether an equals sign comes next that starts no other operator. -/
def meetsEquals : List Char → Bool
  | '=' :: rest => !(rest.head? == some '>' || rest.head? == some '=' || rest.head? == some '~')
  | _ => false

theorem symbolLength_eq (cs : List Char) : symbolLength cs =
    nameLength cs + if meetsEquals (cs.drop (nameLength cs)) then 1 else 0 := by
  unfold symbolLength
  dsimp only
  split
  · next rest heq =>
    rw [heq, meetsEquals]
    cases rest.head? == some '>' || rest.head? == some '=' || rest.head? == some '~' <;> rfl
  · next hne =>
    have hmeets : meetsEquals (cs.drop (nameLength cs)) = false := by
      unfold meetsEquals
      split
      · next rest heq => exact absurd heq (hne rest)
      · rfl
    rw [hmeets]
    rfl

/-- A symbol ends where its name ends, or behind an equals sign. -/
theorem symbolLength_eq_length_iff : symbolLength (cs ++ ys) = cs.length ↔
    (nameLength (cs ++ ys) = cs.length ∧ meetsEquals ys = false) ∨
      ∃ as, cs = as ++ ['='] ∧ nameLength (as ++ '=' :: ys) = as.length ∧
        meetsEquals ('=' :: ys) = true := by
  rw [symbolLength_eq]
  constructor
  · intro h
    generalize hn : nameLength (cs ++ ys) = n at h
    have hle : n ≤ cs.length := Nat.le_of_add_right_le (Nat.le_of_eq h)
    rw [List.drop_append_of_le_length hle] at h
    split at h
    · next hmeets =>
      obtain ⟨q, hdrop, hcs⟩ := exists_drop_eq_singleton h.symm
      rw [hdrop, List.singleton_append] at hmeets
      obtain rfl : q = '=' := by
        unfold meetsEquals at hmeets
        split at hmeets
        · next heq => exact (List.cons.inj heq).1
        · cases hmeets
      refine .inr ⟨cs.take n, hcs, ?_, hmeets⟩
      rw [hcs, List.append_assoc] at hn
      exact hn.trans (by simp [hle])
    · next hmeets =>
      obtain rfl : n = cs.length := h
      rw [List.drop_length, List.nil_append, Bool.not_eq_true] at hmeets
      exact .inl ⟨rfl, hmeets⟩
  · rintro (⟨hname, hmeets⟩ | ⟨as, rfl, hname, hmeets⟩)
    · simp [hname, hmeets]
    · simp [hname, hmeets]

end Counting

namespace Resembles

variable {cs ys zs : List Char}

theorem runLength_eq (h : Resembles ys zs) {p : Char → Bool}
    (hp : closers.all (fun c => decide (p c = false)) = true)
    (hys : runLength p (cs ++ ys) = cs.length) : runLength p (cs ++ zs) = cs.length :=
  have hrun := runLength_eq_length_iff.1 hys
  runLength_append_of_all hrun.1 (h.head hp hrun.2)

theorem nameLength_eq (h : Resembles ys zs) (hys : nameLength (cs ++ ys) = cs.length) :
    nameLength (cs ++ zs) = cs.length := by
  rw [nameLength_eq_length_iff] at hys ⊢
  refine hys.imp (fun hrun => ⟨h.runLength_eq (by decide) hrun.1, h.suffixLength_eq hrun.2⟩) ?_
  rintro ⟨as, q, rfl, has, hq, hne⟩
  exact ⟨as, q, rfl, has, hq, h.head?_ne (by decide) hne⟩

/-- A single equals sign is no token in front of what makes it another operator. -/
theorem meetsEquals_eq (h : Resembles ys zs) (hys : meetsEquals ys = false) :
    meetsEquals zs = false := by
  cases h with
  | @stop _ _ d hd =>
    have hd' : d ≠ '=' := of_mem_of_all hd (by decide)
    simp [meetsEquals, hd']
  | @near x d previous ys ds hd hx =>
    by_cases heq : x = '='
    · subst heq
      simp only [meetsEquals, Bool.not_eq_false', Bool.or_eq_true, beq_iff_eq] at hys
      obtain (hys | hys) | hys := hys
      all_goals exact absurd hys (head?_ne_of_mem_extenders hx (by decide))
    · simp [meetsEquals, heq]
  | @far x y ys zs =>
    by_cases heq : x = '='
    · subst heq
      exact hys
    · simp [meetsEquals, heq]

theorem meetsEquals_cons (h : Resembles ys zs) (hys : meetsEquals ('=' :: ys) = true) :
    meetsEquals ('=' :: zs) = true := by
  simp only [meetsEquals, Bool.not_eq_true', Bool.or_eq_false_iff, beq_eq_false_iff_ne] at hys ⊢
  exact ⟨⟨h.head?_ne (by decide) hys.1.1, h.head?_ne (by decide) hys.1.2⟩,
    h.head?_ne (by decide) hys.2⟩

theorem symbolLength_eq (h : Resembles ys zs) (hys : symbolLength (cs ++ ys) = cs.length) :
    symbolLength (cs ++ zs) = cs.length := by
  rw [symbolLength_eq_length_iff] at hys ⊢
  refine hys.imp (fun hname => ⟨h.nameLength_eq hname.1, h.meetsEquals_eq hname.2⟩) ?_
  rintro ⟨as, rfl, hname, hmeets⟩
  refine ⟨as, rfl, ?_, h.meetsEquals_cons hmeets⟩
  -- The equals sign ends the name, whatever is behind it.
  rw [nameLength_eq_length_iff] at hname ⊢
  obtain ⟨hrun, -⟩ | ⟨_, _, _, _, _, hne⟩ := hname
  · exact .inl ⟨runLength_append_of_all (runLength_eq_length_iff.1 hrun).1 rfl, rfl⟩
  · exact absurd rfl hne

theorem numberLength_eq (h : Resembles ys zs) (hys : numberLength (cs ++ ys) = cs.length) :
    numberLength (cs ++ zs) = cs.length := by
  induction cs with
  | nil =>
    rw [List.nil_append, List.length_nil] at hys ⊢
    cases h with
    | @stop _ _ d hd =>
      have hd' : isNumberRest d = false ∧ d ≠ '.' := of_mem_of_all hd (by decide)
      simp [numberLength, hd']
    | @near x d previous ys ds hd hx =>
      have hd' : d.isDigit = false := of_mem_of_all hd (by decide)
      simp only [numberLength] at hys ⊢
      split at hys
      · cases hys
      · next hnot =>
        have hx' : isNumberRest x = false := by
          refine Bool.eq_false_iff.2 fun hx' => hnot (by simp [hx'])
        simp [hx', hd']
    | far =>
      simp only [numberLength] at hys ⊢
      split at hys
      · cases hys
      · next hnot => rw [List.head?_cons] at hnot ⊢; rw [if_neg hnot]
  | cons c cs ih =>
    simp only [List.cons_append, numberLength, List.length_cons] at hys ⊢
    split at hys
    · next hc =>
      have hlater := Nat.add_right_cancel hys
      have hc' : (isNumberRest c || c == '.' && (cs ++ zs).head?.any Char.isDigit) = true := by
        cases cs with
        | nil =>
          -- The digit behind a point would belong to the number.
          have hdigit : ys.head?.any Char.isDigit = false := by
            cases ys with
            | nil => rfl
            | cons y ys =>
              refine Bool.eq_false_iff.2 fun hy => ?_
              have hy' : isNumberRest y = true := by
                simpa [isNumberRest] using .inl (.inl (.inl (.inl (.inl hy))))
              simp [numberLength, hy'] at hlater
          rw [List.nil_append, hdigit, Bool.and_false, Bool.or_false] at hc
          rw [hc, Bool.true_or]
        | cons => exact hc
      rw [if_pos hc', ih hlater]
    · cases hys

/-- A string that ends before something is closed. -/
theorem stringLength_eq (h : Resembles ys zs) (hne : ys ≠ []) {quote : Char}
    (hys : stringLength quote (cs ++ ys) = cs.length) :
    stringLength quote (cs ++ zs) = cs.length := by
  obtain ⟨y, ys, rfl⟩ := List.exists_cons_of_ne_nil hne
  obtain ⟨z, zs, rfl⟩ := List.exists_cons_of_ne_nil h.ne_nil
  rw [stringLength_swap cs ys zs (Nat.le_of_eq hys), hys]

theorem symbolLength_pos {c : Char} (hc : isIdentifierStart c = true) (cs : List Char) :
    0 < symbolLength (c :: cs) := by
  rw [StubMerge.symbolLength_eq, nameLength, runLength, List.takeWhile_cons,
    if_pos (isIdentifierRest_of_start hc), List.length_cons]
  omega

/-- A colon alone is followed by nothing that would make it a longer token. -/
theorem colonLexeme_eq_zero_iff {previous : Char} {kind : TokenKind} :
    colonLexeme previous ys = (kind, 0) ↔ kind = .colon ∧ ys.head?.all (fun c => c != ':' &&
      (endsValue previous || !(isIdentifierStart c || c == '"' || c == '\''))) = true := by
  cases ys with
  | nil => simp [colonLexeme, eq_comm]
  | cons c cs =>
    have hpos := @symbolLength_pos c
    simp only [colonLexeme]
    split_ifs
    all_goals grind

theorem colonLexeme_eq (h : Resembles ys zs) {previous : Char} {kind : TokenKind}
    (hne : kind = .symbol → ys ≠ []) (hys : colonLexeme previous (cs ++ ys) = (kind, cs.length)) :
    colonLexeme previous (cs ++ zs) = (kind, cs.length) := by
  cases cs with
  | nil =>
    rw [List.nil_append, List.length_nil, colonLexeme_eq_zero_iff] at hys ⊢
    refine ⟨hys.1, ?_⟩
    cases h with
    | @stop _ ds d hd =>
      have hd' : isIdentifierStart d = false ∧ d ≠ ':' ∧ d ≠ '"' ∧ d ≠ '\'' :=
        of_mem_of_all hd (by decide)
      simp [hd']
    | near => exact hys.2
    | far => exact hys.2
  | cons c cs =>
    simp only [List.cons_append, colonLexeme] at hys ⊢
    split_ifs at hys ⊢
    · exact hys
    · exact hys
    · obtain ⟨rfl, hlength⟩ := Prod.mk.inj hys
      have hsymbol : symbolLength (c :: cs ++ zs) = (c :: cs).length := h.symbolLength_eq hlength
      exact Prod.ext rfl hsymbol
    · obtain ⟨rfl, hlength⟩ := Prod.mk.inj hys
      refine Prod.ext rfl ?_
      rw [List.length_cons, Nat.add_right_cancel_iff] at hlength
      exact congrArg (· + 1) (h.stringLength_eq (hne rfl) hlength)
    · exact hys

/-- Two runs, one behind the other. -/
theorem runLength_add_eq (h : Resembles ys zs) {p q : Char → Bool}
    (hp : closers.all (fun c => decide (p c = false)) = true)
    (hq : closers.all (fun c => decide (q c = false)) = true)
    (hys : runLength p (cs ++ ys) + runLength q ((cs ++ ys).drop (runLength p (cs ++ ys)))
      = cs.length) :
    runLength p (cs ++ zs) + runLength q ((cs ++ zs).drop (runLength p (cs ++ zs)))
      = cs.length := by
  generalize hn : runLength p (cs ++ ys) = n at hys
  obtain ⟨as, bs, rfl, rfl⟩ : ∃ as bs, cs = as ++ bs ∧ n = as.length :=
    ⟨cs.take n, cs.drop n, by simp, by rw [List.length_take]; omega⟩
  simp only [List.append_assoc, List.drop_left, List.length_append, Nat.add_left_cancel_iff]
    at hn hys ⊢
  obtain ⟨has, hhead⟩ := runLength_eq_length_iff.1 hn
  have hrun : runLength p (as ++ (bs ++ zs)) = as.length := by
    refine runLength_append_of_all has ?_
    cases bs with
    | nil => exact h.head hp hhead
    | cons => exact hhead
  rw [hrun, List.drop_left, h.runLength_eq hq hys]

theorem head?_beq (h : Resembles ys zs) {x : Char} (hx : x ∉ closers)
    (hys : cs = [] → ys.head? ≠ some x) :
    ((cs ++ zs).head? == some x) = ((cs ++ ys).head? == some x) := by
  cases cs with
  | nil =>
    have hys' := hys rfl
    rw [List.nil_append, List.nil_append, beq_false_of_ne hys',
      beq_false_of_ne (h.head?_ne hx hys')]
  | cons => rfl

/-- A token that ends before something is the same before all that resembles it, unless it is a
comment or a string that is not closed. -/
theorem lexeme_eq (h : Resembles ys zs) {previous first : Char} {kind : TokenKind}
    (heof : kind ≠ .eof) (hcomment : kind ≠ .comment)
    (hne : kind = .string ∨ kind = .symbol → ys ≠ [])
    (hys : lexeme previous first (cs ++ ys) = (kind, cs.length)) :
    lexeme previous first (cs ++ zs) = (kind, cs.length) := by
  have run {k : TokenKind} {p : Char → Bool}
      (hp : closers.all (fun c => decide (p c = false)) = true)
      (hrun : (k, runLength p (cs ++ ys)) = (kind, cs.length)) :
      (k, runLength p (cs ++ zs)) = (kind, cs.length) :=
    have ⟨hkind, hlength⟩ := Prod.mk.inj hrun
    Prod.ext hkind (h.runLength_eq hp hlength)
  have hnil {x : Char} (hx : x ∈ extenders first) : cs = [] → ys.head? ≠ some x := by
    rintro rfl
    exact head?_ne_of_mem_extenders (congrArg Prod.snd hys) hx
  unfold lexeme at hys ⊢
  split at hys
  all_goals try exact hys
  · rw [h.head?_beq (by decide) (hnil (by decide))]
    split_ifs at hys ⊢
    · exact run (by decide) hys
    · exact hys
  · exact absurd (congrArg Prod.fst hys).symm hcomment
  · exact h.colonLexeme_eq (fun hk => hne (.inr hk)) hys
  · rw [h.head?_beq (by decide) (hnil (by decide)), h.head?_beq (by decide) (hnil (by decide)),
      h.head?_beq (by decide) (hnil (by decide))]
    split_ifs at hys ⊢
    · exact hys
    · exact run (by decide) hys
    · exact hys
  · rw [h.head?_beq (by decide) (hnil (by decide)), h.head?_beq (by decide) (hnil (by decide))]
    split_ifs at hys ⊢
    · exact hys
    · exact run (by decide) hys
    · exact hys
  · rw [h.head?_beq (by decide) (hnil (by decide))]
    exact hys
  · rw [h.head?_beq (by decide) (hnil (by decide)), h.head?_beq (by decide) (hnil (by decide))]
    exact hys
  · obtain ⟨rfl, hlength⟩ := Prod.mk.inj hys
    exact Prod.ext rfl (h.stringLength_eq (hne (.inl rfl)) hlength)
  · obtain ⟨rfl, hlength⟩ := Prod.mk.inj hys
    exact Prod.ext rfl (h.stringLength_eq (hne (.inl rfl)) hlength)
  · obtain ⟨hkind, hlength⟩ := Prod.mk.inj hys
    exact Prod.ext hkind (h.runLength_add_eq (by decide) (by decide) hlength)
  · exact run (by decide) hys
  · have hfull : (cs ++ zs).isEmpty = false := by simpa using fun _ => h.ne_nil
    simp only [hfull, Bool.and_false, Bool.false_eq_true, if_false]
    split_ifs at hys ⊢
    · obtain ⟨hkind, hlength⟩ := Prod.mk.inj hys
      exact Prod.ext hkind (h.numberLength_eq hlength)
    · exact run (by decide) hys
    · obtain ⟨hkind, hlength⟩ := Prod.mk.inj hys
      have hlength' := h.nameLength_eq hlength
      rw [hlength, List.take_left] at hkind
      rw [hlength', List.take_left, hkind]
    · exact absurd (congrArg Prod.fst hys).symm heof
    · exact run (by decide) hys
    · exact absurd (congrArg Prod.fst hys).symm heof
    · exact hys

end Resembles

/-! ## Strings at the end of a text -/

theorem stringLength_le_append (quote : Char) (cs ds : List Char) :
    stringLength quote cs ≤ stringLength quote (cs ++ ds) := by
  induction cs using stringLength.induct quote with
  | case1 => exact Nat.zero_le _
  | case2 =>
    cases ds <;> simp [stringLength]
  | case3 c cs ih => simpa [stringLength] using ih
  | case4 c cs hnil hcons hc =>
    have hne : c ≠ '\\' := fun h => by cases cs <;> simp_all
    simp [stringLength_cons _ hne, hc]
  | case5 c cs hnil hcons hc ih =>
    have hne : c ≠ '\\' := fun h => by cases cs <;> simp_all
    rw [List.cons_append, stringLength_cons _ hne, stringLength_cons _ hne, if_neg hc, if_neg hc]
    omega

section Line

variable {previous first : Char} {cs : List Char}

/-- A string at the end of the text is closed, or takes the line break behind it. -/
theorem stringLength_line {quote : Char} (h : stringLength quote cs = cs.length) :
    stringLength quote (cs ++ ['\n']) = cs.length ∨
      stringLength quote (cs ++ ['\n']) = cs.length + 1 := by
  have hle := stringLength_le quote (cs ++ ['\n'])
  have hge := stringLength_le_append quote cs ['\n']
  rw [List.length_append, List.length_singleton] at hle
  omega

theorem colonLexeme_line {kind : TokenKind} (h : colonLexeme previous cs = (kind, cs.length)) :
    colonLexeme previous (cs ++ ['\n']) = (kind, cs.length) ∨
      colonLexeme previous (cs ++ ['\n']) = (kind, cs.length + 1) := by
  have hlike : Resembles [] ['\n'] := .stop (by decide)
  cases cs with
  | nil =>
    obtain rfl : TokenKind.colon = kind := congrArg Prod.fst h
    exact .inl (Resembles.colonLexeme_eq_zero_iff.2 ⟨rfl, by simp [isIdentifierStart]⟩)
  | cons c cs =>
    simp only [List.cons_append, colonLexeme] at h ⊢
    split_ifs at h ⊢
    · exact .inl h
    · exact .inl h
    · obtain ⟨rfl, hlength⟩ := Prod.mk.inj h
      have hsymbol : symbolLength (c :: cs ++ []) = (c :: cs).length := by
        rw [List.append_nil, hlength]
      exact .inl (Prod.ext rfl (hlike.symbolLength_eq hsymbol))
    · obtain ⟨rfl, hlength⟩ := Prod.mk.inj h
      rw [List.length_cons, Nat.add_right_cancel_iff] at hlength
      exact (stringLength_line hlength).imp (fun h => by rw [h]; rfl) fun h => by rw [h]; rfl
    · exact .inl h

/-- Strings and symbols start with a quote or a colon. -/
theorem first_of_quoted {kind : TokenKind} {n : Nat} (hkind : kind = .string ∨ kind = .symbol)
    (h : lexeme previous first cs = (kind, n)) : first = '"' ∨ first = '\'' ∨ first = ':' := by
  have hword (word : List Char) : ¬(wordKind word = .string ∨ wordKind word = .symbol) := by
    unfold wordKind
    split_ifs <;> decide
  rw [← show (lexeme previous first cs).1 = kind from congrArg Prod.fst h] at hkind
  revert hkind
  unfold lexeme
  split
  all_goals try split_ifs
  all_goals simp_all

/-- A string or symbol at the end of the text ends before a line break, or takes it. -/
theorem lexeme_line {kind : TokenKind} (hkind : kind = .string ∨ kind = .symbol)
    (h : lexeme previous first cs = (kind, cs.length)) : first ≠ '\\' ∧
      (lexeme previous first (cs ++ ['\n']) = (kind, cs.length) ∨
        lexeme previous first (cs ++ ['\n']) = (kind, cs.length + 1)) := by
  obtain rfl | rfl | rfl := first_of_quoted hkind h
  · obtain ⟨rfl, hstring⟩ := Prod.mk.inj h
    exact ⟨by decide, (stringLength_line hstring).imp (Prod.ext rfl) (Prod.ext rfl)⟩
  · obtain ⟨rfl, hstring⟩ := Prod.mk.inj h
    exact ⟨by decide, (stringLength_line hstring).imp (Prod.ext rfl) (Prod.ext rfl)⟩
  · exact ⟨by decide, colonLexeme_line h⟩

end Line

end StubMerge
