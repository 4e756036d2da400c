import StubMerge.Proofs.Captures

/-!
# Colons right behind a word

In `x:y` the colon is a token of its own, because it stands right behind a value. If a capture
starts with this colon, what it takes is written back behind a blank, and there `:y` is one symbol.
The tokens are other ones, but the text is the same: `Written.recut` gives the tokens that stand in
the new place, and a capture takes the same text from both.
-/

namespace StubMerge

/-- A capture gives the same text out of both rows of tokens, and stops at the same place. -/
def SameCapture (stop : TokenKind → Bool) (ts us : List Token) : Prop :=
  Cursor.render (us.take (Cursor.captureLength stop 0 us))
      = Cursor.render (ts.take (Cursor.captureLength stop 0 ts)) ∧
    us.drop (Cursor.captureLength stop 0 us) = ts.drop (Cursor.captureLength stop 0 ts)

section Colon

variable {stop : TokenKind → Bool}

/-- Two tokens that stand together may be taken for one. -/
theorem SameCapture.merge {t b s : Token} {ts : List Token} (ht : isPlain stop t.kind = true)
    (hb : isPlain stop b.kind = true) (hs : isPlain stop s.kind = true)
    (htext : s.text = t.text ++ b.text) (hstop : s.stop = b.stop)
    (hjoined : b.start.offset = t.stop.offset) : SameCapture stop (t :: b :: ts) (s :: ts) := by
  rw [SameCapture, captureLength_cons_of_isPlain hs, captureLength_cons_of_isPlain ht,
    captureLength_cons_of_isPlain hb]
  simp only [List.take_succ_cons, List.drop_succ_cons, and_true]
  have hspaced : Cursor.isSpaced t b = false := by simp [Cursor.isSpaced, hjoined]
  have hopens {k : TokenKind} (hk : isPlain stop k = true) :
      (k != .leftParen) = true ∧ (k != .leftBracket) = true := by
    rw [bne_iff_ne, bne_iff_ne]
    constructor <;> rintro rfl <;> simp [isPlain, TokenKind.opensGroup] at hk
  rw [Cursor.render, hspaced]
  cases ts.take (Cursor.captureLength stop 0 ts) with
  | nil => simp [Cursor.render, htext]
  | cons x later =>
    have : Cursor.isSpaced s x = Cursor.isSpaced b x := by
      simp [Cursor.isSpaced, hstop, hopens hb, hopens hs]
    simp [Cursor.render, htext, this, String.append_assoc]

theorem SameCapture.refl (stop : TokenKind → Bool) (ts : List Token) : SameCapture stop ts ts :=
  ⟨rfl, rfl⟩

theorem SameCapture.trans {ts us vs : List Token} (h : SameCapture stop ts us)
    (h' : SameCapture stop us vs) : SameCapture stop ts vs :=
  ⟨h'.1.trans h.1, h'.2.trans h.2⟩

omit stop

theorem nameLength_cons {c : Char} (hc : isIdentifierRest c = true) (cs : List Char) :
    nameLength (c :: cs) = nameLength cs + 1 := by
  simp only [nameLength, runLength, List.takeWhile_cons, hc, if_true, List.length_cons,
    List.drop_succ_cons]
  omega

/-- An identifier makes a symbol with the colon in front of it, unless an equals sign or, behind a
constant, the mark of a method name follows. -/
theorem nameLength_of_lexeme {previous c : Char} {cs ys : List Char} {kind : TokenKind}
    (hc : isIdentifierStart c = true) (h : lexeme previous c (cs ++ ys) = (kind, cs.length))
    (hsuffix : kind = .const → suffixLength ys = 0) :
    nameLength (c :: cs ++ ys) = (c :: cs).length := by
  rw [List.cons_append, nameLength_cons (isIdentifierRest_of_start hc), List.length_cons,
    Nat.add_right_cancel_iff]
  rw [lexeme_of_start hc] at h
  split at h
  · obtain ⟨rfl, hlength⟩ := Prod.mk.inj h
    exact nameLength_eq_length_iff.2 (.inl ⟨hlength, hsuffix rfl⟩)
  · exact (Prod.mk.inj h).2

/-- The symbol that a colon makes with what stands right behind it. -/
def symbolOf (t b : Token) : Token := ⟨.symbol, t.text ++ b.text, t.start, b.stop⟩

theorem isCut_symbol {t b : Token} {ys : List Char} (ht : t.text = ":") {c : Char} {cs : List Char}
    (hb : b.text.toList = c :: cs) (hc : c ≠ ':')
    (h : (isIdentifierStart c = true ∧ symbolLength (c :: cs ++ ys) = (c :: cs).length) ∨
      (isIdentifierStart c = false ∧ (c = '"' ∨ c = '\'') ∧
        stringLength c (cs ++ ys) = cs.length)) :
    (symbolOf t b).IsCut ' ' ys := by
  refine ⟨':', c :: cs, by simp [symbolOf, ht, hb], Cuts.gapLength_of_notMem (by decide) _, ?_,
    by simp [symbolOf]⟩
  have hprevious : endsValue ' ' = false := rfl
  simp only [lexeme, colonLexeme, List.cons_append, beq_false_of_ne hc, hprevious,
    Bool.false_eq_true, if_false, symbolOf]
  obtain ⟨hstart, hlength⟩ | ⟨hstart, hquote, hlength⟩ := h
  · rw [if_pos hstart]
    exact Prod.ext rfl hlength
  · have : (c == '"' || c == '\'') = true := by simpa using hquote
    rw [if_neg (by simp [hstart]), if_pos this, hlength]
    rfl

theorem isPlain_of_start {previous c : Char} {cs : List Char} {kind : TokenKind} {n : Nat}
    (hc : isIdentifierStart c = true) (h : lexeme previous c cs = (kind, n))
    (hkind : kind ≠ .doWord) : isPlain Cursor.endsArgument kind = true := by
  rw [lexeme_of_start hc] at h
  split at h
  · obtain ⟨rfl, -⟩ := Prod.mk.inj h
    rfl
  · obtain ⟨hword, -⟩ := Prod.mk.inj h
    revert hword
    unfold wordKind
    split_ifs
    all_goals rintro rfl
    all_goals first | rfl | exact absurd rfl hkind

theorem kind_ne_of_start {previous c : Char} {cs : List Char} {kind : TokenKind} {n : Nat}
    (hc : isIdentifierStart c = true) (h : lexeme previous c cs = (kind, n)) :
    kind ≠ .comment ∧ kind ≠ .string ∧ kind ≠ .symbol := by
  rw [lexeme_of_start hc] at h
  split at h
  · obtain ⟨rfl, -⟩ := Prod.mk.inj h
    decide
  · obtain ⟨rfl, -⟩ := Prod.mk.inj h
    unfold wordKind
    split_ifs <;> decide

/-- A single equals sign is a token of its own. -/
theorem Token.IsCut.equals {e : Token} {previous : Char} {ys : List Char} (h : e.IsCut previous ys)
    (hmeets : meetsEquals (e.text.toList ++ ys) = true) : e.kind = .equals ∧ e.text = "=" := by
  obtain ⟨c, cs, htext, -, hlex, -⟩ := h
  rw [htext, List.cons_append] at hmeets
  have hc : c = '=' := by
    unfold meetsEquals at hmeets
    split at hmeets
    · next heq => exact (List.cons.inj heq).1
    · cases hmeets
  subst hc
  simp only [meetsEquals, Bool.not_eq_true', Bool.or_eq_false_iff] at hmeets
  simp only [lexeme, hmeets, Bool.false_eq_true, if_false, Bool.or_self] at hlex
  obtain ⟨hkind, hcs⟩ := Prod.mk.inj hlex
  obtain rfl := List.length_eq_zero_iff.1 hcs.symm
  exact ⟨hkind.symm, String.toList_inj.1 (by simp [htext])⟩

/-- A symbol takes the place of a colon and what stands right behind it. -/
theorem Written.symbol {depth : Nat} {next : Char} {ys later : List Char} {t b : Token}
    {ts : List Token} (hcut : (symbolOf t b).IsCut ' ' ys) (hb : b.text.toList ≠ [])
    (hstart : StartsAt (b.text.toList.getLastD ':') ys b.stop next later ts)
    (h : Written depth next later ts) :
    Written depth ' ' ((symbolOf t b).text.toList ++ ys) (symbolOf t b :: ts) := by
  have hlast : (symbolOf t b).text.toList.getLastD ' ' = b.text.toList.getLastD ':' := by
    obtain ⟨c, cs, hcs⟩ := List.exists_cons_of_ne_nil hb
    rw [symbolOf, String.toList_append, getLastD_append, hcs, List.getLastD_cons,
      List.getLastD_cons]
  exact .cons hcut (fun _ => rfl) (hlast ▸ hstart) h

theorem depthAfter_of_isPlain {stop : TokenKind → Bool} {k : TokenKind}
    (h : isPlain stop k = true) (n : Nat) : depthAfter n k = n := by
  simp only [isPlain, endsCapture, Bool.and_eq_true, Bool.not_eq_true', Bool.or_eq_false_iff] at h
  simp [depthAfter, h]

section Word

variable {depth : Nat} {t b : Token} {more : List Token} {chars : List Char} {c : Char}
  {cs : List Char}

/-- A word right behind a colon, with nothing that could belong to the symbol. -/
theorem recut_of_symbolLength {next : Char} {ys later : List Char} (ht : t.kind = .colon)
    (htext : t.text = ":") (hb : b.text.toList = c :: cs) (hc : isIdentifierStart c = true)
    (hplain : isPlain Cursor.endsArgument b.kind = true)
    (hjoined : b.start.offset = t.stop.offset)
    (hlength : symbolLength (c :: cs ++ ys) = (c :: cs).length)
    (hstart : StartsAt (b.text.toList.getLastD ':') ys b.stop next later more)
    (h : Written depth next later more) : ∃ us chars', Written depth ' ' chars' us ∧
      SameCapture Cursor.endsArgument (t :: b :: more) us := by
  have hne : c ≠ ':' := fun heq => absurd hc (heq ▸ by decide)
  have hcut := isCut_symbol htext hb hne (.inl ⟨hc, hlength⟩)
  exact ⟨_, _, .symbol hcut (by simp [hb]) hstart h,
    .merge (by rw [ht]; rfl) hplain rfl rfl rfl hjoined⟩

/-- A word right behind a colon, with an equals sign that belongs to the symbol. -/
theorem recut_of_equals {e : Token} {next : Char} {ys later : List Char} (ht : t.kind = .colon)
    (htext : t.text = ":") (hb : b.text.toList = c :: cs) (hc : isIdentifierStart c = true)
    (hplain : isPlain Cursor.endsArgument b.kind = true)
    (hjoined : b.start.offset = t.stop.offset) (he : e.kind = .equals) (hsign : e.text = "=")
    (hjoined' : e.start.offset = b.stop.offset)
    (hname : nameLength (c :: cs ++ (e.text.toList ++ ys)) = (c :: cs).length)
    (hmeets : meetsEquals (e.text.toList ++ ys) = true)
    (hstart : StartsAt (e.text.toList.getLastD (b.text.toList.getLastD ':')) ys e.stop next later
      more)
    (h : Written depth next later more) : ∃ us chars', Written depth ' ' chars' us ∧
      SameCapture Cursor.endsArgument (t :: b :: e :: more) us := by
  have hne : c ≠ ':' := fun heq => absurd hc (heq ▸ by decide)
  rw [hsign] at hname hmeets
  have hlength : symbolLength (c :: (cs ++ ['=']) ++ ys) = (c :: (cs ++ ['='])).length :=
    symbolLength_eq_length_iff.2 (.inr ⟨c :: cs, rfl, hname, hmeets⟩)
  let whole : Token := ⟨b.kind, b.text ++ e.text, b.start, e.stop⟩
  have hwhole : whole.text.toList = c :: (cs ++ ['=']) := by simp [whole, hb, hsign]
  have hcut := isCut_symbol htext hwhole hne (.inl ⟨hc, hlength⟩)
  have hlast : whole.text.toList.getLastD ':'
      = e.text.toList.getLastD (b.text.toList.getLastD ':') := by
    rw [String.toList_append, getLastD_append]
  refine ⟨_, _, .symbol hcut (by simp [hwhole]) (hlast ▸ hstart) h, ?_⟩
  have hword : SameCapture Cursor.endsArgument (t :: b :: e :: more) (symbolOf t b :: e :: more) :=
    .merge (by rw [ht]; rfl) hplain rfl rfl rfl hjoined
  refine hword.trans (.merge rfl (by rw [he]; rfl) rfl ?_ rfl hjoined')
  simp [symbolOf, whole, String.append_assoc]

/-- A word right behind a colon, with a blank or nothing behind it. -/
theorem recut_of_blank {next : Char} {ys later : List Char} (ht : t.kind = .colon)
    (htext : t.text = ":") (hcut : b.IsCut ':' ys) (hb : b.text.toList = c :: cs)
    (hc : isIdentifierStart c = true) (hdo : b.kind ≠ .doWord)
    (hjoined : b.start.offset = t.stop.offset) (hnext : endsValue next = false)
    (hoffset : ∀ e ∈ more.head?, b.stop.offset < e.start.offset)
    (h : Written depth next later more) : ∃ us chars', Written depth ' ' chars' us ∧
      SameCapture Cursor.endsArgument (t :: b :: more) us := by
  obtain ⟨c', cs', hcs, -, hlex, hkind⟩ := hcut
  obtain ⟨rfl, rfl⟩ := List.cons.inj (hb.symm.trans hcs)
  obtain ⟨hcomment, hstring, hsymbol⟩ := kind_ne_of_start hc hlex
  have hlike : Resembles ys [' '] := .stop (by decide)
  have hblank := hlike.lexeme_eq hkind hcomment (fun hk => by simp_all) hlex
  have hlength : symbolLength (c :: cs ++ [' ']) = (c :: cs).length :=
    symbolLength_eq_length_iff.2 (.inl ⟨nameLength_of_lexeme hc hblank fun _ => rfl, rfl⟩)
  exact recut_of_symbolLength ht htext hb hc (isPlain_of_start hc hlex hdo) hjoined hlength
    (.inr ⟨by simp, hnext, hoffset⟩) h

/-- A word that stands right behind a colon. -/
theorem Written.recut_word (ht : t.kind = .colon) (htext : t.text = ":")
    (h : Written depth ':' chars (b :: more)) (hb : b.text.toList = c :: cs)
    (hc : isIdentifierStart c = true) (hjoined : b.start.offset = t.stop.offset)
    (hdo : b.kind ≠ .doWord)
    (hsuffix : ∀ e more', more = e :: more' → b.kind = .const → e.start.offset = b.stop.offset →
      e.text.toList.head? ≠ some '?' ∧ e.text.toList.head? ≠ some '!') :
    ∃ us chars', Written depth ' ' chars' us ∧
      SameCapture Cursor.endsArgument (t :: b :: more) us := by
  cases h with
  | @cons _ _ next ys later _ _ hcut hquiet hstart hmore =>
    obtain ⟨c', cs', hcs, -, hlex, hkind⟩ := id hcut
    obtain ⟨rfl, rfl⟩ := List.cons.inj (hb.symm.trans hcs)
    have hplain := isPlain_of_start hc hlex hdo
    rw [depthAfter_of_isPlain hplain] at hmore
    obtain ⟨rfl, rfl, hoffset⟩ | ⟨-, hnext, hoffset⟩ := hstart
    · cases more with
      | nil =>
        have hblank : Written depth ' ' [] [] := .nil
        exact recut_of_blank ht htext hcut hb hc hdo hjoined rfl (by simp) hblank
      | cons e more =>
        have hoffset' := hoffset e rfl
        cases id hmore with
        | @cons _ _ next' ys' later' _ _ hcut' hquiet' hstart' hmore' =>
          have hnone : b.kind = .const → suffixLength (e.text.toList ++ ys') = 0 := by
            intro hconst
            have hmarks := hsuffix e more rfl hconst hoffset'
            obtain ⟨x, xs, hx, -⟩ := hcut'
            rw [hx] at hmarks ⊢
            simp only [List.head?_cons, ne_eq, Option.some.injEq] at hmarks
            simp [suffixLength, hmarks]
          have hname := nameLength_of_lexeme hc hlex hnone
          by_cases hmeets : meetsEquals (e.text.toList ++ ys') = true
          · obtain ⟨hequals, hsign⟩ := hcut'.equals hmeets
            exact recut_of_equals ht htext hb hc hplain hjoined hequals hsign hoffset' hname hmeets
              hstart' (by rwa [hequals] at hmore')
          · have hlength : symbolLength (c :: cs ++ (e.text.toList ++ ys')) = (c :: cs).length :=
              symbolLength_eq_length_iff.2 (.inl ⟨hname, Bool.eq_false_iff.2 hmeets⟩)
            exact recut_of_symbolLength ht htext hb hc hplain hjoined hlength
              (.inl ⟨rfl, rfl, hoffset⟩) hmore
    · exact recut_of_blank ht htext hcut hb hc hdo hjoined hnext hoffset hmore

/-- A string that stands right behind a colon. -/
theorem Written.recut_string (ht : t.kind = .colon) (htext : t.text = ":")
    (h : Written depth ':' chars (b :: more)) (hb : b.text.toList = c :: cs)
    (hquote : c = '"' ∨ c = '\'') (hjoined : b.start.offset = t.stop.offset) :
    ∃ us chars', Written depth ' ' chars' us ∧
      SameCapture Cursor.endsArgument (t :: b :: more) us := by
  cases h with
  | @cons _ _ next ys later _ _ hcut hquiet hstart hmore =>
    obtain ⟨c', cs', hcs, -, hlex, -⟩ := hcut
    obtain ⟨rfl, rfl⟩ := List.cons.inj (hb.symm.trans hcs)
    obtain ⟨hkind, hlength⟩ : b.kind = .string ∧ stringLength c (cs ++ ys) = cs.length := by
      obtain rfl | rfl := hquote
      all_goals exact ⟨(congrArg Prod.fst hlex).symm, congrArg Prod.snd hlex⟩
    have hfirst : isIdentifierStart c = false ∧ c ≠ ':' := by
      obtain rfl | rfl := hquote <;> decide
    have hcut := isCut_symbol htext hb hfirst.2 (.inr ⟨hfirst.1, hquote, hlength⟩)
    rw [hkind] at hmore
    exact ⟨_, _, .symbol hcut (by simp [hb]) hstart hmore,
      .merge (by rw [ht]; rfl) (by rw [hkind]; rfl) rfl rfl rfl hjoined⟩

end Word

/-- A colon that is a token of its own has no colon behind it. -/
theorem Token.IsCut.head?_ne_of_colon {t : Token} {previous : Char} {ys : List Char}
    (h : t.IsCut previous ys) (ht : t.kind = .colon) (htext : t.text.toList = [':']) :
    ys.head? ≠ some ':' := by
  obtain ⟨c, cs, hcs, -, hlex, -⟩ := h
  obtain ⟨rfl, rfl⟩ := List.cons.inj (htext.symm.trans hcs)
  rw [ht] at hlex
  have halone := (Resembles.colonLexeme_eq_zero_iff.1 hlex).2
  rintro heq
  simp [heq] at halone

/-- The tokens that a colon and what follows it become behind a blank. -/
theorem Written.recut {depth : Nat} {previous : Char} {chars : List Char} {t : Token}
    {ts : List Token} (h : Written depth previous chars (t :: ts)) (ht : t.kind = .colon)
    (hdo : headKind ts ≠ .doWord)
    (hsuffix : ∀ b e more, ts = b :: e :: more → b.kind = .const → b.start.offset = t.stop.offset →
      e.start.offset = b.stop.offset →
      e.text.toList.head? ≠ some '?' ∧ e.text.toList.head? ≠ some '!') :
    ∃ us chars', Written depth ' ' chars' us ∧ SameCapture Cursor.endsArgument (t :: ts) us := by
  cases h with
  | @cons _ _ next ys later _ _ hcut hquiet hstart hts =>
    have htext : t.text.toList = [':'] := hcut.mark (by rw [ht]; rfl)
    have hcolon (zs : List Char) (hzs : lexeme ' ' ':' zs = (.colon, 0)) : t.IsCut ' ' zs :=
      ⟨':', [], htext, Cuts.gapLength_of_notMem (by decide) _, by rw [ht]; exact hzs, by simp [ht]⟩
    obtain ⟨rfl, rfl, hoffset⟩ | ⟨hne, hnext, hoffset⟩ := hstart
    · have htext' : t.text = ":" := String.toList_inj.1 (by simp [htext])
      rw [htext, List.getLastD_cons, List.getLastD_nil, ht] at hts
      have hdepth : depthAfter depth .colon = depth := rfl
      rw [hdepth] at hts
      cases ts with
      | nil =>
        have halone := Written.cons (hcolon [] rfl) hquiet (.inl ⟨rfl, rfl, by simp⟩) .nil
        exact ⟨[t], _, halone, .refl _ _⟩
      | cons b more =>
        have hjoined := hoffset b rfl
        cases hts with
        | @cons _ _ next' ys' later' _ _ hcut' hquiet' hstart' hmore =>
          obtain ⟨c, cs, hcs, -⟩ := id hcut'
          have hne : c ≠ ':' := by simpa [hcs] using hcut.head?_ne_of_colon ht htext
          by_cases hc : isIdentifierStart c = true
          · exact Written.recut_word ht htext' (.cons hcut' hquiet' hstart' hmore) hcs hc hjoined
              hdo fun e more' hmore' hk he => hsuffix b e more' (by rw [hmore']) hk hjoined he
          · by_cases hquote : c = '"' ∨ c = '\''
            · exact Written.recut_string ht htext' (.cons hcut' hquiet' hstart' hmore) hcs hquote
                hjoined
            · have hzero : lexeme ' ' ':' (b.text.toList ++ ys') = (.colon, 0) := by
                refine Resembles.colonLexeme_eq_zero_iff.2 ⟨rfl, ?_⟩
                simpa [hcs, hne, hc] using .inr (not_or.1 hquote)
              have hb : Written (depthAfter depth t.kind) (t.text.toList.getLastD ' ')
                  (b.text.toList ++ ys') (b :: more) := by
                rw [htext, ht]
                exact .cons hcut' hquiet' hstart' hmore
              exact ⟨t :: b :: more, _, .cons (hcolon _ hzero) hquiet (.inl ⟨rfl, rfl, hoffset⟩) hb,
                .refl _ _⟩
    · have hstart : StartsAt (t.text.toList.getLastD ' ') [' '] t.stop next later ts :=
        .inr ⟨by simp, hnext, hoffset⟩
      exact ⟨t :: ts, _, .cons (hcolon [' '] rfl) hquiet hstart hts, .refl _ _⟩

end Colon

end StubMerge
