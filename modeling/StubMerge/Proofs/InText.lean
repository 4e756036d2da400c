import StubMerge.Proofs.Cleanness
import StubMerge.Proofs.TokenTexts

/-!
# Cursors in a text

A cursor that was made of a text, and every cursor that it walks to, stands in front of tokens that
are written in the text (`Cursor.InText`). What is captured there in front of more tokens can be
captured again, if the cursor does not stand right behind a value (`Cursor.IsApart`). Captures start
behind a mark, which is no value; only the first argument of a call may stand right behind a word.
-/

namespace StubMerge

/-- Whether a text starts with a colon and a constant, with a question or exclamation mark right
behind it. -/
def hasMarkedConstant (text : String) : Bool :=
  match text.toList with
  | ':' :: c :: cs =>
    c.isUpper && (cs.drop (runLength isIdentifierRest cs)).head?.any fun d => d == '?' || d == '!'
  | _ => false

/-! ## Cursors in a text -/

namespace Cursor

/-- The tokens in front of the cursor stand in a text. -/
def InText (c : Cursor) : Prop := ∃ depth previous chars, Written depth previous chars c.rest

/-- The tokens in front of the cursor stand in a text, and not right behind a value. -/
def IsApart (c : Cursor) : Prop :=
  ∃ depth previous chars, endsValue previous = false ∧ Written depth previous chars c.rest

variable {c c' : Cursor}

theorem IsApart.inText (h : c.IsApart) : c.InText := by
  obtain ⟨depth, previous, chars, -, hwritten⟩ := h
  exact ⟨depth, previous, chars, hwritten⟩

/-- The tokens that matter in a text stand in it. -/
theorem inText_ofText (text : String) (file : Option String) :
    (ofTokens file (TokenList.ofText text).significant).InText := by
  obtain ⟨ps, rest, -, hcuts, htokens⟩ := (Scanner.ofText text).exists_pieces
  obtain ⟨previous, chars, hwritten, -⟩ := hcuts.exists_written 0 none Position.origin
  refine ⟨0, previous, chars, ?_⟩
  rw [ofTokens, TokenList.significant, TokenList.ofText, htokens]
  exact hwritten

theorem InText.walk (h : c.InText) (hr : c.Walk c') : c'.InText := by
  obtain ⟨depth, previous, chars, hwritten⟩ := h
  rw [InText, List.suffix_iff_eq_drop.1 hr.suffix]
  exact hwritten.drop _

/-- The current token is cut out of the text. -/
theorem InText.peek (h : c.InText) (hk : c.kind ≠ .eof) :
    ∃ previous ys, c.peek.IsCut previous ys ∧ c.peek.kind = c.kind := by
  obtain ⟨depth, previous, chars, hwritten⟩ := h
  obtain ⟨t, ts, hrest, hkind, -⟩ := exists_rest hk
  rw [hrest] at hwritten
  have hpeek : c.peek = t := by simp [Cursor.peek, nth, hrest]
  rw [hpeek]
  cases hwritten with
  | cons hcut => exact ⟨_, _, hcut, hkind.symm⟩

/-- Behind a mark that ends no value the cursor is apart. -/
theorem InText.advance (h : c.InText) {d : Char} (hmark : c.kind.mark? = some d)
    (hd : endsValue d = false) : c.advance.IsApart := by
  obtain ⟨depth, previous, chars, hwritten⟩ := h
  have hne : c.kind ≠ .eof := by
    intro hk
    simp [hk, TokenKind.mark?] at hmark
  obtain ⟨t, ts, hrest, hkind, -⟩ := exists_rest hne
  have hadvance : c.advance.rest = ts := by simp [Cursor.advance, skip, hrest]
  rw [hrest] at hwritten
  cases hwritten with
  | @cons _ _ next ys later _ _ hcut _ hstart hmore =>
    refine ⟨_, next, later, ?_, hadvance ▸ hmore⟩
    rw [hcut.mark (hkind ▸ hmark)] at hstart
    obtain ⟨rfl, -⟩ | ⟨-, hnext, -⟩ := hstart
    · exact hd
    · exact hnext

theorem IsApart.skipNewlines (h : c.IsApart) : c.skipNewlines.IsApart := by
  generalize hn : c.remaining = n
  induction n generalizing c with
  | zero =>
    have hkind : c.kind ≠ .newline := fun hk => by
      have := remaining_pos_of_kind hk (by decide)
      omega
    rwa [skipNewlines_of_ne hkind]
  | succ n ih =>
    by_cases hk : c.kind = .newline
    · have hskip : c.skipNewlines = c.advance.skipNewlines :=
        skipWhile_of_true (by simp [hk]) (by simp [hk])
      rw [hskip]
      refine ih (h.inText.advance (d := '\n') (by rw [hk]; rfl) (by decide)) ?_
      rw [remaining_advance]
      omega
    · rwa [skipNewlines_of_ne hk]

/-- A cursor in front of anything but a colon might as well stand behind a blank. -/
theorem InText.isApart (h : c.InText) (hk : c.kind ≠ .colon) : c.IsApart := by
  obtain ⟨depth, previous, chars, hwritten⟩ := h
  rw [kind_eq_headKind] at hk
  unfold IsApart
  revert hk hwritten
  generalize c.rest = ts
  intro hk hwritten
  cases hwritten with
  | nil => exact ⟨0, ' ', [], rfl, .nil⟩
  | @cons _ _ next ys later t ts hcut hquiet hstart hmore =>
    have hlast : t.text.toList.getLastD previous = t.text.toList.getLastD ' ' := by
      obtain ⟨c, cs, htext, -⟩ := hcut
      rw [htext, List.getLastD_cons, List.getLastD_cons]
    exact ⟨depth, ' ', _, rfl, .cons (hcut.behind_blank hk) hquiet (hlast ▸ hstart) hmore⟩

/-! ## Captures -/

/-- What is captured here can be captured again: in front of a closing parenthesis, if there is more
to be read, and at the end of a line, if a line break behind it ends the statement. -/
structure Recaptures (stop : TokenKind → Bool) (c : Cursor) : Prop where
  paren : (c.capture stop).2.rest ≠ [] → isCaptured stop ")" (c.capture stop).1 = true
  line : (c.capture stop).1 ≠ "" → endsLine (c.capture stop).1 = true →
    isCaptured stop ")" (c.capture stop).1 = true ∧ isCaptured stop "\n" (c.capture stop).1 = true

/-- What is captured by a cursor that is apart is a phrase that can end a line, if a line break
behind it ends the statement. -/
theorem IsApart.exists_line {stop : TokenKind → Bool} (h : c.IsApart)
    (hne : (c.capture stop).1 ≠ "") (hline : endsLine (c.capture stop).1 = true) :
    ∃ ps, tokenPieces ps = (c.rest.take (captureLength stop 0 c.rest)).map Token.piece ∧
      Phrase stop (c.capture stop).1 ps ∧ LineRow (c.capture stop).1 ps := by
  obtain ⟨depth, previous, chars, hprevious, hwritten⟩ := h
  exact hwritten.exists_line hprevious hne hline

/-- Tokens that stand apart in a text and are captured like those in front of the cursor. -/
theorem recaptures_of_sameCapture {stop : TokenKind → Bool} {depth : Nat} {previous : Char}
    {chars : List Char} {us : List Token} (h : Written depth previous chars us)
    (hprevious : endsValue previous = false) (hsame : SameCapture stop c.rest us) :
    c.Recaptures stop := by
  obtain ⟨hrender, hdrop⟩ := hsame
  have htext : (c.capture stop).1 = render (us.take (captureLength stop 0 us)) := hrender.symm
  constructor
  · intro hmore
    rw [htext]
    exact h.isCaptured hprevious (hdrop.symm ▸ hmore)
  · intro hne hline
    rw [htext] at hne hline ⊢
    obtain ⟨ps, -, hphrase, hrow⟩ := h.exists_line hprevious hne hline
    exact ⟨hphrase.isCaptured_paren, hphrase.isCaptured_line hrow⟩

theorem IsApart.recaptures (h : c.IsApart) (stop : TokenKind → Bool) : c.Recaptures stop := by
  obtain ⟨depth, previous, chars, hprevious, hwritten⟩ := h
  exact recaptures_of_sameCapture hwritten hprevious (.refl stop c.rest)

/-- What stands in parentheses can be captured again. -/
theorem InText.captureGroup (h : c.InText) (hclean : c.captureGroup.2.IsClean) :
    isCaptured stopsNever ")" c.captureGroup.1 = true := by
  unfold Cursor.captureGroup at hclean ⊢
  have hopen : c.kind = .leftParen := by
    refine kind_of_expect (p := .expectedOpenParen) ?_
    dsimp only at hclean
    split at hclean
    · exact ((walk_capture _ _).trans (walk_expect _ _ _ (by simp))).clean hclean
    · exact hclean
  simp only [expect_of_kind hopen, if_true] at hclean ⊢
  have hclose : (c.advance.capture stopsNever).2.kind = .rightParen := kind_of_expect hclean
  exact ((h.advance (d := '(') (by rw [hopen]; rfl) (by decide)).recaptures stopsNever).paren
    (rest_ne_nil (by simp [hclose]))

/-! ## Arguments -/

theorem exists_render_cons (t : Token) (ts : List Token) :
    ∃ tail, (render (t :: ts)).toList = t.text.toList ++ tail := by
  cases ts with
  | nil => exact ⟨[], by simp [render]⟩
  | cons b ts =>
    rw [render, String.toList_append, String.toList_append, List.append_assoc]
    exact ⟨_, rfl⟩

/-- A colon, a constant and one of the two marks, with nothing between them. -/
theorem hasMarkedConstant_render {depth : Nat} {previous : Char} {chars : List Char} {t b e : Token}
    {more : List Token} (h : Written depth previous chars (t :: b :: e :: more))
    (ht : t.kind = .colon) (hb : b.kind = .const) (hjoined : b.start.offset = t.stop.offset)
    (hjoined' : e.start.offset = b.stop.offset) {q : Char} (hq : q = '?' ∨ q = '!')
    (he : e.text.toList.head? = some q) :
    hasMarkedConstant (render ((t :: b :: e :: more).take
      (captureLength endsArgument 0 (t :: b :: e :: more)))) = true := by
  obtain ⟨es, hes⟩ := List.head?_eq_some_iff.1 he
  have hwritten : t.text.toList = [':'] ∧ (∃ d ds, b.text.toList = d :: ds ∧ d.isUpper = true ∧
      ds.all isIdentifierRest = true) ∧ e.kind = .operator := by
    cases h with
    | cons hcut _ _ h =>
      cases h with
      | cons hcut' _ _ h =>
        cases h with
        | cons hcut'' =>
          refine ⟨hcut.mark (by rw [ht]; rfl), ?_, ?_⟩
          · obtain ⟨d, ds, hds, -, hlex, -⟩ := hcut'
            rw [hb] at hlex
            obtain ⟨hupper, hlength⟩ := lexeme_const hlex
            exact ⟨d, ds, hds, hupper, (runLength_eq_length_iff.1 hlength.symm).1⟩
          · obtain ⟨d, ds, hds, -, hlex, -⟩ := hcut''
            obtain ⟨rfl, rfl⟩ := List.cons.inj (hes.symm.trans hds)
            obtain rfl | rfl := hq
            all_goals exact (congrArg Prod.fst hlex).symm
  obtain ⟨htext, ⟨d, ds, hds, hupper, hall⟩, hoperator⟩ := hwritten
  have hplain {a : Token} (ha : a.kind = .colon ∨ a.kind = .const ∨ a.kind = .operator) :
      isPlain endsArgument a.kind = true := by
    obtain ha | ha | ha := ha <;> rw [ha] <;> rfl
  rw [captureLength_cons_of_isPlain (hplain (.inl ht)),
    captureLength_cons_of_isPlain (hplain (.inr (.inl hb))),
    captureLength_cons_of_isPlain (hplain (.inr (.inr hoperator)))]
  simp only [List.take_succ_cons]
  obtain ⟨tail, htail⟩ := exists_render_cons e
    (more.take (captureLength endsArgument 0 more))
  have hclosed : isSpaced t b = false ∧ isSpaced b e = false := by
    simp [isSpaced, hjoined, hjoined']
  have hq' : isIdentifierRest q = false := by obtain rfl | rfl := hq <;> rfl
  have hrun : runLength isIdentifierRest (ds ++ q :: (es ++ tail)) = ds.length :=
    runLength_eq_length_iff.2 ⟨hall, by simp [hq']⟩
  simp [hasMarkedConstant, render, hclosed, htext, hds, htail, hes, hrun, hupper, hq]

/-- The first of the arguments behind a word. A colon right behind the word is read otherwise when a
blank is put between them. -/
theorem InText.recaptures_argument (h : c.InText)
    (hdo : (c.capture endsArgument).2.kind ≠ .doWord)
    (hmarked : hasMarkedConstant (c.capture endsArgument).1 = false) :
    c.Recaptures endsArgument := by
  by_cases hk : c.kind = .colon
  · obtain ⟨depth, previous, chars, hwritten⟩ := h
    obtain ⟨t, ts, hrest, hkind, -⟩ := exists_rest (c := c) (by simp [hk])
    have ht : t.kind = .colon := hkind.symm.trans hk
    rw [kind_eq_headKind, capture, skip] at hdo
    rw [capture] at hmarked
    simp only [hrest] at hdo hmarked hwritten
    have hdo' : headKind ts ≠ .doWord := by
      intro heq
      rw [captureLength_cons_of_isPlain (by rw [ht]; rfl),
        captureLength_of_endsCapture (by rw [heq]; rfl)] at hdo
      exact hdo heq
    obtain ⟨us, chars', hus, hsame⟩ := hwritten.recut ht hdo' fun b e more hmore hb hj hj' => by
      subst hmore
      constructor
      · intro he
        simp [hasMarkedConstant_render hwritten ht hb hj hj' (.inl rfl) he] at hmarked
      · intro he
        simp [hasMarkedConstant_render hwritten ht hb hj hj' (.inr rfl) he] at hmarked
    exact recaptures_of_sameCapture hus rfl (hrest ▸ hsame)
  · exact (h.isApart hk).recaptures endsArgument

end Cursor

/-- Arguments that can be captured again, the last one if a line break behind it ends the
statement. -/
structure AreRecaptured (args : List String) : Prop where
  nonempty : ∀ arg ∈ args, arg ≠ ""
  inner : ∀ arg ∈ args.dropLast, isCaptured Cursor.endsArgument ")" arg = true
  last : ∀ arg ∈ args.getLast?, endsLine arg = true →
    isCaptured Cursor.endsArgument ")" arg = true ∧ isCaptured Cursor.endsArgument "\n" arg = true

namespace AreRecaptured

theorem nil : AreRecaptured [] := ⟨by simp, by simp, by simp⟩

theorem cons {arg : String} {args : List String} (hne : arg ≠ "")
    (hparen : args ≠ [] → isCaptured Cursor.endsArgument ")" arg = true)
    (hline : endsLine arg = true → isCaptured Cursor.endsArgument ")" arg = true ∧
      isCaptured Cursor.endsArgument "\n" arg = true)
    (h : AreRecaptured args) : AreRecaptured (arg :: args) := by
  cases args with
  | nil => exact ⟨by simpa using hne, by simp, by simpa using hline⟩
  | cons next args =>
    refine ⟨List.forall_mem_cons.2 ⟨hne, h.nonempty⟩, ?_, ?_⟩
    · rw [List.dropLast_cons_cons]
      exact List.forall_mem_cons.2 ⟨hparen (by simp), h.inner⟩
    · rw [List.getLast?_cons_cons]
      exact h.last

/-- They can be written as the arguments of a call. -/
theorem areArguments {args : List String} (h : AreRecaptured args)
    (hlast : args.getLast?.all endsLine = true)
    (hfirst : args.head?.all (fun arg => arg.toList.head? != some '(') = true) :
    areArguments args = true := by
  have hlast' : ∀ arg ∈ args.getLast?, isCaptured Cursor.endsArgument ")" arg = true ∧
      isCaptured Cursor.endsArgument "\n" arg = true := by
    intro arg harg
    exact h.last arg harg (by simpa [Option.mem_def.1 harg] using hlast)
  simp only [StubMerge.areArguments, Bool.and_eq_true, hfirst, and_true, List.all_eq_true,
    Bool.not_eq_true', String.isEmpty_eq_false_iff]
  refine ⟨fun arg harg => ⟨h.nonempty arg harg, ?_⟩, ?_⟩
  · rcases List.eq_nil_or_concat' args with rfl | ⟨init, last, rfl⟩
    · cases harg
    · rcases List.mem_append.1 harg with hinit | heq
      · exact h.inner arg (by simpa using hinit)
      · obtain rfl := List.mem_singleton.1 heq
        exact (hlast' arg (by simp)).1
  · cases hget : args.getLast? with
    | none => rfl
    | some arg => exact (hlast' arg (by simp [hget])).2

end AreRecaptured

namespace Cursor

theorem InText.arguments {c : Cursor} (h : c.InText) (hfirst : c.Recaptures endsArgument) :
    AreRecaptured c.arguments.1 := by
  fun_induction Cursor.arguments c with
  | case1 c first args hcomma more ih =>
    have hafter : first.2.InText := h.walk (c.walk_capture _)
    have hnext : first.2.advance.skipNewlines.IsApart :=
      (hafter.advance (d := ',') (by rw [hcomma]; rfl) (by decide)).skipNewlines
    have hmore := ih hnext.inText (hnext.recaptures _)
    by_cases hempty : first.1 = ""
    · simpa [args, hempty] using hmore
    · have hne : first.2.rest ≠ [] := rest_ne_nil (by simp [hcomma])
      have hcons := hmore.cons hempty (fun _ => hfirst.paren hne) (hfirst.line hempty)
      simpa [args, hempty] using hcons
  | case2 c first args =>
    by_cases hempty : first.1 = ""
    · simpa [args, hempty] using AreRecaptured.nil
    · have hcons := AreRecaptured.nil.cons hempty (by simp) (hfirst.line hempty)
      simpa [args, hempty] using hcons

/-- The arguments of a call. -/
theorem InText.callArguments {c : Cursor} (h : c.InText)
    (hdo : c.callArguments.2.kind ≠ .doWord)
    (hmarked : c.callArguments.1.head?.any hasMarkedConstant = false) :
    AreRecaptured c.callArguments.1 := by
  unfold Cursor.callArguments at hdo hmarked ⊢
  by_cases hk : c.kind = .leftParen
  · have hapart := h.advance (d := '(') (by rw [hk]; rfl) (by decide)
    simpa [hk] using hapart.inText.arguments (hapart.recaptures _)
  · simp only [beq_eq_false_iff_ne.2 hk, Bool.false_eq_true, if_false] at hdo hmarked ⊢
    rw [Cursor.arguments] at hdo hmarked
    refine h.arguments (h.recaptures_argument ?_ ?_)
    · intro heq
      simp [heq] at hdo
    · by_cases hempty : (c.capture endsArgument).1 = ""
      · rw [hempty]
        rfl
      · by_cases hcomma : (c.capture endsArgument).2.kind = .comma
        · simpa [hcomma, hempty] using hmarked
        · simpa [hcomma, hempty] using hmarked

end Cursor

/-! ## Names -/

namespace Cursor

variable {c : Cursor}

/-- The name of a method. -/
theorem InText.methodName (h : c.InText) {text : String} (hname : c.methodName.1 = some text) :
    isMethodName text = true := by
  have hkind := kind_of_methodName hname
  have hne : c.kind ≠ .eof := by
    intro hk
    simp [hk, namesMethod] at hkind
  obtain ⟨depth, previous, chars, hwritten⟩ := h
  obtain ⟨t, ts, hrest, htkind, httext, hnext⟩ := exists_rest hne
  rw [hrest] at hwritten
  obtain hk | hk | hk := hkind
  · rw [methodName_of_name hk] at hname
    cases hwritten with
    | @cons _ _ next ys later _ _ hcut _ hstart hmore =>
      cases hsetter : c.atSetter with
      | false =>
        obtain rfl : c.text = text := by simpa [hsetter, setterMark] using hname
        rw [httext]
        exact hcut.isMethodName (.inl (htkind ▸ hk))
      | true =>
        obtain rfl : c.text ++ "=" = text := by simpa [hsetter, setterMark] using hname
        simp only [atSetter, Bool.and_eq_true, beq_iff_eq] at hsetter
        -- The equals sign stands right behind the name, and so do its characters.
        obtain ⟨e, more, rfl, he⟩ : ∃ e more, ts = e :: more ∧ e.kind = .equals := by
          cases ts with
          | nil => simp [nthKind, hrest] at hsetter
          | cons e more => exact ⟨e, more, rfl, by simpa [nthKind, hrest] using hsetter.1⟩
        have hjoined : e.start.offset = t.stop.offset := by
          simpa [Cursor.peek, nth, hrest, eq_comm] using hsetter.2
        obtain ⟨rfl, rfl, -⟩ | ⟨-, -, hlt⟩ := hstart
        · cases hmore with
          | cons hcut' =>
            have hsign := hcut'.mark (by rw [he]; rfl)
            obtain ⟨d, ds, hds, -, hlex, -⟩ := hcut'
            obtain ⟨rfl, rfl⟩ := List.cons.inj (hsign.symm.trans hds)
            rw [hsign] at hcut
            rw [httext]
            refine hcut.isMethodName_setter (htkind ▸ hk) ?_
            rw [← he]
            exact hlex
        · have := hlt e rfl
          omega
  · rw [methodName_of_bracket hk] at hname
    split at hname
    · obtain rfl := Option.some.inj hname
      unfold setterMark
      split
      · exact (by decide +kernel : isMethodName "[]=" = true)
      · exact (by decide +kernel : isMethodName "[]" = true)
    · cases hname
  · rw [methodName_of_namesMethod hk] at hname
    obtain rfl := Option.some.inj hname
    cases hwritten with
    | cons hcut =>
      rw [httext]
      exact hcut.isMethodName (.inr (htkind ▸ hk))

/-- A path of constants. -/
theorem InText.pathSegments (h : c.InText) (hk : c.kind = .const) :
    (pathParts c.pathSegments.1.toList).all (fun part => isConstant (String.ofList part)) = true ∧
      c.pathSegments.1.toList.head? ≠ some ':' := by
  have hconst {c : Cursor} (h : c.InText) (hk : c.kind = .const) : isConstant c.text = true := by
    obtain ⟨previous, ys, hcut, hkind⟩ := h.peek (by simp [hk])
    exact hcut.isConstant (hkind.trans hk)
  have hhead {text : String} (htext : isConstant text = true) (tail : List Char) :
      (text.toList ++ tail).head? ≠ some ':' := by
    intro heq
    simp only [isConstant, startsUpper, Bool.and_eq_true] at htext
    cases hchars : text.toList with
    | nil => simp [hchars] at htext
    | cons d ds =>
      obtain rfl : d = ':' := by simpa [hchars] using heq
      simp [hchars] at htext
  fun_induction Cursor.pathSegments c with
  | case1 c hmark hnext more ih =>
    have hc := hconst h hk
    obtain ⟨hall, -⟩ := ih (h.walk (c.walk_advance.trans (walk_advance _)))
      ((nthKind_succ _ 0).symm.trans (eq_of_beq hnext))
    simp only [String.toList_append, List.append_assoc]
    refine ⟨?_, hhead hc _⟩
    show (pathParts (c.text.toList ++ ':' :: ':' :: more.1.toList)).all _ = true
    rw [pathParts_append (notMem_of_isConstant hc)]
    simpa [hc] using hall
  | case2 c =>
    have hc := hconst h hk
    rw [pathParts_of_notMem (notMem_of_isConstant hc)]
    exact ⟨by simpa using hc, by simpa using hhead hc []⟩
  | case3 c =>
    have hc := hconst h hk
    rw [pathParts_of_notMem (notMem_of_isConstant hc)]
    exact ⟨by simpa using hc, by simpa using hhead hc []⟩

theorem InText.constantPath (h : c.InText) {text : String} (hpath : c.constantPath.1 = some text) :
    isConstantPath text = true := by
  dsimp only [Cursor.constantPath] at hpath
  split at hpath
  · next hk =>
    obtain ⟨hall, hhead⟩ := (h.walk (c.walk_eat .pathSeparator)).pathSegments (eq_of_beq hk)
    obtain rfl := Option.some.inj hpath
    unfold isConstantPath
    split
    · rwa [← pathSeparator, Text.afterOrAll_append]
    · have hnone : Text.after? pathSeparator (c.eat .pathSeparator).2.pathSegments.1 = none := by
        unfold Text.after?
        cases hchars : (c.eat .pathSeparator).2.pathSegments.1.toList with
        | nil => rfl
        | cons d ds =>
          have hd : (':' == d) = false := by
            rw [hchars, List.head?_cons] at hhead
            exact beq_false_of_ne fun heq => hhead (congrArg some heq.symm)
          simp [pathSeparator, List.isPrefixOf?, hd]
      rw [String.empty_append, Text.afterOrAll, hnone]
      exact hall
  · cases hpath

end Cursor

end StubMerge
