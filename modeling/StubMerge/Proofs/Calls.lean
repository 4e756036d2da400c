import StubMerge.Proofs.Leaves

/-!
# Constants and calls are read as they are written

A constant is set to a value, and the value decides whether it is a type member, a struct class or
neither. A call is what no other declaration is: its word and the first token behind the word tell
it apart from them.
-/

namespace StubMerge

open Cursor

/-! ## Constants -/

/-- Whether tokens make a struct class, their first mark apart. -/
def callsStruct : List Piece → Bool
  | .token k text :: .token k' _ :: .token _ text' :: _ =>
    k == .const && text == "Struct" && k' == .dot && text' == "new"
  | _ => false

/-- Whether tokens make a struct class. -/
def makesStruct : List Piece → Bool
  | .token .pathSeparator _ :: ps => callsStruct ps
  | ps => callsStruct ps

theorem callsStruct_eq {c : Cursor} {ts later : List Token} {x : Token}
    (h : c.rest = ts ++ x :: later) (hkind : x.kind = .newline) (htext : x.text = "\n") :
    (c.kind == .const && c.text == "Struct" && c.nthKind 1 == .dot && (c.nth 2).text == "new")
      = callsStruct (ts.map Token.piece) := by
  unfold Cursor.kind Cursor.text peek nthKind nth
  rw [h]
  match ts with
  | [] => simp [callsStruct, hkind]
  | [a] => simp [callsStruct, Token.piece, hkind]
  | [a, b] => simp [callsStruct, Token.piece, htext]
  | a :: b :: d :: ts => simp [callsStruct, Token.piece]

theorem atStructClass_eq {c : Cursor} {ps qs : List Piece} (h : c.Faces (ps ++ .mark "\n" :: qs)) :
    c.atStructClass = makesStruct (tokenPieces ps) := by
  obtain ⟨p, hp⟩ := h.tokens
  rw [tokensFrom_append] at hp
  obtain ⟨x, later, hrest, hbreak, htext⟩ : ∃ x later,
      c.rest = tokensFrom p ps ++ x :: later ∧ x.kind = .newline ∧ x.text = "\n" :=
    ⟨_, _, hp, rfl, rfl⟩
  rw [← map_piece_tokensFrom p ps]
  have hcalls := callsStruct_eq hrest hbreak htext
  cases hts : tokensFrom p ps with
  | nil =>
    have hkind : c.kind = .newline := by rw [kind_eq_headKind, hrest, hts]; exact hbreak
    simp [Cursor.atStructClass, eat, hkind, makesStruct, callsStruct]
  | cons t ts =>
    have hkind : c.kind = t.kind := by rw [kind_eq_headKind, hrest, hts]; rfl
    by_cases hmark : t.kind = .pathSeparator
    · have hlater : c.advance.rest = ts ++ x :: later := by simp [advance, Cursor.skip, hrest, hts]
      rw [Cursor.atStructClass, eat_of_kind (hkind.trans hmark), callsStruct_eq hlater hbreak htext]
      simp [makesStruct, Token.piece, hmark]
    · have hne : c.kind ≠ .pathSeparator := hkind ▸ hmark
      rw [hts] at hcalls
      simp only [Cursor.atStructClass, eat, beq_false_of_ne hne, Bool.false_eq_true, if_false, hcalls]
      unfold makesStruct
      split
      · next heq => exact absurd (Piece.token.inj (List.cons.inj heq).1).1 hmark
      · rfl

/-- Whether a value defines a struct class can be seen from its tokens. -/
theorem definesStruct_eq {value : String} {ps : List Piece} (h : LineRow value ps) :
    definesStruct value = makesStruct (tokenPieces ps) := by
  have hcuts : Cuts [] '\x00' (ps ++ [.mark "\n"]) :=
    (h.cutsLine (by decide)).append (.mark (by decide) .nil)
  have htokens : (TokenList.ofText (value ++ "\n")).tokens = tokensFrom .origin (ps ++ [.mark "\n"]) :=
    tokens_ofText (by simp [h.chars]) hcuts
  have hfaces : (Cursor.ofTokens none (TokenList.ofText (value ++ "\n"))).Faces
      (ps ++ .mark "\n" :: []) := ⟨rfl, .origin, htokens⟩
  exact atStructClass_eq hfaces

theorem declares_constant {name value : String} {leaf : Leaf} {ps : List Piece}
    (hname : isConstant name = true) (hvalue : value ≠ "") (hps : Phrase stopsNever value ps)
    (hleaf : (if isTypeMember value then .typeMember name value else .const name value) = leaf)
    (hstruct : ∀ {c : Cursor} {qs : List Piece}, c.Faces (ps ++ .mark "\n" :: qs) →
      c.atStructClass = false) :
    Declares (.leaf leaf) [] (.word name :: .blank :: .mark "=" :: .blank :: ps) := by
  intro c qs comments hc
  obtain ⟨hstart, hconstant, hcname, hafter⟩ := statement_of_constant hname hc { comments }
  obtain ⟨c', hcapture, hc'⟩ := hafter.capture hps rfl
  have hall : c.advance.advance.captureAll = (value, c') := hcapture
  refine ⟨hstart, c.peek.start, c', ?_, hc'⟩
  rw [hconstant]
  simp [constant, hstruct hafter, hall, reportIf, hvalue, hcname, hleaf]

theorem wordKind_ne_const (word : List Char) :
    wordKind word ≠ .const ∧ wordKind word ≠ .pathSeparator := by
  unfold wordKind
  split_ifs <;> decide

/-- What starts with a small letter starts with a word. -/
theorem PieceRow.exists_wordKind {text : String} {ps : List Piece} {c : Char} {cs : List Char}
    (h : PieceRow text ps) (htext : text.toList = c :: cs) (hstart : isIdentifierStart c = true)
    (hsmall : c.isUpper = false) : ∃ word k ks, kindsOf ps = k :: ks ∧ k = wordKind word := by
  have hchars := h.chars.trans htext
  have hcuts : Cuts [')'] '\x00' ps := h.cuts rfl (by decide) (by decide)
  cases hcuts with
  | nil => cases hchars
  | @gap _ gaps ps hgap _ =>
    exfalso
    simp only [isGap, Bool.or_eq_true, beq_iff_eq] at hgap
    obtain ((rfl | rfl) | rfl) | rfl := hgap
    all_goals
      obtain rfl := (List.cons.inj hchars).1
      revert hstart
      decide
  | @token _ d ds kind text ps hd _ hlex _ _ =>
    rw [charsOf_token, hd] at hchars
    obtain rfl := (List.cons.inj hchars).1
    rw [lexeme_of_start hstart, hsmall] at hlex
    exact ⟨_, _, _, rfl, (congrArg Prod.fst hlex).symm⟩

theorem exists_cons_of_isTypeMember {value : String} (h : isTypeMember value = true) :
    ∃ cs, value.toList = 't' :: cs := by
  simp only [isTypeMember, Bool.or_eq_true, beq_iff_eq] at h
  have htake : ∃ cs, value.toList.takeWhile isIdentifierRest = 't' :: cs := by
    obtain h | h := h
    all_goals
      rw [← String.toList_inj, String.toList_ofList] at h
      exact ⟨_, h⟩
  obtain ⟨cs, hcs⟩ := htake
  cases hvalue : value.toList with
  | nil => simp [hvalue] at hcs
  | cons c more =>
    rw [hvalue, List.takeWhile_cons] at hcs
    split at hcs
    · exact ⟨more, by rw [(List.cons.inj hcs).1]⟩
    · cases hcs

theorem exists_constant {name value : String} (hname : isConstant name = true) (hvalue : value ≠ "")
    (h : isCaptured stopsNever "\n" value = true) (hmember : isTypeMember value = false)
    (hstruct : definesStruct value = false) :
    ∃ ps, LineRow (name ++ " = " ++ value) ps ∧ Declares (.leaf (.const name value)) [] ps := by
  obtain ⟨ps, hphrase, hline⟩ := exists_line_phrase hvalue h
  refine ⟨_, .join (.word (isIdentifier_of_isConstant hname)) .equals hline, ?_⟩
  exact declares_constant hname hvalue hphrase (by simp [hmember])
    fun hc => (atStructClass_eq hc).trans ((definesStruct_eq hline).symm.trans hstruct)

theorem exists_typeMember {name value : String} (hname : isConstant name = true)
    (h : isCaptured stopsNever "\n" value = true) (hmember : isTypeMember value = true) :
    ∃ ps, LineRow (name ++ " = " ++ value) ps ∧ Declares (.leaf (.typeMember name value)) [] ps := by
  obtain ⟨cs, hcs⟩ := exists_cons_of_isTypeMember hmember
  have hvalue : value ≠ "" := by
    rintro rfl
    cases hcs
  obtain ⟨ps, hphrase, hline⟩ := exists_line_phrase hvalue h
  refine ⟨_, .join (.word (isIdentifier_of_isConstant hname)) .equals hline, ?_⟩
  refine declares_constant hname hvalue hphrase (if_pos hmember) fun {c qs} hc => ?_
  obtain ⟨word, k, ks, hks, rfl⟩ := hline.exists_wordKind hcs (by decide) (by decide)
  have hkind : c.kind = wordKind word := by
    rw [hc.kind_eq, nextKind, kindsOf_append, hks]
    rfl
  simp [Cursor.atStructClass, eat, hkind, wordKind_ne_const]

/-! ## Calls -/

theorem exists_callWord {word : String} (h : isCallWord word = true) :
    LineRow word [.token .name word] := by
  rw [isCallWord, beq_iff_eq] at h
  obtain ⟨t, ts, hts, ht, hmore⟩ := List.map_eq_cons_iff.1 h
  obtain ⟨x, us, rfl, hx, hnil⟩ := List.map_eq_cons_iff.1 hmore
  obtain rfl := List.map_eq_nil_iff.1 hnil
  rw [Prod.mk.injEq] at ht hx
  have hlength : word.toList.length ≤ ([t].flatMap (·.text.toList)).length := by simp [ht.2]
  have hrow := row_of_tokens [t] (by decide) rfl hts hx.2 hlength
    (by simp [ht.1, TokenKind.isQuiet])
    (by simp [ht.1, depthAfter, TokenKind.opensGroup, TokenKind.closesGroup])
  have hcuts : Cuts ['\n'] '\x00' ([t].map Token.piece) :=
    (cuts_of_tokens rfl hts hx.2 hlength).2
  simp only [List.map_cons, List.map_nil, Token.piece, ht.1, ht.2] at hrow hcuts
  refine ⟨hrow, fun hprevious => ?_, rfl⟩
  exact hcuts.swap (by decide) (by decide) (fun _ => rfl) (hprevious.trans (by decide)) (by simp)

/-- The first token of an argument is what a cursor in front of the argument sees. -/
theorem Argument.exists_firstToken {arg : String} {ps : List Piece} (h : Argument arg ps) :
    ∃ t, firstToken arg = some t ∧ ∀ {c : Cursor} {qs : List Piece}, c.Faces (ps ++ qs) →
      c.kind = t.kind ∧ c.text = t.text := by
  have hcuts : Cuts [] '\x00' (ps ++ [.mark ")"]) :=
    (h.cuts rfl (by decide) (by decide)).append (.mark (by decide) .nil)
  have htokens : (TokenList.ofText (arg ++ ")")).tokens = tokensFrom .origin (ps ++ [.mark ")"]) :=
    tokens_ofText (by simp [h.chars]) hcuts
  obtain ⟨t, ts, hts, -, -⟩ :=
    exists_head_of_tokensFrom (h.kindsOf_ne_nil h.nonempty) .origin
  refine ⟨t, by rw [firstToken, htokens, tokensFrom_append, hts]; rfl, fun {c qs} hc => ?_⟩
  have hpieces := hc.map_piece
  have hfirst : tokenPieces (ps ++ qs) = t.piece :: (ts.map Token.piece ++ tokenPieces qs) := by
    rw [tokenPieces, List.filter_append, ← tokenPieces, ← map_piece_tokensFrom .origin ps, hts]
    rfl
  rw [hfirst] at hpieces
  obtain ⟨u, us, hrest, hu, -⟩ := List.map_eq_cons_iff.1 hpieces
  obtain ⟨hkind, htext⟩ := Piece.token.inj hu
  refine ⟨?_, ?_⟩
  · rw [kind_eq_headKind, hrest]
    exact hkind
  · simpa [Cursor.text, peek, nth, hrest] using htext

/-- What stands behind the word of a call: the end of the line, or the first argument. -/
def Cursor.BeforeArguments (c : Cursor) (args : List String) : Prop :=
  match args with
  | [] => c.nthKind 1 = .newline
  | arg :: _ => ∃ t, firstToken arg = some t ∧ c.nthKind 1 = t.kind ∧ (c.nth 1).text = t.text ∧
      endsCapture endsArgument t.kind = false

section Plain

variable {c : Cursor} {args : List String}

theorem otherCall_of_beforeArguments (h : c.BeforeArguments args)
    (hlast : args ≠ [] ∨ c.text.toList.getLast? ≠ some '!') (b : Body) :
    c.otherCall b = c.call b := by
  have hhelper : c.atHelper = false := by
    cases args with
    | nil => simp [atHelper, hlast.resolve_left (not_not_intro rfl)]
    | cons arg args =>
      obtain ⟨t, -, hkind, -, hends⟩ := h
      simp only [endsCapture, Bool.or_eq_false_iff] at hends
      simp [atHelper, hkind, hends]
  rw [otherCall, hhelper]
  rfl

/-- A visibility word with arguments that declare nothing. -/
theorem visibilityWord_of_beforeArguments (h : c.BeforeArguments args)
    (hfirst : (args.head?.bind firstToken).any (fun t =>
      t.kind != .defWord && !(t.kind == .name && (AttributeKind.ofWord? t.text).isSome)) = true)
    (v : Visibility) (b : Body) : c.visibilityWord v b = c.call b := by
  cases args with
  | nil => cases hfirst
  | cons arg args =>
    obtain ⟨t, ht, hkind, htext, hends⟩ := h
    simp only [List.head?_cons, Option.bind_some, ht, Option.any_some, Bool.and_eq_true,
      bne_iff_ne, Bool.not_eq_true', Bool.and_eq_false_iff] at hfirst
    simp only [endsCapture, Bool.or_eq_false_iff] at hends
    unfold visibilityWord
    rw [hkind, htext, hends.1.1.1, hends.1.1.2, beq_false_of_ne hfirst.1]
    obtain hname | hword := hfirst.2
    · simp [hname]
    · have hnone : AttributeKind.ofWord? t.text = none := by simpa using hword
      simp [hnone]

theorem nthKind_ne_of_beforeArguments (h : c.BeforeArguments args) {k : TokenKind}
    (hbreak : k ≠ .newline)
    (hk : ∀ t, args.head?.bind firstToken = some t → endsCapture endsArgument t.kind = false →
      t.kind ≠ k) : c.nthKind 1 ≠ k := by
  cases args with
  | nil => exact fun heq => hbreak (heq.symm.trans h)
  | cons arg args =>
    obtain ⟨t, ht, hkind, -, hends⟩ := h
    rw [hkind]
    exact hk t ht hends

/-- The words of fields start a call where no symbol follows. -/
theorem ne_symbol_of_beforeArguments (h : c.BeforeArguments args)
    (hfirst : (args.head?.bind firstToken).all (fun t => t.kind != .symbol) = true) :
    c.nthKind 1 ≠ .symbol := by
  refine nthKind_ne_of_beforeArguments h (by decide) fun t ht _ => ?_
  simpa [ht] using hfirst

theorem nameStatement_of_isPlainCall (hplain : isPlainCall c.text args = true)
    (h : c.BeforeArguments args) (b : Body) : c.nameStatement b = c.call b := by
  have hother (hlast : c.text.toList.getLast? ≠ some '!') : c.otherCall b = c.call b :=
    otherCall_of_beforeArguments h (.inr hlast) b
  unfold nameStatement
  split
  case h_1 | h_5 | h_6 | h_7 | h_8 | h_9 | h_10 | h_11 =>
    next htext =>
      rw [htext] at hplain
      cases hplain
  case h_2 | h_3 | h_4 =>
    next htext =>
      rw [htext] at hplain
      exact visibilityWord_of_beforeArguments h hplain _ b
  case h_12 | h_13 =>
    next htext =>
      rw [htext] at hplain hother
      rw [beq_false_of_ne (ne_symbol_of_beforeArguments h hplain)]
      exact hother (by decide)
  case h_14 =>
    next htext =>
      rw [htext] at hother
      have hdo : c.nthKind 1 ≠ .doWord := nthKind_ne_of_beforeArguments h (by decide)
        fun t _ hends => ne_of_endsCapture hends rfl
      rw [beq_false_of_ne hdo]
      exact hother (by decide)
  case h_15 =>
    refine otherCall_of_beforeArguments h ?_ b
    simpa [isPlainCall] using hplain

end Plain

/-- A call without a block. -/
theorem call_of_callArguments {c c' : Cursor} {args : List String}
    (hread : c.advance.callArguments = (args, c')) (hkind : c'.kind = .newline) (b : Body) :
    c.call b = .declares (.leaf (.send c.text args)) c.peek.start b c' := by
  have hend : c'.endStatement = c' := endStatement_of_kind (by rw [hkind]; rfl)
  simp [Cursor.call, hread, hkind, hend]

theorem exists_send {word : String} {args : List String} (hword : isCallWord word = true)
    (hplain : isPlainCall word args = true) (hargs : areArguments args = true) :
    ∃ ps, LineRow (if args.isEmpty then word else word ++ " " ++ Signature.commaSeparated args) ps ∧
      Declares (.leaf (.send word args)) [] ps := by
  have hrow := exists_callWord hword
  cases args with
  | nil =>
    refine ⟨_, hrow, fun {c qs} comments hc => ?_⟩
    have htext : c.text = word := hc.text
    have hnext : c.BeforeArguments [] := (nthKind_succ c 0).trans hc.advance.kind
    obtain ⟨hstart, hname⟩ := statement_of_name hc.kind { comments }
    obtain ⟨c', hread, hc'⟩ := hc.advance.callArguments .nil rfl (by simp [markKind])
      (by rw [hc.advance.kind]; decide)
    refine ⟨hstart, c.peek.start, c', ?_, hc'⟩
    rw [hname, nameStatement_of_isPlainCall (htext ▸ hplain) hnext,
      call_of_callArguments hread hc'.kind, htext]
  | cons arg args =>
    obtain ⟨pss, hpss, hline, hparen⟩ := exists_arguments hargs
    refine ⟨_, .join hrow.toPieceRow .blank hline, fun {c qs} comments hc => ?_⟩
    have htext : c.text = word := hc.text
    have hkind : c.kind = .name := hc.kind
    simp only [List.cons_append, List.nil_append] at hc
    have hnext : c.BeforeArguments (arg :: args) := by
      cases hpss with
      | @cons _ ps _ pss harg _ =>
        obtain ⟨t, ht, hfirst⟩ := harg.exists_firstToken
        obtain ⟨more, hmore⟩ := commaRow_cons ps pss
        have hbehind := hc.advance.blank
        rw [hmore, List.append_assoc] at hbehind
        obtain ⟨hk, hw⟩ := hfirst hbehind
        refine ⟨t, ht, (nthKind_succ c 0).trans hk, (congrArg Token.text (nth_succ c 0)).trans hw, ?_⟩
        rw [← hk, hbehind.kind_eq]
        exact harg.toPhrase.endsCapture_nextKind (harg.kindsOf_ne_nil harg.nonempty) _
    obtain ⟨hstart, hname⟩ := statement_of_name hkind { comments }
    obtain ⟨c', hread, -, hc'⟩ := callArguments_of_word hpss hparen hc
    refine ⟨hstart, c.peek.start, c', ?_, hc'⟩
    rw [hname, nameStatement_of_isPlainCall (htext ▸ hplain) hnext,
      call_of_callArguments hread hc'.kind, htext]

end StubMerge
