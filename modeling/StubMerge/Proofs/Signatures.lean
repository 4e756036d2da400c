import StubMerge.Proofs.Captures
import StubMerge.Proofs.Rereading
import StubMerge.Proofs.Tiling

/-!
# Signatures are read as they are written

The types of a signature are not analysed. What can be written for one is said by what a capture
does with it: in parentheses it has to give the type back (`isKept`). Nothing else is asked. That
the parenthesis behind the type is seen at all, and is not part of a comment or of a string that was
left open, follows by counting. A capture has the characters of its tokens, blanks apart, and behind
the opening parenthesis there is only the closing one besides (`exists_tokens_of_isKept`).

**Theorem (`read_signatures`).** Signatures that are written in lines of their own above a method
are read without a complaint as the signatures of the method, all of them and in their order. The
line of the method may end the text.
-/

namespace StubMerge

open Cursor

/-! ## Texts in parentheses -/

/-- Whether a capture in parentheses gives a text back as it is. -/
def isKept (stop : TokenKind → Bool) (text : String) : Bool :=
  ((Cursor.ofTokens none (TokenList.ofText ("(" ++ text ++ ")")).significant).advance.capture
    stop).1 == text

/-- The scanner behind an opening parenthesis. -/
def Scanner.inParentheses (text : String) : Scanner := (Scanner.ofText ("(" ++ text ++ ")")).skip 1

theorem Scanner.rest_inParentheses (text : String) :
    (inParentheses text).rest = text.toList ++ [')'] := by
  simp [inParentheses, ofText, skip]

theorem Scanner.previous_inParentheses (text : String) : (inParentheses text).previous = '(' := by
  simp [inParentheses, ofText, skip]

/-- What is to be read behind an opening parenthesis. -/
theorem rest_inParentheses (text : String) :
    (Cursor.ofTokens none (TokenList.ofText ("(" ++ text ++ ")")).significant).advance.rest
      = significantFrom 1 (some .leftParen) (withDots (Scanner.inParentheses text).run.tokens) := by
  have hcuts : Cuts (text.toList ++ [')']) (Scanner.ofText ("(" ++ text ++ ")")).previous
      [.mark "("] := .mark (by decide) .nil
  have hrun := Scanner.run_of_cuts hcuts (by simp [Scanner.ofText])
  have htokens : (TokenList.ofText ("(" ++ text ++ ")")).tokens
      = ⟨.leftParen, "(", .origin, Position.advance .origin ['(']⟩ ::
        (Scanner.inParentheses text).run.tokens := hrun
  simp [Cursor.ofTokens, advance, skip, TokenList.significant, htokens, withDots_cons,
    significantFrom, isIdle, depthAfter, TokenKind.opensGroup]

/-! ## Nothing but the parenthesis is left -/

/-- The characters that are in no token, or in the last one only. -/
def silentChars : List Char := [' ', '\t', '\r', '\\', '\n', '\x00']

theorem IsBetween.count_eq_zero {cs : List Char} (h : IsBetween cs) {y : Char}
    (hy : y ∉ silentChars) : cs.count y = 0 := by
  obtain ⟨gaps, hgaps, rfl⟩ := h
  refine List.count_eq_zero.2 fun hmem => ?_
  obtain ⟨gap, hgap, hygap⟩ := List.mem_flatten.1 hmem
  have hisGap := hgaps gap hgap
  simp only [isGap, Bool.or_eq_true, beq_iff_eq] at hisGap
  obtain ((rfl | rfl) | rfl) | rfl := hisGap
  all_goals exact hy (by simp_all [silentChars])

theorem Covers.occurrences_eq {p : Position} {cs : List Char} {ts : List Token} (h : Covers p cs ts)
    {y : Char} (hy : y ∉ silentChars) : occurrences y ts = cs.count y := by
  induction h with
  | nil => simp [occurrences]
  | cons hgap _ _ _ ih =>
    rw [occurrences_cons, ih, List.count_append, List.count_append, hgap.count_eq_zero hy,
      Nat.zero_add]

/-- Every character that is not silent is in a token. -/
theorem Scanner.occurrences_run (s : Scanner) {y : Char} (hy : y ∉ silentChars) :
    occurrences y s.run.tokens = s.rest.count y := by
  have hcovers := s.covers_run.occurrences_eq hy
  have hclose : s.run.close.text.toList.count y = 0 := by
    refine List.count_eq_zero.2 fun hmem => hy ?_
    rcases s.close_run.2 with h | h <;> simp_all [silentChars]
  rw [TokenList.toList, occurrences_append, occurrences_cons, hclose] at hcovers
  simpa [occurrences] using hcovers

/-- A token does not start with a blank, and one that starts with a closing parenthesis is one. -/
theorem head_of_cuts {rest : List Char} {previous : Char} {ps : List Piece}
    (h : Cuts rest previous ps) (p : Position) : ∀ t ∈ tokensFrom p ps,
      ∃ c cs, t.text.toList = c :: cs ∧ c ≠ ' ' ∧ (c = ')' → cs = []) := by
  induction h generalizing p with
  | nil => simp [tokensFrom]
  | gap _ _ ih => exact ih _
  | @token previous c cs kind text ps htext hgap hlex _ _ ih =>
    refine List.forall_mem_cons.2 ⟨⟨c, cs, htext, ?_, ?_⟩, ih _⟩
    · rintro rfl
      simp [gapLength] at hgap
    · rintro rfl
      exact List.length_eq_zero_iff.1 (congrArg Prod.snd hlex).symm

/-- Tokens with one closing parenthesis and nothing else but blanks in them are that parenthesis. -/
theorem eq_paren_of_occurrences {ts : List Token}
    (hts : ∀ t ∈ ts, ∃ c cs, t.text.toList = c :: cs ∧ c ≠ ' ' ∧ (c = ')' → cs = []))
    (hone : occurrences ')' ts = 1) (hnone : ∀ y, y ≠ ' ' → y ≠ ')' → occurrences y ts = 0) :
    ∃ x, ts = [x] ∧ x.text = ")" := by
  have hparen : ∀ t ∈ ts, t.text = ")" := by
    intro t ht
    obtain ⟨c, cs, htext, hblank, hparen⟩ := hts t ht
    have hc : c = ')' := by
      by_contra hne
      have hzero := hnone c hblank hne
      rw [occurrences, List.count_eq_zero] at hzero
      exact hzero (List.mem_flatMap.2 ⟨t, ht, by simp [htext]⟩)
    rw [hparen hc, hc] at htext
    exact String.toList_inj.1 htext
  have hlength : occurrences ')' ts = ts.length := by
    clear hone hnone hts
    induction ts with
    | nil => rfl
    | cons t ts ih =>
      rw [occurrences_cons, hparen t (by simp), ih fun u hu => hparen u (by simp [hu]),
        List.length_cons]
      exact Nat.add_comm _ _
  obtain ⟨x, rfl⟩ := List.length_eq_one_iff.1 (hlength.symm.trans hone)
  exact ⟨x, rfl, hparen x (by simp)⟩

/-- If the first tokens have all characters in front of a closing parenthesis, blanks apart, what is
left of the tokens is the parenthesis. -/
theorem drop_eq_paren {ts : List Token} {n : Nat} {cs : List Char}
    (hts : ∀ t ∈ ts, ∃ c cs, t.text.toList = c :: cs ∧ c ≠ ' ' ∧ (c = ')' → cs = []))
    (htaken : ∀ y, y ≠ ' ' → occurrences y (ts.take n) = cs.count y)
    (hparen : occurrences ')' ts = (cs ++ [')']).count ')')
    (hle : ∀ y, occurrences y ts ≤ (cs ++ [')']).count y) :
    ∃ x, ts.drop n = [x] ∧ x.text = ")" := by
  have hsplit (y : Char) := occurrences_append y (ts.take n) (ts.drop n)
  simp only [List.take_append_drop] at hsplit
  refine eq_paren_of_occurrences (fun t ht => hts t (List.mem_of_mem_drop ht)) ?_ ?_
  · have hsum := hsplit ')'
    rw [htaken ')' (by decide), hparen, List.count_append] at hsum
    exact (Nat.add_left_cancel hsum).symm
  · intro y hblank hy
    have hbound := hle y
    rw [hsplit y, htaken y hblank, List.count_append, List.count_singleton,
      if_neg (by simpa using Ne.symm hy)] at hbound
    omega

/-- Where a capture in parentheses gives a text back, it takes all tokens up to the parenthesis, and
none of them was left out. -/
theorem exists_tokens_of_isKept {stop : TokenKind → Bool} {text : String}
    (h : isKept stop text = true) : ∃ ts x,
      (Scanner.inParentheses text).run.tokens = ts ++ [x] ∧ render ts = text ∧ x.text = ")" ∧
      captureLength stop 0 (ts ++ [x]) = ts.length ∧
      significantFrom 1 (some .leftParen) (withDots (ts ++ [x])) = ts ++ [x] := by
  obtain ⟨all, rest, hall, hcuts, htokens⟩ := (Scanner.inParentheses text).exists_pieces
  have hs := Scanner.rest_inParentheses text
  have hcaptured : render ((significantFrom 1 (some .leftParen) (withDots
      (Scanner.inParentheses text).run.tokens)).take (captureLength stop 0 (significantFrom 1
      (some .leftParen) (withDots (Scanner.inParentheses text).run.tokens)))) = text := by
    rw [← rest_inParentheses]
    exact beq_iff_eq.1 h
  rw [htokens] at hcaptured ⊢
  have hparen := (Scanner.inParentheses text).occurrences_run (y := ')') (by decide)
  rw [htokens, hs] at hparen
  have hheads := head_of_cuts hcuts (Scanner.inParentheses text).position
  generalize hts : tokensFrom (Scanner.inParentheses text).position all = ts at *
  generalize hkeeps : significantFrom 1 (some .leftParen) (withDots ts) = kept at hcaptured
  generalize hn : captureLength stop 0 kept = n at hcaptured
  have htaken (y : Char) (hy : y ≠ ' ') : occurrences y (kept.take n) = text.toList.count y := by
    rw [← count_render hy, hcaptured]
  have hle (y : Char) : occurrences y ts ≤ (text.toList ++ [')']).count y := by
    rw [← hts, ← hs, hall, List.count_append]
    exact Nat.le_trans (occurrences_tokensFrom_le y _ all) (Nat.le_add_right _ _)
  -- Neither line breaks nor comments were left out.
  have hkept : ts = kept := by
    have hkeep {y : Char} (hy : y ≠ ' ') (hy' : [')'].count y = 0) :
        occurrences y ts ≤ occurrences y kept := by
      have hsum := occurrences_append y (kept.take n) (kept.drop n)
      have hbound := hle y
      rw [List.take_append_drop, htaken y hy] at hsum
      rw [List.count_append, hy'] at hbound
      omega
    rw [← hkeeps, ← hts]
    refine significantFrom_eq_of_cuts hcuts ?_ ?_
    · rw [hts, hkeeps]
      exact hkeep (by decide) rfl
    · rw [hts, hkeeps]
      exact hkeep (by decide) rfl
  rw [← hkept] at hkeeps hn htaken hcaptured
  obtain ⟨x, hdrop, hx⟩ := drop_eq_paren hheads htaken hparen hle
  have hwhole : ts = ts.take n ++ [x] := by rw [← hdrop, List.take_append_drop]
  refine ⟨ts.take n, x, hwhole, hcaptured, hx, ?_, ?_⟩
  · have hlength := congrArg List.length hdrop
    rw [List.length_drop, List.length_singleton] at hlength
    rw [← hwhole, hn, List.length_take]
    omega
  · rw [← hwhole, hkeeps]

/-- What a capture in parentheses gives back is a phrase. -/
theorem exists_phrase_of_isKept {stop : TokenKind → Bool} {text : String}
    (h : isKept stop text = true) : ∃ ps, Phrase stop text ps := by
  obtain ⟨ts, x, htokens, hrender, hx, hcapture, hkept⟩ := exists_tokens_of_isKept h
  obtain ⟨ps, hchars, hcuts, rfl, -⟩ := exists_pieces_of_render rfl (fun _ _ => rfl)
    (Scanner.rest_inParentheses text) htokens hrender hx
  have hprevious : endsValue (Scanner.inParentheses text).previous = false := by
    rw [Scanner.previous_inParentheses]
    rfl
  have hquiet := (quiet_of_captured 1 hcapture hkept).1
  exact ⟨ps, phrase_of_cuts hprevious (by decide) hchars hcuts hrender hcapture hquiet⟩

/-! ## Signatures above a method -/

/-- Whether a signature is read as it is written. What is captured has to be kept in parentheses,
and no comma may stand in the type of a parameter outside brackets. -/
def Signature.isWritable (s : Signature) : Bool :=
  (s.isOverride || !s.allowIncompatible)
    && s.typeParams.all isIdentifier
    && s.params.all (fun p => isIdentifier p.name && isKept stopsAtComma p.type)
    && s.result.all (isKept stopsNever)
    && s.checked.all (isKept stopsNever)

theorem isCaptured_of_isKept {stop : TokenKind → Bool} {text : String}
    (h : isKept stop text = true) : isCaptured stop ")" text = true := by
  obtain ⟨ps, hps⟩ := exists_phrase_of_isKept h
  exact hps.isCaptured_paren

theorem Signature.isPrintable_of_isWritable {s : Signature} (h : s.isWritable = true) :
    s.isPrintable = true := by
  simp only [isWritable, isPrintable, Bool.and_eq_true, List.all_eq_true, Option.all_eq_true] at h ⊢
  obtain ⟨⟨⟨⟨hoverride, htypes⟩, hparams⟩, hresult⟩, hchecked⟩ := h
  refine ⟨⟨⟨⟨hoverride, htypes⟩, fun p hp => ?_⟩, fun t ht => ?_⟩, fun t ht => ?_⟩
  · exact ⟨(hparams p hp).1, isCaptured_of_isKept (hparams p hp).2⟩
  · exact isCaptured_of_isKept (hresult t ht)
  · exact isCaptured_of_isKept (hchecked t ht)

/-- The pieces of `def f; end`. -/
def methodRow : List Piece := [.word "def", .blank, .word "f", .mark ";", .blank, .word "end"]

theorem statement_of_methodRow {c : Cursor} {qs : List Piece} (signatures : List Signature)
    (h : c.Faces (methodRow ++ qs)) :
    c.kind = .defWord ∧ ∃ c', c'.Faces qs ∧
      c.statement { signatures } = .declares (.leaf (.method { name := "f", signatures }))
        c.peek.start {} c' := by
  have hdef : c.kind = .defWord := h.kind
  have hname : c.advance.kind = .name := h.advance.blank.kind
  have hsecond : c.advance.nthKind 1 = .semicolon :=
    (nthKind_succ _ 0).trans h.advance.blank.advance.kind
  have hread : c.advance.methodName = (some "f", c.advance.advance) := by
    simp [methodName, hname, hsecond, setterMark, h.advance.blank.text]
  obtain ⟨c₁, hparams, hc₁⟩ := Faces.parameters .nil h.advance.blank.advance
  obtain ⟨c₂, hend, hc₂⟩ := hc₁.methodEnd
  refine ⟨hdef, c₂, hc₂, ?_⟩
  have hself : (c.advance.kind == .selfWord && c.advance.nthKind 1 == .dot) = false := by
    rw [hname]
    rfl
  simp only [statement, hdef, method, hself, Bool.false_eq_true, if_false, hread, hparams, hend]

theorem cuts_methodRow {rest : List Char} {previous : Char} (hrest : endsName rest = true) :
    Cuts rest previous methodRow := by
  refine .word (by decide) rfl fun _ => .blank (.word (by decide) rfl fun _ => ?_)
  exact .mark (by decide) (.blank (.word (by decide) hrest fun _ => .nil))

/-- The tokens of lines and of a method below them, none of which the layout leaves out. -/
theorem significant_of_methodRow {lines : List String} {ps es : List Piece} (h : Block lines ps)
    (hes : es = [] ∨ es = [.mark "\n"]) :
    (TokenList.ofText (String.ofList (charsOf (ps ++ (methodRow ++ es))))).significant.tokens
      = tokensFrom .origin (ps ++ (methodRow ++ es)) := by
  have hcuts : Cuts [] '\x00' (ps ++ (methodRow ++ es)) := by
    refine (h.cuts (by decide)).append ?_
    rcases hes with rfl | rfl
    · exact (cuts_methodRow rfl).append .nil
    · exact (cuts_methodRow rfl).append (.mark (by decide) .nil)
  have hlater : ∀ p, goesOnWithDot (tokensFrom p (methodRow ++ es)) = false ∧
      ∀ last, significantFrom 0 last (withDots (tokensFrom p (methodRow ++ es)))
        = tokensFrom p (methodRow ++ es) := by
    intro p
    rcases hes with rfl | rfl
    · exact ⟨rfl, fun _ => rfl⟩
    · exact ⟨rfl, fun _ => rfl⟩
  obtain ⟨hdot, hkept⟩ := hlater (Position.origin.advance (charsOf ps))
  have hnone : (none : Option TokenKind).any TokenKind.wantsMore = false := rfl
  obtain ⟨last, -, hkeeps⟩ := (h.kept .origin).keeps hnone hdot
  rw [TokenList.significant, tokens_ofText (by rw [String.toList_ofList]) hcuts, tokensFrom_append,
    hkeeps, hkept]

/-- Signatures in lines of their own and a method below them are read without a complaint as a
method that has just these signatures, in this order. The last line may end with a line break or
with the text. -/
theorem read_signatures {signatures : List Signature} (h : ∀ s ∈ signatures, s.isWritable = true)
    {ending : String} (hending : ending = "" ∨ ending = "\n") (file : Option String) :
    ∃ location,
      read (String.join (signatures.map (·.text ++ "\n")) ++ "def f; end" ++ ending) file = .ok
          { root := .node {} [.node
              { kind := .leaf (.method { name := "f", signatures }), location := some location } []]
            diagnostics := [] } := by
  have hprintable : signatures.all Signature.isPrintable = true :=
    List.all_eq_true.2 fun s hs => Signature.isPrintable_of_isWritable (h s hs)
  obtain ⟨ps, hblock, hleads⟩ := Draft.exists_signatures hprintable 0
  obtain ⟨es, hes, hchars⟩ : ∃ es, (es = [] ∨ es = [.mark "\n"]) ∧ charsOf es = ending.toList := by
    rcases hending with rfl | rfl
    · exact ⟨[], .inl rfl, rfl⟩
    · exact ⟨[.mark "\n"], .inr rfl, rfl⟩
  have htext : String.join (signatures.map (·.text ++ "\n")) ++ "def f; end" ++ ending
      = String.ofList (charsOf (ps ++ (methodRow ++ es))) := by
    apply String.toList_inj.1
    simp [hblock.chars, hchars, List.flatMap_map, Print.line, methodRow]
  have hfaces : (Cursor.ofTokens file (TokenList.ofText (String.ofList
      (charsOf (ps ++ (methodRow ++ es))))).significant).Faces (ps ++ (methodRow ++ es)) :=
    ⟨rfl, .origin, significant_of_methodRow hblock hes⟩
  obtain ⟨d, c, ⟨b, rfl⟩, hrun, hc⟩ := hleads {} [] [] [] false _ _ hfaces
  obtain ⟨hkind, c', hc', hstatement⟩ := statement_of_methodRow signatures hc
  have hstart : startsStatement c.kind = true := by rw [hkind]; rfl
  have hnext : c'.kind ≠ .comment := by
    rw [hc'.kind_eq]
    rcases hes with rfl | rfl <;> decide
  refine ⟨c'.location c.peek.start, ?_⟩
  rw [htext]
  refine hrun.trans ((Draft.run_declares hstart hstatement hnext).trans ?_)
  rcases hes with rfl | rfl
  · exact Draft.run_eof hc'
  · rw [Draft.run_newline hc'.kind (.inl rfl)]
    exact Draft.run_eof hc'.advance

/-- Two signatures. The first has brackets, braces, commas, and a parenthesis in a string. -/
def tradeSignatures : List Signature :=
  [{ params := [⟨"price", "T.nilable(Integer)"⟩, ⟨"end", "T::Hash[Symbol, \x7b a: String \x7d]"⟩]
     result := some "T.any(A, T.proc.params(x: B).void, \")\")"
     isOverride := true, allowIncompatible := true, isFinal := true
     typeParams := ["U", "class"], checked := some ":never" },
   { isAbstract := true }]

theorem read_tradeSignatures :
    (∀ s ∈ tradeSignatures, s.isWritable = true) ∧ ∃ location,
      read (String.join (tradeSignatures.map (·.text ++ "\n")) ++ "def f; end" ++ "\n") none =
        .ok { root := .node {} [.node
                { kind := .leaf (.method { name := "f", signatures := tradeSignatures })
                  location := some location } []]
              diagnostics := [] } := by
  have hwritable : ∀ s ∈ tradeSignatures, s.isWritable = true := by decide +kernel
  exact ⟨hwritable, read_signatures hwritable (.inr rfl) none⟩

end StubMerge
