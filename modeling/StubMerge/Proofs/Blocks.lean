import StubMerge.Proofs.Calls

/-!
# Printed lines

A printed text is a row of lines, each with a blank twice for every level in front. A `Block` is a
row of lines in pieces. The scanner cuts it whatever stands behind it, and since every line is
settled and no line starts with a dot, the layout takes every line break for the end of a statement
(`significant_of_block`).
-/

namespace StubMerge

open Cursor

/-! ## Tokens that the layout keeps -/

/-- The layout keeps all of the tokens, where no bracket is open and nothing wants more. -/
structure Kept (ts : List Token) : Prop where
  /-- They do not make a dot out of what follows them. -/
  undotted : ∀ {later : List Token}, goesOnWithDot later = false →
    goesOnWithDot (ts ++ later) = false
  keeps : ∀ {last : Option TokenKind} {later : List Token}, last.any TokenKind.wantsMore = false →
    goesOnWithDot later = false → ∃ last' : Option TokenKind,
      last'.any TokenKind.wantsMore = false ∧
        significantFrom 0 last (withDots (ts ++ later))
          = ts ++ significantFrom 0 last' (withDots later)

namespace Kept

theorem nil : Kept [] where
  undotted h := h
  keeps hlast _ := ⟨_, hlast, rfl⟩

theorem append {ts us : List Token} (ht : Kept ts) (hu : Kept us) : Kept (ts ++ us) where
  undotted h := by
    rw [List.append_assoc]
    exact ht.undotted (hu.undotted h)
  keeps hlast h := by
    obtain ⟨last', hlast', hts⟩ := ht.keeps hlast (hu.undotted h)
    obtain ⟨last'', hlast'', hus⟩ := hu.keeps hlast' h
    exact ⟨last'', hlast'', by rw [List.append_assoc, hts, hus, List.append_assoc]⟩

/-- A line break where the line is settled. -/
theorem significantFrom_newline {last : Option TokenKind} {x : Token} {later : List Token}
    (hx : x.kind = .newline) (hlast : last.any TokenKind.wantsMore = false)
    (h : goesOnWithDot later = false) : significantFrom 0 last (withDots (x :: later))
      = x :: significantFrom 0 (some .newline) (withDots later) := by
  rw [withDots_cons, significantFrom, if_neg (by simp [isIdle, hlast, h]), hx]
  rfl

/-- A line without anything in it. -/
theorem newline {x : Token} (hx : x.kind = .newline) : Kept [x] where
  undotted h := by simpa [goesOnWithDot, hx] using h
  keeps hlast h := ⟨some .newline, rfl, significantFrom_newline hx hlast h⟩

theorem comment {t x : Token} (ht : t.kind = .comment) (hx : x.kind = .newline) : Kept [t, x] where
  undotted _ := by simp [goesOnWithDot, ht]
  keeps {last later} hlast h := by
    refine ⟨some .newline, rfl, ?_⟩
    rw [List.cons_append, withDots_cons, significantFrom, if_neg (by simp [isIdle, ht]), ht,
      show depthAfter 0 .comment = 0 from rfl, List.cons_append, List.nil_append,
      significantFrom_newline hx rfl h]
    rfl

/-- Where there are no line breaks and no comments nothing is left out. -/
theorem significantFrom_quiet {depth : Nat} {last : Option TokenKind} {ts : List Token}
    (h : (ts.map Token.kind).all TokenKind.isQuiet = true) (later : List Token) :
    significantFrom depth last (withDots (ts ++ later))
      = ts ++ significantFrom ((ts.map Token.kind).foldl depthAfter depth)
          ((ts.map Token.kind).getLast?.or last) (withDots later) := by
  induction ts generalizing depth last with
  | nil => rfl
  | cons t ts ih =>
    rw [List.map_cons, List.all_cons, Bool.and_eq_true] at h
    have hidle : isIdle depth last t (goesOnWithDot (ts ++ later)) = false := by
      have hkind : t.kind ≠ .newline ∧ t.kind ≠ .comment := by
        constructor
        all_goals intro hk; simp [hk, TokenKind.isQuiet] at h
      simp [isIdle, hkind]
    rw [List.cons_append, withDots_cons, significantFrom, hidle, if_neg (by simp), ih h.2]
    simp only [List.map_cons, List.foldl_cons, List.getLast?_cons, List.cons_append]
    cases (ts.map Token.kind).getLast? <;> rfl

/-- A line with something to say. -/
theorem line {ts : List Token} {x : Token} (hx : x.kind = .newline)
    (hquiet : (ts.map Token.kind).all TokenKind.isQuiet = true)
    (hlevel : (ts.map Token.kind).foldl depthAfter 0 = 0)
    (hsettled : (ts.map Token.kind).getLast?.any (fun k => !k.wantsMore) = true)
    (hdot : headKind ts ≠ .dot) : Kept (ts ++ [x]) where
  undotted {later} _ := by
    cases ts with
    | nil => cases hsettled
    | cons t ts =>
      have hline : t.kind ≠ .newline := by
        intro hk
        simp [hk, TokenKind.isQuiet] at hquiet
      simpa [goesOnWithDot, hline, headKind] using hdot
  keeps {last later} _ h := by
    refine ⟨some .newline, rfl, ?_⟩
    have hlast : ((ts.map Token.kind).getLast?.or last).any TokenKind.wantsMore = false := by
      cases hk : (ts.map Token.kind).getLast? with
      | none => simp [hk] at hsettled
      | some k => simpa [hk] using hsettled
    rw [List.append_assoc, significantFrom_quiet hquiet, hlevel, List.cons_append, List.nil_append,
      significantFrom_newline hx hlast h, List.append_assoc]
    rfl

end Kept

/-! ## Blocks -/

/-- What stands in front of a line. -/
def indentation (level : Nat) : List Piece := List.replicate (2 * level) .blank

theorem charsOf_replicate_blank (n : Nat) :
    charsOf (List.replicate n .blank) = List.replicate n ' ' := by
  induction n with
  | zero => rfl
  | succ n ih => rw [List.replicate_succ, charsOf_blank, ih, List.replicate_succ]

@[simp] theorem charsOf_indentation (level : Nat) :
    charsOf (indentation level) = List.replicate (2 * level) ' ' := charsOf_replicate_blank _

theorem Cuts.indented {rest : List Char} {previous : Char} {ps : List Piece} (level : Nat)
    (h : ∀ {c : Char}, endsValue c = false → Cuts rest c ps) (hprevious : endsValue previous = false) :
    Cuts rest previous (indentation level ++ ps) := by
  unfold indentation
  induction 2 * level generalizing previous with
  | zero => exact h hprevious
  | succ n ih => exact .blank (ih rfl)

theorem tokensFrom_indentation (p : Position) (level : Nat) (ps : List Piece) :
    ∃ q, tokensFrom p (indentation level ++ ps) = tokensFrom q ps := by
  unfold indentation
  induction 2 * level generalizing p with
  | zero => exact ⟨p, rfl⟩
  | succ n ih => exact ih _

theorem Cursor.Faces.indented {c : Cursor} {level : Nat} {ps : List Piece}
    (h : c.Faces (indentation level ++ ps)) : c.Faces ps := by
  obtain ⟨p, hp⟩ := h.tokens
  obtain ⟨q, hq⟩ := tokensFrom_indentation p level ps
  exact ⟨h.silent, q, hp.trans hq⟩

/-- Lines in pieces, with the line breaks behind them. -/
structure Block (lines : List String) (ps : List Piece) : Prop where
  /-- They are the pieces of the lines. -/
  chars : charsOf ps = lines.flatMap fun line => line.toList ++ ['\n']
  /-- The scanner cuts them, whatever follows. -/
  cuts : ∀ {rest : List Char} {previous : Char}, endsValue previous = false → Cuts rest previous ps
  /-- A symbol could follow them. -/
  ends : ∀ {previous : Char}, endsValue previous = false → endsValue (lastOf previous ps) = false
  /-- The layout keeps them. -/
  kept : ∀ p, Kept (tokensFrom p ps)

namespace Block

theorem nil : Block [] [] where
  chars := rfl
  cuts _ := .nil
  ends h := h
  kept _ := .nil

theorem append {lines more : List String} {ps qs : List Piece} (hp : Block lines ps)
    (hq : Block more qs) : Block (lines ++ more) (ps ++ qs) where
  chars := by rw [charsOf_append, hp.chars, hq.chars, List.flatMap_append]
  cuts h := (hp.cuts h).append (hq.cuts (hp.ends h))
  ends h := by
    rw [lastOf, charsOf_append, getLastD_append]
    exact hq.ends (hp.ends h)
  kept p := by
    rw [tokensFrom_append]
    exact (hp.kept p).append (hq.kept _)

/-- A line is a block if the scanner cuts it in front of its line break and the layout keeps it. -/
theorem of_line {level : Nat} {text : String} {ps : List Piece} (hchars : charsOf ps = text.toList)
    (hcuts : ∀ {previous : Char} {ds : List Char}, endsValue previous = false →
      Cuts ('\n' :: ds) previous ps)
    (hkept : ∀ p, Kept (tokensFrom p (ps ++ [.mark "\n"]))) :
    Block [Print.line level text] (indentation level ++ (ps ++ [.mark "\n"])) where
  chars := by simp [Print.line, hchars]
  cuts h := .indented level (fun hc => (hcuts hc).append (.mark (by decide) .nil)) h
  ends _ := by
    rw [lastOf, ← List.append_assoc, charsOf_append, getLastD_append]
    rfl
  kept p := by
    obtain ⟨q, hq⟩ := tokensFrom_indentation p level (ps ++ [.mark "\n"])
    rw [hq]
    exact hkept q

theorem line {text : String} {ps : List Piece} (h : LineRow text ps) (hdot : nextKind ps ≠ .dot)
    (level : Nat) : Block [Print.line level text] (indentation level ++ (ps ++ [.mark "\n"])) := by
  refine of_line h.chars h.cutsLine fun p => ?_
  rw [tokensFrom_append]
  refine .line rfl ?_ ?_ ?_ ?_
  · rw [map_kind_tokensFrom]
    exact h.quiet
  · rw [map_kind_tokensFrom]
    exact h.level 0
  · rw [map_kind_tokensFrom]
    exact h.settled
  · rwa [headKind_tokensFrom]

/-- An empty line. -/
theorem empty : Block [""] [.mark "\n"] where
  chars := rfl
  cuts _ := .mark (by decide) .nil
  ends _ := rfl
  kept _ := .newline rfl

end Block

/-- The text behind the mark of a printed comment. -/
def commentBody (text : String) : String := if text.isEmpty then "" else " " ++ text

theorem Block.comment {text : String} (h : isCommentLine text = true) (level : Nat) :
    Block [Print.comment level text]
      (indentation level ++ ([.comment (commentBody text)] ++ [.mark "\n"])) := by
  have htext : (if text.isEmpty then "#" else "# " ++ text) = "#" ++ commentBody text := by
    unfold commentBody
    split
    · rfl
    · exact String.toList_inj.1 (by simp)
  have hbreak : '\n' ∉ (commentBody text).toList := by
    simp only [isCommentLine, Bool.and_eq_true, Bool.not_eq_true', List.contains_eq_mem,
      decide_eq_false_iff_not] at h
    unfold commentBody
    split
    · simp
    · simpa using h.1
  rw [Print.comment, htext]
  refine of_line (by simp [Piece.comment]) (fun _ => .comment hbreak rfl fun _ => .nil) fun p => ?_
  exact .comment rfl rfl

/-- The tokens of printed lines, none of which the layout leaves out. -/
theorem significant_of_block {lines : List String} {ps : List Piece} (h : Block lines ps) :
    (TokenList.ofText (String.join (lines.map (· ++ "\n")))).significant.tokens
      = tokensFrom .origin ps := by
  have hchars : charsOf ps = (String.join (lines.map (· ++ "\n"))).toList := by
    simp [h.chars, List.flatMap_map]
  have hnone : (none : Option TokenKind).any TokenKind.wantsMore = false := rfl
  have hend : goesOnWithDot [] = false := rfl
  obtain ⟨last, -, hkeeps⟩ := (h.kept .origin).keeps hnone hend
  rw [TokenList.significant, tokens_ofText hchars (h.cuts (by decide))]
  simpa [withDots, significantFrom] using hkeeps

/-! ## Enumerated values -/

/-- The lines of enumerated values, up to the word that ends their block. -/
def enumPieces (level : Nat) : List String → List Piece
  | [] => indentation level ++ [.word "end"]
  | name :: names => indentation (level + 1)
      ++ (([.word name] ++ ([.blank, .mark "=", .blank] ++ [.word "new"])) ++ [.mark "\n"])
      ++ enumPieces level names

theorem enumPieces_block {names : List String} (h : names.all isConstant = true) (level : Nat) :
    Block (names.map (fun name => Print.line (level + 1) (name ++ " = new")) ++
        [Print.line level "end"])
      (enumPieces level names ++ [.mark "\n"]) := by
  induction names with
  | nil =>
    have hend : LineRow "end" [.word "end"] := .word rfl
    rw [enumPieces, List.append_assoc]
    exact .line hend (by decide) level
  | cons name names ih =>
    rw [List.all_cons, Bool.and_eq_true] at h
    have hnew : LineRow "new" [.word "new"] := .word rfl
    have hrow := LineRow.join (.word (isIdentifier_of_isConstant h.1)) .equals hnew
    rw [String.append_assoc, show " = " ++ "new" = " = new" from rfl] at hrow
    have hconst : nextKind (.word name :: [.blank, .mark "=", .blank, .word "new"]) ≠ .dot := by
      rw [nextKind_word, identifierKind_of_isConstant h.1]
      decide
    rw [enumPieces, List.append_assoc]
    exact (Block.line hrow hconst (level + 1)).append (ih h.2)

theorem Cursor.Faces.enumNames {c : Cursor} {level : Nat} {names : List String} {qs : List Piece}
    (hnames : names.all isConstant = true) (h : c.Faces (enumPieces level names ++ qs)) :
    ∃ c', c.enumNames = (names, c') ∧ c'.Faces qs := by
  induction names generalizing c with
  | nil =>
    rw [enumPieces, List.append_assoc] at h
    have hend : c.kind = .endWord := h.indented.kind
    refine ⟨c.advance, ?_, h.indented.advance⟩
    rw [Cursor.enumNames]
    simp [hend]
  | cons name names ih =>
    rw [List.all_cons, Bool.and_eq_true] at hnames
    simp only [enumPieces, List.append_assoc] at h
    have hc := h.indented
    simp only [List.cons_append, List.nil_append] at hc
    have hnew : Phrase stopsNever "new" [.word "new"] := .single rfl (.word rfl)
    have hkind : c.kind = .const := hc.kind.trans (identifierKind_of_isConstant hnames.1)
    have hsecond : c.nthKind 1 = .equals := (nthKind_succ c 0).trans hc.advance.blank.kind
    have hskip : c.skip 2 = c.advance.advance := skip_succ (by simp [hkind]) 1
    obtain ⟨c₁, hcapture, hc₁⟩ := hc.advance.blank.advance.blank.capture hnew rfl
    have hall : c.advance.advance.captureAll = ("new", c₁) := hcapture
    have hbreak : c₁.kind = .newline := hc₁.kind
    obtain ⟨c', hread, hc'⟩ := ih hnames.2 hc₁.advance
    refine ⟨c', ?_, hc'⟩
    have hmore : c₁.enumNames = (names, c') := by
      rw [Cursor.enumNames]
      simp [hbreak, hread]
    rw [Cursor.enumNames]
    simp [hkind, hsecond, hskip, hall, hmore, hc.text]

theorem exists_enums {names : List String} (h : names.all isConstant = true) (level : Nat) :
    ∃ ps, Block (Print.leaf level (.enums names)) (indentation level ++ (ps ++ [.mark "\n"])) ∧
      Declares (.leaf (.enums names)) [] ps := by
  have hdo : LineRow "do" [.word "do"] := .word rfl
  have hopen := LineRow.join (.word (rfl : isIdentifier "enums" = true)) .blank hdo
  have hblock := (Block.line hopen (by decide) level).append (enumPieces_block h level)
  refine ⟨.word "enums" :: .blank :: .word "do" :: .mark "\n" :: enumPieces level names, ?_,
    fun {c qs} comments hc => ?_⟩
  · simpa [Print.leaf, List.append_assoc] using hblock
  · have hkind : c.kind = .name := hc.kind
    obtain ⟨hstart, hname⟩ := statement_of_name hkind { comments }
    simp only [List.cons_append] at hc
    have hsecond : c.nthKind 1 = .doWord := (nthKind_succ c 0).trans hc.advance.blank.kind
    have hskip : c.skip 2 = c.advance.advance := skip_succ (by simp [hkind]) 1
    have hbreak : c.advance.advance.kind = .newline := hc.advance.blank.advance.kind
    obtain ⟨c', hread, hc'⟩ := hc.advance.blank.advance.advance.enumNames h
    have hnames : c.advance.advance.enumNames = (names, c') := by
      rw [Cursor.enumNames]
      simp [hbreak, hread]
    refine ⟨hstart, c.peek.start, c', ?_, hc'⟩
    rw [hname, nameStatement, hc.text]
    simp [hsecond, enumBlock, hskip, hnames]

end StubMerge
