import StubMerge.Proofs.Blocks

/-!
# What is printed is read again

Printed lines are read one statement after the other. While the lines of a scope are read, only
the innermost body of the draft changes: `Draft.standing` is the draft with another one. `Leads`
says where reading some pieces takes a draft, whatever stands behind them, so that what is known
of each line adds up to what is known of a file.
-/

namespace StubMerge

open Cursor

namespace Draft

/-! ## Drafts that differ in their innermost body -/

/-- The draft with another innermost body, behind a line break or not. -/
def standing (d : Draft) (level : Level) (afterBreak : Bool) : Draft :=
  { d.setCurrent level with afterBreak }

section Standing

variable (d : Draft) (level level' : Level) (b b' : Bool)

@[simp] theorem current_standing : (d.standing level b).current = level := by
  unfold standing setCurrent current
  cases d.inner <;> rfl

@[simp] theorem setCurrent_standing :
    (d.standing level b).setCurrent level' = d.standing level' b := by
  unfold standing setCurrent
  cases d.inner <;> rfl

@[simp] theorem setBreak_standing :
    ({ d.standing level b with afterBreak := b' } : Draft) = d.standing level b' := rfl

@[simp] theorem setBody_standing (body : Body) :
    (d.standing level b).setBody body = d.standing { level with body } b := by
  rw [setBody, current_standing, setCurrent_standing]

@[simp] theorem add_standing (node : Outline) : (d.standing level b).add node
    = d.standing { level with members := level.members.push node } b := by
  rw [add, current_standing, setCurrent_standing]

@[simp] theorem isEmpty_inner_standing : (d.standing level b).inner.isEmpty = d.inner.isEmpty := by
  unfold standing setCurrent
  cases d.inner <;> rfl

end Standing

/-- A line break says nothing after a statement, and where something is declared. -/
theorem lineBreak_standing {d : Draft} {level : Level} {b : Bool}
    (h : b = false ∨ level.members ≠ #[]) :
    (d.standing level b).lineBreak = d.standing level true := by
  have hidle : ((d.standing level b).afterBreak && (d.standing level b).inner.isEmpty
      && (d.standing level b).root.members.isEmpty) = false := by
    obtain rfl | h := h
    · rfl
    · rw [isEmpty_inner_standing]
      cases hinner : d.inner with
      | nil =>
        have hroot : (d.standing level b).root = level := by simp [standing, setCurrent, hinner]
        simp [hroot, h]
      | cons => simp
  rw [lineBreak, hidle, if_neg (by simp)]
  rfl

/-! ## Steps -/

variable {d : Draft} {level : Level} {b b' : Bool} {c c' : Cursor}

theorem run_of_step {d' : Draft} (hkind : c.kind ≠ .eof) (h : d.step c = .ok (d', c')) :
    d.run c = d'.run c' := by
  rw [run, dif_neg hkind]
  split
  · next he => rw [h] at he; cases he
  · next he =>
    rw [h, Except.ok.injEq, Prod.mk.injEq] at he
    rw [he.1, he.2]

theorem run_newline (hkind : c.kind = .newline) (h : b = false ∨ level.members ≠ #[]) :
    (d.standing level b).run c = (d.standing level true).run c.advance := by
  refine run_of_step (by simp [hkind]) ?_
  simp only [step, hkind, lineBreak_standing h]

theorem run_semicolon (hkind : c.kind = .semicolon) :
    (d.standing level b).run c = (d.standing level false).run c.advance := by
  refine run_of_step (by simp [hkind]) ?_
  simp only [step, hkind, setBreak_standing]

theorem run_comment (hkind : c.kind = .comment) :
    (d.standing level b).run c = (d.standing { level with
      body := { level.body with comments := level.body.comments ++ [c.commentText] } } false).run
        c.advance := by
  refine run_of_step (by simp [hkind]) ?_
  simp only [step, hkind, comment, current_standing, setBody_standing, setBreak_standing]

/-- A statement, by what it was. -/
theorem step_of_startsStatement (hkind : startsStatement c.kind = true) :
    (d.standing level b).step c =
      let s := c.statement level.body
      let d' := d.standing { level with body := s.body } false
      match s.outcome with
      | .nothing => .ok (d', s.cursor)
      | .declares entry =>
        let node := s.cursor.trailingComment (.node entry [])
        .ok (d'.add node.1, node.2)
      | .opens opening => .ok (d'.push opening, s.cursor)
      | .broken => .error .strayVisibility := by
  unfold step
  split
  case h_5 =>
    cases houtcome : (c.statement level.body).outcome <;>
      simp only [current_standing, setBody_standing, setBreak_standing, houtcome]
  all_goals next hk => simp [hk, startsStatement] at hkind

theorem ne_eof_of_startsStatement {k : TokenKind} (h : startsStatement k = true) : k ≠ .eof := by
  rintro rfl
  cases h

section Statements

variable {body body' : Body} {members : Array Outline} {start : Position}

theorem run_nothing (hkind : startsStatement c.kind = true)
    (h : c.statement body = .nothing body' c') :
    (d.standing ⟨body, members⟩ b).run c = (d.standing ⟨body', members⟩ false).run c' := by
  refine run_of_step (ne_eof_of_startsStatement hkind) ?_
  rw [step_of_startsStatement hkind, h]
  rfl

theorem run_declares {kind : Kind} (hkind : startsStatement c.kind = true)
    (h : c.statement body = .declares kind start body' c') (hc' : c'.kind ≠ .comment) :
    (d.standing ⟨body, members⟩ b).run c = (d.standing ⟨{ body' with comments := [] },
      members.push (.node
        { kind, comments := body'.comments, location := some (c'.location start) } [])⟩ false).run
      c' := by
  refine run_of_step (ne_eof_of_startsStatement hkind) ?_
  rw [step_of_startsStatement hkind, h]
  simp [Statement.declares, trailingComment, hc']

theorem run_opens {s : Scope} (hkind : startsStatement c.kind = true)
    (h : c.statement body = .opens s start body' c') :
    (d.standing ⟨body, members⟩ b).run c = ((d.standing ⟨{ body' with comments := [] }, members⟩
      false).push ⟨s, body'.comments, start⟩).run c' := by
  refine run_of_step (ne_eof_of_startsStatement hkind) ?_
  rw [step_of_startsStatement hkind, h]
  rfl

end Statements

/-- A scope that was just opened is empty. -/
theorem push_eq_standing (d : Draft) (opening : Opening) :
    d.push opening = (d.push opening).standing {} d.afterBreak := rfl

/-- The end of a scope in which nothing is left to declare. -/
theorem run_end {opening : Opening} {inner : Level} (hkind : c.kind = .endWord)
    (hc' : c.advance.kind = .newline) (hbody : inner.body = {}) :
    ∃ location, (((d.standing level b).push opening).standing inner b').run c = (d.standing
      { level with
        members := level.members.push (.node
          { kind := .scope opening.scope, comments := opening.comments, location }
          inner.members.toList) } false).run c.advance := by
  refine ⟨some (c.advance.location opening.start), run_of_step (by simp [hkind]) ?_⟩
  have hclosed : c.closeScope opening inner = (.node
      { kind := .scope opening.scope
        comments := opening.comments
        location := some (c.advance.location opening.start) } inner.members.toList, c.advance) := by
    simp [closeScope, endBody, hbody, reportIf, expect_of_kind hkind, trailingComment, hc']
  have hstep : (((d.standing level b).push opening).standing inner b').step c = .ok
      ((d.standing level false).add (c.closeScope opening inner).1,
        (c.closeScope opening inner).2) := by
    simp only [step, hkind]
    rfl
  rw [hstep, hclosed, add_standing]

/-! ## Where reading leads -/

/-- Reading the pieces takes the draft to one that `p` holds of, whatever follows them. -/
def Leads (ps : List Piece) (d : Draft) (p : Draft → Prop) : Prop :=
  ∀ (c : Cursor) (qs : List Piece), c.Faces (ps ++ qs) →
    ∃ d' c', p d' ∧ d.run c = d'.run c' ∧ c'.Faces qs

namespace Leads

variable {ps qs : List Piece} {p q : Draft → Prop}

theorem nil (h : p d) : Leads [] d p := fun c _ hc => ⟨d, c, h, rfl, hc⟩

theorem append (hp : Leads ps d p) (hq : ∀ d', p d' → Leads qs d' q) : Leads (ps ++ qs) d q := by
  intro c rs hc
  rw [List.append_assoc] at hc
  obtain ⟨d₁, c₁, hd₁, hrun₁, hc₁⟩ := hp c _ hc
  obtain ⟨d₂, c₂, hd₂, hrun₂, hc₂⟩ := hq d₁ hd₁ c₁ _ hc₁
  exact ⟨d₂, c₂, hd₂, hrun₁.trans hrun₂, hc₂⟩

theorem indented (h : Leads ps d p) (n : Nat) : Leads (indentation n ++ ps) d p := by
  intro c qs hc
  rw [List.append_assoc] at hc
  exact h c qs hc.indented

end Leads

/-- An empty line says nothing. -/
theorem leads_empty (h : level.members ≠ #[]) :
    Leads [.mark "\n"] (d.standing level b) (· = d.standing level true) :=
  fun c _ hc => ⟨_, c.advance, rfl, run_newline hc.kind (.inr h), hc.advance⟩

/-- The draft has more declarations in its innermost body, the ones of `os`. -/
def Gains (d : Draft) (members os : List Outline) (d' : Draft) : Prop :=
  ∃ found b, d' = d.standing ⟨{}, (members ++ found).toArray⟩ b ∧
    Outline.allUnplaced found = Outline.allUnplaced os

end Draft

/-! ## Single lines -/

theorem exists_faces (ps : List Piece) : ∃ c : Cursor, c.Faces ps :=
  ⟨⟨none, tokensFrom .origin ps, default, .origin, #[]⟩, rfl, .origin, rfl⟩

theorem LineRow.kindsOf_ne_nil {text : String} {ps : List Piece} (h : LineRow text ps) :
    kindsOf ps ≠ [] := fun hnil => by simpa [hnil] using h.settled

/-- What a cursor sees in front of a line is how the line starts. -/
theorem LineRow.nextKind_eq {text : String} {ps qs : List Piece} {c : Cursor} (h : LineRow text ps)
    (hc : c.Faces (ps ++ qs)) : nextKind ps = c.kind := by
  rw [hc.kind_eq, nextKind_append h.kindsOf_ne_nil]

theorem ne_dot_of_startsStatement {k : TokenKind} (h : startsStatement k = true) : k ≠ .dot := by
  rintro rfl
  cases h

theorem commentText_of_faces {c : Cursor} {text : String} {qs : List Piece}
    (h : isCommentLine text = true) (hc : c.Faces (.comment (commentBody text) :: qs)) :
    c.commentText = text := by
  have htrim : Text.trimEnd text = text := by
    simp only [isCommentLine, Bool.and_eq_true, beq_iff_eq] at h
    exact h.2
  have hafter : Text.afterOrAll " " (commentBody text) = text := by
    unfold commentBody
    split
    · next hempty => rw [String.isEmpty_iff.1 hempty]; decide
    · exact Text.afterOrAll_append " " text
  rw [commentText, hc.text, Text.afterOrAll_append, hafter, htrim]

namespace Draft

variable {d : Draft} {members : List Outline} {b : Bool}

/-- Comments wait for the declaration below them. -/
theorem exists_comments {comments : List String} (h : comments.all isCommentLine = true) (n : Nat) :
    ∃ ps, Block (comments.map (Print.comment n)) ps ∧
      ∀ (d : Draft) (members : List Outline) (before : List String) (b : Bool),
        Leads ps (d.standing ⟨{ comments := before }, members.toArray⟩ b) (· = d.standing
          ⟨{ comments := before ++ comments }, members.toArray⟩ (b || !comments.isEmpty)) := by
  induction comments with
  | nil => exact ⟨[], .nil, fun d members before b => .nil (by simp)⟩
  | cons text comments ih =>
    rw [List.all_cons, Bool.and_eq_true] at h
    obtain ⟨ps, hblock, hleads⟩ := ih h.2
    refine ⟨_, (Block.comment h.1 n).append hblock, fun d members before b => ?_⟩
    refine .append (p := (· = d.standing ⟨{ comments := before ++ [text] }, members.toArray⟩ true))
      (.indented (fun c qs hc => ?_) n) ?_
    · refine ⟨_, c.advance.advance, rfl, ?_, hc.advance.advance⟩
      rw [run_comment hc.kind, commentText_of_faces h.1 hc, run_newline hc.advance.kind (.inl rfl)]
    · rintro d' rfl
      simpa using hleads d members (before ++ [text]) true

/-- Signatures wait for the method below them. -/
theorem exists_signatures {signatures : List Signature}
    (h : signatures.all Signature.isPrintable = true) (n : Nat) :
    ∃ ps, Block (signatures.map fun s => Print.line n s.text) ps ∧
      ∀ (d : Draft) (members : List Outline) (comments : List String) (before : List Signature)
        (b : Bool), Leads ps (d.standing ⟨{ comments, signatures := before }, members.toArray⟩ b)
          fun d' => ∃ b', d' = d.standing
            ⟨{ comments, signatures := before ++ signatures }, members.toArray⟩ b' := by
  induction signatures with
  | nil =>
    exact ⟨[], .nil, fun d members comments before b => .nil ⟨b, by rw [List.append_nil]⟩⟩
  | cons s signatures ih =>
    rw [List.all_cons, Bool.and_eq_true] at h
    obtain ⟨ps, hblock, hleads⟩ := ih h.2
    obtain ⟨ss, hline, hread⟩ := exists_signature h.1
    have hdot : nextKind ss ≠ .dot := by
      obtain ⟨c, hc⟩ := exists_faces (ss ++ [])
      rw [hline.nextKind_eq hc, (hread hc).1]
      decide
    refine ⟨_, (Block.line hline hdot n).append hblock, fun d members comments before b => ?_⟩
    refine .append
      (p := (· = d.standing ⟨{ comments, signatures := before ++ [s] }, members.toArray⟩ true))
      (.indented (fun c qs hc => ?_) n) ?_
    · rw [List.append_assoc] at hc
      obtain ⟨hkind, htext, c', hsig, hc'⟩ := hread hc
      obtain ⟨hstart, hname⟩ := statement_of_name hkind { comments, signatures := before }
      have hstatement : c.statement { comments, signatures := before }
          = .nothing { comments, signatures := before ++ [s] } c' := by
        rw [hname, nameStatement, htext]
        simp [signatureLine, hsig]
      refine ⟨_, c'.advance, rfl, ?_, hc'.advance⟩
      rw [run_nothing hstart hstatement, run_newline hc'.kind (.inl rfl)]
    · rintro d' rfl
      simpa using hleads d members comments (before ++ [s]) true

theorem gains_push {e e' : Entry} {cs cs' : List Outline}
    (he : ({ e' with location := none } : Entry) = { e with location := none })
    (hcs : Outline.allUnplaced cs' = Outline.allUnplaced cs) :
    d.Gains members [.node e cs] (d.standing ⟨{}, members.toArray.push (.node e' cs')⟩ b) := by
  refine ⟨[.node e' cs'], b, by rw [List.push_toArray], ?_⟩
  simp only [Outline.allUnplaced, Outline.unplaced, he, hcs]

/-- The line of a declaration adds it. -/
theorem leads_declares {kind : Kind} {signatures : List Signature} {ps : List Piece}
    (h : Declares kind signatures ps) (comments : List String) (location : Option Location) :
    Leads (ps ++ [.mark "\n"]) (d.standing ⟨{ comments, signatures }, members.toArray⟩ b)
      (d.Gains members [.node { kind, comments, location } []]) := by
  intro c qs hc
  rw [List.append_assoc] at hc
  obtain ⟨hstart, start, c', hstatement, hc'⟩ := h comments hc
  have hbreak : c'.kind = .newline := hc'.kind
  refine ⟨_, _, ?_, (run_declares hstart hstatement (by simp [hbreak])).trans
    (run_newline hbreak (.inl rfl)), hc'.advance⟩
  exact gains_push rfl rfl

/-- A scope that ends in the line of its header. -/
theorem leads_closed {s : Scope} {ps : List Piece} (h : Opens s ps) (comments : List String)
    (location : Option Location) :
    Leads ((ps ++ [.mark ";", .blank, .word "end"]) ++ [.mark "\n"])
      (d.standing ⟨{ comments }, members.toArray⟩ b)
      (d.Gains members [.node { kind := .scope s, comments, location } []]) := by
  intro c qs hc
  simp only [List.append_assoc, List.cons_append, List.nil_append] at hc
  obtain ⟨hstart, start, c₁, hstatement, hc₁⟩ := h { comments } rfl hc
  have hend := hc₁.advance.blank
  have hopened : ((d.standing ⟨{}, members.toArray⟩ false).push ⟨s, comments, start⟩).run c₁
      = (((d.standing ⟨{}, members.toArray⟩ false).push ⟨s, comments, start⟩).standing {} false).run
        c₁.advance := by
    rw [push_eq_standing]
    exact run_semicolon hc₁.kind
  obtain ⟨found, hclosed⟩ := run_end (d := d) hend.kind hend.advance.kind (rfl : ({} : Level).body = {})
  refine ⟨_, _, ?_, (run_opens hstart hstatement).trans (hopened.trans
    (hclosed.trans (run_newline hend.advance.kind (.inl rfl)))), hend.advance.advance⟩
  exact gains_push rfl rfl

/-- A scope with a body. -/
theorem leads_opened {s : Scope} {ps qs : List Piece} {n : Nat} {cs : List Outline} (h : Opens s ps)
    (hbody : ∀ d : Draft, Leads qs (d.standing {} true) (d.Gains [] cs)) (comments : List String)
    (location : Option Location) :
    Leads (ps ++ [.mark "\n"] ++ (qs ++ (indentation n ++ ([.word "end"] ++ [.mark "\n"]))))
      (d.standing ⟨{ comments }, members.toArray⟩ b)
      (d.Gains members [.node { kind := .scope s, comments, location } cs]) := by
  intro c rs hc
  simp only [List.append_assoc, List.cons_append, List.nil_append] at hc
  obtain ⟨hstart, start, c₁, hstatement, hc₁⟩ := h { comments } rfl hc
  have hopened : ((d.standing ⟨{}, members.toArray⟩ false).push ⟨s, comments, start⟩).run c₁
      = (((d.standing ⟨{}, members.toArray⟩ false).push ⟨s, comments, start⟩).standing {} true).run
        c₁.advance := by
    rw [push_eq_standing]
    exact run_newline hc₁.kind (.inl rfl)
  obtain ⟨d', c₂, ⟨found, b', rfl, hfound⟩, hrun, hc₂⟩ := hbody _ _ _ hc₁.advance
  have hend := hc₂.indented
  obtain ⟨place, hclosed⟩ := run_end (d := d) hend.kind hend.advance.kind
    (rfl : (⟨{}, found.toArray⟩ : Level).body = {})
  refine ⟨_, _, ?_, (run_opens hstart hstatement).trans (hopened.trans
    (hrun.trans (hclosed.trans (run_newline hend.advance.kind (.inl rfl))))), hend.advance.advance⟩
  exact gains_push rfl hfound

end Draft

/-! ## Declarations -/

/-- Where the comments of an outline wait, the lines are read as an outline like it. -/
def ReadBelow (lines : List String) (o : Outline) : Prop :=
  ∃ ps, Block lines ps ∧ ∀ (d : Draft) (members : List Outline) (b : Bool),
    Draft.Leads ps (d.standing ⟨{ comments := o.entry.comments }, members.toArray⟩ b)
      (d.Gains members [o])

/-- Signatures and the line of a declaration below them. -/
theorem readBelow_signed {kind : Kind} {signatures : List Signature} {text : String}
    {ps : List Piece} (hsigs : signatures.all Signature.isPrintable = true)
    (hline : LineRow text ps) (h : Declares kind signatures ps) (n : Nat) (comments : List String)
    (location : Option Location) :
    ReadBelow ((signatures.map fun s => Print.line n s.text) ++ [Print.line n text])
      (.node { kind, comments, location } []) := by
  have hdot : nextKind ps ≠ .dot := by
    obtain ⟨c, hc⟩ := exists_faces (ps ++ [.mark "\n"])
    rw [hline.nextKind_eq hc]
    exact ne_dot_of_startsStatement (h [] hc).1
  obtain ⟨ss, hblock, hleads⟩ := Draft.exists_signatures hsigs n
  refine ⟨_, hblock.append (.line hline hdot n), fun d members b => ?_⟩
  refine .append (hleads d members comments [] b) ?_
  rintro d' ⟨b', rfl⟩
  exact .indented (Draft.leads_declares h comments location) n

theorem readBelow_line {kind : Kind} {text : String} {n : Nat} {comments : List String}
    {location : Option Location}
    (h : ∃ ps, LineRow text ps ∧ Declares kind [] ps) :
    ReadBelow [Print.line n text] (.node { kind, comments, location } []) := by
  obtain ⟨ps, hline, hdeclares⟩ := h
  have hnone : ([] : List Signature).all Signature.isPrintable = true := rfl
  exact readBelow_signed hnone hline hdeclares n comments location

/-- A printable leaf is read as it is written. -/
theorem readBelow_leaf {l : Leaf} (h : l.isPrintable = true) (hdots : l.runsTogether = false)
    (n : Nat) (comments : List String) (location : Option Location) :
    ReadBelow (Print.leaf n l) (.node { kind := .leaf l, comments, location } []) := by
  cases l with
  | const name value =>
    simp only [Leaf.isPrintable, Bool.and_eq_true, Bool.not_eq_true', String.isEmpty_eq_false_iff]
      at h
    exact readBelow_line (exists_constant h.1.1.1.1 h.1.1.1.2 h.1.1.2 h.1.2 h.2)
  | typeMember name value =>
    simp only [Leaf.isPrintable, Bool.and_eq_true] at h
    exact readBelow_line (exists_typeMember h.1.1 h.1.2 h.2)
  | method m =>
    have hsigs : m.signatures.all Signature.isPrintable = true := by
      simp only [Leaf.isPrintable, Method.isPrintable, Bool.and_eq_true] at h
      exact h.2
    obtain ⟨ps, hline, hdeclares⟩ := exists_methodLine h hdots
    simpa [Print.leaf, String.append_assoc] using
      readBelow_signed hsigs hline hdeclares n comments location
  | attr a =>
    have hsigs : a.signatures.all Signature.isPrintable = true := by
      simp only [Leaf.isPrintable, Attribute.isPrintable, Bool.and_eq_true] at h
      exact h.2
    obtain ⟨ps, hline, hdeclares⟩ := exists_attributes h
    simpa [Print.leaf, String.append_assoc] using
      readBelow_signed hsigs hline hdeclares n comments location
  | mixin kind names =>
    simp only [Leaf.isPrintable, Bool.and_eq_true, Bool.not_eq_true', List.isEmpty_eq_false_iff] at h
    exact readBelow_line (exists_mixin kind h.1 h.2)
  | helper name => exact readBelow_line (exists_helper h)
  | requiresAncestor name => exact readBelow_line (exists_requiredAncestor h)
  | send word args =>
    simp only [Leaf.isPrintable, Bool.and_eq_true] at h
    exact readBelow_line (exists_send h.1.1 h.1.2 h.2)
  | field f => exact readBelow_line (exists_field h)
  | enums names =>
    obtain ⟨ps, hblock, hdeclares⟩ := exists_enums h n
    exact ⟨_, hblock, fun d members b => .indented (Draft.leads_declares hdeclares _ _) n⟩

/-! ## Outlines -/

/-- Where nothing waits, the lines are read as outlines like `os`. Lines from within a body may
start with a line break, which says nothing where something is declared. -/
def ReadAs (within : Bool) (lines : List String) (os : List Outline) : Prop :=
  ∃ ps, Block lines ps ∧ ∀ (d : Draft) (members : List Outline) (b : Bool),
    (within = true → members ≠ []) →
    Draft.Leads ps (d.standing ⟨{}, members.toArray⟩ b) (d.Gains members os)

theorem Outline.allUnplaced_eq_map (os : List Outline) : allUnplaced os = os.map unplaced := by
  induction os with
  | nil => rfl
  | cons o os ih => rw [allUnplaced, ih, List.map_cons]

namespace ReadAs

variable {within : Bool} {lines more : List String} {o : Outline} {os : List Outline}

theorem nil : ReadAs within [] [] :=
  ⟨[], .nil, fun d members b _ => .nil ⟨[], b, by rw [List.append_nil], rfl⟩⟩

/-- An empty line within a body. -/
theorem separated (h : ReadAs true lines os) : ReadAs true ("" :: lines) os := by
  obtain ⟨ps, hblock, hleads⟩ := h
  refine ⟨_, Block.empty.append hblock, fun d members b hmembers => ?_⟩
  refine .append (Draft.leads_empty (by simp [hmembers])) ?_
  rintro d' rfl
  exact hleads d members true hmembers

/-- Lines behind others that declare something. -/
theorem append {ps : List Outline} (h : ReadAs within lines os) (hos : os ≠ [])
    (hmore : ReadAs true more ps) : ReadAs within (lines ++ more) (os ++ ps) := by
  obtain ⟨qs, hblock, hleads⟩ := h
  obtain ⟨rs, hblock', hleads'⟩ := hmore
  refine ⟨_, hblock.append hblock', fun d members b hmembers => ?_⟩
  refine .append (hleads d members b hmembers) ?_
  rintro d' ⟨found, b', rfl, hfound⟩
  simp only [Outline.allUnplaced_eq_map] at hfound
  have hne : found ≠ [] := by
    rintro rfl
    exact hos (List.map_eq_nil_iff.1 hfound.symm)
  have hgained := hleads' d (members ++ found) b' fun _ => by simp [hne]
  intro c ss hc
  obtain ⟨d', c', ⟨later, b'', rfl, hlater⟩, hrun, hc'⟩ := hgained c ss hc
  refine ⟨_, c', ⟨found ++ later, b'', by rw [List.append_assoc], ?_⟩, hrun, hc'⟩
  simp only [Outline.allUnplaced_eq_map, List.map_append] at hlater ⊢
  rw [hfound, hlater]

theorem cons (h : ReadAs within lines [o]) (hmore : ReadAs true more os) :
    ReadAs within (lines ++ more) (o :: os) :=
  h.append (by simp) hmore

/-- Comments and what is below them. -/
theorem commented {e : Entry} {cs : List Outline} (hcomments : e.comments.all isCommentLine = true)
    (h : ReadBelow lines (.node e cs)) (n : Nat) :
    ReadAs within (e.comments.map (Print.comment n) ++ lines) [.node e cs] := by
  obtain ⟨ps, hblock, hleads⟩ := Draft.exists_comments hcomments n
  obtain ⟨qs, hblock', hleads'⟩ := h
  refine ⟨_, hblock.append hblock', fun d members b _ => .append (hleads d members [] b) ?_⟩
  rintro d' rfl
  exact hleads' d members _

end ReadAs

theorem Opens.nextKind_ne_dot {s : Scope} {ps : List Piece} {text : String} (h : Opens s ps)
    (hline : LineRow text ps) : nextKind ps ≠ .dot := by
  obtain ⟨c, hc⟩ := exists_faces (ps ++ [.mark "\n"])
  rw [hline.nextKind_eq hc]
  exact ne_dot_of_startsStatement (h {} rfl hc).1

/-- A printable scope without a body. -/
theorem readBelow_closed {s : Scope} (h : s.isPrintable true = true) (n : Nat)
    (comments : List String) (location : Option Location) :
    ReadBelow [Print.line n (Print.closedHeader s)]
      (.node { kind := .scope s, comments, location } []) := by
  by_cases hs : ∃ name members keywordInit, s = .structOf name members keywordInit
  · obtain ⟨name, members, keywordInit, rfl⟩ := hs
    simp only [Scope.isPrintable, Bool.and_eq_true] at h
    obtain ⟨ps, hline, -, hdeclares⟩ := exists_struct h.1 h.2 keywordInit
    exact readBelow_line ⟨ps, hline, hdeclares⟩
  · obtain ⟨ps, hline, hopens⟩ := exists_closed h fun name members keywordInit heq =>
      hs ⟨name, members, keywordInit, heq⟩
    have hdot : nextKind (ps ++ [.mark ";", .blank, .word "end"]) ≠ .dot := by
      obtain ⟨c, hc⟩ := exists_faces (ps ++ [.mark ";", .blank, .word "end"])
      rw [← hc.kind_eq]
      exact ne_dot_of_startsStatement (hopens {} rfl hc).1
    exact ⟨_, .line hline hdot n, fun d members b => .indented (Draft.leads_closed hopens _ _) n⟩

/-- A printable scope around a body. -/
theorem readBelow_opened {s : Scope} {lines : List String} {cs : List Outline}
    (h : s.isPrintable false = true) (hbody : ReadAs false lines cs) (n : Nat)
    (comments : List String) (location : Option Location) :
    ReadBelow (Print.line n (Print.openingHeader s) :: lines ++ [Print.line n "end"])
      (.node { kind := .scope s, comments, location } cs) := by
  obtain ⟨ps, hline, hopens⟩ := exists_opening h
  obtain ⟨qs, hblock, hleads⟩ := hbody
  have hend : LineRow "end" [.word "end"] := .word rfl
  have hlines := (Block.line hline (hopens.nextKind_ne_dot hline) n).append
    (hblock.append (.line hend (by decide) n))
  refine ⟨_, hlines, fun d members b => ?_⟩
  rw [List.append_assoc]
  exact .indented (Draft.leads_opened hopens (fun d => hleads d [] true (by simp)) _ _) n

theorem preamble_default (n : Nat) (e : Entry) :
    Print.preamble {} n e = e.comments.map (Print.comment n) := by
  unfold Print.preamble
  split <;> simp

mutual
/-- A printable outline is read as it is written. -/
theorem readAs_lines (o : Outline) (h : o.isPrintable = true) (hdots : o.runsTogether = false)
    (n : Nat) (within : Bool) : ReadAs within (Print.lines {} n o) [o] := by
  obtain ⟨⟨kind, comments, location⟩, cs⟩ := o
  simp only [Outline.isPrintable, Bool.and_eq_true] at h
  simp only [Outline.runsTogether, Bool.or_eq_false_iff] at hdots
  obtain ⟨⟨hcomments, hcs⟩, hkind⟩ := h
  cases kind with
  | leaf l =>
    simp only [Bool.and_eq_true, List.isEmpty_iff] at hkind
    obtain ⟨hleaf, rfl⟩ := hkind
    simp only [Print.lines, preamble_default]
    exact .commented hcomments (readBelow_leaf hleaf hdots.1 n comments location) n
  | scope s =>
    simp only [Print.lines, preamble_default]
    cases cs with
    | nil => exact .commented hcomments (readBelow_closed hkind n comments location) n
    | cons c cs =>
      have hbody := readAs_body (c :: cs) hcs hdots.2 (n + 1) none
      exact .commented hcomments (readBelow_opened hkind hbody n comments location) n
  | group => cases hkind
  | conflict labels => cases hkind
  | scopeConflict labels => cases hkind
/-- Printable neighbours are read as they are written. -/
theorem readAs_body (cs : List Outline) (h : Outline.arePrintable cs = true)
    (hdots : Outline.anyRunsTogether cs = false) (n : Nat) (previous : Option Bool) :
    ReadAs previous.isSome (Print.body {} n previous cs) cs := by
  cases cs with
  | nil => exact .nil
  | cons c cs =>
    simp only [Outline.arePrintable, Bool.and_eq_true] at h
    simp only [Outline.anyRunsTogether, Bool.or_eq_false_iff] at hdots
    have hmore := readAs_body cs h.2 hdots.2 n (some (Print.isShort {} c))
    have hlines := (readAs_lines c h.1 hdots.1 n previous.isSome).cons hmore
    simp only [Print.body]
    cases previous with
    | none => exact hlines
    | some before =>
      rw [List.append_assoc]
      split
      · exact hlines.separated
      · exact hlines
end

/-! ## Files -/

namespace Draft

/-- An empty line divides the comments of the file from what is below them. -/
theorem run_divide {comments : List String} {c : Cursor} (hkind : c.kind = .newline) :
    (({} : Draft).standing ⟨{ comments }, #[]⟩ true).run c
      = (({ comments } : Draft).standing {} true).run c.advance := by
  refine run_of_step (by simp [hkind]) ?_
  simp only [step, hkind]
  rfl

theorem run_eof {comments : List String} {found : List Outline} {b : Bool} {c : Cursor}
    (hc : c.Faces []) : (({ comments } : Draft).standing ⟨{}, found.toArray⟩ b).run c
      = .ok ⟨.node { comments } found, []⟩ := by
  have hkind : c.kind = .eof := hc.kind_eq
  have hclose : closeAll (({ comments } : Draft).standing ⟨{}, found.toArray⟩ b) c
      = (({ comments } : Draft).standing ⟨{}, found.toArray⟩ b, c) := by
    rw [closeAll]
    rfl
  rw [run, dif_pos hkind, finish, hclose]
  simp [endBody, reportIf, standing, setCurrent, hkind, hc.silent]

/-- The comments of a file, and the empty line below them. -/
theorem exists_fileComments {comments : List String} (h : comments.all isCommentLine = true) :
    ∃ ps, Block (comments.map (Print.comment 0) ++ if comments.isEmpty then [] else [""]) ps ∧
      ∃ b, Leads ps {} (· = ({ comments } : Draft).standing {} b) := by
  cases comments with
  | nil => exact ⟨[], .nil, false, .nil rfl⟩
  | cons text comments =>
    obtain ⟨ps, hblock, hleads⟩ := exists_comments h 0
    refine ⟨_, hblock.append .empty, true, .append (hleads {} [] [] false) ?_⟩
    rintro d' rfl c qs hc
    exact ⟨_, _, rfl, run_divide hc.kind, hc.advance⟩

end Draft

/-- A text of comments and of lines that are read as outlines is read as a file of these. -/
theorem read_of_readAs {comments lines : List String} {os : List Outline}
    (hcomments : comments.all isCommentLine = true) (hbody : ReadAs false lines os)
    (file : Option String) :
    ∃ reading, read (String.join (((comments.map (Print.comment 0) ++
        if comments.isEmpty then [] else [""]) ++ lines).map (· ++ "\n"))) file = .ok reading ∧
      reading.root.unplaced = (Outline.node { comments } os).unplaced ∧
      reading.diagnostics = [] := by
  obtain ⟨ps, hblock, b, hleads⟩ := Draft.exists_fileComments hcomments
  obtain ⟨qs, hblock', hleads'⟩ := hbody
  have htokens := significant_of_block (hblock.append hblock')
  have hfaces : (Cursor.ofTokens file (TokenList.ofText _).significant).Faces (ps ++ qs ++ []) :=
    ⟨rfl, .origin, by rw [List.append_nil]; exact htokens⟩
  obtain ⟨d, c, ⟨found, b', rfl, hfound⟩, hrun, hc⟩ := Draft.Leads.append hleads
    (fun d' hd' => hd' ▸ hleads' { comments } [] b (by simp)) _ [] hfaces
  refine ⟨⟨.node { comments } found, []⟩, hrun.trans (Draft.run_eof hc), ?_, rfl⟩
  simp only [Outline.unplaced, hfound]

/-- Comments are set off by an empty line from what is below them. -/
theorem fileLines_eq {e : Entry} {cs : List Outline} (h : e.comments ≠ [] → cs ≠ []) :
    Print.fileLines {} (.node e cs) =
      (e.comments.map (Print.comment 0) ++ if e.comments.isEmpty then [] else [""])
        ++ Print.body {} 0 none cs := by
  rw [Print.fileLines]
  by_cases hcomments : e.comments = []
  · simp [hcomments]
  · simp [hcomments, h hcomments]

/-- What is printed is read again: the text of a printable file is read as that file, apart from
the places that declarations stand at, and nothing is reported. -/
theorem read_print {root : Outline} (hprintable : root.isPrintableFile = true)
    (hdots : root.runsTogether = false) (file : Option String) :
    ∃ reading, read (root.print {}) file = .ok reading ∧ reading.root.unplaced = root.unplaced ∧
      reading.diagnostics = [] := by
  obtain ⟨⟨kind, comments, location⟩, cs⟩ := root
  simp only [Outline.isPrintableFile, Bool.and_eq_true, Bool.or_eq_true, beq_iff_eq,
    List.isEmpty_iff, Bool.not_eq_true', List.isEmpty_eq_false_iff] at hprintable
  simp only [Outline.runsTogether, Bool.or_eq_false_iff] at hdots
  obtain ⟨⟨⟨rfl, hcomments⟩, hbelow⟩, hcs⟩ := hprintable
  obtain ⟨reading, hread, hroot, hdiagnostics⟩ :=
    read_of_readAs hcomments (readAs_body cs hcs hdots.2 0 none) file
  refine ⟨reading, ?_, hroot, hdiagnostics⟩
  rw [Outline.print, fileLines_eq hbelow.resolve_left]
  exact hread

/-- A file with something of every kind. -/
def garage : Outline :=
  .node { comments := ["typed: strong", ""] }
    [.node { kind := .scope (.moduleOf "::Garage"), comments := [" indented", "# twice"] }
      [.node { kind := .scope (.classOf "Car" (some "Vehicle[T.any(A, B)]")) }
        [.node { kind := .leaf (.mixin .extended ["T::Sig", "T::Helpers"]) } [],
         .node { kind := .leaf (.helper "abstract") } [],
         .node { kind := .leaf (.typeMember "Elem" "type_member \x7b \x7b fixed: Integer \x7d \x7d") } [],
         .node { kind := .leaf (.const "LIMIT" "[1, -2.5].freeze"), comments := ["upper bound"] } [],
         .node
           { kind := .leaf (.attr
               { kind := .accessor
                 names := ["doors", "wheels"]
                 visibility := .family
                 signatures := [{ result := some "Integer", isFinal := true }] }) } [],
         .node
           { kind := .leaf (.method
               { name := "drive="
                 params :=
                   [{ name := "to" }, { kind := .optional, name := "by", default := some "\x7b a: 1 \x7d" },
                    { kind := .rest, name := "" }, { kind := .keyword, name := "via" },
                    { kind := .optionalKeyword, name := "at", default := some "nil" },
                    { kind := .keywordRest, name := "more" }, { kind := .block, name := "blk" }]
                 signatures :=
                   [{ params := [⟨"to", "String"⟩, ⟨"by", "T::Hash[Symbol, Integer]"⟩]
                      isOverride := true, allowIncompatible := true, typeParams := ["U"]
                      checked := some ":never" },
                    { result := some "T.nilable(String)", isAbstract := true }] })
             comments := ["drives"] } [],
         .node { kind := .leaf (.method { name := "[]=", isSingleton := true, visibility := .owner }) }
           [],
         .node { kind := .scope .singleton }
           [.node { kind := .leaf (.method { name := "<=>", params := [{ name := "other" }] }) } [],
            .node { kind := .leaf (.method { name := "end" }) } []]],
       .node { kind := .scope (.structOf "Point" ["x", "y"] true) } [],
       .node { kind := .scope (.structOf "Pair" ["left"] false) }
         [.node { kind := .leaf (.send "private_constant" [":Hidden", "foo(1, 2)"]) } [],
          .node { kind := .leaf (.send "private" [":left"]) } []],
       .node { kind := .scope (.classOf "Config" (some "T::Struct")) }
         [.node { kind := .leaf (.field { name := "size", type := "Integer" }) } [],
          .node
            { kind := .leaf (.field
                { kind := .prop, name := "tags", type := "T::Array[String]", default := some "[]" }) }
            []],
       .node { kind := .scope (.classOf "Color" none) }
         [.node { kind := .leaf (.enums ["Red", "Green"]) } [],
          .node { kind := .leaf (.requiresAncestor "Kernel") } []],
       .node { kind := .scope (.classOf "Empty" (some "Car::Base")) } []]]

/-- The file is read again as it was, in every kind of declaration. -/
theorem read_print_of_garage :
    garage.isPrintableFile = true ∧ garage.runsTogether = false ∧
      ∃ reading, read (garage.print {}) none = .ok reading ∧
        reading.root.unplaced = garage.unplaced ∧ reading.diagnostics = [] :=
  ⟨by decide +kernel, by decide, read_print (by decide +kernel) (by decide) none⟩

/-- What a file is read as once it is printed, without places. -/
def reread (root : Outline) : Option (List (Nat × Entry)) :=
  (read (root.print {}) none).toOption.map fun reading => reading.root.unplaced.preorder 0

/-- A file with a method of its own that is called by two dots. -/
def dotted : Outline :=
  .node {} [.node { kind := .leaf (.method { name := "..", isSingleton := true }) } []]

/-- Behind the dot of a receiver two more dots are no name. All three are taken for one operator, and
the method for one that is called like the receiver. -/
theorem reread_dotted :
    dotted.isPrintableFile = true ∧ dotted.print {} = "def self...; end\n" ∧
      reread dotted = some [(0, {}), (1, { kind := .leaf (.method { name := "self" }) })] ∧
      reread dotted ≠ some (dotted.unplaced.preorder 0) := by
  decide +kernel

end StubMerge
