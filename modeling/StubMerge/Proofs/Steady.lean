import StubMerge.Proofs.InText

/-!
# What is read can be printed

Most of what makes an outline printable holds of everything that is read from a text without a
problem: names were names, and captured texts can be captured again. What reading does not see to is
collected in `Outline.isSteadyFile`, and the rest is proved here for one statement at a time, the
whole file following in the next module.

A statement that was read without a problem gives a declaration that is printable if it is steady.
Signatures and comments wait in the body for the declaration below them, so the same is said of the
body (`Body.Sound`).
-/

namespace StubMerge

/-! ## Steady declarations -/

/-- Whether a parameter has a plain name, and a default value if it has an equals sign. -/
def Parameter.isSteady (p : Parameter) : Bool :=
  (p.name.isEmpty || isIdentifier p.name) && p.default != some ""

/-- Whether the names in a signature are plain. -/
def Signature.isSteady (s : Signature) : Bool :=
  s.typeParams.all isIdentifier && s.params.all fun p => isIdentifier p.name

/-- Whether a method has plain parameters and does not run together with its receiver. -/
def Method.isSteady (m : Method) : Bool :=
  m.params.all Parameter.isSteady && m.signatures.all Signature.isSteady && !m.runsTogether

/-- Whether attributes have plain names. -/
def Attribute.isSteady (a : Attribute) : Bool :=
  a.names.all isIdentifier && a.signatures.all Signature.isSteady

/-- Whether a field has a plain name and its line ends behind it. -/
def Field.isSteady (f : Field) : Bool :=
  isIdentifier f.name && match f.default with
    | some value => !value.isEmpty && isCaptured Cursor.endsArgument "\n" value
    | none => endsLine f.type

/-- Whether a line ends behind arguments without parentheses, and the first of them does not look
like something else behind a blank. -/
def areSteadyArguments (args : List String) : Bool :=
  args.getLast?.all endsLine
    && args.head?.all fun arg => arg.toList.head? != some '(' && !hasMarkedConstant arg

/-- Whether a leaf is printed in lines that end where they should, and with plain names. -/
def Leaf.isSteady : Leaf → Bool
  | .const _ value | .typeMember _ value => endsLine value
  | .method m => m.isSteady
  | .attr a => a.isSteady
  | .mixin _ names => areSteadyArguments names
  | .send word args => isPlainCall word args && areSteadyArguments args
  | .field f => f.isSteady
  | .helper _ | .requiresAncestor _ | .enums _ => true

/-- Whether the header of a scope ends its line, and its members have plain names; `closed` says
that the scope is empty, and ends in the line of its header. -/
def Scope.isSteady (closed : Bool) : Scope → Bool
  | .classOf _ superclass => superclass.all fun parent => closed || endsLine parent
  | .structOf _ members _ => members.all isIdentifier
  | .moduleOf _ | .singleton => true

namespace Outline

mutual
/-- Whether a declaration and all that is below it are steady. -/
def isSteady : Outline → Bool
  | node e cs =>
    areSteady cs
      && match e.kind with
        | .scope s => s.isSteady cs.isEmpty
        | .leaf l => l.isSteady
        | _ => true
/-- Whether neighbours are steady. -/
def areSteady : List Outline → Bool
  | [] => true
  | c :: cs => c.isSteady && areSteady cs
end

/-- Whether a file is steady. Its own comments need something below them. That is enough for
formatting to settle, but it is not necessary: an attribute `foo?`, a call with empty parentheses or
a parameter with an equals sign and no value is not steady, and formatting settles all the same. -/
def isSteadyFile : Outline → Bool
  | node e cs => (e.comments.isEmpty || !cs.isEmpty) && areSteady cs

end Outline

/-! ## Signatures -/

/-- What is captured in a signature can be captured again. -/
structure Signature.Sound (s : Signature) : Prop where
  override : (s.isOverride || !s.allowIncompatible) = true
  params : ∀ p ∈ s.params, isCaptured stopsAtComma ")" p.type = true
  result : ∀ type ∈ s.result, isCaptured stopsNever ")" type = true
  checked : ∀ level ∈ s.checked, isCaptured stopsNever ")" level = true

theorem Signature.Sound.isPrintable {s : Signature} (h : s.Sound) (hs : s.isSteady = true) :
    s.isPrintable = true := by
  simp only [Signature.isSteady, Bool.and_eq_true, List.all_eq_true] at hs
  simp only [Signature.isPrintable, Bool.and_eq_true, List.all_eq_true, Option.all_eq_true]
  exact ⟨⟨⟨⟨h.override, hs.1⟩, fun p hp => ⟨hs.2 p hp, h.params p hp⟩⟩, h.result⟩, h.checked⟩

namespace Cursor

section Signatures

variable {c : Cursor} {s : Signature}

theorem nthKind_one (c : Cursor) : c.nthKind 1 = c.advance.kind := nthKind_succ c 0

/-- Types of names are captured behind a colon. -/
theorem InText.typedNamesFrom (h : c.InText) (hrest : c.typedNamesFrom.2.rest ≠ []) :
    ∀ p ∈ c.typedNamesFrom.1, isCaptured stopsAtComma ")" p.type = true := by
  have htype {c : Cursor} (h : c.InText) (hcolon : ¬(c.nthKind 1 != .colon) = true)
      (hmore : (c.advance.advance.capture stopsAtComma).2.rest ≠ []) :
      isCaptured stopsAtComma ")" (c.advance.advance.capture stopsAtComma).1 = true := by
    have hkind : c.advance.kind = .colon := by simpa [nthKind_one] using hcolon
    have hapart := (h.walk c.walk_advance).advance (by rw [hkind]; rfl) (by decide)
    exact (hapart.recaptures stopsAtComma).paren hmore
  fun_induction Cursor.typedNamesFrom c with
  | case1 => simp
  | case2 => simp
  | case3 c _ hcolon type first hcomma more ih =>
    have hafter : type.2.InText :=
      h.walk (c.walk_advance.trans ((walk_advance _).trans (walk_capture _ _)))
    have hmore := ih (hafter.walk (walk_advance _)) hrest
    have hfirst := htype h hcolon (rest_ne_nil (c := type.2) (by simp [hcomma]))
    exact List.forall_mem_cons.2 ⟨hfirst, hmore⟩
  | case4 c _ hcolon type first =>
    have hfirst := htype h hcolon hrest
    exact List.forall_mem_singleton.2 hfirst

theorem InText.typedNames (h : c.InText) (hclean : c.typedNames.2.IsClean) :
    ∀ p ∈ c.typedNames.1, isCaptured stopsAtComma ")" p.type = true := by
  dsimp only [Cursor.typedNames] at hclean ⊢
  split at hclean
  · next hopen =>
    rw [if_pos hopen]
    have hkind := kind_of_expect hclean
    refine (h.walk (c.walk_expect _ _ (by simp))).typedNamesFrom ?_
    exact (walk_skipWhile _ _).rest_ne_nil (rest_ne_nil (hkind.trans_ne (by decide)))
  · next hopen =>
    rw [if_neg hopen]
    simp

theorem InText.namedBuilder (h : c.InText) (hs : s.Sound)
    (hclean : (namedBuilder s c).2.IsClean) : (namedBuilder s c).1.Sound := by
  have hnext : c.advance.InText := h.walk c.walk_advance
  unfold Cursor.namedBuilder at hclean ⊢
  split at hclean
  · exact ⟨hs.override, hs.params, hs.result, hs.checked⟩
  · exact ⟨hs.override, hs.params, hs.result, hs.checked⟩
  · exact ⟨hs.override, hs.params, by simp, hs.checked⟩
  · dsimp only
    split
    · exact ⟨rfl, hs.params, hs.result, hs.checked⟩
    · exact ⟨rfl, hs.params, hs.result, hs.checked⟩
  · exact ⟨hs.override, hs.params, by simpa using hnext.captureGroup hclean, hs.checked⟩
  · exact ⟨hs.override, hs.params, hs.result, by simpa using hnext.captureGroup hclean⟩
  · exact ⟨hs.override, hnext.typedNames hclean, hs.result, hs.checked⟩
  · exact ⟨hs.override, hs.params, hs.result, hs.checked⟩
  · unfold unknownBuilder
    dsimp only
    split <;> exact hs

theorem InText.builder (h : c.InText) (hs : s.Sound) {closer : TokenKind}
    (hclean : (builder closer s c).2.IsClean) : (builder closer s c).1.Sound := by
  unfold Cursor.builder at hclean ⊢
  split at hclean
  · next hk =>
    rw [if_pos hk]
    exact h.namedBuilder hs hclean
  · next hk =>
    rw [if_neg hk]
    exact hs

/-- Every link of the chain leaves a sound signature. -/
theorem InText.builders (h : c.InText) (hs : s.Sound) {closer : TokenKind}
    (hclean : (builders closer s c).2.IsClean) : (builders closer s c).1.Sound := by
  fun_induction Cursor.builders closer s c with
  | case1 => exact hs
  | case2 s c _ link after hdot ih =>
    have hafter : c.Walk after := (c.walk_builder closer s).trans (walk_skipNewlines _)
    have hrest := (walk_advance after).trans (walk_skipNewlines _)
    have hlink : link.2.IsClean :=
      ((walk_skipNewlines _).trans (hrest.trans (walk_builders _ _ _))).clean hclean
    exact ih (h.walk (hafter.trans hrest)) (h.builder hs hlink) hclean
  | case3 s c _ link after =>
    exact h.builder hs ((walk_skipNewlines _).clean hclean)

theorem InText.signature (h : c.InText) (hclean : c.signature.2.IsClean) :
    ∀ s ∈ c.signature.1, s.Sound := by
  have hplain : ({} : Signature).Sound := ⟨rfl, by simp, by simp, by simp⟩
  have hhead : c.advance.signatureArgument.1.Sound := by
    unfold signatureArgument
    split
    · dsimp only
      split
      · exact ⟨rfl, by simp, by simp, by simp⟩
      · exact hplain
    · exact hplain
  dsimp only [Cursor.signature] at hclean ⊢
  split at hclean
  · simp
  · next closer hsome =>
    have hchain := ((walk_skipNewlines _).trans (walk_expect _ _ _ (by simp))).clean hclean
    have hblock : c.Walk c.advance.signatureArgument.2.advance.skipNewlines :=
      c.walk_advance.trans ((walk_signatureArgument _).trans
        ((walk_advance _).trans (walk_skipNewlines _)))
    simpa [hsome] using (h.walk hblock).builders hhead hchain

end Signatures

/-! ## Methods -/

section Methods

variable {c : Cursor}

theorem InText.isVariable_text (h : c.InText) (hk : c.kind = .name)
    (hname : (c.text.isEmpty || isIdentifier c.text) = true) : isVariable c.text = true := by
  obtain ⟨previous, ys, hcut, hkind⟩ := h.peek (by simp [hk])
  have hne : c.text.isEmpty = false := by
    obtain ⟨d, ds, htext, -⟩ := hcut
    refine String.isEmpty_eq_false_iff.2 fun heq => ?_
    rw [Cursor.text] at heq
    simp [heq] at htext
  rw [hne, Bool.false_or] at hname
  exact hcut.isVariable (hkind.trans hk) hname

/-- What follows the name of a parameter. Default values are captured behind a colon or an equals
sign. -/
theorem InText.namedParameter (h : c.InText) {name : String}
    (hname : (name.isEmpty || isIdentifier name) = true → isVariable name = true)
    (hrest : (c.namedParameter name).2.rest ≠ [])
    (hsteady : (c.namedParameter name).1.isSteady = true) :
    (c.namedParameter name).1.isPrintable = true := by
  have hvalue {d : Char} (hmark : c.kind.mark? = some d) (hd : endsValue d = false)
      (hmore : (c.advance.capture stopsAtComma).2.rest ≠ []) :
      isCaptured stopsAtComma ")" (c.advance.capture stopsAtComma).1 = true :=
    ((h.advance hmark hd).recaptures stopsAtComma).paren hmore
  unfold Cursor.namedParameter at hrest hsteady ⊢
  split_ifs at hrest hsteady ⊢ with hcolon hend hequals
  · simp only [Parameter.isSteady, Bool.and_eq_true] at hsteady
    simpa [Parameter.isPrintable] using hname hsteady.1
  · simp only [Parameter.isSteady, Bool.and_eq_true, bne_iff_ne, ne_eq,
      Option.some.injEq] at hsteady
    have hcaptured := hvalue (by rw [eq_of_beq hcolon]; rfl) (by decide) hrest
    simp only [Parameter.isPrintable, hname hsteady.1, Option.any_some, Bool.true_and,
      Bool.and_eq_true, Bool.not_eq_true', String.isEmpty_eq_false_iff]
    exact ⟨hsteady.2, hcaptured⟩
  · simp only [Parameter.isSteady, Bool.and_eq_true, bne_iff_ne, ne_eq,
      Option.some.injEq] at hsteady
    have hcaptured := hvalue (by rw [eq_of_beq hequals]; rfl) (by decide) hrest
    simp only [Parameter.isPrintable, hname hsteady.1, Option.any_some, Bool.true_and,
      Bool.and_eq_true, Bool.not_eq_true', String.isEmpty_eq_false_iff]
    exact ⟨hsteady.2, hcaptured⟩
  · simp only [Parameter.isSteady, Bool.and_eq_true] at hsteady
    simpa [Parameter.isPrintable] using hname hsteady.1

theorem kind_of_markedParameter {k : TokenKind} {kind : ParameterKind}
    (h : markedParameter? k = some kind) : kind = .rest ∨ kind = .keywordRest ∨ kind = .block := by
  unfold markedParameter? at h
  split at h <;> cases h <;> simp

/-- A steady parameter is printable. -/
theorem InText.parameter (h : c.InText) (hrest : c.parameter.2.rest ≠ []) :
    ∀ p ∈ c.parameter.1, p.isSteady = true → p.isPrintable = true := by
  intro p hp hsteady
  have hnext : c.advance.InText := h.walk c.walk_advance
  unfold Cursor.parameter at hrest hp
  split at hrest
  · next kind hmarked =>
    have hkind := kind_of_markedParameter hmarked
    simp only [hmarked] at hp
    split at hp
    · next hk =>
      obtain rfl := Option.some.inj hp
      simp only [Parameter.isSteady, Bool.and_eq_true] at hsteady
      have hvariable := hnext.isVariable_text (eq_of_beq hk) hsteady.1
      obtain rfl | rfl | rfl := hkind <;> simp [Parameter.isPrintable, hvariable]
    · obtain rfl := Option.some.inj hp
      obtain rfl | rfl | rfl := hkind <;> simp [Parameter.isPrintable]
  · next hmarked =>
    simp only [hmarked] at hp
    split at hp
    · next hk =>
      obtain rfl := Option.some.inj hp
      rw [if_pos hk] at hrest
      exact hnext.namedParameter (h.isVariable_text (eq_of_beq hk)) hrest hsteady
    · cases hp

theorem InText.parametersFrom (h : c.InText) (hrest : c.parametersFrom.2.rest ≠ []) :
    ∀ p ∈ c.parametersFrom.1, p.isSteady = true → p.isPrintable = true := by
  fun_induction Cursor.parametersFrom c with
  | case1 => simp
  | case2 c _ first after hcomma more ih =>
    have hafter : c.Walk after := c.walk_parameter.trans (walk_afterParameter first)
    have hmore := ih (h.walk (hafter.trans (walk_advance _))) hrest
    have hne : after.rest ≠ [] := rest_ne_nil (hcomma.trans_ne (by decide))
    have hfirst := h.parameter ((walk_afterParameter first).rest_ne_nil hne)
    intro p hp
    rcases List.mem_append.1 hp with hp | hp
    · exact hfirst p (Option.mem_toList.1 hp)
    · exact hmore p hp
  | case3 c _ first after =>
    have hfirst := h.parameter ((walk_afterParameter first).rest_ne_nil hrest)
    intro p hp
    exact hfirst p (Option.mem_toList.1 hp)

theorem InText.bareParameters (h : c.InText) (hrest : c.bareParameters.2.rest ≠ []) :
    ∀ p ∈ c.bareParameters.1, p.isSteady = true → p.isPrintable = true := by
  fun_induction Cursor.bareParameters c with
  | case1 => simp
  | case2 c _ first hsome hcomma more ih =>
    have hmore := ih (h.walk (c.walk_parameter.trans (walk_advance _))) hrest
    have hfirst := h.parameter (rest_ne_nil (hcomma.trans_ne (by decide)))
    intro p hp
    rcases List.mem_append.1 hp with hp | hp
    · exact hfirst p (Option.mem_toList.1 hp)
    · exact hmore p hp
  | case3 c _ first hsome hcomma =>
    intro p hp
    exact h.parameter hrest p (Option.mem_toList.1 hp)
  | case4 => simp

theorem InText.parameters (h : c.InText) (hrest : c.parameters.2.rest ≠ []) :
    ∀ p ∈ c.parameters.1, p.isSteady = true → p.isPrintable = true := by
  unfold Cursor.parameters at hrest ⊢
  split at hrest
  · next hk =>
    rw [if_pos hk]
    exact (h.walk c.walk_advance).parametersFrom
      ((walk_expect _ _ _ (by simp)).rest_ne_nil hrest)
  · next hk =>
    rw [if_neg hk]
    exact h.bareParameters hrest

/-- The end of a method was there, if it was not missed. -/
theorem rest_ne_nil_of_methodEnd (h : c.methodEnd.IsClean) : c.rest ≠ [] := by
  unfold methodEnd at h
  split at h
  · next hk => exact rest_ne_nil ((eq_of_beq hk).trans_ne (by decide))
  · exact c.walk_endStatement.rest_ne_nil (rest_ne_nil_of_skipBlock (by simp) h)

end Methods

end Cursor

/-! ## Statements -/

/-- A leaf that is printable if it is steady. -/
def Leaf.Sound (l : Leaf) : Prop :=
  l.isSteady = true → l.isPrintable = true ∧ l.runsTogether = false

/-- A scope whose header is printable if it is steady. -/
def Scope.Sound (s : Scope) : Prop :=
  ∀ closed, s.isSteady closed = true → s.isPrintable closed = true

/-- The comments and signatures that wait for a declaration are fit for printing. -/
structure Body.Sound (b : Body) : Prop where
  comments : ∀ text ∈ b.comments, isCommentLine text = true
  signatures : ∀ s ∈ b.signatures, s.Sound

/-- What a statement declares is printable if it is steady. A scope that is opened has to be closed,
so this is said of its header only where there is more to be read. -/
def Outcome.Sound (more : Prop) : Outcome → Prop
  | .declares e =>
    (∀ text ∈ e.comments, isCommentLine text = true) ∧ match e.kind with
      | .leaf l => l.Sound
      | .scope s => s.Sound
      | _ => False
  | .opens o => (∀ text ∈ o.comments, isCommentLine text = true) ∧ (more → o.scope.Sound)
  | .nothing | .broken => True

/-- A statement gives and leaves what is fit for printing. -/
structure Statement.Sound (s : Statement) : Prop where
  body : s.body.Sound
  outcome : s.outcome.Sound (s.cursor.rest ≠ [])

namespace Statement

variable {b : Body} {c : Cursor} {start : Position}

theorem sound_nothing (hb : b.Sound) : (nothing b c).Sound := ⟨hb, trivial⟩

theorem sound_leaf {l : Leaf} (hb : b.Sound) (hl : l.Sound) :
    (declares (.leaf l) start b c).Sound :=
  ⟨⟨by simp [declares], hb.signatures⟩, hb.comments, hl⟩

theorem sound_scope {s : Scope} (hb : b.Sound) (hs : s.Sound) :
    (declares (.scope s) start b c).Sound :=
  ⟨⟨by simp [declares], hb.signatures⟩, hb.comments, hs⟩

theorem sound_opens {s : Scope} (hb : b.Sound) (hs : c.rest ≠ [] → s.Sound) :
    (opens s start b c).Sound :=
  ⟨⟨by simp [opens], hb.signatures⟩, hb.comments, hs⟩

theorem sound_afterVisibility {s : Statement} (h : s.Sound) : s.afterVisibility.Sound := by
  unfold afterVisibility
  split
  · exact ⟨h.body, trivial⟩
  · exact h

end Statement

theorem Body.Sound.clearSignatures {b : Body} (h : b.Sound) :
    ({ b with signatures := [] } : Body).Sound :=
  ⟨h.comments, by simp⟩

theorem Body.Sound.signatures_isPrintable {b : Body} (h : b.Sound)
    (hs : b.signatures.all Signature.isSteady = true) :
    b.signatures.all Signature.isPrintable = true := by
  rw [List.all_eq_true] at hs ⊢
  intro s hmem
  exact (h.signatures s hmem).isPrintable (hs s hmem)

namespace Cursor

section Statements

variable {b : Body} {c : Cursor}

/-! ### Methods and attributes -/

theorem InText.sound_method (h : c.InText) (hb : b.Sound) {start : Position}
    {visibility : Visibility} (hclean : (c.method start visibility b).cursor.IsClean) :
    (c.method start visibility b).Sound := by
  have hreceiver : c.Walk (if c.advance.kind == .selfWord && c.advance.nthKind 1 == .dot
      then c.advance.skip 2 else c.advance) := by
    split
    · exact c.walk_advance.trans (walk_skip _ 2)
    · exact c.walk_advance
  revert hclean
  dsimp only [method]
  revert hreceiver
  generalize (if c.advance.kind == .selfWord && c.advance.nthKind 1 == .dot
    then c.advance.skip 2 else c.advance) = receiver
  intro hreceiver
  split
  · intro _
    exact Statement.sound_nothing hb
  · next text hname =>
    intro hclean
    refine Statement.sound_leaf hb.clearSignatures fun hsteady => ?_
    have hrest := rest_ne_nil_of_methodEnd hclean
    have hafter := (h.walk hreceiver).walk (walk_methodName _)
    simp only [Leaf.isSteady, Method.isSteady, Bool.and_eq_true, Bool.not_eq_true'] at hsteady
    obtain ⟨⟨hparams, hsignatures⟩, hdots⟩ := hsteady
    refine ⟨?_, hdots⟩
    simp only [Leaf.isPrintable, Method.isPrintable, Bool.and_eq_true]
    refine ⟨⟨(h.walk hreceiver).methodName hname, ?_⟩, hb.signatures_isPrintable hsignatures⟩
    rw [List.all_eq_true] at hparams ⊢
    intro p hp
    exact hafter.parameters hrest p hp (hparams p hp)

theorem sound_attributes (hb : b.Sound) (kind : AttributeKind) (start : Position)
    (visibility : Visibility) : (c.attributes kind start visibility b).Sound := by
  dsimp only [attributes]
  split
  · exact Statement.sound_nothing hb.clearSignatures
  · next hnames =>
    refine Statement.sound_leaf hb.clearSignatures fun hsteady => ?_
    simp only [Leaf.isSteady, Attribute.isSteady, Bool.and_eq_true] at hsteady
    simp only [Leaf.isPrintable, Attribute.isPrintable, Bool.and_eq_true, Bool.not_eq_true']
    exact ⟨⟨⟨Bool.eq_false_iff.2 hnames, hsteady.1⟩, hb.signatures_isPrintable hsteady.2⟩, rfl⟩

/-! ### Scopes -/

theorem InText.sound_moduleHeader (h : c.InText) (hb : b.Sound) : (c.moduleHeader b).Sound := by
  dsimp only [moduleHeader]
  split
  · exact Statement.sound_nothing hb
  · next name hname =>
    have hpath := (h.walk c.walk_advance).constantPath hname
    exact Statement.sound_opens hb fun _ _ _ => hpath

/-- A superclass is captured behind the mark in front of it. -/
theorem InText.superclass (h : c.InText) (hclean : c.superclass.2.IsClean)
    (hrest : c.superclass.2.rest ≠ []) {parent : String} (hparent : c.superclass.1 = some parent) :
    parent ≠ "" ∧ isCaptured stopsNever ")" parent = true ∧
      (endsLine parent = true → isCaptured stopsNever "\n" parent = true) := by
  unfold Cursor.superclass at hclean hrest hparent
  split at hparent
  · next hk =>
    simp only [hk, if_true] at hclean hrest
    obtain rfl := Option.some.inj hparent
    have hrecaptures := (h.advance (d := '<') (by rw [eq_of_beq hk]; rfl) (by decide)).recaptures
      stopsNever
    have hne : c.advance.captureAll.1 ≠ "" := by simpa using of_reportIf hclean
    refine ⟨hne, hrecaptures.paren ?_, fun hline => (hrecaptures.line hne hline).2⟩
    exact (walk_reportIf _ _ _ (by simp)).rest_ne_nil hrest
  · cases hparent

theorem InText.sound_classHeader (h : c.InText) (hb : b.Sound)
    (hclean : (c.classHeader b).cursor.IsClean) : (c.classHeader b).Sound := by
  revert hclean
  dsimp only [classHeader]
  split
  · intro _
    exact Statement.sound_nothing hb
  · next name hname =>
    rw [Statement.cursor_opens]
    intro hclean
    refine Statement.sound_opens hb fun hrest closed hsteady => ?_
    have hnext := h.walk c.walk_advance
    simp only [Scope.isSteady, Scope.isPrintable, Bool.and_eq_true] at hsteady ⊢
    refine ⟨hnext.constantPath hname, ?_⟩
    rw [Option.all_eq_true] at hsteady ⊢
    intro parent hmem
    obtain ⟨hne, hparen, hline⟩ := (hnext.walk (walk_constantPath _)).superclass
      ((walk_endStatement _).clean hclean) ((walk_endStatement _).rest_ne_nil hrest) hmem
    cases closed with
    | true => simpa [hne] using hparen
    | false => simpa [hne] using hline (by simpa using hsteady parent hmem)

theorem sound_singletonHeader (hb : b.Sound) : (c.singletonHeader b).Sound := by
  dsimp only [singletonHeader]
  split
  · exact Statement.sound_opens hb fun _ _ _ => rfl
  · exact Statement.sound_nothing hb

/-! ### Constants -/

theorem sound_structHeader (hb : b.Sound) {name : String} (hname : isConstant name = true)
    (start : Position) : (c.structHeader name start b).Sound := by
  have hscope (args : List String) : (structOfArguments name args).Sound := by
    intro closed hsteady
    simp only [structOfArguments, Scope.isSteady] at hsteady
    simp only [structOfArguments, Scope.isPrintable, hname, hsteady, Bool.and_self]
  dsimp only [structHeader]
  split
  · exact Statement.sound_opens hb fun _ => hscope _
  · exact Statement.sound_scope hb (hscope _)

theorem exists_of_callsStruct {ts later : List Token} (hrest : c.rest = ts ++ later)
    (h : callsStruct (ts.map Token.piece) = true) :
    (c.kind == .const && c.text == "Struct" && c.nthKind 1 == .dot && (c.nth 2).text == "new")
      = true := by
  unfold Cursor.kind Cursor.text Cursor.peek nthKind nth
  rw [hrest]
  match ts with
  | [] => simp [callsStruct] at h
  | [a] => simp [callsStruct] at h
  | [a, b] => simp [callsStruct] at h
  | a :: b :: d :: ts => simpa [callsStruct, Token.piece] using h

/-- Tokens that make a struct class make one in front of any others. -/
theorem atStructClass_of_makesStruct {ts later : List Token} (hrest : c.rest = ts ++ later)
    (h : makesStruct (ts.map Token.piece) = true) : c.atStructClass = true := by
  unfold makesStruct at h
  split at h
  · next text ps hts =>
    obtain ⟨t, ts, rfl, ht, rfl⟩ := List.map_eq_cons_iff.1 hts
    have hk : t.kind = .pathSeparator := (Piece.token.inj ht).1
    have hkind : c.kind = .pathSeparator := by rw [kind_eq_headKind, hrest]; exact hk
    have hnext : c.advance.rest = ts ++ later := by simp [Cursor.advance, skip, hrest]
    rw [Cursor.atStructClass, eat_of_kind hkind]
    exact exists_of_callsStruct hnext h
  · have hcalls := exists_of_callsStruct hrest h
    have hkind : c.kind ≠ .pathSeparator := by
      intro heq
      simp [heq] at hcalls
    simpa only [Cursor.atStructClass, eat, beq_false_of_ne hkind, Bool.false_eq_true, if_false]
      using hcalls

/-- A value makes no struct class, if none is made where it stands. -/
theorem IsApart.definesStruct_captureAll (h : c.IsApart) (hstruct : c.atStructClass = false)
    (hne : c.captureAll.1 ≠ "") (hline : endsLine c.captureAll.1 = true) :
    definesStruct c.captureAll.1 = false := by
  obtain ⟨ps, hps, -, hrow⟩ := h.exists_line hne hline
  have heq : definesStruct c.captureAll.1 = makesStruct (tokenPieces ps) := definesStruct_eq hrow
  rw [heq, hps]
  refine Bool.eq_false_iff.2 fun hmakes => ?_
  have := atStructClass_of_makesStruct (List.take_append_drop _ c.rest).symm hmakes
  rw [hstruct] at this
  cases this

theorem InText.sound_constant (h : c.InText) (hb : b.Sound) (hk : c.kind = .const)
    (hequals : c.nthKind 1 = .equals) (hclean : (c.constant b).cursor.IsClean) :
    (c.constant b).Sound := by
  obtain ⟨previous, ys, hcut, hkind⟩ := h.peek (by simp [hk])
  have hname : isConstant c.text = true := hcut.isConstant (hkind.trans hk)
  have hapart : c.advance.advance.IsApart :=
    (h.walk c.walk_advance).advance (by rw [← nthKind_one, hequals]; rfl) (by decide)
  revert hclean
  dsimp only [constant]
  split
  · intro _
    exact sound_structHeader hb hname _
  · next hstruct =>
    intro hclean
    rw [Statement.cursor_declares] at hclean
    have hne : c.advance.advance.captureAll.1 ≠ "" := by simpa using of_reportIf hclean
    have hvalue (hline : endsLine c.advance.advance.captureAll.1 = true) :
        isCaptured stopsNever "\n" c.advance.advance.captureAll.1 = true :=
      ((hapart.recaptures stopsNever).line hne hline).2
    refine Statement.sound_leaf hb fun hsteady => ?_
    by_cases hmember : isTypeMember c.advance.advance.captureAll.1 = true
    · rw [if_pos hmember] at hsteady ⊢
      simp only [Leaf.isSteady] at hsteady
      simp [Leaf.isPrintable, Leaf.runsTogether, hname, hvalue hsteady, hmember]
    · rw [if_neg hmember] at hsteady ⊢
      simp only [Leaf.isSteady] at hsteady
      have hdefines := hapart.definesStruct_captureAll (Bool.eq_false_iff.2 hstruct) hne hsteady
      simp [Leaf.isPrintable, Leaf.runsTogether, hname, hne, hvalue hsteady, hmember, hdefines]

/-! ### Calls -/

/-- Arguments behind which a statement ends. -/
theorem InText.areArguments (h : c.InText) (hend : c.callArguments.2.kind ≠ .doWord)
    (hsteady : areSteadyArguments c.callArguments.1 = true) :
    areArguments c.callArguments.1 = true := by
  simp only [areSteadyArguments, Bool.and_eq_true] at hsteady
  obtain ⟨hlast, hfirst⟩ := hsteady
  refine (h.callArguments hend ?_).areArguments hlast ?_
  all_goals
    cases hhead : c.callArguments.1.head? with
    | none => rfl
    | some arg => simp_all

theorem kind_ne_of_endStatement {k : TokenKind} (hk : (k.endsStatement || k == .comment) = false)
    (h : c.endStatement.IsClean) : c.kind ≠ k := by
  intro heq
  have hend := atStatementEnd_of_endStatement h
  rw [atStatementEnd, heq, hk] at hend
  cases hend

theorem InText.sound_mixins (h : c.InText) (hb : b.Sound) {kind : MixinKind}
    (hclean : (c.mixins kind b).cursor.IsClean) : (c.mixins kind b).Sound := by
  revert hclean
  dsimp only [mixins]
  split
  · intro _
    exact Statement.sound_nothing hb
  · next hnames =>
    rw [Statement.cursor_declares]
    intro hclean
    have hend := kind_ne_of_endStatement (k := .doWord) rfl hclean
    refine Statement.sound_leaf hb fun hsteady => ?_
    have hargs := (h.walk c.walk_advance).areArguments hend hsteady
    simp [Leaf.isPrintable, Leaf.runsTogether, hargs, Bool.eq_false_iff.2 hnames]

theorem InText.sound_requiredAncestor (h : c.InText) (hb : b.Sound)
    (hclean : (c.requiredAncestor b).cursor.IsClean) : (c.requiredAncestor b).Sound := by
  revert hclean
  dsimp only [requiredAncestor]
  by_cases hk : c.advance.kind = .leftBrace
  · simp only [expect_of_kind hk, if_true]
    rw [Statement.cursor_declares]
    intro hclean
    refine Statement.sound_leaf hb fun _ => ⟨?_, rfl⟩
    have hclose := kind_of_expect ((walk_endStatement _).clean hclean)
    have hapart : c.advance.advance.IsApart :=
      (h.walk c.walk_advance).advance (by rw [hk]; rfl) (by decide)
    exact (hapart.recaptures stopsNever).paren (rest_ne_nil (hclose.trans_ne (by decide)))
  · simp only [expect, beq_false_of_ne hk, Bool.false_eq_true, if_false]
    intro _
    exact Statement.sound_nothing hb

/-- Options that all give a default value give one, unless there are none. -/
theorem eq_nil_of_options {options : List String}
    (hall : (options.filter fun option => (defaultOption? option).isNone) = [])
    (hnone : (options.filterMap defaultOption?).getLast? = none) : options = [] := by
  rw [List.getLast?_eq_none_iff, List.filterMap_eq_nil_iff] at hnone
  rw [List.filter_eq_nil_iff] at hall
  rw [List.eq_nil_iff_forall_not_mem]
  intro option hmem
  exact hall option hmem (by simp [hnone option hmem])

/-- A field, if all of its options give a default value. -/
theorem isPrintable_field {kind : FieldKind} {name type : String} {options : List String}
    (hargs : AreRecaptured (name :: type :: options))
    (hall : (options.filter fun option => (defaultOption? option).isNone) = [])
    (hsteady : Field.isSteady
      ⟨kind, symbolName name, type, (options.filterMap defaultOption?).getLast?⟩ = true) :
    Field.isPrintable
      ⟨kind, symbolName name, type, (options.filterMap defaultOption?).getLast?⟩ = true := by
  have htype : type.isEmpty = false := String.isEmpty_eq_false_iff.2 (hargs.nonempty type (by simp))
  revert hsteady
  cases hvalue : (options.filterMap defaultOption?).getLast? with
  | none =>
    intro hsteady
    obtain rfl := eq_nil_of_options hall hvalue
    simp only [Field.isSteady, Bool.and_eq_true] at hsteady
    obtain ⟨hparen, hline⟩ := hargs.last type (by simp) hsteady.2
    simp [Field.isPrintable, hsteady.1, htype, hparen, hline]
  | some value =>
    intro hsteady
    have hmem := List.mem_of_getLast? hvalue
    obtain ⟨option, hoption, hdefault⟩ := List.mem_filterMap.1 hmem
    obtain ⟨text, -, rfl⟩ := Option.map_eq_some_iff.1 hdefault
    -- The type is not the last of the arguments.
    have hparen : isCaptured endsArgument ")" type = true := by
      obtain ⟨next, options, rfl⟩ := List.exists_cons_of_ne_nil (List.ne_nil_of_mem hoption)
      exact hargs.inner type (by simp)
    simp only [Field.isSteady, Bool.and_eq_true] at hsteady
    simp [Field.isPrintable, hsteady, htype, hparen, Text.trim_trim]

theorem InText.sound_structField (h : c.InText) (hb : b.Sound) {kind : FieldKind}
    (hsymbol : c.nthKind 1 = .symbol) (hclean : (c.structField kind b).cursor.IsClean) :
    (c.structField kind b).Sound := by
  have hnext := h.walk c.walk_advance
  have hkind : c.advance.kind = .symbol := by rw [← nthKind_one, hsymbol]
  have hargs : AreRecaptured c.advance.callArguments.1 := by
    have hfirst := (hnext.isApart (by simp [hkind])).recaptures endsArgument
    simpa [Cursor.callArguments, hkind] using hnext.arguments hfirst
  revert hclean
  dsimp only [structField]
  split
  · next name type options heq =>
    rw [Statement.cursor_declares]
    intro hclean
    rw [heq] at hargs
    refine Statement.sound_leaf hb fun hsteady => ⟨?_, rfl⟩
    have hproblems := of_reportAll ((walk_endStatement _).clean hclean)
    exact isPrintable_field hargs (List.map_eq_nil_iff.1 hproblems) hsteady
  · intro _
    exact Statement.sound_nothing hb

theorem InText.isConstant_enumNames (h : c.InText) :
    ∀ name ∈ c.enumNames.1, isConstant name = true := by
  fun_induction enumNames c with
  | case1 => simp
  | case2 => simp
  | case3 c _ _ _ ih => exact ih (h.walk c.walk_advance)
  | case4 c _ _ _ hk more ih =>
    simp only [Bool.and_eq_true, beq_iff_eq] at hk
    obtain ⟨previous, ys, hcut, hkind⟩ := h.peek (by simp [hk.1])
    have hmore := ih (h.walk ((c.walk_skip 2).trans (walk_capture _ _)))
    exact List.forall_mem_cons.2 ⟨hcut.isConstant (hkind.trans hk.1), hmore⟩
  | case5 c _ _ _ _ ih =>
    exact ih (h.walk ((c.walk_report _ (by simp)).trans (walk_recover _)))

theorem InText.sound_enumBlock (h : c.InText) (hb : b.Sound) : (c.enumBlock b).Sound := by
  refine Statement.sound_leaf hb fun _ => ⟨?_, rfl⟩
  rw [Leaf.isPrintable, List.all_eq_true]
  exact (h.walk (c.walk_skip 2)).isConstant_enumNames

theorem InText.sound_call (h : c.InText) (hb : b.Sound) (hk : c.kind = .name)
    (hclean : (c.call b).cursor.IsClean) : (c.call b).Sound := by
  dsimp only [call] at hclean ⊢
  rw [Statement.cursor_declares] at hclean
  have hend : c.advance.callArguments.2.kind ≠ .doWord := by
    intro heq
    simp only [heq, beq_self_eq_true, if_true] at hclean
    exact not_isClean_report _ _
      (((walk_advance _).trans (walk_skipBlock _ _ (by simp))).clean hclean)
  refine Statement.sound_leaf hb fun hsteady => ?_
  simp only [Leaf.isSteady, Bool.and_eq_true] at hsteady
  obtain ⟨previous, ys, hcut, hkind⟩ := h.peek (by simp [hk])
  have hword : isCallWord c.text = true := hcut.isCallWord (hkind.trans hk)
  have hargs := (h.walk c.walk_advance).areArguments hend hsteady.2
  simp [Leaf.isPrintable, Leaf.runsTogether, hword, hsteady.1, hargs]

theorem InText.sound_helperCall (h : c.InText) (hb : b.Sound) (hk : c.kind = .name)
    (hhelper : c.atHelper = true) : (c.helperCall b).Sound := by
  refine Statement.sound_leaf hb fun _ => ⟨?_, rfl⟩
  obtain ⟨previous, ys, hcut, hkind⟩ := h.peek (by simp [hk])
  simp only [atHelper, Bool.and_eq_true, beq_iff_eq] at hhelper
  exact hcut.isSmallIdentifier (hkind.trans hk) hhelper.1

theorem InText.sound_signatureLine (h : c.InText) (hb : b.Sound)
    (hclean : (c.signatureLine b).cursor.IsClean) : (c.signatureLine b).Sound := by
  refine Statement.sound_nothing ⟨hb.comments, fun s hs => ?_⟩
  rcases List.mem_append.1 hs with hs | hs
  · exact hb.signatures s hs
  · exact h.signature hclean s (Option.mem_toList.1 hs)

/-- **One statement.** Whatever a statement declares is printable if it is steady. -/
theorem InText.sound_statement (h : c.InText) (hb : b.Sound)
    (hclean : (c.statement b).cursor.IsClean) : (c.statement b).Sound :=
  Forms.statement (P := fun s => s.cursor.IsClean → s.Sound)
    { moduleHeader := fun _ => h.sound_moduleHeader hb
      classHeader := h.sound_classHeader hb
      singletonHeader := fun _ => sound_singletonHeader hb
      constant := h.sound_constant hb
      method := h.sound_method hb
      attributes _ := fun _ => sound_attributes hb _ _ _
      visibility _ := fun _ => Statement.sound_nothing ⟨hb.comments, hb.signatures⟩
      visibleMethod _ _ _ _ := by
        rw [Statement.cursor_afterVisibility]
        intro hclean
        exact Statement.sound_afterVisibility ((h.walk c.walk_advance).sound_method hb hclean)
      visibleAttributes _ _ _ _ _ _ := fun _ =>
        Statement.sound_afterVisibility (sound_attributes hb _ _ _)
      signatureLine := h.sound_signatureLine hb
      mixins _ := h.sound_mixins hb
      requiredAncestor := h.sound_requiredAncestor hb
      structField _ := h.sound_structField hb
      enumBlock := fun _ => h.sound_enumBlock hb
      helperCall hk hhelper := fun _ => h.sound_helperCall hb hk hhelper
      call hk := h.sound_call hb hk
      noDeclaration := fun _ => Statement.sound_nothing hb } hclean

end Statements

end Cursor

end StubMerge
