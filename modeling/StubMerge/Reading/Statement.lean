import StubMerge.Reading.SignatureBlock
import StubMerge.Reading.MethodHeader

/-!
# Reading one statement

A statement is read at its first token. It declares something by itself, or opens a scope whose
body follows, or declares nothing: a signature waits for the method below it, a visibility word
alone changes what follows, and what cannot be understood is skipped.

A `Body` carries what a statement inherits from the statements before it in the same scope.
-/

namespace StubMerge

/-- What the next declaration of a scope inherits from the lines above it. -/
structure Body where
  visibility : Visibility := .everyone
  comments : List String := []
  signatures : List Signature := []
deriving DecidableEq, Repr, Inhabited

/-- The header of a scope whose body follows. -/
structure Opening where
  scope : Scope
  comments : List String
  start : Position
deriving DecidableEq, Repr, Inhabited

/-- What a statement was. -/
inductive Outcome where
  /-- It declares nothing. -/
  | nothing
  /-- It declares something and is over. -/
  | declares (entry : Entry)
  /-- It opens a scope. -/
  | opens (opening : Opening)
  /-- It is a visibility word in front of something that declares nothing. -/
  | broken
deriving DecidableEq, Repr, Inhabited

/-- A statement that was read: what it was, what it leaves to the next one, and the cursor after
it. -/
structure Statement where
  outcome : Outcome
  body : Body
  cursor : Cursor

namespace Statement

/-- A statement that declares nothing. -/
def nothing (b : Body) (c : Cursor) : Statement := ⟨.nothing, b, c⟩

/-- A statement that declares `kind`, read from `start` on. It takes the comments. -/
def declares (kind : Kind) (start : Position) (b : Body) (c : Cursor) : Statement :=
  ⟨.declares { kind, comments := b.comments, location := some (c.location start) },
    { b with comments := [] }, c⟩

/-- A statement that opens `scope`, read from `start` on. It takes the comments. -/
def opens (scope : Scope) (start : Position) (b : Body) (c : Cursor) : Statement :=
  ⟨.opens ⟨scope, b.comments, start⟩, { b with comments := [] }, c⟩

/-- What a visibility word in front of a statement makes of it. One that declares nothing leaves
the word without anything to apply to. -/
def afterVisibility (s : Statement) : Statement :=
  match s.outcome with
  | .nothing => { s with outcome := .broken }
  | _ => s

@[simp] theorem cursor_nothing (b : Body) (c : Cursor) : (nothing b c).cursor = c := rfl

@[simp] theorem cursor_declares (kind : Kind) (start : Position) (b : Body) (c : Cursor) :
    (declares kind start b c).cursor = c := rfl

@[simp] theorem cursor_opens (scope : Scope) (start : Position) (b : Body) (c : Cursor) :
    (opens scope start b c).cursor = c := rfl

@[simp] theorem cursor_afterVisibility (s : Statement) : s.afterVisibility.cursor = s.cursor := by
  unfold afterVisibility; split <;> rfl

end Statement

namespace Cursor

/-! ## Scopes -/

/-- The rest of a constant path whose current token is a constant. -/
def pathSegments (c : Cursor) : String × Cursor :=
  if _h : c.advance.kind = .pathSeparator then
    if c.advance.nthKind 1 == .const then
      let more := c.advance.advance.pathSegments
      (c.text ++ "::" ++ more.1, more.2)
    else (c.text, c.advance)
  else (c.text, c.advance)
termination_by c.remaining
decreasing_by
  have := remaining_pos_of_kind _h (by decide)
  simp only [remaining_advance] at *
  omega

theorem remaining_pathSegments_le (c : Cursor) : c.pathSegments.2.remaining ≤ c.remaining := by
  fun_induction pathSegments c with
  | case1 c _ _ more ih =>
    simp only [remaining_advance] at ih
    exact Nat.le_trans ih (by omega)
  | case2 c => simp
  | case3 c => simp

/-- A path of constants, if there is one; otherwise that is reported. -/
def constantPath (c : Cursor) : Option String × Cursor :=
  let mark := c.eat .pathSeparator
  if mark.2.kind == .const then
    let path := mark.2.pathSegments
    (some ((if mark.1 then "::" else "") ++ path.1), path.2)
  else (none, mark.2.report .expectedConstantName)

theorem remaining_constantPath_le (c : Cursor) : c.constantPath.2.remaining ≤ c.remaining := by
  have h := remaining_eat_le .pathSeparator c
  dsimp only [constantPath]
  split
  · exact Nat.le_trans (remaining_pathSegments_le _) h
  · exact h

/-- A module header. -/
def moduleHeader (b : Body) (c : Cursor) : Statement :=
  let path := c.advance.constantPath
  match path.1 with
  | none => .nothing b path.2.recover
  | some name => .opens (.moduleOf name) c.peek.start b path.2.endStatement

/-- The superclass of a class, if it has one. -/
def superclass (c : Cursor) : Option String × Cursor :=
  if c.kind == .less then
    let parent := c.advance.captureAll
    (some parent.1, parent.2.reportIf parent.1.isEmpty .expectedSuperclass)
  else (none, c)

/-- A class header. -/
def classHeader (b : Body) (c : Cursor) : Statement :=
  let path := c.advance.constantPath
  match path.1 with
  | none => .nothing b path.2.recover
  | some name =>
    let parent := path.2.superclass
    .opens (.classOf name parent.1) c.peek.start b parent.2.endStatement

/-- The header of a singleton class. -/
def singletonHeader (b : Body) (c : Cursor) : Statement :=
  let self := c.advance.advance.expect .selfWord .expectedSelf
  if self.1 then .opens .singleton c.peek.start b self.2.endStatement
  else .nothing b self.2.recover

theorem remaining_superclass_le (c : Cursor) : c.superclass.2.remaining ≤ c.remaining := by
  have h := remaining_captureAll_le c.advance
  rw [remaining_advance] at h
  dsimp only [superclass]
  split
  · rw [remaining_reportIf]
    exact Nat.le_trans h (Nat.sub_le _ _)
  · exact Nat.le_refl _

theorem remaining_moduleHeader_le (b : Body) (c : Cursor) :
    (moduleHeader b c).cursor.remaining ≤ c.remaining - 1 := by
  have h₁ := remaining_constantPath_le c.advance
  have h₂ := remaining_recover_le c.advance.constantPath.2
  have h₃ := remaining_endStatement_le c.advance.constantPath.2
  rw [remaining_advance] at h₁
  dsimp only [moduleHeader]
  split <;> simp <;> omega

theorem remaining_classHeader_le (b : Body) (c : Cursor) :
    (classHeader b c).cursor.remaining ≤ c.remaining - 1 := by
  have h₁ := remaining_constantPath_le c.advance
  have h₂ := remaining_recover_le c.advance.constantPath.2
  have h₃ := remaining_superclass_le c.advance.constantPath.2
  have h₄ := remaining_endStatement_le c.advance.constantPath.2.superclass.2
  rw [remaining_advance] at h₁
  dsimp only [classHeader]
  split <;> simp <;> omega

theorem remaining_singletonHeader_le (b : Body) (c : Cursor) :
    (singletonHeader b c).cursor.remaining ≤ c.remaining - 1 := by
  have h₁ := remaining_expect_le .selfWord .expectedSelf c.advance.advance
  have h₂ := remaining_recover_le (c.advance.advance.expect .selfWord .expectedSelf).2
  have h₃ := remaining_endStatement_le (c.advance.advance.expect .selfWord .expectedSelf).2
  simp only [remaining_advance] at h₁
  dsimp only [singletonHeader]
  split <;> simp <;> omega

/-! ## Constants -/

/-- Whether a constant is set to a new struct class. -/
def atStructClass (c : Cursor) : Bool :=
  let c := (c.eat .pathSeparator).2
  c.kind == .const && c.text == "Struct" && c.nthKind 1 == .dot && (c.nth 2).text == "new"

/-- Whether an argument of a struct class says how its members are given, and what it says. -/
def keywordInit? (arg : String) : Option Bool :=
  (Text.after? "keyword_init:" arg).map fun value => Text.trim value == "true"

/-- The problems with the arguments of a struct class that are neither members nor say how
members are given. -/
def structProblems (args : List String) : List Problem :=
  (args.filter fun arg => (keywordInit? arg).isNone && !isSymbol arg).map .ignoredStructArgument

/-- The struct class called `name` that the arguments of its definition describe. -/
def structOfArguments (name : String) (args : List String) : Scope :=
  .structOf name ((args.filter isSymbol).map symbolName)
    ((args.filterMap keywordInit?).getLast?.getD false)

/-- The arguments in parentheses, if there are any. -/
def argumentGroup (c : Cursor) : List String × Cursor :=
  if c.kind == .leftParen then c.callArguments else ([], c)

/-- A struct class called `name`; the current token is the first behind the equals sign. Its
body, if it has one, follows the word that opens a block. -/
def structHeader (name : String) (start : Position) (b : Body) (c : Cursor) : Statement :=
  let args := ((c.eat .pathSeparator).2.skip 3).argumentGroup
  let scope := structOfArguments name args.1
  let here := args.2.reportAll (structProblems args.1)
  if here.kind == .doWord then .opens scope start b here.advance.endStatement
  else .declares (.scope scope) start b here

/-- Whether a value makes its constant a type member: what it calls decides. -/
def isTypeMember (value : String) : Bool :=
  let callee := String.ofList (value.toList.takeWhile isIdentifierRest)
  callee == "type_member" || callee == "type_template"

/-- A constant, a type member or a struct class. -/
def constant (b : Body) (c : Cursor) : Statement :=
  let name := c.text
  let start := c.peek.start
  let after := c.advance.advance
  if after.atStructClass then after.structHeader name start b
  else
    let value := after.captureAll
    let leaf := if isTypeMember value.1 then Leaf.typeMember name value.1 else .const name value.1
    .declares (.leaf leaf) start b (value.2.reportIf value.1.isEmpty (.expectedValue name))

theorem remaining_argumentGroup_le (c : Cursor) : c.argumentGroup.2.remaining ≤ c.remaining := by
  unfold argumentGroup
  split
  · exact remaining_callArguments_le c
  · exact Nat.le_refl _

theorem remaining_structHeader_le (name : String) (start : Position) (b : Body) (c : Cursor) :
    (c.structHeader name start b).cursor.remaining ≤ c.remaining := by
  have h₁ := remaining_eat_le .pathSeparator c
  have h₂ := remaining_argumentGroup_le ((c.eat .pathSeparator).2.skip 3)
  rw [remaining_skip] at h₂
  dsimp only [structHeader]
  split
  · rw [Statement.cursor_opens]
    refine Nat.le_trans (remaining_endStatement_le _) ?_
    rw [remaining_advance, remaining_reportAll]
    omega
  · rw [Statement.cursor_declares, remaining_reportAll]
    omega

theorem remaining_constant_le (b : Body) (c : Cursor) :
    (constant b c).cursor.remaining ≤ c.remaining - 1 := by
  have h₁ := remaining_structHeader_le c.text c.peek.start b c.advance.advance
  have h₂ := remaining_captureAll_le c.advance.advance
  simp only [remaining_advance] at h₁ h₂
  dsimp only [constant]
  split
  · omega
  · rw [Statement.cursor_declares, remaining_reportIf]
    omega

/-! ## Methods and attributes -/

/-- The end of a method header and the body, which declares nothing and is skipped. -/
def methodEnd (c : Cursor) : Cursor :=
  if c.kind == .endWord then c.advance else c.endStatement.skipBlock (some .ignoredBody)

/-- A method, read from `start` on; the current token is the word that starts it. -/
def method (start : Position) (visibility : Visibility) (b : Body) (c : Cursor) : Statement :=
  let isSingleton := c.advance.kind == .selfWord && c.advance.nthKind 1 == .dot
  let receiver := if isSingleton then c.advance.skip 2 else c.advance
  let name := receiver.methodName
  match name.1 with
  | none => .nothing b (name.2.report .expectedMethodName).recover
  | some text =>
    let params := name.2.parameters
    let m : Method :=
      { name := text, isSingleton, visibility, params := params.1, signatures := b.signatures }
    .declares (.leaf (.method m)) start { b with signatures := [] } params.2.methodEnd

/-- The problems with the arguments of an attribute that are no symbols. -/
def symbolProblems (args : List String) : List Problem :=
  (args.filter fun arg => !isSymbol arg).map .expectedSymbol

/-- Attributes, read from `start` on; the current token is the word that declares them. -/
def attributes (kind : AttributeKind) (start : Position) (visibility : Visibility) (b : Body)
    (c : Cursor) : Statement :=
  let args := c.advance.callArguments
  let names := (args.1.filter isSymbol).map symbolName
  let here := args.2.reportAll (symbolProblems args.1)
  if names.isEmpty then
    .nothing { b with signatures := [] } (here.report (.attributeWithoutNames kind.word))
  else
    let a : Attribute := { kind, names, visibility, signatures := b.signatures }
    .declares (.leaf (.attr a)) start { b with signatures := [] } here.endStatement

theorem remaining_methodEnd_le (c : Cursor) : c.methodEnd.remaining ≤ c.remaining := by
  have h₁ := remaining_endStatement_le c
  have h₂ := remaining_skipBlock_le (some .ignoredBody) c.endStatement
  unfold methodEnd
  split
  · rw [remaining_advance]
    omega
  · exact Nat.le_trans h₂ h₁

theorem remaining_method_le (start : Position) (visibility : Visibility) (b : Body) (c : Cursor) :
    (method start visibility b c).cursor.remaining ≤ c.remaining - 1 := by
  have h : (if c.advance.kind == .selfWord && c.advance.nthKind 1 == .dot then c.advance.skip 2
      else c.advance).remaining ≤ c.remaining - 1 := by
    split
    · simp only [remaining_skip, remaining_advance]
      omega
    · exact Nat.le_of_eq (remaining_advance c)
  dsimp only [method]
  split
  · refine Nat.le_trans (remaining_recover_le _) ?_
    rw [remaining_report]
    exact Nat.le_trans (Nat.sub_le _ _) (Nat.le_trans (remaining_methodName_le _) h)
  · refine Nat.le_trans (remaining_methodEnd_le _) ?_
    refine Nat.le_trans (remaining_parameters_le _) ?_
    exact Nat.le_trans (remaining_methodName_le _) h

theorem remaining_attributes_le (kind : AttributeKind) (start : Position)
    (visibility : Visibility) (b : Body) (c : Cursor) :
    (attributes kind start visibility b c).cursor.remaining ≤ c.remaining - 1 := by
  have h := remaining_callArguments_le c.advance
  rw [remaining_advance] at h
  dsimp only [attributes]
  split
  · simpa using h
  · refine Nat.le_trans (remaining_endStatement_le _) ?_
    rw [remaining_reportAll]
    exact h

/-! ## Calls -/

/-- Mixins; the current token is the word that declares them. -/
def mixins (kind : MixinKind) (b : Body) (c : Cursor) : Statement :=
  let args := c.advance.callArguments
  if args.1.isEmpty then .nothing b (args.2.report (.mixinWithoutModule kind.word))
  else .declares (.leaf (.mixin kind args.1)) c.peek.start b args.2.endStatement

/-- A required ancestor, in braces. -/
def requiredAncestor (b : Body) (c : Cursor) : Statement :=
  let opened := c.advance.expect .leftBrace .expectedAncestorBlock
  if opened.1 then
    let name := opened.2.captureAll
    let after := (name.2.expect .rightBrace .expectedCloseBrace).2
    .declares (.leaf (.requiresAncestor name.1)) c.peek.start b after.endStatement
  else .nothing b opened.2.recover

/-- The default value that an option of a field gives. -/
def defaultOption? (option : String) : Option String :=
  (Text.after? "default:" option).map Text.trim

/-- The problems with the options of a field that give no default value. -/
def optionProblems (kind : FieldKind) (options : List String) : List Problem :=
  (options.filter fun option => (defaultOption? option).isNone).map (.ignoredOption kind.word)

/-- A field of a typed struct. -/
def structField (kind : FieldKind) (b : Body) (c : Cursor) : Statement :=
  let args := c.advance.callArguments
  match args.1 with
  | name :: type :: options =>
    let value := (options.filterMap defaultOption?).getLast?
    let f : Field := { kind, name := symbolName name, type, default := value }
    .declares (.leaf (.field f)) c.peek.start b
      (args.2.reportAll (optionProblems kind options)).endStatement
  | _ => .nothing b (args.2.report (.incompleteField kind.word))

/-- The names of enumerated values, up to and with the word that ends their block. -/
def enumNames (c : Cursor) : List String × Cursor :=
  if _h : c.kind = .eof then ([], c.report .expectedEnd)
  else if c.kind == .endWord then ([], c.advance)
  else if c.kind == .newline || c.kind == .semicolon || c.kind == .comment then
    c.advance.enumNames
  else if c.kind == .const && c.nthKind 1 == .equals then
    let more := (c.skip 2).captureAll.2.enumNames
    (c.text :: more.1, more.2)
  else (c.report (.expectedEnumValue c.text)).recover.enumNames
termination_by c.remaining
decreasing_by
  all_goals have := remaining_pos _h
  · rw [remaining_advance]; omega
  · have := remaining_captureAll_le (c.skip 2)
    rw [remaining_skip] at this
    omega
  · have := remaining_recover_le (c.report (.expectedEnumValue c.text))
    rw [remaining_report] at this
    omega

/-- A block of enumerated values; two words open it. -/
def enumBlock (b : Body) (c : Cursor) : Statement :=
  let names := (c.skip 2).enumNames
  .declares (.leaf (.enums names.1)) c.peek.start b names.2

/-- A word with an exclamation mark. -/
def helperCall (b : Body) (c : Cursor) : Statement :=
  let name := Text.trimEndWhere (· == '!') c.text
  .declares (.leaf (.helper name)) c.peek.start b c.advance

/-- Any other call. A block that it is given is skipped. -/
def call (b : Body) (c : Cursor) : Statement :=
  let args := c.advance.callArguments
  let after :=
    if args.2.kind == .doWord then
      ((args.2.report (.ignoredBlock c.text)).advance).skipBlock none
    else args.2.endStatement
  .declares (.leaf (.send c.text args.1)) c.peek.start b after

theorem remaining_mixins_le (kind : MixinKind) (b : Body) (c : Cursor) :
    (mixins kind b c).cursor.remaining ≤ c.remaining - 1 := by
  have h₁ := remaining_callArguments_le c.advance
  have h₂ := remaining_endStatement_le c.advance.callArguments.2
  rw [remaining_advance] at h₁
  dsimp only [mixins]
  split <;> simp <;> omega

theorem remaining_requiredAncestor_le (b : Body) (c : Cursor) :
    (requiredAncestor b c).cursor.remaining ≤ c.remaining - 1 := by
  have h₁ := remaining_expect_le .leftBrace .expectedAncestorBlock c.advance
  rw [remaining_advance] at h₁
  dsimp only [requiredAncestor]
  split
  · refine Nat.le_trans (remaining_endStatement_le _) ?_
    refine Nat.le_trans (remaining_expect_le _ _ _) ?_
    exact Nat.le_trans (remaining_captureAll_le _) h₁
  · exact Nat.le_trans (remaining_recover_le _) (by omega)

theorem remaining_structField_le (kind : FieldKind) (b : Body) (c : Cursor) :
    (structField kind b c).cursor.remaining ≤ c.remaining - 1 := by
  have h₁ := remaining_callArguments_le c.advance
  rw [remaining_advance] at h₁
  dsimp only [structField]
  split
  · refine Nat.le_trans (remaining_endStatement_le _) ?_
    rw [remaining_reportAll]
    exact h₁
  · exact h₁

theorem remaining_enumNames_le (c : Cursor) : c.enumNames.2.remaining ≤ c.remaining := by
  fun_induction enumNames c with
  | case1 => exact Nat.le_refl _
  | case2 => simp
  | case3 c _ _ _ ih =>
    rw [remaining_advance] at ih
    omega
  | case4 c _ _ _ _ more ih =>
    have h := remaining_captureAll_le (c.skip 2)
    rw [remaining_skip] at h
    exact Nat.le_trans ih (by omega)
  | case5 c _ _ _ _ ih =>
    have h := remaining_recover_le (c.report (.expectedEnumValue c.text))
    rw [remaining_report] at h
    omega

theorem remaining_enumBlock_le (b : Body) (c : Cursor) :
    (enumBlock b c).cursor.remaining ≤ c.remaining - 1 := by
  have h := remaining_enumNames_le (c.skip 2)
  rw [remaining_skip] at h
  exact Nat.le_trans h (by omega)

theorem remaining_helperCall_le (b : Body) (c : Cursor) :
    (helperCall b c).cursor.remaining ≤ c.remaining - 1 := by
  simp [helperCall]

theorem remaining_call_le (b : Body) (c : Cursor) :
    (call b c).cursor.remaining ≤ c.remaining - 1 := by
  have h₁ := remaining_callArguments_le c.advance
  have h₂ := remaining_endStatement_le c.advance.callArguments.2
  have h₃ := remaining_skipBlock_le none
    (c.advance.callArguments.2.report (.ignoredBlock c.text)).advance
  simp only [remaining_advance, remaining_report] at h₁ h₃
  dsimp only [call]
  rw [Statement.cursor_declares]
  split <;> omega

/-! ## Statements that start with a name -/

/-- A visibility word. Alone it changes what follows; in front of a method or attributes it
applies to them only. -/
def visibilityWord (visibility : Visibility) (b : Body) (c : Cursor) : Statement :=
  let start := c.peek.start
  if (c.nthKind 1).endsStatement || c.nthKind 1 == .comment then
    .nothing { b with visibility } c.advance
  else if c.nthKind 1 == .defWord then
    (c.advance.method start visibility b).afterVisibility
  else if c.nthKind 1 == .name then
    match AttributeKind.ofWord? (c.nth 1).text with
    | some kind => (c.advance.attributes kind start visibility b).afterVisibility
    | none => c.call b
  else c.call b

/-- A statement that starts with the word for a signature. -/
def signatureLine (b : Body) (c : Cursor) : Statement :=
  let s := c.signature
  .nothing { b with signatures := b.signatures ++ s.1.toList } s.2

/-- Whether the current word is a helper: it ends in an exclamation mark, and nothing follows. -/
def atHelper (c : Cursor) : Bool :=
  c.text.toList.getLast? == some '!' && ((c.nthKind 1).endsStatement || c.nthKind 1 == .comment)

/-- A call that none of the words for declarations starts. -/
def otherCall (b : Body) (c : Cursor) : Statement :=
  if c.atHelper then c.helperCall b else c.call b

/-- A statement that starts with a name. -/
def nameStatement (b : Body) (c : Cursor) : Statement :=
  match c.text with
  | "sig" => c.signatureLine b
  | "public" => c.visibilityWord .everyone b
  | "protected" => c.visibilityWord .family b
  | "private" => c.visibilityWord .owner b
  | "attr_reader" => c.attributes .reader c.peek.start b.visibility b
  | "attr_writer" => c.attributes .writer c.peek.start b.visibility b
  | "attr_accessor" => c.attributes .accessor c.peek.start b.visibility b
  | "include" => c.mixins .included b
  | "extend" => c.mixins .extended b
  | "mixes_in_class_methods" => c.mixins .classMethods b
  | "requires_ancestor" => c.requiredAncestor b
  | "const" => if c.nthKind 1 == .symbol then c.structField .const b else c.otherCall b
  | "prop" => if c.nthKind 1 == .symbol then c.structField .prop b else c.otherCall b
  | "enums" => if c.nthKind 1 == .doWord then c.enumBlock b else c.otherCall b
  | _ => c.otherCall b

/-- Anything that cannot start a declaration. -/
def noDeclaration (b : Body) (c : Cursor) : Statement :=
  .nothing b (c.report (.expectedDeclaration c.text)).recover

/-- The statement that starts at the current token. -/
def statement (b : Body) (c : Cursor) : Statement :=
  match c.kind with
  | .moduleWord => c.moduleHeader b
  | .classWord => if c.nthKind 1 == .shiftLeft then c.singletonHeader b else c.classHeader b
  | .defWord => c.method c.peek.start b.visibility b
  | .const => if c.nthKind 1 == .equals then c.constant b else c.noDeclaration b
  | .name => c.nameStatement b
  | _ => c.noDeclaration b

/-! ## The forms of a statement -/

/-- Something holds of every form that a statement at a cursor can have. A form may rely on the
words that it is told by. -/
structure Forms (b : Body) (c : Cursor) (P : Statement → Prop) : Prop where
  moduleHeader : P (c.moduleHeader b)
  classHeader : P (c.classHeader b)
  singletonHeader : P (c.singletonHeader b)
  constant : c.kind = .const → c.nthKind 1 = .equals → P (c.constant b)
  method : P (c.method c.peek.start b.visibility b)
  attributes (kind : AttributeKind) : P (c.attributes kind c.peek.start b.visibility b)
  /-- A visibility word alone. -/
  visibility (visibility : Visibility) : P (.nothing { b with visibility } c.advance)
  /-- A visibility word in front of a method. -/
  visibleMethod (visibility : Visibility) : c.kind = .name →
    ["public", "protected", "private"].contains c.text = true → c.nthKind 1 = .defWord →
    P (c.advance.method c.peek.start visibility b).afterVisibility
  /-- A visibility word in front of attributes. -/
  visibleAttributes (visibility : Visibility) (kind : AttributeKind) : c.kind = .name →
    ["public", "protected", "private"].contains c.text = true → c.nthKind 1 = .name →
    AttributeKind.ofWord? (c.nth 1).text = some kind →
    P (c.advance.attributes kind c.peek.start visibility b).afterVisibility
  signatureLine : P (c.signatureLine b)
  mixins (kind : MixinKind) : P (c.mixins kind b)
  requiredAncestor : P (c.requiredAncestor b)
  structField (kind : FieldKind) : c.nthKind 1 = .symbol → P (c.structField kind b)
  enumBlock : P (c.enumBlock b)
  helperCall : c.kind = .name → c.atHelper = true → P (c.helperCall b)
  call : c.kind = .name → P (c.call b)
  noDeclaration : P (c.noDeclaration b)

namespace Forms

variable {b : Body} {c : Cursor} {P : Statement → Prop}

theorem visibilityWord (h : c.Forms b P) (hk : c.kind = .name)
    (hword : ["public", "protected", "private"].contains c.text = true) (visibility : Visibility) :
    P (c.visibilityWord visibility b) := by
  dsimp only [Cursor.visibilityWord]
  split
  · exact h.visibility visibility
  · split
    · next hdef => exact h.visibleMethod visibility hk hword (eq_of_beq hdef)
    · split
      · next hname =>
        split
        · next kind hkind =>
          exact h.visibleAttributes visibility kind hk hword (eq_of_beq hname) hkind
        · exact h.call hk
      · exact h.call hk

theorem otherCall (h : c.Forms b P) (hk : c.kind = .name) : P (c.otherCall b) := by
  unfold Cursor.otherCall
  split
  · next hhelper => exact h.helperCall hk hhelper
  · exact h.call hk

theorem nameStatement (h : c.Forms b P) (hk : c.kind = .name) : P (c.nameStatement b) := by
  unfold Cursor.nameStatement
  split
  · exact h.signatureLine
  · next htext => exact h.visibilityWord hk (by simp [htext]) _
  · next htext => exact h.visibilityWord hk (by simp [htext]) _
  · next htext => exact h.visibilityWord hk (by simp [htext]) _
  · exact h.attributes _
  · exact h.attributes _
  · exact h.attributes _
  · exact h.mixins _
  · exact h.mixins _
  · exact h.mixins _
  · exact h.requiredAncestor
  · split
    · next hsymbol => exact h.structField _ (eq_of_beq hsymbol)
    · exact h.otherCall hk
  · split
    · next hsymbol => exact h.structField _ (eq_of_beq hsymbol)
    · exact h.otherCall hk
  · split
    · exact h.enumBlock
    · exact h.otherCall hk
  · exact h.otherCall hk

/-- Every statement has one of the forms. -/
theorem statement (h : c.Forms b P) : P (c.statement b) := by
  unfold Cursor.statement
  split
  · exact h.moduleHeader
  · split
    · exact h.singletonHeader
    · exact h.classHeader
  · exact h.method
  · next hk =>
    split
    · next hequals => exact h.constant hk (eq_of_beq hequals)
    · exact h.noDeclaration
  · next hk => exact h.nameStatement hk
  · exact h.noDeclaration

end Forms

theorem remaining_afterVisibility_le {s : Statement} {c : Cursor}
    (h : s.cursor.remaining ≤ c.advance.remaining - 1) :
    s.afterVisibility.cursor.remaining ≤ c.remaining - 1 := by
  rw [Statement.cursor_afterVisibility]
  exact Nat.le_trans h (Nat.sub_le_sub_right (remaining_advance c ▸ Nat.sub_le _ _) 1)

/-- A statement takes at least one token, if there is one. -/
theorem remaining_statement_le (b : Body) (c : Cursor) :
    (statement b c).cursor.remaining ≤ c.remaining - 1 :=
  Forms.statement (P := fun s => s.cursor.remaining ≤ c.remaining - 1)
    { moduleHeader := remaining_moduleHeader_le b c
      classHeader := remaining_classHeader_le b c
      singletonHeader := remaining_singletonHeader_le b c
      constant _ _ := remaining_constant_le b c
      method := remaining_method_le _ _ b c
      attributes _ := remaining_attributes_le _ _ _ b c
      visibility _ := Nat.le_of_eq (remaining_advance c)
      visibleMethod _ _ _ _ := remaining_afterVisibility_le (remaining_method_le _ _ b c.advance)
      visibleAttributes _ _ _ _ _ _ :=
        remaining_afterVisibility_le (remaining_attributes_le _ _ _ b c.advance)
      signatureLine := remaining_signature_le c
      mixins _ := remaining_mixins_le _ b c
      requiredAncestor := remaining_requiredAncestor_le b c
      structField _ _ := remaining_structField_le _ b c
      enumBlock := remaining_enumBlock_le b c
      helperCall _ _ := remaining_helperCall_le b c
      call _ := remaining_call_le b c
      noDeclaration := remaining_recover_le _ }

end Cursor

end StubMerge
