import StubMerge.Data.AppendNew
import StubMerge.Declaration.Kind

/-!
# When two declarations agree

Two declarations of one name agree when one can stand for both: they say the same, or one says
nothing where the other says something. `Kind.agrees` decides that, and `Kind.fold` gives the
declaration that stands for both. Signatures may be missing on one side, and the values of an
enumeration are united.
-/

namespace StubMerge

/-- Signatures agree if one side has none or both have the same. -/
def signaturesAgree (left right : List Signature) : Bool :=
  left.isEmpty || right.isEmpty || left == right

/-- Whether two scope headers agree. The spelling of the name is not compared. -/
def Scope.agrees : Scope → Scope → Bool
  | moduleOf _, moduleOf _ => true
  | classOf _ left, classOf _ right => left == right
  | structOf _ leftMembers leftInit, structOf _ rightMembers rightInit =>
    leftMembers == rightMembers && leftInit == rightInit
  | singleton, singleton => true
  | _, _ => false

/-- Whether two leaves agree. -/
def Leaf.agrees : Leaf → Leaf → Bool
  | const leftName leftValue, const rightName rightValue =>
    leftName == rightName && leftValue == rightValue
  | typeMember leftName leftValue, typeMember rightName rightValue =>
    leftName == rightName && leftValue == rightValue
  | method left, method right =>
    left.name == right.name && left.params == right.params
      && signaturesAgree left.signatures right.signatures
  | attr left, attr right =>
    left.kind == right.kind && left.names == right.names
      && signaturesAgree left.signatures right.signatures
  | mixin leftKind leftNames, mixin rightKind rightNames =>
    leftKind == rightKind && leftNames == rightNames
  | helper left, helper right => left == right
  | requiresAncestor left, requiresAncestor right => left == right
  | send leftName leftArgs, send rightName rightArgs =>
    leftName == rightName && leftArgs == rightArgs
  | field left, field right => left == right
  | enums _, enums _ => true
  | _, _ => false

/-- Whether two nodes agree. -/
def Kind.agrees : Kind → Kind → Bool
  | scope left, scope right => left.agrees right
  | leaf left, leaf right => left.agrees right
  | _, _ => false

/-- A leaf with what a leaf that agrees with it says besides. -/
def Leaf.fold : Leaf → Leaf → Leaf
  | method left, method right =>
    method { left with signatures := left.signatures.appendNew right.signatures }
  | attr left, attr right =>
    attr { left with signatures := left.signatures.appendNew right.signatures }
  | enums left, enums right => enums (left.appendNew right)
  | left, _ => left

/-- A node with what a node that agrees with it says besides. -/
def Kind.fold : Kind → Kind → Kind
  | leaf left, leaf right => leaf (left.fold right)
  | left, _ => left

end StubMerge
