import Tarracsh.SignatureParser

/-!
# Signatures as trees

The grammar of JVMS 4.7.9.1. A tree is printed as a signature, and it says which
nodes the parser should make of it: a package is joined with dots, and each nested
class is marked with `dollar`.

Which identifiers and separators are allowed is a parameter, since the parser and
the specification differ in it.
-/
namespace Tarracsh.SignatureTrees
open ByteStrings SignatureParser

mutual

/-- `ReferenceTypeSignature`. -/
inductive Reference where
  | typeVariable (identifier : Bytes)
  | baseArray (component : BaseType)
  | array (component : Reference)
  | classType (type : ClassType)

/-- `ClassTypeSignature`: the parts of the package, the outer class and the nested
ones. -/
inductive ClassType where
  | mk (packages : List Bytes) (name : Bytes) (arguments : List Argument) (nested : List Nested)

/-- `ClassTypeSignatureSuffix`, with its separator. -/
inductive Nested where
  | mk (separator : UInt8) (name : Bytes) (arguments : List Argument)

/-- `TypeArgument`. -/
inductive Argument where
  | any
  | exactly (type : Reference)
  | extending (bound : Reference)
  | super (bound : Reference)

end

/-- The parts of a package, each with its slash. -/
def printPackages (packages : List Bytes) : Bytes := packages.flatMap fun p => p ++ [code '/']

/-- Type arguments stand in angle brackets, unless there are none. -/
def printBracketed {α : Type} (items : List α) (printed : Bytes) : Bytes :=
  if items.isEmpty then [] else code '<' :: printed ++ [code '>']

mutual

def Reference.print : Reference → Bytes
  | .typeVariable identifier => code 'T' :: identifier ++ [code ';']
  | .baseArray component => [code '[', component.letter]
  | .array component => code '[' :: component.print
  | .classType type => type.print

def ClassType.print : ClassType → Bytes
  | .mk packages name arguments nested =>
      code 'L' :: (printPackages packages ++ name ++
        printBracketed arguments (printArguments arguments) ++ printNested nested ++ [code ';'])

def Nested.print : Nested → Bytes
  | .mk separator name arguments =>
      separator :: name ++ printBracketed arguments (printArguments arguments)

def Argument.print : Argument → Bytes
  | .any => [code '*']
  | .exactly type => type.print
  | .extending bound => code '+' :: bound.print
  | .super bound => code '-' :: bound.print

def printArguments : List Argument → Bytes
  | [] => []
  | a :: as => a.print ++ printArguments as

def printNested : List Nested → Bytes
  | [] => []
  | n :: ns => n.print ++ printNested ns

end

/-- A qualified name with dots. -/
def dotted : List Bytes → Bytes → Bytes
  | [], name => name
  | p :: packages, name => p ++ code '.' :: dotted packages name

mutual

/-- The node of a type. -/
def Reference.node : Reference → TypeTree
  | .typeVariable identifier => .typeVariableSignature identifier
  | .baseArray component => .arrayTypeSignature (.baseType component)
  | .array component => .arrayTypeSignature component.node
  | .classType type => type.node

def ClassType.node : ClassType → TypeTree
  | .mk packages name arguments nested => .classTypeSignature
      (.simpleClassTypeSignature (dotted packages name) false (nodeArguments arguments) ::
        nodeNested nested)

def Nested.node : Nested → TypeTree
  | .mk _ name arguments => .simpleClassTypeSignature name true (nodeArguments arguments)

def Argument.node : Argument → TypeTree
  | .any => .wildcard [javaLangObject] [.bottomSignature]
  | .exactly type => type.node
  | .extending bound => .wildcard [bound.node] [.bottomSignature]
  | .super bound => .wildcard [javaLangObject] [bound.node]

def nodeArguments : List Argument → List TypeTree
  | [] => []
  | a :: as => a.node :: nodeArguments as

def nodeNested : List Nested → List TypeTree
  | [] => []
  | n :: ns => n.node :: nodeNested ns

end

theorem printArguments_eq (as : List Argument) : printArguments as = as.flatMap Argument.print := by
  induction as with
  | nil => simp [printArguments]
  | cons a as ih => simp [printArguments, ih]

theorem printNested_eq (ns : List Nested) : printNested ns = ns.flatMap Nested.print := by
  induction ns with
  | nil => simp [printNested]
  | cons n ns ih => simp [printNested, ih]

theorem nodeArguments_eq (as : List Argument) : nodeArguments as = as.map Argument.node := by
  induction as with
  | nil => simp [nodeArguments]
  | cons a as ih => simp [nodeArguments, ih]

theorem nodeNested_eq (ns : List Nested) : nodeNested ns = ns.map Nested.node := by
  induction ns with
  | nil => simp [nodeNested]
  | cons n ns ih => simp [nodeNested, ih]

/-- Which identifiers may stand where, and what may separate nested classes. -/
structure Rules where
  package : Bytes → Prop
  name : Bytes → Prop
  parameter : Bytes → Prop
  separator : UInt8 → Prop

section Obeys
variable (L : Rules)

mutual

/-- Every identifier and separator of the tree is allowed. -/
inductive Reference.Obeys : Reference → Prop where
  | typeVariable {identifier : Bytes} :
      L.parameter identifier → Reference.Obeys (.typeVariable identifier)
  | baseArray (component : BaseType) : Reference.Obeys (.baseArray component)
  | array {component : Reference} :
      Reference.Obeys component → Reference.Obeys (.array component)
  | classType {type : ClassType} : ClassType.Obeys type → Reference.Obeys (.classType type)

inductive ClassType.Obeys : ClassType → Prop where
  | mk {packages : List Bytes} {name : Bytes} {arguments : List Argument} {nested : List Nested} :
      (∀ p ∈ packages, L.package p) → L.name name → (∀ a ∈ arguments, Argument.Obeys a) →
      (∀ n ∈ nested, Nested.Obeys n) → ClassType.Obeys (.mk packages name arguments nested)

inductive Nested.Obeys : Nested → Prop where
  | mk {separator : UInt8} {name : Bytes} {arguments : List Argument} :
      L.separator separator → L.name name → (∀ a ∈ arguments, Argument.Obeys a) →
      Nested.Obeys (.mk separator name arguments)

inductive Argument.Obeys : Argument → Prop where
  | any : Argument.Obeys .any
  | exactly {type : Reference} : Reference.Obeys type → Argument.Obeys (.exactly type)
  | extending {bound : Reference} : Reference.Obeys bound → Argument.Obeys (.extending bound)
  | super {bound : Reference} : Reference.Obeys bound → Argument.Obeys (.super bound)

end

end Obeys

/-- `JavaTypeSignature`. -/
inductive JavaType where
  | base (type : BaseType)
  | reference (type : Reference)

namespace JavaType

def print : JavaType → Bytes
  | .base type => [type.letter]
  | .reference type => type.print

def node : JavaType → TypeTree
  | .base type => .baseType type
  | .reference type => type.node

inductive Obeys (L : Rules) : JavaType → Prop where
  | base (type : BaseType) : Obeys L (.base type)
  | reference {type : Reference} : type.Obeys L → Obeys L (.reference type)

end JavaType

/-- `TypeParameter`. -/
structure Formal where
  name : Bytes
  classBound : Option Reference
  interfaceBounds : List Reference

namespace Formal

def printInterfaces (bounds : List Reference) : Bytes :=
  bounds.flatMap fun r => code ':' :: r.print

def print (f : Formal) : Bytes :=
  f.name ++ code ':' :: ((f.classBound.map Reference.print).getD [] ++
    printInterfaces f.interfaceBounds)

def node (f : Formal) : FormalTypeParameter where
  name := f.name
  bounds := (f.classBound.map Reference.node).toList ++ f.interfaceBounds.map Reference.node

structure Obeys (L : Rules) (f : Formal) : Prop where
  name : L.parameter f.name
  classBound : ∀ r ∈ f.classBound, r.Obeys L
  interfaceBounds : ∀ r ∈ f.interfaceBounds, r.Obeys L

/-- There is a bound. -/
def Bounded (f : Formal) : Prop := f.classBound ≠ none ∨ f.interfaceBounds ≠ []

end Formal

def printFormals (formals : List Formal) : Bytes :=
  printBracketed formals (formals.flatMap Formal.print)

/-- `ClassSignature`. -/
structure ClassTree where
  formals : List Formal
  superclass : ClassType
  interfaces : List ClassType

namespace ClassTree

def print (t : ClassTree) : Bytes :=
  printFormals t.formals ++ t.superclass.print ++ t.interfaces.flatMap ClassType.print

def node (t : ClassTree) : ClassSignature where
  formalTypeParams := t.formals.map Formal.node
  superclass := t.superclass.node
  superInterfaces := t.interfaces.map ClassType.node

structure Obeys (L : Rules) (t : ClassTree) : Prop where
  formals : ∀ f ∈ t.formals, f.Obeys L
  superclass : t.superclass.Obeys L
  interfaces : ∀ c ∈ t.interfaces, c.Obeys L

end ClassTree

/-- `ThrowsSignature`. -/
inductive Thrown where
  | classType (type : ClassType)
  | typeVariable (identifier : Bytes)

namespace Thrown

def reference : Thrown → Reference
  | .classType type => .classType type
  | .typeVariable identifier => .typeVariable identifier

def print (t : Thrown) : Bytes := code '^' :: t.reference.print

end Thrown

/-- `MethodSignature`. The result is a type or `void`. -/
structure MethodTree where
  formals : List Formal
  parameters : List JavaType
  result : Option JavaType
  throws : List Thrown

namespace MethodTree

def printResult : Option JavaType → Bytes
  | none => [code 'V']
  | some type => type.print

def nodeResult : Option JavaType → TypeTree
  | none => .voidDescriptor
  | some type => type.node

def print (t : MethodTree) : Bytes :=
  printFormals t.formals ++ code '(' :: (t.parameters.flatMap JavaType.print ++
    code ')' :: (printResult t.result ++ t.throws.flatMap Thrown.print))

def node (t : MethodTree) : MethodTypeSignature where
  formalTypeParams := t.formals.map Formal.node
  parameterTypes := t.parameters.map JavaType.node
  returnType := nodeResult t.result
  exceptionTypes := t.throws.map fun x => x.reference.node

structure Obeys (L : Rules) (t : MethodTree) : Prop where
  formals : ∀ f ∈ t.formals, f.Obeys L
  parameters : ∀ p ∈ t.parameters, p.Obeys L
  result : ∀ r ∈ t.result, r.Obeys L
  throws : ∀ x ∈ t.throws, x.reference.Obeys L

end MethodTree

section Weaker
/-- Each identifier and separator that `L` allows is allowed by `M`. -/
structure Rules.Weaker (L M : Rules) : Prop where
  package : ∀ p, L.package p → M.package p
  name : ∀ n, L.name n → M.name n
  parameter : ∀ p, L.parameter p → M.parameter p
  separator : ∀ c, L.separator c → M.separator c

variable {L M : Rules}

mutual

theorem Reference.Obeys.weaken (h : L.Weaker M) {r : Reference} :
    r.Obeys L → r.Obeys M
  | .typeVariable hid => .typeVariable (h.parameter _ hid)
  | .baseArray component => .baseArray component
  | .array hcomponent => .array (hcomponent.weaken h)
  | .classType htype => .classType (htype.weaken h)

theorem ClassType.Obeys.weaken (h : L.Weaker M) {t : ClassType} :
    t.Obeys L → t.Obeys M
  | .mk hpackages hname has hns =>
      .mk (fun p hp => h.package p (hpackages p hp)) (h.name _ hname)
        (fun a ha => (has a ha).weaken h) (fun n hn => (hns n hn).weaken h)

theorem Nested.Obeys.weaken (h : L.Weaker M) {n : Nested} :
    n.Obeys L → n.Obeys M
  | .mk hseparator hname has =>
      .mk (h.separator _ hseparator) (h.name _ hname) (fun a ha => (has a ha).weaken h)

theorem Argument.Obeys.weaken (h : L.Weaker M) {a : Argument} :
    a.Obeys L → a.Obeys M
  | .any => .any
  | .exactly htype => .exactly (htype.weaken h)
  | .extending hbound => .extending (hbound.weaken h)
  | .super hbound => .super (hbound.weaken h)

end

theorem JavaType.Obeys.weaken (h : L.Weaker M) {t : JavaType} (ht : t.Obeys L) : t.Obeys M := by
  cases ht with
  | base type => exact .base type
  | reference htype => exact .reference (htype.weaken h)

theorem Formal.Obeys.weaken (h : L.Weaker M) {f : Formal} (hf : f.Obeys L) : f.Obeys M :=
  ⟨h.parameter _ hf.name, fun r hr => (hf.classBound r hr).weaken h,
    fun r hr => (hf.interfaceBounds r hr).weaken h⟩

theorem ClassTree.Obeys.weaken (h : L.Weaker M) {t : ClassTree} (ht : t.Obeys L) : t.Obeys M :=
  ⟨fun f hf => (ht.formals f hf).weaken h, ht.superclass.weaken h,
    fun c hc => (ht.interfaces c hc).weaken h⟩

theorem MethodTree.Obeys.weaken (h : L.Weaker M) {t : MethodTree} (ht : t.Obeys L) :
    t.Obeys M :=
  ⟨fun f hf => (ht.formals f hf).weaken h, fun p hp => (ht.parameters p hp).weaken h,
    fun r hr => (ht.result r hr).weaken h, fun x hx => (ht.throws x hx).weaken h⟩

end Weaker

end Tarracsh.SignatureTrees
