import Tarracsh.DescentRuns

/-!
# The parser of generic signatures

`signature::parser::Parser` is a recursive-descent parser with one character of
lookahead. It has no token for the end of the text: a position up to the length
is not `isEof`, where `current` is NUL, and behind it there is nothing to look at.

A run is given a number that bounds the nesting of types and the turns of every
loop but the one of `parseIdentifier`, which cannot pass the end. The functions
for types take the run of the nested `parseFieldTypeSignature` as an argument.
-/
namespace Tarracsh.SignatureParser
open ByteStrings DescentRuns DescentRuns.Run

/-- The code of a seven-bit character. -/
def code (c : Char) : UInt8 := UInt8.ofNat c.toNat

inductive BaseType where
  | byte | char | double | float | int | long | short | boolean
  deriving DecidableEq, Repr

namespace BaseType

def letter : BaseType → UInt8
  | .byte => 0x42
  | .char => 0x43
  | .double => 0x44
  | .float => 0x46
  | .int => 0x49
  | .long => 0x4A
  | .short => 0x53
  | .boolean => 0x5A

def ofLetter : UInt8 → Option BaseType
  | 0x42 => some .byte
  | 0x43 => some .char
  | 0x44 => some .double
  | 0x46 => some .float
  | 0x49 => some .int
  | 0x4A => some .long
  | 0x53 => some .short
  | 0x5A => some .boolean
  | _ => none

end BaseType

/-- The nodes of types and type arguments. A `ClassTypeSignature` is a path of
`SimpleClassTypeSignature`s. -/
inductive TypeTree where
  | voidDescriptor
  | baseType (type : BaseType)
  | simpleClassTypeSignature (name : Bytes) (dollar : Bool) (typeArgs : List TypeTree)
  | classTypeSignature (path : List TypeTree)
  | typeVariableSignature (identifier : Bytes)
  | arrayTypeSignature (componentType : TypeTree)
  | bottomSignature
  | wildcard (upperBounds lowerBounds : List TypeTree)

structure FormalTypeParameter where
  name : Bytes
  bounds : List TypeTree

structure ClassSignature where
  formalTypeParams : List FormalTypeParameter
  superclass : TypeTree
  superInterfaces : List TypeTree

structure MethodTypeSignature where
  formalTypeParams : List FormalTypeParameter
  parameterTypes : List TypeTree
  returnType : TypeTree
  exceptionTypes : List TypeTree

/-- The characters that end an identifier. -/
def isDelimiter (c : UInt8) : Bool :=
  c ∈ [code ';', code '.', code '$', code '/', code '[', code ':', code '>', code '<']

section Parser
variable (input : Bytes)

/-- The loop of `parseIdentifier`, as long as positions are left that are not
`isEof`. -/
def parseIdentifierFrom : ℕ → Bytes → Run Bytes
  | 0, result => pure result
  | left + 1, result => do
      let c ← current input
      if isDelimiter c then pure result
      else do
        advance
        parseIdentifierFrom left (result ++ [c])

def parseIdentifier : Run Bytes := do
  let position ← getPosition
  parseIdentifierFrom input (input.length + 1 - position) []

def parseBaseType : Run TypeTree := do
  let c ← current input
  match BaseType.ofLetter c with
  | some type => do
      advance
      pure (.baseType type)
  | none => fail (ascii "expected primitive type")

def parseTypeVariableSignature : Run TypeTree := do
  let c ← current input
  if c ≠ code 'T' then fail (ascii "expected a type variable usage")
  else do
    advance
    let identifier ← parseIdentifier input
    let c ← current input
    if c ≠ code ';' then
      fail (ascii "; expected in signature of type variable named " ++ identifier)
    else do
      advance
      pure (.typeVariableSignature identifier)

/-- A slash and the next part of a package name. -/
def parsePackagePart : Run Bytes := do
  advance
  let identifier ← parseIdentifier input
  pure (code '.' :: identifier)

section Types
variable (turns : ℕ) (parseFieldTypeSignature : Run TypeTree)

def parseTypeSignature : Run TypeTree := do
  let c ← current input
  if (BaseType.ofLetter c).isSome then parseBaseType input
  else parseFieldTypeSignature

def parseArrayTypeSignature : Run TypeTree := do
  let c ← current input
  if c ≠ code '[' then fail (ascii "expected array type signature")
  else do
    advance
    let componentType ← parseTypeSignature input parseFieldTypeSignature
    pure (.arrayTypeSignature componentType)

/-- `SimpleClassTypeSignature::make("java.lang.Object", false, ..)`. -/
def javaLangObject : TypeTree := .simpleClassTypeSignature (ascii "java.lang.Object") false []

def parseTypeArgument : Run TypeTree := do
  let c ← current input
  if c = code '+' then do
    advance
    let upper ← parseFieldTypeSignature
    pure (.wildcard [upper] [.bottomSignature])
  else if c = code '*' then do
    advance
    pure (.wildcard [javaLangObject] [.bottomSignature])
  else if c = code '-' then do
    advance
    let lower ← parseFieldTypeSignature
    pure (.wildcard [javaLangObject] [lower])
  else parseFieldTypeSignature

def parseTypeArguments : Run (List TypeTree) := do
  let c ← current input
  if c ≠ code '<' then fail (ascii "expected '<'")
  else do
    advance
    let first ← parseTypeArgument input parseFieldTypeSignature
    let tas ← repeatWhile input (· ≠ code '>')
      (parseTypeArgument input parseFieldTypeSignature) turns [first]
    advance
    pure tas

/-- The start of `parsePackageNameAndSimpleClassTypeSignature`: the name with its
package. -/
def parsePackageAndName : Run Bytes := do
  let id ← parseIdentifier input
  let parts ← repeatWhile input (· = code '/') (parsePackagePart input) turns []
  pure (id ++ parts.flatten)

def parsePackageNameAndSimpleClassTypeSignature : Run TypeTree := do
  let id ← parsePackageAndName input turns
  let c ← current input
  if c = code ';' then pure (.simpleClassTypeSignature id false [])
  else if c = code '<' then do
    let typeArgs ← parseTypeArguments input turns parseFieldTypeSignature
    pure (.simpleClassTypeSignature id false typeArgs)
  else if c = code '.' ∨ c = code '$' then pure (.simpleClassTypeSignature id false [])
  else fail (ascii "expected '<', ';', '.' or '$' but got " ++ [c])

def parseSimpleClassTypeSignature (dollar : Bool) : Run TypeTree := do
  let id ← parseIdentifier input
  let c ← current input
  if c = code ';' ∨ c = code '.' ∨ c = code '$' then
    pure (.simpleClassTypeSignature id dollar [])
  else if c = code '<' then do
    let typeArgs ← parseTypeArguments input turns parseFieldTypeSignature
    pure (.simpleClassTypeSignature id dollar typeArgs)
  else fail (ascii "expected '<' or ';' or '.', got '" ++ [c] ++ ascii "'.")

/-- A separator and the nested class behind it. -/
def parseNestedClass : Run TypeTree := do
  advance
  parseSimpleClassTypeSignature input turns parseFieldTypeSignature true

def parseClassTypeSignatureSuffix (simpleClassTypeSignatures : List TypeTree) :
    Run (List TypeTree) :=
  repeatWhile input (fun c => c = code '.' ∨ c = code '$')
    (parseNestedClass input turns parseFieldTypeSignature) turns simpleClassTypeSignatures

def parseClassTypeSignature : Run TypeTree := do
  let c ← current input
  if c ≠ code 'L' then do
    let position ← getPosition
    fail (ascii "expected a class type but found '" ++ [c] ++ ascii "' at position " ++
      ascii (toString position) ++ ascii " while parsing '" ++ input ++ ascii "'")
  else do
    advance
    let first ← parsePackageNameAndSimpleClassTypeSignature input turns parseFieldTypeSignature
    let path ← parseClassTypeSignatureSuffix input turns parseFieldTypeSignature [first]
    let c ← current input
    if c ≠ code ';' then fail (ascii "expected ';' got '" ++ [c] ++ ascii "'")
    else do
      advance
      pure (.classTypeSignature path)

/-- The switch of `parseFieldTypeSignature`. -/
def parseFieldTypeSignatureWith (allowArrays : Bool) : Run TypeTree := do
  let currentChar ← current input
  if currentChar = code 'L' then parseClassTypeSignature input turns parseFieldTypeSignature
  else if currentChar = code 'T' then parseTypeVariableSignature input
  else if currentChar = code '[' then
    if allowArrays then parseArrayTypeSignature input parseFieldTypeSignature
    else fail (ascii "Array signature not allowed here.")
  else fail (ascii "Expected Field Type Signature")

end Types

def parseFieldTypeSignature : ℕ → Bool → Run TypeTree
  | 0, _ => never
  | fuel + 1, allowArrays =>
      parseFieldTypeSignatureWith input fuel (parseFieldTypeSignature fuel true) allowArrays

section Signatures
variable (fuel : ℕ)

/-- A colon and an interface bound. -/
def parseInterfaceBound : Run TypeTree := do
  advance
  parseFieldTypeSignature input fuel true

def parseClassBound : Run (List TypeTree) := do
  let c ← current input
  if c = code ':' then pure []
  else do
    let bound ← parseFieldTypeSignature input fuel true
    pure [bound]

def parseBounds : Run (List TypeTree) := do
  let c ← current input
  if c = code ':' then do
    advance
    let fts ← parseClassBound input fuel
    repeatWhile input (· = code ':') (parseInterfaceBound input fuel) fuel fts
  else do
    addError "Bound expected"
    pure []

def parseFormalTypeParameter : Run FormalTypeParameter := do
  let id ← parseIdentifier input
  let bs ← parseBounds input fuel
  pure ⟨id, bs⟩

def progress (startingPosition : ℕ) : Run Unit := do
  let position ← getPosition
  if position ≤ startingPosition then addError "Failure to make progress!"
  else pure ()

/-- The body of the loop of `parseFormalTypeParameters`. -/
def parseNextFormalTypeParameter : Run FormalTypeParameter := do
  let startingPosition ← getPosition
  let ftp ← parseFormalTypeParameter input fuel
  progress startingPosition
  pure ftp

def parseFormalTypeParameters : Run (List FormalTypeParameter) := do
  let c ← current input
  if c ≠ code '<' then fail (ascii "expected '<'")
  else do
    advance
    let first ← parseFormalTypeParameter input fuel
    let ftps ← repeatWhile input (· ≠ code '>') (parseNextFormalTypeParameter input fuel) fuel
      [first]
    advance
    pure ftps

def parseZeroOrMoreFormalTypeParameters : Run (List FormalTypeParameter) := do
  let c ← current input
  if c = code '<' then parseFormalTypeParameters input fuel else pure []

/-- `parseClassTypeSignature` with its nested types. -/
def parseClassType : Run TypeTree :=
  parseClassTypeSignature input fuel (parseFieldTypeSignature input fuel true)

/-- `parseTypeSignature` with its nested types. -/
def parseType : Run TypeTree :=
  parseTypeSignature input (parseFieldTypeSignature input fuel true)

def parseSuperInterfaces : Run (List TypeTree) :=
  repeatWhile input (· = code 'L') (parseClassType input fuel) fuel []

def parseClassSignature : Run ClassSignature := do
  let formalTypeParameters ← parseZeroOrMoreFormalTypeParameters input fuel
  let superClass ← parseClassType input fuel
  let superInterfaces ← parseSuperInterfaces input fuel
  pure ⟨formalTypeParameters, superClass, superInterfaces⟩

/-- The characters that a type starts with. -/
def startsType (c : UInt8) : Bool :=
  (BaseType.ofLetter c).isSome || c = code 'L' || c = code 'T' || c = code '['

def parseZeroOrMoreTypeSignatures : Run (List TypeTree) :=
  repeatWhile input startsType (parseType input fuel) fuel []

def parseFormalParameters : Run (List TypeTree) := do
  let c ← current input
  if c ≠ code '(' then fail (ascii "expected '('")
  else do
    advance
    let pts ← parseZeroOrMoreTypeSignatures input fuel
    let c ← current input
    if c ≠ code ')' then fail (ascii "expected ')'")
    else do
      advance
      pure pts

def parseReturnType : Run TypeTree := do
  let c ← current input
  if c = code 'V' then do
    advance
    pure .voidDescriptor
  else parseType input fuel

def parseThrowsSignature : Run TypeTree := do
  let c ← current input
  if c ≠ code '^' then fail (ascii "expected throws signature")
  else do
    advance
    parseFieldTypeSignature input fuel false

def parseZeroOrMoreThrowsSignatures : Run (List TypeTree) :=
  repeatWhile input (· = code '^') (parseThrowsSignature input fuel) fuel []

def parseMethodTypeSignature : Run MethodTypeSignature := do
  let formalTypeParameters ← parseZeroOrMoreFormalTypeParameters input fuel
  let formalParameters ← parseFormalParameters input fuel
  let returnType ← parseReturnType input fuel
  let fieldTypeSignatures ← parseZeroOrMoreThrowsSignatures input fuel
  pure ⟨formalTypeParameters, formalParameters, returnType, fieldTypeSignatures⟩

end Signatures

end Parser

/-- The parser at the start of a text. -/
def start : Cursor := ⟨0, []⟩

def parseClassSig (fuel : ℕ) (signature : Bytes) : Outcome ClassSignature :=
  parseClassSignature signature fuel start

def parseMethodSig (fuel : ℕ) (signature : Bytes) : Outcome MethodTypeSignature :=
  parseMethodTypeSignature signature fuel start

def parseTypeSig (fuel : ℕ) (signature : Bytes) : Outcome TypeTree :=
  parseType signature fuel start

end Tarracsh.SignatureParser
