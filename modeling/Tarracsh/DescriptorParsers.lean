import Tarracsh.ByteStrings
import Tarracsh.CountedLoops
import Tarracsh.MachineIntegers

/-!
# The descriptor parsers

`DescriptorParser` and `MethodDescriptorParser` over the scanner they share. Neither
looks for the end of the text: the scanner stays at the last character and delivers
NUL. A run is given the number of turns each of its loops may take. An access before
the first character is a failed run.
-/
namespace Tarracsh.DescriptorParsers
open ByteStrings CountedLoops MachineIntegers

structure SignatureScanner where
  signatureString : Bytes
  position : ℤ
  deriving DecidableEq, Repr

namespace SignatureScanner
variable (s : SignatureScanner)

def size : ℤ := toInt s.signatureString.length

/-- `_signatureString[position]`, at a position that is not negative. -/
def charAt (position : ℤ) : UInt8 := s.signatureString.getD position.toNat 0

def getNextChar : UInt8 × SignatureScanner :=
  if s.position + 1 ≥ s.size then (0, s)
  else (s.charAt (s.position + 1), { s with position := s.position + 1 })

def step : SignatureScanner :=
  if s.position + 1 ≥ s.size then s else { s with position := s.position + 1 }

def currentChar : Progress UInt8 :=
  if s.position ≥ s.size then .returned 0
  else if s.position < 0 then .failed
  else .returned (s.charAt s.position)

end SignatureScanner

/-- A scanner in front of the first character. -/
def scanner (text : Bytes) : SignatureScanner := ⟨text, -1⟩

structure Descriptor where
  isArray : Bool := false
  isClass : Bool := false
  dimensions : ℕ := 0
  type : Bytes := []
  deriving DecidableEq, Repr

def Descriptor.toString (d : Descriptor) : Bytes :=
  d.type ++ (List.replicate d.dimensions (ascii "[]")).flatten

structure MethodDescriptor where
  arguments : List Descriptor := []
  returnType : Descriptor := {}
  deriving DecidableEq, Repr

/-- The loop of `getFQClassname`. -/
def getFQClassname : ℕ → SignatureScanner → Descriptor → Progress (SignatureScanner × Descriptor)
  | 0, _, _ => .running
  | turns + 1, s, d =>
      let (character, s) := s.getNextChar
      if character = 0x3B then .returned (s, d)
      else
        let letter := if character = 0x2F then 0x2E else character
        getFQClassname turns s { d with type := d.type ++ [letter] }

/-- The types that one letter stands for. -/
def baseType : UInt8 → Option Bytes
  | 0x42 => some (ascii "byte")
  | 0x43 => some (ascii "char")
  | 0x46 => some (ascii "float")
  | 0x5A => some (ascii "boolean")
  | 0x44 => some (ascii "double")
  | 0x49 => some (ascii "int")
  | 0x4A => some (ascii "long")
  | 0x53 => some (ascii "short")
  | 0x56 => some (ascii "void")
  | _ => none

/-- The characters that are passed over: `( ) / . E < >`. -/
def isSkipped (character : UInt8) : Bool :=
  character ∈ [0x28, 0x29, 0x2F, 0x2E, 0x45, 0x3C, 0x3E]

/-- The switch of `DescriptorParser::parse`. -/
def parseChar (turns : ℕ) (character : UInt8) (s : SignatureScanner) (d : Descriptor) :
    Progress (SignatureScanner × Descriptor) :=
  if character = 0x5B then
    .returned (s, { d with isArray := true, dimensions := d.dimensions + 1 })
  else if character = 0x4C then getFQClassname turns s { d with isClass := true }
  else if isSkipped character then .returned (s, d)
  else .returned (s, { d with type := (baseType character).getD s.signatureString })

/-- The loop of `DescriptorParser::parse`. -/
def parseFrom : ℕ → UInt8 → SignatureScanner → Descriptor → Progress (SignatureScanner × Descriptor)
  | 0, _, _, _ => .running
  | turns + 1, character, s, d =>
      if character ≠ 0 ∧ d.type = [] ∧ character ≠ 0x29 then do
        let (s, d) ← parseChar turns character s d
        let (character, s) := s.getNextChar
        parseFrom turns character s d
      else .returned (s, d)

/-- `DescriptorParser` on a scanner. -/
def parseDescriptor (turns : ℕ) (s : SignatureScanner) :
    Progress (SignatureScanner × Descriptor) := do
  let character ← s.currentChar
  parseFrom turns character s {}

/-- `DescriptorParser` on a text. -/
def descriptorParser (turns : ℕ) (text : Bytes) : Progress Descriptor := do
  let (_, d) ← parseDescriptor turns (scanner text).step
  pure d

/-- The loop of `parseParameters`. -/
def parseParametersFrom : ℕ → SignatureScanner → List Descriptor →
    Progress (SignatureScanner × List Descriptor)
  | 0, _, _ => .running
  | turns + 1, s, arguments => do
      let character ← s.currentChar
      if character ≠ 0x29 then do
        let (s, d) ← parseDescriptor turns s
        parseParametersFrom turns s (arguments ++ [d])
      else pure (s, arguments)

def parseParameters (turns : ℕ) (s : SignatureScanner) (m : MethodDescriptor) :
    Progress (SignatureScanner × MethodDescriptor) := do
  let (s, arguments) ← parseParametersFrom turns s.step m.arguments
  pure (s, { m with arguments := arguments })

def parseReturnType (turns : ℕ) (s : SignatureScanner) (m : MethodDescriptor) :
    Progress (SignatureScanner × MethodDescriptor) := do
  let (s, d) ← parseDescriptor turns s.step
  pure (s, { m with returnType := d })

/-- The loop of `MethodDescriptorParser::parse`, with assertions left out. -/
def parseMethodFrom : ℕ → UInt8 → SignatureScanner → MethodDescriptor → Progress MethodDescriptor
  | 0, _, _, _ => .running
  | turns + 1, character, s, m =>
      if character = 0 then .returned m
      else do
        let (s, m) ←
          if character = 0x28 then do
            let (s, m) ← parseParameters turns s m
            parseReturnType turns s m
          else pure (s, m)
        let (character, s) := s.getNextChar
        parseMethodFrom turns character s m

def methodDescriptorParser (turns : ℕ) (text : Bytes) : Progress MethodDescriptor :=
  let (character, s) := (scanner text).getNextChar
  parseMethodFrom turns character s {}

end Tarracsh.DescriptorParsers
