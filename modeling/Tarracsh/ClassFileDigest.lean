import Tarracsh.ParsedClass
import Tarracsh.QueryTrees
import Mathlib.Data.Vector.Basic
import Mathlib.Data.Finset.Sort

/-!
# The public digest of a class file

`ClassFileDigest` as the source computes it, with SHA-256 as the oracle of a
query tree: one definition gives the digest and the byte strings hashed on the
way. `DIGEST_LENGTH` is 40, so each digest is a 32-byte hash followed by eight
zero bytes. `std::set<DigestVector>` is a finite set read in lexicographic
order.

`Utf8Info::bytes` is declared `u1 bytes[1]`, and `DigestBuffer::append` copies
the range it is given. Appending the array therefore appends exactly one byte,
which is the terminating zero when the string is empty.
-/
namespace Tarracsh.ClassFileDigest
open ByteStrings PoolStructures ParsedClass QueryTrees

abbrev Sha256 := List.Vector UInt8 32

/-- A computation that may call `crypto_hash_sha256`. -/
abbrev Hashing := Tree Bytes Sha256

def DIGEST_LENGTH : ℕ := 40

abbrev DigestVector := Bytes

/-- A value-initialised `DigestVector(DIGEST_LENGTH)`. -/
def emptyDigestVector : DigestVector := List.replicate DIGEST_LENGTH 0

/-- The hash writes the first 32 bytes of a zeroed vector. -/
def padded (h : Sha256) : DigestVector := h.toList ++ List.replicate (DIGEST_LENGTH - 32) 0

/-- The overload `digest(const char *, uint64_t)`. -/
def digestBytes (bytes : Bytes) : Hashing DigestVector := .ask bytes fun h => pure (padded h)

/-- The overload `digest(const std::vector<unsigned char> &)`. -/
def digestBuffer (buffer : Bytes) : Hashing DigestVector :=
  if buffer = [] then pure emptyDigestVector else digestBytes buffer

/-- The buffer that `digestSet` fills in the order of the set. -/
def setBuffer (digests : Finset DigestVector) : Bytes := (digests.sort (· ≤ ·)).flatten

def digestSet (digests : Finset DigestVector) : Hashing DigestVector :=
  if digests = ∅ then pure emptyDigestVector else digestBuffer (setBuffer digests)

/-- `append` of the one-byte array `utf8Info.bytes` of a stored string. -/
def appendedBytes (utf8 : Bytes) : Bytes := [utf8.headD 0]

section
variable (p : ConstantPool)

def digestUtf8Entry (index : UInt16) : Hashing DigestVector := do
  let utf8 ← lift (p.utf8Info index)
  digestBytes utf8

def digestClassInfo (classInfoIndex : UInt16) : Hashing DigestVector :=
  if classInfoIndex = 0 then pure emptyDigestVector
  else do
    let nameIndex ← lift (p.classInfo classInfoIndex)
    digestUtf8Entry p nameIndex

def digestAttribute (a : AttributeInfo) : Hashing DigestVector := digestBuffer a.info

/-- One iteration of `digestAttributes`; `none` inserts nothing. -/
def attributeStep (a : AttributeInfo) : Hashing (Option DigestVector) := do
  let attributeName ← lift (p.utf8Info a.nameIndex)
  if attributeName = CODE then pure none
  else if a.info = [] then pure none
  else do
    let d ← digestAttribute a
    pure (some d)

def digestAttributes (attributeInfos : List AttributeInfo) : Hashing DigestVector := do
  let digests ← collect (attributeStep p) attributeInfos ∅
  digestSet digests

/-- The attribute digest is appended twice. -/
def digestField (f : FieldInfo) : Hashing DigestVector := do
  let name ← digestUtf8Entry p f.nameIndex
  let attributes ← digestAttributes p f.attributes
  let attributesAgain ← digestAttributes p f.attributes
  let descriptor ← lift (p.utf8Info f.descriptorIndex)
  digestBuffer (name ++ attributes ++ attributesAgain ++ appendedBytes descriptor ++
    littleEndian16 f.accessFlags)

def digestMethod (m : MethodInfo) : Hashing DigestVector := do
  let name ← digestUtf8Entry p m.nameIndex
  let attributes ← digestAttributes p m.attributes
  let descriptor ← lift (p.utf8Info m.descriptorIndex)
  digestBuffer (name ++ attributes ++ appendedBytes descriptor ++ littleEndian16 m.accessFlags)

/-- One iteration of `digestPublicMethods` and of `digestPublicFields`. -/
def publicStep (digestMember : FieldInfo → Hashing DigestVector) (m : FieldInfo) :
    Hashing (Option DigestVector) :=
  if isPublic m.accessFlags then do
    let d ← digestMember m
    pure (some d)
  else pure none

def digestPublicMethods (methods : List MethodInfo) : Hashing DigestVector := do
  let digests ← collect (publicStep (digestMethod p)) methods ∅
  digestSet digests

def digestPublicFields (fields : List FieldInfo) : Hashing DigestVector := do
  let digests ← collect (publicStep (digestField p)) fields ∅
  digestSet digests

def digestInterface (interfaceIndex : UInt16) : Hashing DigestVector := do
  let nameIndex ← lift (p.classInfo interfaceIndex)
  let name ← lift (p.utf8Info nameIndex)
  digestBuffer (appendedBytes name)

/-- One iteration of `digestInterfaces`. -/
def interfaceStep (interfaceIndex : UInt16) : Hashing (Option DigestVector) := do
  let d ← digestInterface p interfaceIndex
  pure (some d)

def digestInterfaces (interfaces : List UInt16) : Hashing DigestVector := do
  let digests ← collect (interfaceStep p) interfaces ∅
  digestSet digests

end

def digest (c : ClassFile) : Hashing DigestVector := do
  let thisClass ← digestClassInfo c.constantPool c.mainClassInfo.thisClass
  let superClass ← digestClassInfo c.constantPool c.mainClassInfo.superClass
  let attributes ← digestAttributes c.constantPool c.attributes
  let methods ← digestPublicMethods c.constantPool c.methods
  let fields ← digestPublicFields c.constantPool c.fields
  let interfaces ← digestInterfaces c.constantPool c.interfaces
  digestBytes (thisClass ++ superClass ++ attributes ++ methods ++ fields ++ interfaces ++
    littleEndian16 c.mainClassInfo.accessFlags)

end Tarracsh.ClassFileDigest
