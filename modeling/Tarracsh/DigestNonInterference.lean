import Tarracsh.DigestView
import Mathlib.Logic.Relation

/-!
# What the public digest ignores

Two files over one pool with one public face have one digest, whatever the
hash function is. Reordering, edits of members that are not public and edits
of Code attributes keep the public face, and so does every sequence of them.
-/
namespace Tarracsh.DigestNonInterference
open ByteStrings PoolStructures ParsedClass QueryTrees ClassFileDigest DigestView

/-- A member by its strings, flags and non-empty attribute bodies other than
Code. -/
structure Face where
  name : Bytes
  descriptor : Bytes
  accessFlags : UInt16
  attributes : Finset Bytes
  deriving DecidableEq

def face (p : ConstantPool) (m : FieldInfo) : Option Face := do
  let name ← p.utf8Info m.nameIndex
  let attributes ← attributeBodies p m.attributes
  let descriptor ← p.utf8Info m.descriptorIndex
  pure ⟨name, descriptor, m.accessFlags, attributes⟩

def publicFace (p : ConstantPool) (m : FieldInfo) : Option (Option Face) :=
  if isPublic m.accessFlags then (face p m).map some else some none

def publicFaces (p : ConstantPool) (ms : List FieldInfo) : Option (Finset Face) :=
  gather (publicFace p) ms

/-- One pool, one main class record, and sets that agree. -/
structure SamePublicFace (b c : ClassFile) : Prop where
  constantPool : b.constantPool = c.constantPool
  mainClassInfo : b.mainClassInfo = c.mainClassInfo
  interfaces : ∀ i, i ∈ b.interfaces ↔ i ∈ c.interfaces
  attributes : attributeBodies b.constantPool b.attributes =
    attributeBodies c.constantPool c.attributes
  methods : publicFaces b.constantPool b.methods = publicFaces c.constantPool c.methods
  fields : publicFaces b.constantPool b.fields = publicFaces c.constantPool c.fields

/-- What the digest keeps of a face. -/
def Face.view (f : Face) : MemberView := ⟨f.name, f.attributes, f.descriptor.headD 0, f.accessFlags⟩

theorem memberView_eq_face (p : ConstantPool) (m : FieldInfo) :
    memberView p m = (face p m).map Face.view := by
  unfold memberView face
  cases p.utf8Info m.nameIndex <;> cases attributeBodies p m.attributes <;>
    cases p.utf8Info m.descriptorIndex <;> rfl

theorem publicViews_eq_publicFaces (p : ConstantPool) (ms : List FieldInfo) :
    publicViews p ms = (publicFaces p ms).map (Finset.image Face.view) := by
  refine gather_image (fun m => ?_) ms
  unfold publicView publicFace
  split_ifs
  · rw [memberView_eq_face]
    cases face p m <;> rfl
  · rfl

/-- One public face gives one hashed view. -/
theorem SamePublicFace.hashedView_eq {b c : ClassFile} (h : SamePublicFace b c) :
    hashedView b = hashedView c := by
  have hinterfaces : interfaceHeads b.constantPool b.interfaces =
      interfaceHeads c.constantPool c.interfaces := by
    rw [interfaceHeads, h.constantPool, gather_congr_mem h.interfaces]
    rfl
  have hmethods : publicViews b.constantPool b.methods =
      publicViews c.constantPool c.methods := by
    rw [publicViews_eq_publicFaces, publicViews_eq_publicFaces, h.methods]
  have hfields : publicViews b.constantPool b.fields = publicViews c.constantPool c.fields := by
    rw [publicViews_eq_publicFaces, publicViews_eq_publicFaces, h.fields]
  unfold hashedView
  rw [hinterfaces, hmethods, hfields, h.attributes, h.constantPool, h.mainClassInfo]

/-- The attribute is a Code attribute. -/
def IsCode (p : ConstantPool) (a : AttributeInfo) : Prop := p.utf8Info a.nameIndex = some CODE

/-- Edits of an attribute list that are not public. -/
inductive AttributesEdit (p : ConstantPool) : List AttributeInfo → List AttributeInfo → Prop
  | reorder {as bs : List AttributeInfo} (h : as.Perm bs) : AttributesEdit p as bs
  | changeCode {as bs : List AttributeInfo} {a b : AttributeInfo} (ha : IsCode p a)
      (hb : IsCode p b) : AttributesEdit p (as ++ a :: bs) (as ++ b :: bs)

/-- Edits of a method or field list that are not public. -/
inductive MembersEdit (p : ConstantPool) : List FieldInfo → List FieldInfo → Prop
  | reorder {ms ns : List FieldInfo} (h : ms.Perm ns) : MembersEdit p ms ns
  | add {ms ns : List FieldInfo} {m : FieldInfo} (h : isPublic m.accessFlags = false) :
      MembersEdit p (ms ++ ns) (ms ++ m :: ns)
  | remove {ms ns : List FieldInfo} {m : FieldInfo} (h : isPublic m.accessFlags = false) :
      MembersEdit p (ms ++ m :: ns) (ms ++ ns)
  | change {ms ns : List FieldInfo} {m n : FieldInfo} (hm : isPublic m.accessFlags = false)
      (hn : isPublic n.accessFlags = false) : MembersEdit p (ms ++ m :: ns) (ms ++ n :: ns)
  | attributes {ms ns : List FieldInfo} {m : FieldInfo} {as : List AttributeInfo}
      (h : AttributesEdit p m.attributes as) :
      MembersEdit p (ms ++ m :: ns) (ms ++ { m with attributes := as } :: ns)

/-- One edit of a class file that leaves its public face alone. -/
inductive HiddenEdit : ClassFile → ClassFile → Prop
  | interfaces {c : ClassFile} {is : List UInt16} (h : c.interfaces.Perm is) :
      HiddenEdit c { c with interfaces := is }
  | attributes {c : ClassFile} {as : List AttributeInfo}
      (h : AttributesEdit c.constantPool c.attributes as) :
      HiddenEdit c { c with attributes := as }
  | methods {c : ClassFile} {ms : List MethodInfo} (h : MembersEdit c.constantPool c.methods ms) :
      HiddenEdit c { c with methods := ms }
  | fields {c : ClassFile} {fs : List FieldInfo} (h : MembersEdit c.constantPool c.fields fs) :
      HiddenEdit c { c with fields := fs }

theorem attributeBody_code {p : ConstantPool} {a : AttributeInfo} (h : IsCode p a) :
    attributeBody p a = some none := by
  rw [attributeBody, h, Option.map_some, if_pos rfl]

theorem AttributesEdit.bodies_eq {p : ConstantPool} {as bs : List AttributeInfo}
    (h : AttributesEdit p as bs) : attributeBodies p as = attributeBodies p bs := by
  cases h with
  | reorder h => exact gather_congr_mem fun a => h.mem_iff
  | changeCode ha hb =>
      exact gather_replace ((attributeBody_code ha).trans (attributeBody_code hb).symm) _ _

theorem publicFace_hidden {p : ConstantPool} {m : FieldInfo}
    (h : isPublic m.accessFlags = false) : publicFace p m = some none := by
  rw [publicFace, h]
  rfl

theorem MembersEdit.faces_eq {p : ConstantPool} {ms ns : List FieldInfo}
    (h : MembersEdit p ms ns) : publicFaces p ms = publicFaces p ns := by
  cases h with
  | reorder h => exact gather_congr_mem fun m => h.mem_iff
  | add h => exact (gather_skip (publicFace_hidden h) _ _).symm
  | remove h => exact gather_skip (publicFace_hidden h) _ _
  | change hm hn =>
      exact gather_replace ((publicFace_hidden hm).trans (publicFace_hidden hn).symm) _ _
  | attributes h =>
      refine gather_replace ?_ _ _
      simp only [publicFace, face, h.bodies_eq]

theorem HiddenEdit.samePublicFace {b c : ClassFile} (h : HiddenEdit b c) :
    SamePublicFace b c := by
  cases h with
  | interfaces h => exact ⟨rfl, rfl, fun i => h.mem_iff, rfl, rfl, rfl⟩
  | attributes h => exact ⟨rfl, rfl, fun i => Iff.rfl, h.bodies_eq, rfl, rfl⟩
  | methods h => exact ⟨rfl, rfl, fun i => Iff.rfl, rfl, h.faces_eq, rfl⟩
  | fields h => exact ⟨rfl, rfl, fun i => Iff.rfl, rfl, rfl, h.faces_eq⟩

theorem HiddenEdit.hashedView_eq_of_run {b c : ClassFile}
    (h : Relation.ReflTransGen HiddenEdit b c) : hashedView b = hashedView c := by
  induction h with
  | refl => rfl
  | tail _ hstep ih => exact ih.trans hstep.samePublicFace.hashedView_eq

/-- The digest depends on the public face only, and no sequence of hidden
edits changes it. -/
theorem digest_depends_on_public_face (O : Bytes → Sha256) (b c : ClassFile) :
    (SamePublicFace b c → eval O (digest b) = eval O (digest c)) ∧
      (Relation.ReflTransGen HiddenEdit b c → eval O (digest b) = eval O (digest c)) := by
  have hview : hashedView b = hashedView c → eval O (digest b) = eval O (digest c) := by
    intro h
    rw [eval_digest, eval_digest, h]
  exact ⟨fun h => hview h.hashedView_eq, fun h => hview (HiddenEdit.hashedView_eq_of_run h)⟩

/-- A class `A` with one public method `m()` whose Code is `body`. -/
def codeClass (body : Bytes) (others : List MethodInfo) : ClassFile where
  constantPool := ⟨[none, some (.classInfo 3), some (.classInfo 4),
    some (.utf8Info (ascii "A")), some (.utf8Info (ascii "java/lang/Object")),
    some (.utf8Info (ascii "m")), some (.utf8Info (ascii "()V")), some (.utf8Info CODE)]⟩
  mainClassInfo := ⟨0x0021, 1, 2⟩
  interfaces := []
  fields := []
  methods := ⟨0x0001, 5, 6, [⟨7, body, .method⟩]⟩ :: others
  attributes := []

/-- The first 32 bytes of a string, as a hash. -/
def firstBytes (s : Bytes) : Sha256 := List.Vector.ofFn fun i => s.getD i 0

/-- A private method with Code is added, then the Code of `m` is replaced. -/
theorem codeClass_run :
    Relation.ReflTransGen HiddenEdit (codeClass [177] [])
      (codeClass [0, 177] [⟨0x0002, 5, 6, [⟨7, [177], .method⟩]⟩]) := by
  have hadd : HiddenEdit (codeClass [177] [])
      (codeClass [177] [⟨0x0002, 5, 6, [⟨7, [177], .method⟩]⟩]) :=
    .methods (@MembersEdit.add _ [⟨0x0001, 5, 6, [⟨7, [177], .method⟩]⟩] []
      ⟨0x0002, 5, 6, [⟨7, [177], .method⟩]⟩ (by decide))
  have hchange : HiddenEdit (codeClass [177] [⟨0x0002, 5, 6, [⟨7, [177], .method⟩]⟩])
      (codeClass [0, 177] [⟨0x0002, 5, 6, [⟨7, [177], .method⟩]⟩]) :=
    .methods (@MembersEdit.attributes _ [] _ ⟨0x0001, 5, 6, [⟨7, [177], .method⟩]⟩ _
      (@AttributesEdit.changeCode _ [] [] ⟨7, [177], .method⟩ ⟨7, [0, 177], .method⟩ rfl rfl))
  exact (Relation.ReflTransGen.single hadd).tail hchange

theorem codeClass_samePublicFace :
    SamePublicFace (codeClass [177] []) (codeClass [0, 177] []) :=
  ⟨rfl, rfl, fun _ => Iff.rfl, rfl, by decide, rfl⟩

theorem digest_codeClass_eq :
    eval firstBytes (digest (codeClass [177] [])) =
        eval firstBytes (digest (codeClass [0, 177] [])) ∧
      eval firstBytes (digest (codeClass [177] [])) = eval firstBytes (digest
        (codeClass [0, 177] [⟨0x0002, 5, 6, [⟨7, [177], .method⟩]⟩])) :=
  ⟨(digest_depends_on_public_face _ _ _).1 codeClass_samePublicFace,
    (digest_depends_on_public_face _ _ _).2 codeClass_run⟩

end Tarracsh.DigestNonInterference
