import Tarracsh.PoolAlignment
import Tarracsh.ClassFileExtraction
import Tarracsh.DigestSensitivity

/-!
# What an accepted class file may be asked for

`parse()` reads indices and checks none of them. The consumers of a parsed
class look up the pool by index: `getMainClassname`, the digest, and the
extraction of nodes. Here the lookups of the extraction are separated from its
work on the database, and the indices that have to resolve are listed.
-/
namespace Tarracsh.SafeConsumption
open ByteStrings QueryTrees StreamReads PoolStructures ParsedClass ClassFileReader ClassFileParser
open ClassFileFormat ReaderRefinement PoolAlignment TableModel CallGraphTables ClassFileProcessor
open ClassFileDigest DigestView

/-- `ClassFileParser::getMainClassname`. -/
def getMainClassname (c : ClassFile) : Option Bytes :=
  getClassInfoName c.constantPool c.mainClassInfo.thisClass

/-- The strings that go into the row of a node. -/
inductive NodeTexts where
  | method (name descriptor : Bytes)
  | field (name descriptor : Bytes)
  | classRef (name : Bytes)
  | methodRef (classname name descriptor : Bytes)
  | fieldRef (classname name descriptor : Bytes)
  deriving DecidableEq, Repr

section Texts
variable (p : ConstantPool)

def methodTexts (methodInfo : MethodInfo) : Option NodeTexts := do
  let name ← p.getString methodInfo.nameIndex
  let descriptor ← p.getString methodInfo.descriptorIndex
  some (.method name descriptor)

def fieldTexts (fieldInfo : FieldInfo) : Option NodeTexts := do
  let name ← p.getString fieldInfo.nameIndex
  let descriptor ← p.getString fieldInfo.descriptorIndex
  some (.field name descriptor)

def methodRefTexts (classIndex nameAndTypeIndex : UInt16) : Option NodeTexts := do
  let (nameIndex, descriptorIndex) ← p.nameAndTypeInfo nameAndTypeIndex
  let classname ← getClassInfoName p classIndex
  let name ← p.getString nameIndex
  let descriptor ← p.getString descriptorIndex
  some (.methodRef classname name descriptor)

def fieldRefTexts (classIndex nameAndTypeIndex : UInt16) : Option NodeTexts := do
  let classname ← getClassInfoName p classIndex
  let (nameIndex, descriptorIndex) ← p.nameAndTypeInfo nameAndTypeIndex
  let name ← p.getString nameIndex
  let descriptor ← p.getString descriptorIndex
  some (.fieldRef classname name descriptor)

/-- The node of a pool entry, if it is one that `recordRefs` records. -/
def entryTexts : ConstantPoolRecord → Option (Option NodeTexts)
  | .methodrefInfo classIndex nameAndTypeIndex =>
      (methodRefTexts p classIndex nameAndTypeIndex).map some
  | .classInfo nameIndex => (p.getString nameIndex).map fun name => some (.classRef name)
  | .interfaceMethodrefInfo classIndex nameAndTypeIndex =>
      (methodRefTexts p classIndex nameAndTypeIndex).map some
  | .fieldrefInfo classIndex nameAndTypeIndex =>
      (fieldRefTexts p classIndex nameAndTypeIndex).map some
  | _ => some none

/-- The entries that `recordRefs` visits. Of 65536 slots it visits none, since
their number is zero as a `u2`. -/
def visited : List ConstantPoolRecord :=
  if p.constantPoolIndex.length < 2 ^ 16 then ClassFileExtraction.entries p else []

end Texts

/-- The lookups of `extractNodes`, in the order in which it makes them. -/
def extractTexts (c : ClassFile) : Option (List NodeTexts) := do
  let methods ← c.methods.mapM (methodTexts c.constantPool)
  let fields ← c.fields.mapM (fieldTexts c.constantPool)
  let refs ← (visited c.constantPool).mapM (entryTexts c.constantPool)
  some (methods ++ fields ++ refs.reduceOption)

section Record
variable (A : ∀ α : Type, Allocator α) (rowId : ℕ)

/-- The row of a node with these strings. -/
def NodeTexts.record (db : CallGraphDb) : NodeTexts → Option CallGraphDb
  | .method name descriptor => do
      let (db, name) ← db.getPoolString name
      let (db, descriptor) ← db.getPoolString descriptor
      db.record A .methods
        { ownerClass := UInt64.ofNat rowId, name := name, descriptor := descriptor }
  | .field name descriptor => do
      let (db, name) ← db.getPoolString name
      let (db, descriptor) ← db.getPoolString descriptor
      db.record A .fields
        { ownerClass := UInt64.ofNat rowId, name := name, descriptor := descriptor }
  | .classRef name => do
      let (db, name) ← db.getPoolString name
      db.record A .classRefs { ownerClass := UInt64.ofNat rowId, name := name }
  | .methodRef classname name descriptor => do
      let (db, classname) ← db.getPoolString classname
      let (db, name) ← db.getPoolString name
      let (db, descriptor) ← db.getPoolString descriptor
      db.record A .methodRefs
        { ownerClass := UInt64.ofNat rowId, classname := classname, name := name,
          descriptor := descriptor }
  | .fieldRef classname name descriptor => do
      let (db, classname) ← db.getPoolString classname
      let (db, name) ← db.getPoolString name
      let (db, descriptor) ← db.getPoolString descriptor
      db.record A .fieldRefs
        { ownerClass := UInt64.ofNat rowId, classname := classname, name := name,
          descriptor := descriptor }

variable {A rowId} {p : ConstantPool}

theorem recordMethod_eq (db : CallGraphDb) (m : MethodInfo) :
    recordMethod A rowId p db m = (methodTexts p m).bind fun t => t.record A rowId db := by
  simp only [recordMethod, methodTexts, NodeTexts.record, Option.bind_eq_bind]
  cases p.getString m.nameIndex with
  | none => rfl
  | some name =>
      cases p.getString m.descriptorIndex with
      | none => simp
      | some descriptor => rfl

theorem recordField_eq (db : CallGraphDb) (f : FieldInfo) :
    recordField A rowId p db f = (fieldTexts p f).bind fun t => t.record A rowId db := by
  simp only [recordField, fieldTexts, NodeTexts.record, Option.bind_eq_bind]
  cases p.getString f.nameIndex with
  | none => rfl
  | some name =>
      cases p.getString f.descriptorIndex with
      | none => simp
      | some descriptor => rfl

theorem commonRecordMethodRef_eq (db : CallGraphDb) (classIndex nameAndTypeIndex : UInt16) :
    commonRecordMethodRef A rowId p db classIndex nameAndTypeIndex =
      (methodRefTexts p classIndex nameAndTypeIndex).bind fun t => t.record A rowId db := by
  simp only [commonRecordMethodRef, methodRefTexts, NodeTexts.record, Option.bind_eq_bind]
  cases p.nameAndTypeInfo nameAndTypeIndex with
  | none => rfl
  | some x =>
      cases getClassInfoName p classIndex with
      | none => rfl
      | some classname =>
          cases hn : p.getString x.1 with
          | none => simp [hn]
          | some name =>
              cases hd : p.getString x.2 with
              | none => simp [hn, hd]
              | some descriptor => simp [hn, hd]

theorem recordFieldRef_eq (db : CallGraphDb) (classIndex nameAndTypeIndex : UInt16) :
    recordFieldRef A rowId p db classIndex nameAndTypeIndex =
      (fieldRefTexts p classIndex nameAndTypeIndex).bind fun t => t.record A rowId db := by
  simp only [recordFieldRef, fieldRefTexts, NodeTexts.record, Option.bind_eq_bind]
  cases getClassInfoName p classIndex with
  | none => rfl
  | some classname =>
      cases p.nameAndTypeInfo nameAndTypeIndex with
      | none => simp
      | some x =>
          cases hn : p.getString x.1 with
          | none => simp [hn]
          | some name =>
              cases hd : p.getString x.2 with
              | none => simp [hn, hd]
              | some descriptor => simp [hn, hd]

/-- The row of a node, if there is one. -/
def recordOptional (A : ∀ α : Type, Allocator α) (rowId : ℕ) (db : CallGraphDb) :
    Option NodeTexts → Option CallGraphDb
  | some t => t.record A rowId db
  | none => some db

theorem recordEntry_eq (db : CallGraphDb) (entry : ConstantPoolRecord) :
    recordEntry A rowId p db entry =
      (entryTexts p entry).bind fun t => recordOptional A rowId db t := by
  cases entry with
  | methodrefInfo classIndex nameAndTypeIndex =>
      rw [recordEntry, entryTexts, commonRecordMethodRef_eq, Option.bind_map]
      rfl
  | interfaceMethodrefInfo classIndex nameAndTypeIndex =>
      rw [recordEntry, entryTexts, commonRecordMethodRef_eq, Option.bind_map]
      rfl
  | fieldrefInfo classIndex nameAndTypeIndex =>
      rw [recordEntry, entryTexts, recordFieldRef_eq, Option.bind_map]
      rfl
  | classInfo nameIndex =>
      rw [recordEntry, entryTexts, Option.bind_map]
      rfl
  | _ => rfl

/-- A loop whose lookups do not depend on the database. -/
theorem foldlM_lookups {B T D : Type} {f : D → B → Option D} {g : B → Option T}
    {h : D → T → Option D} (hf : ∀ db b, f db b = (g b).bind fun t => h db t)
    (bs : List B) (db : D) :
    bs.foldlM f db = (bs.mapM g).bind fun ts => ts.foldlM h db := by
  induction bs generalizing db with
  | nil => rfl
  | cons b bs ih =>
      rw [List.foldlM_cons, hf, List.mapM_cons]
      cases g b with
      | none => rfl
      | some t =>
          simp only [Option.bind_some, Option.bind_eq_bind, ih]
          cases bs.mapM g with
          | none => simp
          | some ts => simp

theorem foldlM_recordOptional (ts : List (Option NodeTexts)) (db : CallGraphDb) :
    ts.foldlM (recordOptional A rowId) db =
      ts.reduceOption.foldlM (fun db t => t.record A rowId db) db := by
  induction ts generalizing db with
  | nil => rfl
  | cons t ts ih =>
      cases t with
      | none =>
          rw [List.foldlM_cons, List.reduceOption_cons_of_none]
          exact ih db
      | some t =>
          rw [List.foldlM_cons, List.reduceOption_cons_of_some, List.foldlM_cons]
          exact congrArg _ (funext fun db => ih db)

/-- The first constant of a pool is at index 1. -/
theorem hasRecord_one {constants : List ConstantPoolRecord}
    (h : 1 < (poolSlots constants).length) : hasRecord ⟨poolSlots constants⟩ 1 := by
  cases constants with
  | nil => exact absurd h (by decide)
  | cons record constants =>
      unfold hasRecord poolSlots slotsOf
      rw [List.flatMap_cons]
      split <;> rfl

/-- The loop over the pool visits `visited` in every pool that a parse leaves. -/
theorem recordRefsFrom_one (h : LaidOut (2 ^ 16) p) (db : CallGraphDb) :
    recordRefsFrom A rowId p 1 db = (visited p).foldlM (recordEntry A rowId p) db := by
  obtain ⟨constants, rfl, hlength⟩ := h
  unfold visited
  split
  · rename_i hlt
    rw [ClassFileExtraction.recordRefsFrom_eq A rowId hlt 1 db hasRecord_one]
    rfl
  · rename_i hlt
    have hsize : getPoolSize ⟨poolSlots constants⟩ = 0 := by
      have heq : (poolSlots constants).length = 2 ^ 16 := by
        dsimp only at hlt
        omega
      rw [getPoolSize, heq, Nat.mod_self]
    rw [recordRefsFrom, dif_neg (by omega)]
    rfl

/-- The extraction makes its lookups and then works on the database alone. -/
theorem extractNodes_eq {c : ClassFile} (h : LaidOut (2 ^ 16) c.constantPool) (db : CallGraphDb) :
    extractNodes A rowId c db = (extractTexts c).bind fun ts =>
      ts.foldlM (fun db t => t.record A rowId db) db := by
  simp only [extractNodes, recordMethods, recordFields, recordRefs, recordRefsFrom_one h,
    foldlM_lookups recordMethod_eq, foldlM_lookups recordField_eq, foldlM_lookups recordEntry_eq,
    foldlM_recordOptional, extractTexts, Option.bind_eq_bind]
  cases c.methods.mapM (methodTexts c.constantPool) with
  | none => rfl
  | some methods =>
      cases c.fields.mapM (fieldTexts c.constantPool) with
      | none => simp
      | some fields =>
          cases (visited c.constantPool).mapM (entryTexts c.constantPool) with
          | none => simp
          | some refs => simp [List.foldlM_append]

end Record

section Resolve
variable (p : ConstantPool)

/-- The index of a class that `getClassInfoName` can name. -/
def NamesClass (index : UInt16) : Prop :=
  index = 0 ∨ ∃ nameIndex, p.classInfo index = some nameIndex ∧
    (nameIndex = 0 ∨ IsUtf8 p nameIndex)

/-- The references of a Methodref, InterfaceMethodref or Fieldref. -/
def RefResolves (classIndex nameAndTypeIndex : UInt16) : Prop :=
  NamesClass p classIndex ∧ ∃ nameIndex descriptorIndex,
    p.nameAndTypeInfo nameAndTypeIndex = some (nameIndex, descriptorIndex) ∧
      IsUtf8 p nameIndex ∧ IsUtf8 p descriptorIndex

def EntryResolves : ConstantPoolRecord → Prop
  | .classInfo nameIndex => IsUtf8 p nameIndex
  | .fieldrefInfo classIndex nameAndTypeIndex => RefResolves p classIndex nameAndTypeIndex
  | .methodrefInfo classIndex nameAndTypeIndex => RefResolves p classIndex nameAndTypeIndex
  | .interfaceMethodrefInfo classIndex nameAndTypeIndex =>
      RefResolves p classIndex nameAndTypeIndex
  | _ => True

/-- The attributes of a member are only looked at when the member is public. -/
structure MemberResolves (m : FieldInfo) : Prop where
  name : IsUtf8 p m.nameIndex
  descriptor : IsUtf8 p m.descriptorIndex
  attributes : isPublic m.accessFlags → ∀ a ∈ m.attributes, IsUtf8 p a.nameIndex

/-- Every index of the class that a consumer follows leads to an entry of the
kind it is read as. -/
structure IndicesResolve (c : ClassFile) : Prop where
  thisClass : c.mainClassInfo.thisClass = 0 ∨ IsClass c.constantPool c.mainClassInfo.thisClass
  superClass : c.mainClassInfo.superClass = 0 ∨ IsClass c.constantPool c.mainClassInfo.superClass
  interfaces : ∀ i ∈ c.interfaces, IsClass c.constantPool i
  fields : ∀ f ∈ c.fields, MemberResolves c.constantPool f
  methods : ∀ m ∈ c.methods, MemberResolves c.constantPool m
  attributes : ∀ a ∈ c.attributes, IsUtf8 c.constantPool a.nameIndex
  entries : ∀ entry ∈ visited c.constantPool, EntryResolves c.constantPool entry

/-- No lookup of a consumer goes outside the pool, to an empty slot or to an
entry of another kind. -/
structure Safe (c : ClassFile) : Prop where
  mainClassname : (getMainClassname c).isSome
  digest : ∀ O : Bytes → Sha256, (eval O (digest c)).isSome
  extractNodes : (extractTexts c).isSome

variable {p}

theorem getClassInfoName_isSome {index : UInt16} :
    (getClassInfoName p index).isSome ↔ NamesClass p index := by
  unfold getClassInfoName NamesClass
  split
  · simp_all
  · cases hclass : p.classInfo index with
    | none => simp_all
    | some nameIndex =>
        simp only [Option.bind_eq_bind, Option.bind_some, Option.some.injEq, exists_eq_left',
          getClassname]
        split <;> simp_all [IsUtf8]

theorem mapM_isSome {B T : Type} {g : B → Option T} {bs : List B} :
    (bs.mapM g).isSome ↔ ∀ b ∈ bs, (g b).isSome := by
  induction bs with
  | nil => simp
  | cons b bs ih =>
      rw [List.mapM_cons]
      cases hb : g b with
      | none => simp [hb]
      | some t =>
          cases hbs : bs.mapM g with
          | none => simpa [hb, hbs] using ih
          | some ts => simpa [hb, hbs] using ih

theorem methodTexts_isSome {m : MethodInfo} :
    (methodTexts p m).isSome ↔ IsUtf8 p m.nameIndex ∧ IsUtf8 p m.descriptorIndex := by
  unfold methodTexts IsUtf8 ConstantPool.getString
  cases p.utf8Info m.nameIndex <;> cases p.utf8Info m.descriptorIndex <;> simp

theorem fieldTexts_isSome {f : FieldInfo} :
    (fieldTexts p f).isSome ↔ IsUtf8 p f.nameIndex ∧ IsUtf8 p f.descriptorIndex := by
  unfold fieldTexts IsUtf8 ConstantPool.getString
  cases p.utf8Info f.nameIndex <;> cases p.utf8Info f.descriptorIndex <;> simp

theorem methodRefTexts_isSome {classIndex nameAndTypeIndex : UInt16} :
    (methodRefTexts p classIndex nameAndTypeIndex).isSome ↔
      RefResolves p classIndex nameAndTypeIndex := by
  rw [RefResolves, ← getClassInfoName_isSome]
  unfold methodRefTexts IsUtf8 ConstantPool.getString
  cases p.nameAndTypeInfo nameAndTypeIndex with
  | none => simp
  | some x =>
      obtain ⟨nameIndex, descriptorIndex⟩ := x
      cases getClassInfoName p classIndex <;> cases hn : p.utf8Info nameIndex <;>
        cases hd : p.utf8Info descriptorIndex <;> simp [hn, hd]

theorem fieldRefTexts_isSome {classIndex nameAndTypeIndex : UInt16} :
    (fieldRefTexts p classIndex nameAndTypeIndex).isSome ↔
      RefResolves p classIndex nameAndTypeIndex := by
  rw [RefResolves, ← getClassInfoName_isSome]
  unfold fieldRefTexts IsUtf8 ConstantPool.getString
  cases p.nameAndTypeInfo nameAndTypeIndex with
  | none => simp
  | some x =>
      obtain ⟨nameIndex, descriptorIndex⟩ := x
      cases getClassInfoName p classIndex <;> cases hn : p.utf8Info nameIndex <;>
        cases hd : p.utf8Info descriptorIndex <;> simp [hn, hd]

theorem entryTexts_isSome {entry : ConstantPoolRecord} :
    (entryTexts p entry).isSome ↔ EntryResolves p entry := by
  cases entry with
  | methodrefInfo classIndex nameAndTypeIndex =>
      rw [entryTexts, Option.isSome_map]
      exact methodRefTexts_isSome
  | interfaceMethodrefInfo classIndex nameAndTypeIndex =>
      rw [entryTexts, Option.isSome_map]
      exact methodRefTexts_isSome
  | fieldrefInfo classIndex nameAndTypeIndex =>
      rw [entryTexts, Option.isSome_map]
      exact fieldRefTexts_isSome
  | classInfo nameIndex =>
      rw [entryTexts, Option.isSome_map]
      exact Iff.rfl
  | _ => simp [entryTexts, EntryResolves]

theorem extractTexts_isSome {c : ClassFile} :
    (extractTexts c).isSome ↔
      (∀ m ∈ c.methods, IsUtf8 c.constantPool m.nameIndex ∧
        IsUtf8 c.constantPool m.descriptorIndex) ∧
      (∀ f ∈ c.fields, IsUtf8 c.constantPool f.nameIndex ∧
        IsUtf8 c.constantPool f.descriptorIndex) ∧
      ∀ entry ∈ visited c.constantPool, EntryResolves c.constantPool entry := by
  have hmethods : (c.methods.mapM (methodTexts c.constantPool)).isSome ↔ _ := mapM_isSome
  have hfields : (c.fields.mapM (fieldTexts c.constantPool)).isSome ↔ _ := mapM_isSome
  have hentries : ((visited c.constantPool).mapM (entryTexts c.constantPool)).isSome ↔ _ :=
    mapM_isSome
  simp only [methodTexts_isSome, fieldTexts_isSome, entryTexts_isSome] at hmethods hfields hentries
  rw [← hmethods, ← hfields, ← hentries]
  unfold extractTexts
  cases c.methods.mapM (methodTexts c.constantPool) <;>
    cases c.fields.mapM (fieldTexts c.constantPool) <;>
      cases (visited c.constantPool).mapM (entryTexts c.constantPool) <;> simp

theorem className_isSome_iff {i : UInt16} :
    (DigestView.className p i).isSome ↔ i = 0 ∨ IsClass p i := by
  unfold DigestView.className IsClass IsUtf8
  split
  · simp_all
  · cases p.classInfo i <;> simp_all

theorem attributeBodies_isSome_iff {as : List AttributeInfo} :
    (attributeBodies p as).isSome ↔ ∀ a ∈ as, IsUtf8 p a.nameIndex := by
  unfold attributeBodies
  rw [gather_isSome]
  simp only [attributeBody, Option.isSome_map, IsUtf8]

theorem memberView_isSome_iff {m : FieldInfo} :
    (memberView p m).isSome ↔
      IsUtf8 p m.nameIndex ∧ (∀ a ∈ m.attributes, IsUtf8 p a.nameIndex) ∧
        IsUtf8 p m.descriptorIndex := by
  rw [← attributeBodies_isSome_iff]
  unfold memberView IsUtf8
  cases p.utf8Info m.nameIndex <;> cases attributeBodies p m.attributes <;>
    cases p.utf8Info m.descriptorIndex <;> simp

theorem publicViews_isSome_iff {ms : List FieldInfo} :
    (publicViews p ms).isSome ↔ ∀ m ∈ ms, isPublic m.accessFlags →
      IsUtf8 p m.nameIndex ∧ (∀ a ∈ m.attributes, IsUtf8 p a.nameIndex) ∧
        IsUtf8 p m.descriptorIndex := by
  unfold publicViews
  rw [gather_isSome]
  refine forall₂_congr fun m _ => ?_
  rw [← memberView_isSome_iff, publicView]
  split <;> simp_all

theorem interfaceHeads_isSome_iff {is : List UInt16} :
    (interfaceHeads p is).isSome ↔ ∀ i ∈ is, IsClass p i := by
  unfold interfaceHeads
  rw [gather_isSome]
  refine forall₂_congr fun i _ => ?_
  rw [Option.isSome_map, interfaceHead, Option.isSome_map, IsClass]
  unfold IsUtf8
  cases p.classInfo i <;> simp

/-- The lookups of the digest. -/
theorem digest_isSome_iff {c : ClassFile} :
    (∀ O : Bytes → Sha256, (eval O (digest c)).isSome) ↔
      (DigestView.className c.constantPool c.mainClassInfo.thisClass).isSome ∧
      (DigestView.className c.constantPool c.mainClassInfo.superClass).isSome ∧
      (attributeBodies c.constantPool c.attributes).isSome ∧
      (publicViews c.constantPool c.methods).isSome ∧
      (publicViews c.constantPool c.fields).isSome ∧
      (interfaceHeads c.constantPool c.interfaces).isSome := by
  simp only [eval_digest, Option.isSome_map, forall_const]
  unfold hashedView
  cases DigestView.className c.constantPool c.mainClassInfo.thisClass <;>
    cases DigestView.className c.constantPool c.mainClassInfo.superClass <;>
    cases attributeBodies c.constantPool c.attributes <;>
    cases publicViews c.constantPool c.methods <;>
    cases publicViews c.constantPool c.fields <;>
    cases interfaceHeads c.constantPool c.interfaces <;> simp

theorem namesClass_of_isClass {i : UInt16} (h : i = 0 ∨ IsClass p i) : NamesClass p i := by
  rcases h with h | ⟨nameIndex, hclass, hutf8⟩
  · exact .inl h
  · exact .inr ⟨nameIndex, hclass, .inr hutf8⟩

theorem IndicesResolve.safe {c : ClassFile} (h : IndicesResolve c) : Safe c where
  mainClassname := getClassInfoName_isSome.mpr (namesClass_of_isClass h.thisClass)
  digest := digest_isSome_iff.mpr
    ⟨className_isSome_iff.mpr h.thisClass, className_isSome_iff.mpr h.superClass,
      attributeBodies_isSome_iff.mpr h.attributes,
      publicViews_isSome_iff.mpr fun m hm hp =>
        ⟨(h.methods m hm).name, (h.methods m hm).attributes hp, (h.methods m hm).descriptor⟩,
      publicViews_isSome_iff.mpr fun f hf hp =>
        ⟨(h.fields f hf).name, (h.fields f hf).attributes hp, (h.fields f hf).descriptor⟩,
      interfaceHeads_isSome_iff.mpr h.interfaces⟩
  extractNodes := extractTexts_isSome.mpr
    ⟨fun m hm => ⟨(h.methods m hm).name, (h.methods m hm).descriptor⟩,
      fun f hf => ⟨(h.fields f hf).name, (h.fields f hf).descriptor⟩, h.entries⟩

theorem Safe.indicesResolve {c : ClassFile} (h : Safe c) : IndicesResolve c := by
  obtain ⟨hthis, hsuper, hattributes, hmethods, hfields, hinterfaces⟩ :=
    digest_isSome_iff.mp h.digest
  obtain ⟨htextsM, htextsF, hentries⟩ := extractTexts_isSome.mp h.extractNodes
  have hpublicM := publicViews_isSome_iff.mp hmethods
  have hpublicF := publicViews_isSome_iff.mp hfields
  exact
    { thisClass := className_isSome_iff.mp hthis
      superClass := className_isSome_iff.mp hsuper
      interfaces := interfaceHeads_isSome_iff.mp hinterfaces
      fields := fun f hf =>
        ⟨(htextsF f hf).1, (htextsF f hf).2, fun hp => (hpublicF f hf hp).2.1⟩
      methods := fun m hm =>
        ⟨(htextsM m hm).1, (htextsM m hm).2, fun hp => (hpublicM m hm hp).2.1⟩
      attributes := attributeBodies_isSome_iff.mp hattributes
      entries := hentries }

end Resolve

/-- A class file that `parse()` accepts is safe to consume exactly when all its
indices resolve; the lookups of `extractNodes` are those of `extractTexts`. -/
theorem safe_iff_indicesResolve {kind : Kind} {content : Bytes} {garbage : ℕ → UInt8}
    {c : ClassFile} {s : Stream} (h : parsed kind content garbage = some (c, s)) :
    (Safe c ↔ IndicesResolve c) ∧
      ∀ (A : ∀ α : Type, Allocator α) (rowId : ℕ) (db : CallGraphDb),
        extractNodes A rowId c db = (extractTexts c).bind fun ts =>
          ts.foldlM (fun db t => t.record A rowId db) db :=
  ⟨⟨Safe.indicesResolve, IndicesResolve.safe⟩, fun _ _ db =>
    extractNodes_eq (laidOut_of_parsed h) db⟩

theorem alignedFile_safe :
    (∃ s, parsed .memory alignedFile (fun _ => 0) = some (alignedClass, s)) ∧
      Safe alignedClass := by
  obtain ⟨s, hparsed⟩ := parsed_alignedFile
  have hentries : ∀ entry ∈ visited alignedClass.constantPool,
      (entryTexts alignedClass.constantPool entry).isSome := by
    decide
  refine ⟨⟨s, hparsed⟩, (safe_iff_indicesResolve hparsed).1.mpr
    ⟨.inl rfl, .inl rfl, nofun, nofun, nofun, nofun, fun entry hentry => ?_⟩⟩
  exact entryTexts_isSome.mp (hentries entry hentry)

/-- A pool without entries and the class index 5. -/
def danglingFile : Bytes :=
  headerBytes false 0 52 ++ (u2Bytes false 1 ++ [0, 0, 0, 5, 0, 0] ++ List.replicate 8 0)

theorem danglingFile_not_safe :
    ¬∀ (kind : Kind) (content : Bytes) (garbage : ℕ → UInt8) (c : ClassFile) (s : Stream),
      parsed kind content garbage = some (c, s) → Safe c := by
  intro h
  have hmain := (h .memory danglingFile (fun _ => 0) _ _ rfl).mainClassname
  revert hmain
  decide

end Tarracsh.SafeConsumption
