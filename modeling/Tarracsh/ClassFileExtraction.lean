import Tarracsh.ClassFileProcessor
import Tarracsh.CallGraphInvariant
import Mathlib.Data.List.ReduceOption

/-!
# What the extraction of a class records

The walk over the constant pool visits the record of every slot once. Each
method, field and pool entry adds at most one node to one table, under a key
that has the name of the node but neither its descriptor nor the class it
refers to. After `extractNodes` a table lists what the class declares exactly
when no two of its nodes share their name.
-/
namespace Tarracsh.ClassFileExtraction
open ByteStrings StringPool KeyedUpdates PoolStructures ParsedClass TableModel TableInvariant
open DomainTables CallGraphTables CallGraphInvariant ClassFileProcessor

/-- The records of the pool in the order of their slots. -/
def entries (p : ConstantPool) : List ConstantPoolRecord := p.constantPoolIndex.reduceOption

section Walk
variable {p : ConstantPool}

theorem drop_of_hasRecord {index : ℕ} (h : hasRecord p index) :
    ∃ entry, p.constantPoolIndex[index]? = some (some entry) ∧
      p.constantPoolIndex.drop index = some entry :: p.constantPoolIndex.drop (index + 1) := by
  obtain ⟨entry, hentry⟩ := Option.isSome_iff_exists.mp h
  have hslot := Option.join_eq_some_iff.mp hentry
  obtain ⟨hlt, hget⟩ := List.getElem?_eq_some_iff.mp hslot
  exact ⟨entry, hslot, by rw [List.drop_eq_getElem_cons hlt, hget]⟩

theorem hasRecord_nextSlot {index : ℕ} (hlt : index < p.constantPoolIndex.length)
    (h : nextSlot p index < p.constantPoolIndex.length) :
    hasRecord p (nextSlot p index) := by
  fun_induction nextSlot p index with
  | case1 index hindex hstop =>
      rcases hstop with hend | hrecord
      · omega
      · exact hrecord
  | case2 index hindex hgo ih => exact ih (by omega) h
  | case3 index hindex => exact absurd hlt hindex

/-- Only empty slots are skipped. -/
theorem reduceOption_nextSlot {index : ℕ} (hlt : index < p.constantPoolIndex.length) :
    (p.constantPoolIndex.drop (nextSlot p index)).reduceOption =
      (p.constantPoolIndex.drop (index + 1)).reduceOption := by
  fun_induction nextSlot p index with
  | case1 index hindex hstop => rfl
  | case2 index hindex hgo ih =>
      obtain ⟨hinside, hempty⟩ := not_or.mp hgo
      have hinside : index + 1 < p.constantPoolIndex.length := by omega
      have hslot : p.constantPoolIndex[index + 1] = none := by
        simpa [hasRecord, List.getElem?_eq_getElem hinside] using hempty
      rw [ih hinside, List.drop_eq_getElem_cons hinside, hslot, List.reduceOption_cons_of_none]
  | case3 index hindex => exact absurd hlt hindex

/-- From a slot with a record on, the loop of `recordRefs` is a loop over the
records that follow. -/
theorem recordRefsFrom_eq (A : ∀ α : Type, Allocator α) (rowId : ℕ)
    (hsize : p.constantPoolIndex.length < 2 ^ 16) (index : ℕ) (db : CallGraphDb)
    (hslot : index < p.constantPoolIndex.length → hasRecord p index) :
    recordRefsFrom A rowId p index db =
      (p.constantPoolIndex.drop index).reduceOption.foldlM (recordEntry A rowId p) db := by
  have hpoolSize : getPoolSize p = p.constantPoolIndex.length := Nat.mod_eq_of_lt hsize
  induction hn : p.constantPoolIndex.length - index using Nat.strong_induction_on
    generalizing index db with
  | _ n ih =>
      rw [recordRefsFrom, hpoolSize]
      by_cases hlt : index < p.constantPoolIndex.length
      · obtain ⟨entry, hentry, hdrop⟩ := drop_of_hasRecord (hslot hlt)
        have hget : p.getEntry (UInt16.ofNat index) = some entry := by
          rw [ConstantPool.getEntry, UInt16.toNat_ofNat', Nat.mod_eq_of_lt (by omega), hentry]
          rfl
        rw [dif_pos hlt, hget, hdrop, List.reduceOption_cons_of_some, List.foldlM_cons]
        cases hrecord : recordEntry A rowId p db entry with
        | none => simp [hrecord]
        | some db' =>
            have hnext := lt_nextSlot p hlt
            have hrest := ih _ (by omega) (nextSlot p index) db'
              (hasRecord_nextSlot hlt) rfl
            rw [reduceOption_nextSlot hlt] at hrest
            simpa [hrecord] using hrest
      · rw [dif_neg hlt, List.drop_eq_nil_of_le (by omega)]
        rfl

end Walk

section Declared
variable (p : ConstantPool)

/-- The text of a Utf8 entry. -/
def utf8 (index : UInt16) : Bytes := (p.utf8Info index).getD []

/-- The name of a Class entry. -/
def className (index : UInt16) : Bytes := ((p.classInfo index).bind p.utf8Info).getD []

def nameAndType (index : UInt16) : UInt16 × UInt16 := (p.nameAndTypeInfo index).getD (0, 0)

/-- Name and descriptor of a method or field. -/
def memberLabel (m : FieldInfo) : List Bytes := [utf8 p m.nameIndex, utf8 p m.descriptorIndex]

/-- Target class, name and descriptor of a reference. -/
def refLabel (classIndex nameAndTypeIndex : UInt16) : List Bytes :=
  [className p classIndex, utf8 p (nameAndType p nameAndTypeIndex).1,
    utf8 p (nameAndType p nameAndTypeIndex).2]

def classRef : ConstantPoolRecord → Option (List Bytes)
  | .classInfo nameIndex => some [utf8 p nameIndex]
  | _ => none

def methodRef : ConstantPoolRecord → Option (List Bytes)
  | .methodrefInfo classIndex nameAndTypeIndex => some (refLabel p classIndex nameAndTypeIndex)
  | .interfaceMethodrefInfo classIndex nameAndTypeIndex =>
      some (refLabel p classIndex nameAndTypeIndex)
  | _ => none

def fieldRef : ConstantPoolRecord → Option (List Bytes)
  | .fieldrefInfo classIndex nameAndTypeIndex => some (refLabel p classIndex nameAndTypeIndex)
  | _ => none

/-- The nodes of a class. -/
def declared (c : ClassFile) : NodeTable → List (List Bytes)
  | .methods => c.methods.map (memberLabel c.constantPool)
  | .fields => c.fields.map (memberLabel c.constantPool)
  | .classRefs => (entries c.constantPool).filterMap (classRef c.constantPool)
  | .methodRefs => (entries c.constantPool).filterMap (methodRef c.constantPool)
  | .fieldRefs => (entries c.constantPool).filterMap (fieldRef c.constantPool)

def methodNode : NodeTable → MethodInfo → Option (List Bytes)
  | .methods => fun m => some (memberLabel p m)
  | _ => fun _ => none

def fieldNode : NodeTable → FieldInfo → Option (List Bytes)
  | .fields => fun f => some (memberLabel p f)
  | _ => fun _ => none

def entryNode : NodeTable → ConstantPoolRecord → Option (List Bytes)
  | .classRefs => classRef p
  | .methodRefs => methodRef p
  | .fieldRefs => fieldRef p
  | _ => fun _ => none

/-- The three loops of `extractNodes` in turn. -/
theorem declared_eq (c : ClassFile) (i : NodeTable) :
    declared c i = c.methods.filterMap (methodNode c.constantPool i) ++
      c.fields.filterMap (fieldNode c.constantPool i) ++
      (entries c.constantPool).filterMap (entryNode c.constantPool i) := by
  cases i <;> simp [declared, methodNode, fieldNode, entryNode]

/-- The references of a Methodref, InterfaceMethodref or Fieldref resolve. -/
def RefValid (classIndex nameAndTypeIndex : UInt16) : Prop :=
  IsClass p classIndex ∧ ∃ nameIndex descriptorIndex,
    p.nameAndTypeInfo nameAndTypeIndex = some (nameIndex, descriptorIndex) ∧
      IsUtf8 p nameIndex ∧ IsUtf8 p descriptorIndex

instance (index : UInt16) : Decidable (IsUtf8 p index) := inferInstanceAs (Decidable (_ = true))

instance (index : UInt16) : Decidable (IsClass p index) :=
  inferInstanceAs (Decidable (∃ nameIndex ∈ p.classInfo index, IsUtf8 p nameIndex))

instance (classIndex nameAndTypeIndex : UInt16) :
    Decidable (RefValid p classIndex nameAndTypeIndex) :=
  decidable_of_iff (IsClass p classIndex ∧ ∃ x ∈ p.nameAndTypeInfo nameAndTypeIndex,
    IsUtf8 p x.1 ∧ IsUtf8 p x.2) (by simp [RefValid])

/-- A text has no NUL byte and a two-byte length, and an entry that is
recorded resolves. -/
def EntryValid : ConstantPoolRecord → Prop
  | .utf8Info bytes => Interned bytes
  | .classInfo nameIndex => IsUtf8 p nameIndex
  | .fieldrefInfo classIndex nameAndTypeIndex => RefValid p classIndex nameAndTypeIndex
  | .methodrefInfo classIndex nameAndTypeIndex => RefValid p classIndex nameAndTypeIndex
  | .interfaceMethodrefInfo classIndex nameAndTypeIndex =>
      RefValid p classIndex nameAndTypeIndex
  | _ => True

instance : DecidablePred (EntryValid p)
  | .utf8Info _ => inferInstanceAs (Decidable (Interned _))
  | .classInfo _ => inferInstanceAs (Decidable (IsUtf8 p _))
  | .fieldrefInfo _ _ => inferInstanceAs (Decidable (RefValid p _ _))
  | .methodrefInfo _ _ => inferInstanceAs (Decidable (RefValid p _ _))
  | .interfaceMethodrefInfo _ _ => inferInstanceAs (Decidable (RefValid p _ _))
  | .integerInfo _ => .isTrue trivial
  | .floatInfo _ => .isTrue trivial
  | .longInfo _ _ => .isTrue trivial
  | .doubleInfo _ _ => .isTrue trivial
  | .stringInfo _ => .isTrue trivial
  | .nameAndTypeInfo _ _ => .isTrue trivial
  | .methodHandleInfo _ _ => .isTrue trivial
  | .methodTypeInfo _ => .isTrue trivial
  | .dynamicInfo _ _ => .isTrue trivial
  | .invokeDynamicInfo _ _ => .isTrue trivial
  | .moduleInfo _ => .isTrue trivial
  | .packageInfo _ => .isTrue trivial

/-- Slot 0 of the pool is empty and slot 1 is not. -/
structure WellFormedClass (c : ClassFile) : Prop where
  size : c.constantPool.constantPoolIndex.length < 2 ^ 16
  slotZero : c.constantPool.constantPoolIndex[0]? = some none
  slotOne : 1 < c.constantPool.constantPoolIndex.length → hasRecord c.constantPool 1
  entries : ∀ entry ∈ entries c.constantPool, EntryValid c.constantPool entry
  methods : ∀ m ∈ c.methods,
    IsUtf8 c.constantPool m.nameIndex ∧ IsUtf8 c.constantPool m.descriptorIndex
  fields : ∀ f ∈ c.fields,
    IsUtf8 c.constantPool f.nameIndex ∧ IsUtf8 c.constantPool f.descriptorIndex

end Declared

section Resolution
variable {p : ConstantPool}

theorem mem_entries {index : UInt16} {entry : ConstantPoolRecord}
    (h : p.getEntry index = some entry) : entry ∈ entries p := by
  rw [entries, List.reduceOption_mem_iff]
  exact List.mem_of_getElem? (Option.join_eq_some_iff.mp h)

theorem utf8Info_of_isUtf8 {index : UInt16} (h : IsUtf8 p index) :
    p.utf8Info index = some (utf8 p index) := by
  obtain ⟨bytes, hbytes⟩ := Option.isSome_iff_exists.mp h
  rw [utf8, hbytes]
  rfl

theorem getEntry_of_isUtf8 {index : UInt16} (h : IsUtf8 p index) :
    p.getEntry index = some (.utf8Info (utf8 p index)) := by
  have hutf8 := utf8Info_of_isUtf8 h
  unfold ConstantPool.utf8Info at hutf8
  split at hutf8
  · rename_i bytes hentry
    rw [hentry, Option.some.inj hutf8]
  · exact absurd hutf8 (by simp)

/-- The name of a class reference is found in the two steps of the source,
none of which meets index 0. -/
theorem getClassInfoName_of_isClass (hzero : p.getEntry 0 = none) {index : UInt16}
    (h : IsClass p index) :
    ∃ nameIndex, IsUtf8 p nameIndex ∧ className p index = utf8 p nameIndex ∧
      getClassInfoName p index = some (utf8 p nameIndex) := by
  obtain ⟨nameIndex, hclass, hname⟩ := h
  refine ⟨nameIndex, hname, ?_, ?_⟩
  · rw [className, hclass, Option.bind_some]
    rfl
  · have hindex : index ≠ 0 := by
      rintro rfl
      simp [ConstantPool.classInfo, hzero] at hclass
    have hnameIndex : nameIndex ≠ 0 := by
      rintro rfl
      simp [IsUtf8, ConstantPool.utf8Info, hzero] at hname
    simp [getClassInfoName, getClassname, hindex, hnameIndex, hclass, utf8Info_of_isUtf8 hname]

end Resolution

section Steps
variable (A : ∀ α : Type, Allocator α) {p : ConstantPool} {words : List Bytes} {rowId : ℕ}
  {db : CallGraphDb} {items : NodeTable → List (List Bytes)}

/-- A node whose texts were just interned. -/
theorem record_spec (i : NodeTable) (cols : NodeCols i) (node : NodeTable → Option (List Bytes))
    (h : Extracted words rowId db items) (howned : i.ownerClass cols = UInt64.ofNat rowId)
    {label : List Bytes} (hnode : node i = some label) (hothers : ∀ j, j ≠ i → node j = none)
    (htexts : (i.texts cols).map (fun s => db.pool.getCString s.toNat) = label.map some) :
    ∃ db', db.record A i cols = some db' ∧
      Extracted words rowId db' fun j => items j ++ (node j).toList := by
  have hreadable : Readable db.pool i cols := by
    intro s hs
    have hmem : db.pool.getCString s.toNat ∈ label.map some := by
      rw [← htexts]
      exact List.mem_map.mpr ⟨s, hs, rfl⟩
    obtain ⟨value, -, hvalue⟩ := List.mem_map.mp hmem
    rw [← hvalue]
    rfl
  have hlabel : db.label i cols = label := by
    have htext : text db.pool = fun s => (db.pool.getCString s.toNat).getD [] := rfl
    have := congrArg (List.map fun o : Option Bytes => o.getD []) htexts
    simpa [CallGraphDb.label, htext, Function.comp_def] using this
  apply h.record A howned hreadable
  · rw [hnode, hlabel]
    rfl
  · intro j hj
    rw [hothers j hj]
    simp

variable (hw : Vocabulary words) (hwords : ∀ index, IsUtf8 p index → utf8 p index ∈ words)
include hw hwords

theorem recordMethod_spec (h : Extracted words rowId db items) {m : MethodInfo}
    (hm : IsUtf8 p m.nameIndex ∧ IsUtf8 p m.descriptorIndex) :
    ∃ db', recordMethod A rowId p db m = some db' ∧
      Extracted words rowId db' fun i => items i ++ (methodNode p i m).toList := by
  obtain ⟨pool₁, name, hname, h₁, -, hreadName⟩ := h.getPoolString hw (hwords _ hm.1)
  obtain ⟨pool₂, descriptor, hdescriptor, h₂, hgrows, hreadDescriptor⟩ :=
    h₁.getPoolString hw (hwords _ hm.2)
  have hothers : ∀ j, j ≠ .methods → methodNode p j m = none := by
    intro j hj
    cases j <;> first | rfl | exact absurd rfl hj
  have hrecord := record_spec A .methods
    { ownerClass := UInt64.ofNat rowId, name := name, descriptor := descriptor }
    (fun i => methodNode p i m) h₂ rfl rfl hothers
    (by simp [NodeTable.texts, memberLabel, hgrows _ _ hreadName, hreadDescriptor])
  simpa [recordMethod, ConstantPool.getString, utf8Info_of_isUtf8 hm.1, utf8Info_of_isUtf8 hm.2,
    hname, hdescriptor] using hrecord

theorem recordField_spec (h : Extracted words rowId db items) {f : FieldInfo}
    (hf : IsUtf8 p f.nameIndex ∧ IsUtf8 p f.descriptorIndex) :
    ∃ db', recordField A rowId p db f = some db' ∧
      Extracted words rowId db' fun i => items i ++ (fieldNode p i f).toList := by
  obtain ⟨pool₁, name, hname, h₁, -, hreadName⟩ := h.getPoolString hw (hwords _ hf.1)
  obtain ⟨pool₂, descriptor, hdescriptor, h₂, hgrows, hreadDescriptor⟩ :=
    h₁.getPoolString hw (hwords _ hf.2)
  have hothers : ∀ j, j ≠ .fields → fieldNode p j f = none := by
    intro j hj
    cases j <;> first | rfl | exact absurd rfl hj
  have hrecord := record_spec A .fields
    { ownerClass := UInt64.ofNat rowId, name := name, descriptor := descriptor }
    (fun i => fieldNode p i f) h₂ rfl rfl hothers
    (by simp [NodeTable.texts, memberLabel, hgrows _ _ hreadName, hreadDescriptor])
  simpa [recordField, ConstantPool.getString, utf8Info_of_isUtf8 hf.1, utf8Info_of_isUtf8 hf.2,
    hname, hdescriptor] using hrecord

theorem recordClassRef_spec (h : Extracted words rowId db items) {nameIndex : UInt16}
    (hindex : IsUtf8 p nameIndex) :
    ∃ db', recordClassRef A rowId p db nameIndex = some db' ∧
      Extracted words rowId db' fun i =>
        items i ++ (entryNode p i (.classInfo nameIndex)).toList := by
  obtain ⟨pool₁, name, hname, h₁, -, hreadName⟩ := h.getPoolString hw (hwords _ hindex)
  have hothers : ∀ j, j ≠ .classRefs → entryNode p j (.classInfo nameIndex) = none := by
    intro j hj
    cases j <;> first | rfl | exact absurd rfl hj
  have hrecord := record_spec A .classRefs { ownerClass := UInt64.ofNat rowId, name := name }
    (fun i => entryNode p i (.classInfo nameIndex)) h₁ rfl rfl hothers
    (by simp [NodeTable.texts, hreadName])
  simpa [recordClassRef, ConstantPool.getString, utf8Info_of_isUtf8 hindex, hname] using hrecord

omit hwords in
/-- The three texts of a reference are interned one after the other. -/
theorem intern_ref (h : Extracted words rowId db items) {a b c : Bytes} (ha : a ∈ words)
    (hb : b ∈ words) (hc : c ∈ words) :
    ∃ pool₁ pool₂ pool₃ classname name descriptor,
      db.getPoolString a = some ({ db with pool := pool₁ }, classname) ∧
      CallGraphDb.getPoolString { db with pool := pool₁ } b =
        some ({ db with pool := pool₂ }, name) ∧
      CallGraphDb.getPoolString { db with pool := pool₂ } c =
        some ({ db with pool := pool₃ }, descriptor) ∧
      Extracted words rowId { db with pool := pool₃ } items ∧
      [classname, name, descriptor].map (fun s : StringCol => pool₃.getCString s.toNat) =
        [some a, some b, some c] := by
  obtain ⟨pool₁, classname, hclassname, h₁, -, hread₁⟩ := h.getPoolString hw ha
  obtain ⟨pool₂, name, hname, h₂, hgrows₂, hread₂⟩ := h₁.getPoolString hw hb
  obtain ⟨pool₃, descriptor, hdescriptor, h₃, hgrows₃, hread₃⟩ := h₂.getPoolString hw hc
  refine ⟨pool₁, pool₂, pool₃, classname, name, descriptor, hclassname, hname, hdescriptor, h₃, ?_⟩
  simp [hgrows₃ _ _ (hgrows₂ _ _ hread₁), hgrows₃ _ _ hread₂, hread₃]

variable (hzero : p.getEntry 0 = none)
include hzero

omit hw in
theorem refLabel_mem {classIndex nameAndTypeIndex : UInt16}
    (href : RefValid p classIndex nameAndTypeIndex) :
    ∃ nameIndex descriptorIndex,
      p.nameAndTypeInfo nameAndTypeIndex = some (nameIndex, descriptorIndex) ∧
      getClassInfoName p classIndex = some (className p classIndex) ∧
      p.utf8Info nameIndex = some (utf8 p nameIndex) ∧
      p.utf8Info descriptorIndex = some (utf8 p descriptorIndex) ∧
      refLabel p classIndex nameAndTypeIndex =
        [className p classIndex, utf8 p nameIndex, utf8 p descriptorIndex] ∧
      className p classIndex ∈ words ∧ utf8 p nameIndex ∈ words ∧
      utf8 p descriptorIndex ∈ words := by
  obtain ⟨hclass, nameIndex, descriptorIndex, hnameAndType, hname, hdescriptor⟩ := href
  obtain ⟨classNameIndex, hclassName, heq, hget⟩ := getClassInfoName_of_isClass hzero hclass
  refine ⟨nameIndex, descriptorIndex, hnameAndType, by rw [hget, heq], utf8Info_of_isUtf8 hname,
    utf8Info_of_isUtf8 hdescriptor, ?_, ?_, hwords _ hname, hwords _ hdescriptor⟩
  · rw [refLabel, nameAndType, hnameAndType]
    rfl
  · rw [heq]
    exact hwords _ hclassName

theorem commonRecordMethodRef_spec (h : Extracted words rowId db items)
    {classIndex nameAndTypeIndex : UInt16} (href : RefValid p classIndex nameAndTypeIndex)
    (node : NodeTable → Option (List Bytes))
    (hnode : node .methodRefs = some (refLabel p classIndex nameAndTypeIndex))
    (hothers : ∀ j, j ≠ .methodRefs → node j = none) :
    ∃ db', commonRecordMethodRef A rowId p db classIndex nameAndTypeIndex = some db' ∧
      Extracted words rowId db' fun i => items i ++ (node i).toList := by
  obtain ⟨nameIndex, descriptorIndex, hnameAndType, hclass, hname, hdescriptor, hlabel, ha, hb,
    hc⟩ := refLabel_mem hwords hzero href
  obtain ⟨pool₁, pool₂, pool₃, classname, name, descriptor, h₁, h₂, h₃, hdb, htexts⟩ :=
    intern_ref hw h ha hb hc
  rw [hlabel] at hnode
  have hrecord := record_spec A .methodRefs
    { ownerClass := UInt64.ofNat rowId, classname := classname, name := name,
      descriptor := descriptor }
    node hdb rfl hnode hothers htexts
  simpa [commonRecordMethodRef, ConstantPool.getString, hnameAndType, hclass, hname, hdescriptor,
    h₁, h₂, h₃] using hrecord

theorem recordFieldRef_spec (h : Extracted words rowId db items)
    {classIndex nameAndTypeIndex : UInt16} (href : RefValid p classIndex nameAndTypeIndex) :
    ∃ db', recordFieldRef A rowId p db classIndex nameAndTypeIndex = some db' ∧
      Extracted words rowId db' fun i =>
        items i ++ (entryNode p i (.fieldrefInfo classIndex nameAndTypeIndex)).toList := by
  obtain ⟨nameIndex, descriptorIndex, hnameAndType, hclass, hname, hdescriptor, hlabel, ha, hb,
    hc⟩ := refLabel_mem hwords hzero href
  obtain ⟨pool₁, pool₂, pool₃, classname, name, descriptor, h₁, h₂, h₃, hdb, htexts⟩ :=
    intern_ref hw h ha hb hc
  have hothers : ∀ j, j ≠ .fieldRefs →
      entryNode p j (.fieldrefInfo classIndex nameAndTypeIndex) = none := by
    intro j hj
    cases j <;> first | rfl | exact absurd rfl hj
  have hrecord := record_spec A .fieldRefs
    { ownerClass := UInt64.ofNat rowId, classname := classname, name := name,
      descriptor := descriptor }
    (fun i => entryNode p i (.fieldrefInfo classIndex nameAndTypeIndex)) hdb rfl
    (congrArg some hlabel) hothers htexts
  simpa [recordFieldRef, ConstantPool.getString, hnameAndType, hclass, hname, hdescriptor,
    h₁, h₂, h₃] using hrecord

theorem recordEntry_spec (h : Extracted words rowId db items) {entry : ConstantPoolRecord}
    (hentry : EntryValid p entry) :
    ∃ db', recordEntry A rowId p db entry = some db' ∧
      Extracted words rowId db' fun i => items i ++ (entryNode p i entry).toList := by
  have hskip : (∀ i, entryNode p i entry = none) →
      Extracted words rowId db fun i => items i ++ (entryNode p i entry).toList := by
    intro hnone
    simpa [hnone] using h
  cases entry with
  | classInfo nameIndex => exact recordClassRef_spec A hw hwords h hentry
  | methodrefInfo classIndex nameAndTypeIndex =>
      apply commonRecordMethodRef_spec A hw hwords hzero h hentry _ rfl
      intro j hj
      cases j <;> first | rfl | exact absurd rfl hj
  | interfaceMethodrefInfo classIndex nameAndTypeIndex =>
      apply commonRecordMethodRef_spec A hw hwords hzero h hentry _ rfl
      intro j hj
      cases j <;> first | rfl | exact absurd rfl hj
  | fieldrefInfo classIndex nameAndTypeIndex =>
      exact recordFieldRef_spec A hw hwords hzero h hentry
  | _ => exact ⟨db, rfl, hskip (by intro i; cases i <;> rfl)⟩

end Steps

/-- A loop whose body adds the node of each element. -/
theorem foldlM_spec {β : Type} {words : List Bytes} {rowId : ℕ}
    (body : CallGraphDb → β → Option CallGraphDb) (node : NodeTable → β → Option (List Bytes))
    (xs : List β)
    (hbody : ∀ x ∈ xs, ∀ db items, Extracted words rowId db items →
      ∃ db', body db x = some db' ∧
        Extracted words rowId db' fun i => items i ++ (node i x).toList)
    {db : CallGraphDb} {items : NodeTable → List (List Bytes)}
    (h : Extracted words rowId db items) :
    ∃ db', xs.foldlM body db = some db' ∧
      Extracted words rowId db' fun i => items i ++ xs.filterMap (node i) := by
  induction xs generalizing db items with
  | nil => exact ⟨db, rfl, by simpa using h⟩
  | cons x xs ih =>
      obtain ⟨db₁, hdb₁, h₁⟩ := hbody x (by simp) db items h
      obtain ⟨db₂, hdb₂, h₂⟩ := ih (fun y hy => hbody y (by simp [hy])) h₁
      refine ⟨db₂, by simp [hdb₁, hdb₂], ?_⟩
      have hitems : (fun i => items i ++ (x :: xs).filterMap (node i)) =
          fun i => items i ++ (node i x).toList ++ xs.filterMap (node i) := by
        funext i
        cases hnode : node i x <;> simp [hnode]
      rwa [hitems]

section Class
variable (A : ∀ α : Type, Allocator α) {c : ClassFile}

def utf8Text : ConstantPoolRecord → Option Bytes
  | .utf8Info bytes => some bytes
  | _ => none

/-- Every string that the extraction of a class interns. -/
def vocabulary (c : ClassFile) (filename classname : Bytes) : List Bytes :=
  [] :: filename :: classname :: (entries c.constantPool).filterMap utf8Text

theorem vocabulary_of_wellFormed (hc : WellFormedClass c) {filename classname : Bytes}
    (hfilename : Interned filename) (hclassname : Interned classname) :
    Vocabulary (vocabulary c filename classname) where
  interned s hs := by
    simp only [vocabulary, List.mem_cons, List.mem_filterMap] at hs
    rcases hs with rfl | rfl | rfl | ⟨entry, hentry, htext⟩
    · exact ⟨by simp, by simp⟩
    · exact hfilename
    · exact hclassname
    · have hvalid := hc.entries entry hentry
      cases entry <;> cases htext
      exact hvalid
  count := by
    have hfilter := List.length_filterMap_le utf8Text (entries c.constantPool)
    have hentries := List.reduceOption_length_le c.constantPool.constantPoolIndex
    have hsize := hc.size
    simp only [vocabulary, List.length_cons]
    rw [entries] at hfilter ⊢
    omega

theorem utf8_mem_vocabulary (filename classname : Bytes) {index : UInt16}
    (h : IsUtf8 c.constantPool index) :
    utf8 c.constantPool index ∈ vocabulary c filename classname := by
  have hentry := mem_entries (getEntry_of_isUtf8 h)
  have hmem : utf8 c.constantPool index ∈ (entries c.constantPool).filterMap utf8Text :=
    List.mem_filterMap.mpr ⟨_, hentry, rfl⟩
  exact List.mem_cons_of_mem _ (List.mem_cons_of_mem _ (List.mem_cons_of_mem _ hmem))

theorem entries_eq (hc : WellFormedClass c) :
    entries c.constantPool = (c.constantPool.constantPoolIndex.drop 1).reduceOption := by
  obtain ⟨hlt, hslot⟩ := List.getElem?_eq_some_iff.mp hc.slotZero
  have hdrop := List.drop_eq_getElem_cons hlt
  rw [List.drop_zero, hslot] at hdrop
  rw [entries, hdrop, List.reduceOption_cons_of_none]
  rfl

/-- The whole extraction records the declared nodes in turn. -/
theorem extractNodes_spec (hc : WellFormedClass c) {filename classname : Bytes}
    (hfilename : Interned filename) (hclassname : Interned classname) (fileRow : FileCols)
    (classRow : ClassFileCols) :
    ∃ db rowId db', CallGraphDb.createWithClass A filename classname fileRow classRow =
        some (db, rowId) ∧ extractNodes A rowId c db = some db' ∧
      ∀ i, ∃ rs, Nodes db' rowId i (declared c i) rs := by
  have hw := vocabulary_of_wellFormed hc hfilename hclassname
  have hwords : ∀ index, IsUtf8 c.constantPool index → utf8 c.constantPool index ∈
      vocabulary c filename classname := fun _ => utf8_mem_vocabulary filename classname
  have hzero : c.constantPool.getEntry 0 = none := by
    rw [ConstantPool.getEntry, UInt16.toNat_zero, hc.slotZero]
    rfl
  have hfile : filename ∈ vocabulary c filename classname := by simp [vocabulary]
  have hclass : classname ∈ vocabulary c filename classname := by simp [vocabulary]
  obtain ⟨db, rowId, hcreate, h⟩ :=
    createWithClass_spec A hw (List.mem_cons_self ..) hfile hclass fileRow classRow
  obtain ⟨db₁, hmethods, h₁⟩ := foldlM_spec (recordMethod A rowId c.constantPool)
    (methodNode c.constantPool) c.methods
    (fun m hm _ _ h => recordMethod_spec A hw hwords h (hc.methods m hm)) h
  obtain ⟨db₂, hfields, h₂⟩ := foldlM_spec (recordField A rowId c.constantPool)
    (fieldNode c.constantPool) c.fields
    (fun f hf _ _ h => recordField_spec A hw hwords h (hc.fields f hf)) h₁
  obtain ⟨db₃, hrefs, h₃⟩ := foldlM_spec (recordEntry A rowId c.constantPool)
    (entryNode c.constantPool) (entries c.constantPool)
    (fun entry hentry _ _ h => recordEntry_spec A hw hwords hzero h (hc.entries entry hentry)) h₂
  have hwalk : recordRefs A rowId c db₂ = some db₃ := by
    rw [recordRefs, recordRefsFrom_eq A rowId hc.size 1 db₂ hc.slotOne, ← entries_eq hc, hrefs]
  refine ⟨db, rowId, db₃, hcreate, ?_, ?_⟩
  · simp [extractNodes, recordMethods, recordFields, hmethods, hfields, hwalk]
  · intro i
    rw [declared_eq]
    simpa using h₃.nodes i

/-- What the live rows of the class in a table say. -/
def ownedLabels (db : CallGraphDb) (rowId : ℕ) (i : NodeTable) : List (List Bytes) :=
  (((db.nodes i).autoIncrementIndex.filterMap (db.nodes i).heap.lookup).filter fun r =>
    !r.isDeleted && i.ownerClass r.cols == UInt64.ofNat rowId).map fun r => db.label i r.cols

/-- The live rows of the class are one row for each node, and no other. -/
def Exact (db : CallGraphDb) (rowId : ℕ) (i : NodeTable) (nodes : List (List Bytes)) : Prop :=
  (ownedLabels db rowId i).Nodup ∧ ∀ label, label ∈ ownedLabels db rowId i ↔ label ∈ nodes

theorem ownedLabels_eq {db : CallGraphDb} {rowId : ℕ} {i : NodeTable} {items : List (List Bytes)}
    {rs : List (Row (NodeCols i))} (h : Nodes db rowId i items rs) :
    ownedLabels db rowId i = rs.map fun r => db.label i r.cols := by
  have hrows : (db.nodes i).autoIncrementIndex.filterMap (db.nodes i).heap.lookup = rs := by
    have := congrArg (List.filterMap id) h.core.heap
    simpa [List.filterMap_map] using this
  have hlive : (rs.filter fun r => !r.isDeleted && i.ownerClass r.cols == UInt64.ofNat rowId) =
      rs := by
    apply List.filter_eq_self.mpr
    intro r hr
    obtain ⟨hflags, howner⟩ := h.owned r hr
    simp [Row.isDeleted, hflags, howner]
  rw [ownedLabels, hrows, hlive]

/-- A table is exact when the names of its nodes tell them apart. -/
theorem exact_iff {db : CallGraphDb} {rowId : ℕ} {i : NodeTable} {items : List (List Bytes)}
    {rs : List (Row (NodeCols i))} (h : Nodes db rowId i items rs) :
    Exact db rowId i items ↔
      ∀ a ∈ items, ∀ b ∈ items, i.nameOf a = i.nameOf b → a = b := by
  rw [Exact, ownedLabels_eq h, ← h.covers.exact_iff]
  exact and_iff_right (List.Nodup.of_map _ h.covers.nodup)

/-- No two nodes of a table share their name. -/
def NamesDistinct (c : ClassFile) : Prop :=
  ∀ i : NodeTable, ∀ a ∈ declared c i, ∀ b ∈ declared c i, i.nameOf a = i.nameOf b → a = b

end Class

/-- Extraction into a new database always succeeds. It loses nothing and
invents nothing exactly when the names of methods, fields and references are
distinct. -/
theorem extractNodes_exact_iff (A : ∀ α : Type, Allocator α) (c : ClassFile)
    (hc : WellFormedClass c) (filename classname : Bytes) (hfilename : Interned filename)
    (hclassname : Interned classname) (fileRow : FileCols) (classRow : ClassFileCols) :
    ∃ db rowId db', CallGraphDb.createWithClass A filename classname fileRow classRow =
        some (db, rowId) ∧ extractNodes A rowId c db = some db' ∧
      ((∀ i, Exact db' rowId i (declared c i)) ↔ NamesDistinct c) := by
  obtain ⟨db, rowId, db', hcreate, hextract, hnodes⟩ :=
    extractNodes_spec A hc hfilename hclassname fileRow classRow
  refine ⟨db, rowId, db', hcreate, hextract, forall_congr' ?_⟩
  intro i
  obtain ⟨rs, hrs⟩ := hnodes i
  exact exact_iff hrs

/-- A class with a constructor that calls the one of its super class, and one
field that it reads. -/
def plainClass : ClassFile where
  constantPool := ⟨[none, some (.utf8Info (ascii "A")), some (.classInfo 1),
    some (.utf8Info (ascii "java/lang/Object")), some (.classInfo 3),
    some (.utf8Info (ascii "<init>")), some (.utf8Info (ascii "()V")),
    some (.nameAndTypeInfo 5 6), some (.methodrefInfo 4 7), some (.utf8Info (ascii "f")),
    some (.utf8Info (ascii "I")), some (.nameAndTypeInfo 9 10), some (.fieldrefInfo 2 11)]⟩
  mainClassInfo := ⟨1, 2, 4⟩
  interfaces := []
  fields := [⟨1, 9, 10, []⟩]
  methods := [⟨1, 5, 6, []⟩]
  attributes := []

theorem wellFormed_plainClass : WellFormedClass plainClass :=
  ⟨by decide, by decide, by decide, by decide, by decide, by decide⟩

theorem namesDistinct_plainClass : NamesDistinct plainClass := by
  intro i
  cases i <;> decide

theorem extractNodes_plainClass :
    WellFormedClass plainClass ∧ ∃ db rowId db',
      CallGraphDb.createWithClass Allocator.next (ascii "a.jar") (ascii "A") {} {} =
        some (db, rowId) ∧ extractNodes Allocator.next rowId plainClass db = some db' ∧
      ∀ i, Exact db' rowId i (declared plainClass i) := by
  refine ⟨wellFormed_plainClass, ?_⟩
  obtain ⟨db, rowId, db', hcreate, hextract, hiff⟩ := extractNodes_exact_iff Allocator.next
    plainClass wellFormed_plainClass (ascii "a.jar") (ascii "A") (by decide) (by decide) {} {}
  exact ⟨db, rowId, db', hcreate, hextract, hiff.mpr namesDistinct_plainClass⟩

/-- Two methods of one name. -/
def overloadedClass : ClassFile where
  constantPool := ⟨[none, some (.utf8Info (ascii "A")), some (.classInfo 1),
    some (.utf8Info (ascii "java/lang/Object")), some (.classInfo 3), some (.utf8Info (ascii "m")),
    some (.utf8Info (ascii "()V")), some (.utf8Info (ascii "(I)V"))]⟩
  mainClassInfo := ⟨1, 2, 4⟩
  interfaces := []
  fields := []
  methods := [⟨1, 5, 6, []⟩, ⟨1, 5, 7, []⟩]
  attributes := []

theorem wellFormed_overloadedClass : WellFormedClass overloadedClass :=
  ⟨by decide, by decide, by decide, by decide, by decide, by decide⟩

/-- The row of `m(I)V` has replaced the row of `m()V`. -/
theorem not_exact_overloadedClass :
    WellFormedClass overloadedClass ∧ ∃ db rowId db',
      CallGraphDb.createWithClass Allocator.next (ascii "a.jar") (ascii "A") {} {} =
        some (db, rowId) ∧ extractNodes Allocator.next rowId overloadedClass db = some db' ∧
      ¬ Exact db' rowId .methods (declared overloadedClass .methods) := by
  refine ⟨wellFormed_overloadedClass, ?_⟩
  obtain ⟨db, rowId, db', hcreate, hextract, hnodes⟩ := extractNodes_spec Allocator.next
    wellFormed_overloadedClass (by decide : Interned (ascii "a.jar"))
    (by decide : Interned (ascii "A")) {} {}
  refine ⟨db, rowId, db', hcreate, hextract, ?_⟩
  obtain ⟨rs, hrs⟩ := hnodes .methods
  rw [exact_iff hrs]
  decide

end Tarracsh.ClassFileExtraction
