import Tarracsh.ClassfileDiff
import Mathlib.Data.Finset.SymmDiff
import Mathlib.Data.Set.Card
import Mathlib.Algebra.BigOperators.Group.Finset.Piecewise
import Mathlib.Algebra.Order.BigOperators.Group.Finset

/-!
# When two class files are found equal

The counter at the end is a sum over the names in the two files. It is 0 exactly when
the left file covers the right one: what right has is found in left, and each left
overload in its order takes a right one. An attribute that only left has is not counted,
and neither are left overloads behind the last right one that was taken.
-/
namespace Tarracsh.DiffVerdicts
open ByteStrings PoolStructures ParsedClass MapComparison ClassfileDiff

section Views
variable (o : Options) (c : ClassFile)

/-- The last item of a name. -/
def lastOf {V : Type} (name : V → Bytes) (items : List V) (key : Bytes) : Option V :=
  (items.filter fun item => name item = key).getLast?

def attributeName (a : AttributeInfo) : Bytes := getString c.constantPool a.nameIndex

def memberName (m : FieldInfo) : Bytes := getString c.constantPool m.nameIndex

def interfaceNames : List Bytes := c.interfaces.map (classInfoName c.constantPool)

/-- The attributes that are not ignored, as a map from name to bytes. -/
def attributeMap (attributes : List AttributeInfo) (name : Bytes) : Option Bytes :=
  if name ∈ o.ignoredAttributes then none
  else (lastOf (attributeName c) attributes name).map AttributeInfo.info

/-- The names of the attributes that are not ignored. -/
def attributeNames (attributes : List AttributeInfo) : Finset Bytes :=
  (attributes.map (attributeName c)).toFinset \ o.ignoredAttributes

def attributeCount (attributes : List AttributeInfo) : ℕ := (attributeNames o c attributes).card

/-- What is compared of a method or a field beside its name. -/
structure MemberView where
  descriptor : Bytes
  accessFlags : UInt16
  attributes : Bytes → Option Bytes

def memberView (m : FieldInfo) : MemberView :=
  ⟨getString c.constantPool m.descriptorIndex, m.accessFlags, attributeMap o c m.attributes⟩

/-- The methods that are considered. -/
def consideredMethods : List MethodInfo := c.methods.filter (isConsidered o)

/-- The field of a name that is considered. -/
def fieldOf (name : Bytes) : Option FieldInfo :=
  lastOf (memberName c) (c.fields.filter (isConsidered o)) name

/-- The overloads of a name. -/
def overloads (name : Bytes) : List MethodInfo :=
  (consideredMethods o c).filter fun m => memberName c m = name

end Views

section Differences
variable (o : Options) (left right : ClassFile)

/-- The attributes of right that left does not have with the same bytes. -/
def attributesDiffer (leftAttributes rightAttributes : List AttributeInfo) : ℕ :=
  ((rightAttributes.map (attributeName right)).toFinset.filter fun name =>
    (attributeMap o right rightAttributes name).isSome ∧
      attributeMap o left leftAttributes name ≠ attributeMap o right rightAttributes name).card

def membersDiffer (l r : FieldInfo) : ℕ :=
  (if l.accessFlags = r.accessFlags then 0 else 1) +
    (if getString left.constantPool l.descriptorIndex =
      getString right.constantPool r.descriptorIndex then 0 else 1) +
    attributesDiffer o left right l.attributes r.attributes

/-- Each left overload takes the first right one that it does not differ from. One
that takes none differs from all that are left. -/
def overloadsDiffer : List MethodInfo → List MethodInfo → ℕ
  | [], rs => rs.length
  | l :: ls, rs =>
      match rs.findIdx? fun r => membersDiffer o left right l r = 0 with
      | some i => overloadsDiffer ls (rs.eraseIdx i)
      | none => (rs.map (membersDiffer o left right l)).sum + overloadsDiffer ls rs

def methodsDiffer (ls rs : List MethodInfo) : ℕ :=
  if rs = [] then ls.length else overloadsDiffer o left right ls rs

def fieldsDiffer : Option FieldInfo → Option FieldInfo → ℕ
  | some l, some r => membersDiffer o left right l r
  | none, none => 0
  | _, _ => 1

def memberNames (c : ClassFile) (members : List FieldInfo) : Finset Bytes :=
  (members.map (memberName c)).toFinset

/-- The number of differences that are counted. -/
def countedDifferences : ℕ :=
  (if o.ignoreClassname = true ∨
    classInfoName left.constantPool left.mainClassInfo.thisClass =
      classInfoName right.constantPool right.mainClassInfo.thisClass then 0 else 1) +
  (if classInfoName left.constantPool left.mainClassInfo.superClass =
    classInfoName right.constantPool right.mainClassInfo.superClass then 0 else 1) +
  (if left.mainClassInfo.accessFlags = right.mainClassInfo.accessFlags then 0 else 1) +
  (symmDiff (interfaceNames left).toFinset (interfaceNames right).toFinset).card +
  attributesDiffer o left right left.attributes right.attributes +
  ∑ name ∈ memberNames left left.methods ∪ memberNames right right.methods,
    methodsDiffer o left right (overloads o left name) (overloads o right name) +
  ∑ name ∈ memberNames left left.fields ∪ memberNames right right.fields,
    fieldsDiffer o left right (fieldOf o left name) (fieldOf o right name)

end Differences

section Relations
variable (o : Options) (left right : ClassFile)

/-- The files agree on all that is compared. -/
structure Agree : Prop where
  classname : o.ignoreClassname = true ∨
    classInfoName left.constantPool left.mainClassInfo.thisClass =
      classInfoName right.constantPool right.mainClassInfo.thisClass
  superClass : classInfoName left.constantPool left.mainClassInfo.superClass =
    classInfoName right.constantPool right.mainClassInfo.superClass
  accessFlags : left.mainClassInfo.accessFlags = right.mainClassInfo.accessFlags
  interfaces : ∀ name, name ∈ interfaceNames left ↔ name ∈ interfaceNames right
  attributes : attributeMap o left left.attributes = attributeMap o right right.attributes
  methods : ((consideredMethods o left).map fun m => (memberName left m, memberView o left m)).Perm
    ((consideredMethods o right).map fun m => (memberName right m, memberView o right m))
  fields : ∀ name, (fieldOf o left name).map (memberView o left) =
    (fieldOf o right name).map (memberView o right)

/-- Left has every attribute of right, with the same bytes. -/
def CoversAttributes (leftAttributes rightAttributes : List AttributeInfo) : Prop :=
  ∀ name bytes, attributeMap o right rightAttributes name = some bytes →
    attributeMap o left leftAttributes name = some bytes

structure CoversMember (l r : FieldInfo) : Prop where
  accessFlags : l.accessFlags = r.accessFlags
  descriptor : getString left.constantPool l.descriptorIndex =
    getString right.constantPool r.descriptorIndex
  attributes : CoversAttributes o left right l.attributes r.attributes

/-- The fields of a name. -/
def CoversField : Option FieldInfo → Option FieldInfo → Prop
  | some l, some r => CoversMember o left right l r
  | none, none => True
  | _, _ => False

/-- Left has all that right has, and right has every interface, method name and field
of left. -/
structure Covered : Prop where
  classname : o.ignoreClassname = true ∨
    classInfoName left.constantPool left.mainClassInfo.thisClass =
      classInfoName right.constantPool right.mainClassInfo.thisClass
  superClass : classInfoName left.constantPool left.mainClassInfo.superClass =
    classInfoName right.constantPool right.mainClassInfo.superClass
  accessFlags : left.mainClassInfo.accessFlags = right.mainClassInfo.accessFlags
  interfaces : ∀ name, name ∈ interfaceNames left ↔ name ∈ interfaceNames right
  attributes : CoversAttributes o left right left.attributes right.attributes
  methodNames : ∀ name, overloads o left name = [] ↔ overloads o right name = []
  methods : ∀ name,
    Takes (CoversMember o left right) (overloads o left name) (overloads o right name)
  fields : ∀ name, CoversField o left right (fieldOf o left name) (fieldOf o right name)

/-- Left has no more overloads of a name and no more attributes than right. -/
structure NothingMore : Prop where
  attributes : attributeCount o left left.attributes ≤ attributeCount o right right.attributes
  methodCounts : ∀ name, (overloads o left name).length ≤ (overloads o right name).length
  methodAttributes : ∀ name,
    ((overloads o left name).map fun m => attributeCount o left m.attributes).sum ≤
      ((overloads o right name).map fun m => attributeCount o right m.attributes).sum
  fieldAttributes : ∀ name, ∀ l ∈ fieldOf o left name, ∀ r ∈ fieldOf o right name,
    attributeCount o left l.attributes ≤ attributeCount o right r.attributes

/-- Left and right agree, but taken in their order the overloads of some name do not all
find each other. -/
structure Crossed : Prop where
  agree : Agree o left right
  stuck : ∃ name,
    ¬Takes (CoversMember o left right) (overloads o left name) (overloads o right name)

/-- The differences are a positive multiple of the range of the counter in number. -/
def Wraps : Prop := countedDifferences o left right ≠ 0 ∧ 2 ^ 32 ∣ countedDifferences o left right

/-- A left file that covers the right one has nothing more. Overloads are crossed only
where the counter wraps around to 0, and it does so only there. -/
structure Exact : Prop where
  nothingMore : Covered o left right → NothingMore o left right
  crossed_iff : Crossed o left right ↔ Wraps o left right

end Relations

section Maps
variable {V : Type}

theorem toMap_lookup (name : V → Bytes) (items : List V) (key : Bytes) :
    (toMap name items).lookup key = lastOf name items key := by
  induction items using List.reverseRecOn with
  | nil => rfl
  | append_singleton items item ih =>
      unfold toMap lastOf at ih ⊢
      rw [List.foldl_append, List.filter_append, List.foldl_cons, List.foldl_nil]
      by_cases hkey : name item = key
      · subst hkey
        rw [AList.lookup_insert]
        simp
      · rw [AList.lookup_insert_ne (Ne.symm hkey), ih]
        simp [hkey]

theorem lastOf_isSome {name : V → Bytes} {items : List V} {key : Bytes} :
    (lastOf name items key).isSome ↔ key ∈ items.map name := by
  unfold lastOf
  rw [List.getLast?_isSome, List.mem_map]
  constructor
  · intro hne
    obtain ⟨item, hitem⟩ := List.exists_mem_of_ne_nil _ hne
    rw [List.mem_filter, decide_eq_true_iff] at hitem
    exact ⟨item, hitem⟩
  · rintro ⟨item, hitem, hname⟩
    exact List.ne_nil_of_mem (List.mem_filter.mpr ⟨hitem, decide_eq_true hname⟩)

theorem extractMethods_lookup (o : Options) (c : ClassFile) (name : Bytes) :
    (extractMethods o c).lookup name =
      if overloads o c name = [] then none else some (overloads o c name) := by
  unfold extractMethods overloads consideredMethods
  induction c.methods.filter (isConsidered o) using List.reverseRecOn with
  | nil => rfl
  | append_singleton methods m ih =>
      rw [List.foldl_append, List.filter_append, List.foldl_cons, List.foldl_nil]
      generalize List.foldl _ _ methods = methodMap at ih ⊢
      by_cases hname : memberName c m = name
      · subst hname
        change (methodMap.insert (memberName c m)
          ((methodMap.lookup (memberName c m)).getD [] ++ [m])).lookup (memberName c m) = _
        have hmore : methods.filter (fun m' => memberName c m' = memberName c m) ++
            [m].filter (fun m' => memberName c m' = memberName c m) ≠ [] := by simp
        rw [AList.lookup_insert, if_neg hmore, ih]
        split_ifs with hempty
        · simp [hempty]
        · simp
      · have hget : name ≠ getString c.constantPool m.nameIndex := Ne.symm hname
        rw [AList.lookup_insert_ne hget, ih]
        simp [hname]

theorem mem_toMap {name : V → Bytes} {items : List V} {key : Bytes} :
    key ∈ toMap name items ↔ key ∈ items.map name := by
  rw [← AList.lookup_isSome, toMap_lookup, lastOf_isSome]

theorem mem_extractMethods {o : Options} {c : ClassFile} {name : Bytes}
    (h : name ∈ extractMethods o c) : name ∈ memberNames c c.methods := by
  rw [← AList.lookup_isSome, extractMethods_lookup] at h
  split_ifs at h with hempty
  · exact absurd h (by simp)
  · obtain ⟨m, hm⟩ := List.exists_mem_of_ne_nil _ hempty
    unfold overloads consideredMethods at hm
    rw [List.mem_filter, List.mem_filter, decide_eq_true_iff] at hm
    exact List.mem_toFinset.mpr (List.mem_map.mpr ⟨m, hm.1.1, hm.2⟩)

end Maps

section Counting

theorem card_eq_sum {s keys : Finset Bytes} (h : s ⊆ keys) :
    s.card = ∑ k ∈ keys, if k ∈ s then 1 else 0 := by
  rw [← Finset.card_filter, Finset.filter_mem_eq_inter, Finset.inter_eq_right.mpr h]

variable (o : Options) (left right : ClassFile)

theorem compareMainClassname_adds : Adds (compareMainClassname o left right)
    (if o.ignoreClassname = true ∨ classInfoName left.constantPool left.mainClassInfo.thisClass =
      classInfoName right.constantPool right.mainClassInfo.thisClass then 0 else 1) := by
  intro n
  unfold compareMainClassname
  by_cases hignore : o.ignoreClassname = true
  · simp [hignore]
  · by_cases hname : classInfoName left.constantPool left.mainClassInfo.thisClass =
      classInfoName right.constantPool right.mainClassInfo.thisClass <;> simp [hignore, hname]

theorem compareMainClassAccessFlags_adds : Adds (compareMainClassAccessFlags left right)
    (if left.mainClassInfo.accessFlags = right.mainClassInfo.accessFlags then 0 else 1) := by
  intro n
  unfold compareMainClassAccessFlags compareAccessFlags
  split_ifs <;> rfl

theorem compareMainClassInterfaces_adds : Adds (compareMainClassInterfaces left right)
    (symmDiff (interfaceNames left).toFinset (interfaceNames right).toFinset).card := by
  have hsteps : Steps (fun (_ : Bytes) (_ _ : UInt16) count => ((none : Option UInt16), count))
      (fun _ _ count => count + 1) (fun _ _ count => count + 1) (fun _ _ _ => none)
      (fun _ _ _ => 0) (fun _ _ => 1) (fun _ _ => 1) :=
    { both := fun _ _ _ _ => rfl
      left := fun _ _ _ => rfl
      right := fun _ _ _ => rfl }
  have hadds := compareMaps_adds hsteps (toMap (classInfoName left.constantPool) left.interfaces)
    (toMap (classInfoName right.constantPool) right.interfaces)
    (fun k hk => Finset.mem_union_left (interfaceNames right).toFinset
      (List.mem_toFinset.mpr (mem_toMap.mp hk)))
    (fun k hk => Finset.mem_union_right (interfaceNames left).toFinset
      (List.mem_toFinset.mpr (mem_toMap.mp hk)))
  intro n
  refine (hadds n).trans (congrArg (n + ·) ?_)
  rw [card_eq_sum Finset.symmDiff_subset_union]
  refine Finset.sum_congr rfl fun name _ => ?_
  simp only [toMap_lookup, Finset.mem_symmDiff, List.mem_toFinset, interfaceNames, ← lastOf_isSome]
  cases lastOf (classInfoName left.constantPool) left.interfaces name <;>
    cases lastOf (classInfoName right.constantPool) right.interfaces name <;> simp [added]

theorem attributeDifferences_eq (leftAttributes rightAttributes : List AttributeInfo) :
    attributeDifferences o left right leftAttributes rightAttributes =
      attributesDiffer o left right leftAttributes rightAttributes := by
  have hsteps : Steps
      (fun (name : Bytes) (l r : AttributeInfo) differences =>
        if name ∈ o.ignoredAttributes then (some r, differences)
        else if l.info = r.info then (none, differences) else (none, differences + 1))
      (fun _ _ differences => differences)
      (fun name _ differences =>
        if name ∈ o.ignoredAttributes then differences else differences + 1)
      (fun name _ r => if name ∈ o.ignoredAttributes then some r else none)
      (fun name l r => if name ∈ o.ignoredAttributes ∨ l.info = r.info then 0 else 1)
      (fun _ _ => 0) (fun name _ => if name ∈ o.ignoredAttributes then 0 else 1) :=
    { both := by
        intro name l r n
        split_ifs <;> simp_all
      left := fun _ _ => adds_zero
      right := fun _ _ => adds_ite }
  have hadds := compareMaps_adds hsteps (toMap (attributeName left) leftAttributes)
    (toMap (attributeName right) rightAttributes)
    (fun k hk => Finset.mem_union_left (rightAttributes.map (attributeName right)).toFinset
      (List.mem_toFinset.mpr (mem_toMap.mp hk)))
    (fun k hk => Finset.mem_union_right (leftAttributes.map (attributeName left)).toFinset
      (List.mem_toFinset.mpr (mem_toMap.mp hk))) 0
  refine hadds.trans ?_
  unfold attributesDiffer
  rw [Nat.zero_add, card_eq_sum ((Finset.filter_subset _ _).trans Finset.subset_union_right)]
  refine Finset.sum_congr rfl fun name _ => ?_
  simp only [toMap_lookup, Finset.mem_filter, List.mem_toFinset, ← lastOf_isSome]
  by_cases hignored : name ∈ o.ignoredAttributes <;>
    cases hleft : lastOf (attributeName left) leftAttributes name <;>
      cases hright : lastOf (attributeName right) rightAttributes name <;>
        simp [added, attributeMap, hignored, hleft, hright]

theorem compareAttributes_eq (leftAttributes rightAttributes : List AttributeInfo) (n : ℕ) :
    compareAttributes o left right leftAttributes rightAttributes n =
      (attributesDiffer o left right leftAttributes rightAttributes == 0,
        n + attributesDiffer o left right leftAttributes rightAttributes) := by
  rw [← attributeDifferences_eq]
  rfl

theorem compareMember_eq (l r : FieldInfo) (n : ℕ) :
    compareMember o left right l r n =
      (membersDiffer o left right l r == 0, n + membersDiffer o left right l r) := by
  simp only [compareMember, compareAccessFlags, compareDescriptors, compareAttributes_eq,
    membersDiffer]
  split_ifs <;> simp <;> omega

end Counting

section Overloads
variable (o : Options) (left right : ClassFile)

theorem findMatch_spec (l : MethodInfo) (rs : List MethodInfo) (n : ℕ) :
    (findMatch o left right l rs n).1 = rs.findIdx? (fun r => membersDiffer o left right l r = 0) ∧
      ((findMatch o left right l rs n).1 = none → (findMatch o left right l rs n).2 =
        n + (rs.map (membersDiffer o left right l)).sum) := by
  induction rs generalizing n with
  | nil => exact ⟨rfl, fun _ => rfl⟩
  | cons r rs ih =>
      simp only [findMatch, areMethodsEqual, compareMember_eq, List.findIdx?_cons, beq_iff_eq,
        decide_eq_true_iff]
      split_ifs
      · exact ⟨rfl, nofun⟩
      · obtain ⟨hfound, hcount⟩ := ih (n + membersDiffer o left right l r)
        rw [← hfound]
        refine ⟨rfl, fun hnone => ?_⟩
        rw [hcount (Option.map_eq_none_iff.mp hnone), List.map_cons, List.sum_cons, Nat.add_assoc]

theorem compareToRightMethods_eq (l : MethodInfo) (rs : List MethodInfo) (n : ℕ) :
    compareToRightMethods o left right l rs n =
      match rs.findIdx? fun r => membersDiffer o left right l r = 0 with
      | some i => (rs.eraseIdx i, n)
      | none => (rs, n + (rs.map (membersDiffer o left right l)).sum) := by
  obtain ⟨hfound, hcount⟩ := findMatch_spec o left right l rs n
  unfold compareToRightMethods
  rw [← hfound]
  generalize findMatch o left right l rs n = found at hcount ⊢
  obtain ⟨index, count⟩ := found
  cases index with
  | some i => rfl
  | none => exact congrArg (Prod.mk rs) (hcount rfl)

theorem overloadsDiffer_nil (ls : List MethodInfo) : overloadsDiffer o left right ls [] = 0 := by
  induction ls with
  | nil => rfl
  | cons l ls ih => simpa [overloadsDiffer] using ih

/-- What the loop adds does not depend on the counter, and the right methods that are
left are counted after it. -/
theorem compareOverloads_spec (ls rs : List MethodInfo) : ∃ rest added,
    (∀ n, compareOverloads o left right ls rs n = (rest, n + added)) ∧
      added + rest.length = overloadsDiffer o left right ls rs := by
  induction ls generalizing rs with
  | nil => exact ⟨rs, 0, fun _ => rfl, Nat.zero_add _⟩
  | cons l ls ih =>
      simp only [compareOverloads, overloadsDiffer, compareToRightMethods_eq]
      cases rs.findIdx? fun r => membersDiffer o left right l r = 0 with
      | some i =>
          by_cases hempty : rs.eraseIdx i = []
          · refine ⟨[], 0, fun n => ?_, ?_⟩
            · simp [hempty]
            · simp [hempty, overloadsDiffer_nil]
          · obtain ⟨rest, added, heq, hsum⟩ := ih (rs.eraseIdx i)
            refine ⟨rest, added, fun n => ?_, hsum⟩
            simp [hempty, heq]
      | none =>
          by_cases hempty : rs = []
          · refine ⟨[], 0, fun n => ?_, ?_⟩
            · simp [hempty]
            · simp [hempty, overloadsDiffer_nil]
          · obtain ⟨rest, added, heq, hsum⟩ := ih rs
            refine ⟨rest, (rs.map (membersDiffer o left right l)).sum + added, fun n => ?_, ?_⟩
            · simp [hempty, heq, Nat.add_assoc]
            · simp [← hsum, Nat.add_assoc]

theorem compareMethods_adds : Adds (compareMethods o left right)
    (∑ name ∈ memberNames left left.methods ∪ memberNames right right.methods,
      methodsDiffer o left right (overloads o left name) (overloads o right name)) := by
  choose rest added heq hsum using compareOverloads_spec o left right
  have hsteps : Steps
      (fun (_ : Bytes) (ls rs : List MethodInfo) count =>
        let result := compareOverloads o left right ls rs count
        (if result.1.isEmpty then none else some result.1, result.2))
      (fun _ ls count => count + ls.length) (fun _ rs count => count + rs.length)
      (fun _ ls rs => if (rest ls rs).isEmpty then none else some (rest ls rs))
      (fun _ => added) (fun _ => List.length) (fun _ => List.length) :=
    { both := by
        intro _ ls rs n
        simp only [heq]
      left := fun _ _ _ => rfl
      right := fun _ _ _ => rfl }
  have hadds := compareMaps_adds hsteps (extractMethods o left) (extractMethods o right)
    (fun _ hk => Finset.mem_union_left _ (mem_extractMethods hk))
    (fun _ hk => Finset.mem_union_right _ (mem_extractMethods hk))
  intro n
  refine (hadds n).trans (congrArg (n + ·) (Finset.sum_congr rfl fun name _ => ?_))
  rw [extractMethods_lookup, extractMethods_lookup]
  unfold methodsDiffer
  by_cases hleft : overloads o left name = [] <;> by_cases hright : overloads o right name = []
  · simp [MapComparison.added, hleft, hright]
  · simp [MapComparison.added, hleft, hright, overloadsDiffer]
  · simp [MapComparison.added, hleft, hright]
  · rw [if_neg hleft, if_neg hright, if_neg hright, ← hsum]
    cases hrest : rest (overloads o left name) (overloads o right name) <;>
      simp [MapComparison.added, hrest]

theorem compareFields_adds : Adds (compareFields o left right)
    (∑ name ∈ memberNames left left.fields ∪ memberNames right right.fields,
      fieldsDiffer o left right (fieldOf o left name) (fieldOf o right name)) := by
  have hsteps : Steps
      (fun (_ : Bytes) (l r : FieldInfo) count =>
        ((none : Option FieldInfo), (compareMember o left right l r count).2))
      (fun _ _ count => count + 1) (fun _ _ count => count + 1) (fun _ _ _ => none)
      (fun _ => membersDiffer o left right) (fun _ _ => 1) (fun _ _ => 1) :=
    { both := fun _ l r n => by rw [compareMember_eq]
      left := fun _ _ _ => rfl
      right := fun _ _ _ => rfl }
  have hmem : ∀ c : ClassFile, ∀ name ∈ toMap (memberName c) (c.fields.filter (isConsidered o)),
      name ∈ memberNames c c.fields := by
    intro c name hname
    obtain ⟨f, hf, rfl⟩ := List.mem_map.mp (mem_toMap.mp hname)
    exact List.mem_toFinset.mpr (List.mem_map_of_mem (List.mem_of_mem_filter hf))
  have hadds := compareMaps_adds hsteps
    (toMap (memberName left) (left.fields.filter (isConsidered o)))
    (toMap (memberName right) (right.fields.filter (isConsidered o)))
    (fun k hk => Finset.mem_union_left (memberNames right right.fields) (hmem left k hk))
    (fun k hk => Finset.mem_union_right (memberNames left left.fields) (hmem right k hk))
  intro n
  refine (hadds n).trans (congrArg (n + ·) (Finset.sum_congr rfl fun name _ => ?_))
  rw [toMap_lookup, toMap_lookup]
  unfold fieldOf
  cases lastOf (memberName left) (left.fields.filter (isConsidered o)) name <;>
    cases lastOf (memberName right) (right.fields.filter (isConsidered o)) name <;>
      simp [added, fieldsDiffer]

/-- The counter at the end is the number of differences. -/
theorem compare_adds : Adds (compare o left right) (countedDifferences o left right) := by
  have hsuper : Adds (compareSuperClass left right) _ := adds_ite
  have hattributes : Adds (compareMainClassAttributes o left right)
      (attributesDiffer o left right left.attributes right.attributes) := fun n =>
    congrArg Prod.snd (compareAttributes_eq o left right left.attributes right.attributes n)
  have hclass := (((compareMainClassname_adds o left right).comp hsuper).comp
    (compareMainClassAccessFlags_adds left right)).comp
    (compareMainClassInterfaces_adds left right) |>.comp hattributes
  exact (hclass.comp (compareMethods_adds o left right)).comp (compareFields_adds o left right)

end Overloads

section Covering
variable {o : Options} {left right : ClassFile}

theorem attributesDiffer_eq_zero {leftAttributes rightAttributes : List AttributeInfo} :
    attributesDiffer o left right leftAttributes rightAttributes = 0 ↔
      CoversAttributes o left right leftAttributes rightAttributes := by
  unfold attributesDiffer
  rw [Finset.card_eq_zero, Finset.filter_eq_empty_iff]
  constructor
  · intro h name bytes hright
    have hname : name ∈ rightAttributes.map (attributeName right) := by
      rw [← lastOf_isSome]
      unfold attributeMap at hright
      split_ifs at hright
      rw [← Option.isSome_map, hright]
      rfl
    have hsame := h (List.mem_toFinset.mpr hname)
    rw [hright] at hsame
    simpa using hsame
  · rintro h name - ⟨hsome, hne⟩
    obtain ⟨bytes, hright⟩ := Option.isSome_iff_exists.mp hsome
    exact hne ((h name bytes hright).trans hright.symm)

theorem membersDiffer_eq_zero {l r : FieldInfo} :
    membersDiffer o left right l r = 0 ↔ CoversMember o left right l r := by
  unfold membersDiffer
  rw [Nat.add_eq_zero_iff, Nat.add_eq_zero_iff, attributesDiffer_eq_zero]
  simp only [ite_eq_left_iff, Nat.one_ne_zero, imp_false, not_not]
  exact ⟨fun h => ⟨h.1.1, h.1.2, h.2⟩, fun h => ⟨⟨h.1, h.2⟩, h.3⟩⟩

theorem overloadsDiffer_eq_zero {ls rs : List MethodInfo} :
    overloadsDiffer o left right ls rs = 0 ↔ Takes (CoversMember o left right) ls rs := by
  induction ls generalizing rs with
  | nil =>
      unfold overloadsDiffer
      rw [List.length_eq_zero_iff]
      constructor
      · rintro rfl
        exact .done
      · intro h
        cases h
        rfl
  | cons l ls ih =>
      unfold overloadsDiffer
      cases hindex : rs.findIdx? fun r => membersDiffer o left right l r = 0 with
      | some i =>
          obtain ⟨before, r, after, rfl, herase, hbefore, hr⟩ := findIdx?_split hindex
          simp only [decide_eq_false_iff_not, decide_eq_true_eq,
            membersDiffer_eq_zero] at hbefore hr
          simp only [herase, ih]
          exact (takes_cons_iff hbefore hr).symm
      | none =>
          rw [List.findIdx?_eq_none_iff] at hindex
          simp only [decide_eq_false_iff_not, membersDiffer_eq_zero] at hindex
          dsimp only
          rw [Nat.add_eq_zero_iff]
          cases rs with
          | nil => exact iff_of_true ⟨rfl, overloadsDiffer_nil o left right ls⟩ .done
          | cons r rs =>
              refine iff_of_false ?_ ?_
              · rintro ⟨hsum, -⟩
                rw [List.map_cons, List.sum_cons, Nat.add_eq_zero_iff] at hsum
                exact hindex r List.mem_cons_self (membersDiffer_eq_zero.mp hsum.1)
              · intro h
                generalize hrs : r :: rs = rs' at h hindex
                cases h with
                | done => exact List.cons_ne_nil _ _ hrs
                | take _ hcovers _ => exact hindex _ (by simp) hcovers

theorem methodsDiffer_eq_zero {ls rs : List MethodInfo} : methodsDiffer o left right ls rs = 0 ↔
    (ls = [] ↔ rs = []) ∧ Takes (CoversMember o left right) ls rs := by
  unfold methodsDiffer
  split_ifs with hrs
  · subst hrs
    rw [List.length_eq_zero_iff]
    exact ⟨fun h => ⟨iff_of_true h rfl, .done⟩, fun h => h.1.mpr rfl⟩
  · rw [overloadsDiffer_eq_zero]
    refine ⟨fun h => ⟨iff_of_false ?_ hrs, h⟩, And.right⟩
    rintro rfl
    cases h
    exact hrs rfl

theorem fieldsDiffer_eq_zero {l r : Option FieldInfo} :
    fieldsDiffer o left right l r = 0 ↔ CoversField o left right l r := by
  cases l <;> cases r <;> simp [fieldsDiffer, CoversField, membersDiffer_eq_zero]

theorem overloads_eq_nil {c : ClassFile} {name : Bytes} (h : name ∉ memberNames c c.methods) :
    overloads o c name = [] := by
  unfold overloads consideredMethods
  rw [List.filter_eq_nil_iff]
  intro m hm hname
  refine h (List.mem_toFinset.mpr (List.mem_map.mpr ⟨m, List.mem_of_mem_filter hm, ?_⟩))
  exact of_decide_eq_true hname

theorem fieldOf_eq_none {c : ClassFile} {name : Bytes} (h : name ∉ memberNames c c.fields) :
    fieldOf o c name = none := by
  rw [← Option.not_isSome_iff_eq_none]
  unfold fieldOf
  rw [lastOf_isSome, List.mem_map]
  rintro ⟨f, hf, hname⟩
  exact h (List.mem_toFinset.mpr (List.mem_map.mpr ⟨f, List.mem_of_mem_filter hf, hname⟩))

theorem forall_mem_iff_forall {s : Finset Bytes} {P : Bytes → Prop} (h : ∀ k ∉ s, P k) :
    (∀ k ∈ s, P k) ↔ ∀ k, P k := by
  refine ⟨fun hall k => ?_, fun hall k _ => hall k⟩
  by_cases hk : k ∈ s
  · exact hall k hk
  · exact h k hk

/-- Nothing is counted exactly when left covers right. -/
theorem countedDifferences_eq_zero :
    countedDifferences o left right = 0 ↔ Covered o left right := by
  have hmethods := forall_mem_iff_forall
    (s := memberNames left left.methods ∪ memberNames right right.methods)
    (P := fun name =>
      methodsDiffer o left right (overloads o left name) (overloads o right name) = 0) (by
      intro name hname
      rw [Finset.notMem_union] at hname
      rw [overloads_eq_nil hname.1, overloads_eq_nil hname.2]
      rfl)
  have hfields := forall_mem_iff_forall
    (s := memberNames left left.fields ∪ memberNames right right.fields)
    (P := fun name =>
      fieldsDiffer o left right (fieldOf o left name) (fieldOf o right name) = 0) (by
      intro name hname
      rw [Finset.notMem_union] at hname
      rw [fieldOf_eq_none hname.1, fieldOf_eq_none hname.2]
      rfl)
  have hinterfaces :
      symmDiff (interfaceNames left).toFinset (interfaceNames right).toFinset = ∅ ↔
        ∀ name, name ∈ interfaceNames left ↔ name ∈ interfaceNames right := by
    rw [← Finset.bot_eq_empty, symmDiff_eq_bot, Finset.ext_iff]
    simp only [List.mem_toFinset]
  unfold countedDifferences
  simp only [Nat.add_eq_zero_iff, ite_eq_left_iff, Nat.one_ne_zero, imp_false, not_not,
    Finset.card_eq_zero, Finset.sum_eq_zero_iff, hmethods, hfields, hinterfaces]
  simp only [attributesDiffer_eq_zero, methodsDiffer_eq_zero, fieldsDiffer_eq_zero]
  constructor
  · rintro ⟨⟨⟨⟨⟨⟨hname, hsuper⟩, hflags⟩, hinterfaces⟩, hattributes⟩, hmethods⟩, hfields⟩
    exact ⟨hname, hsuper, hflags, hinterfaces, hattributes, fun name => (hmethods name).1,
      fun name => (hmethods name).2, hfields⟩
  · intro h
    exact ⟨⟨⟨⟨⟨⟨h.classname, h.superClass⟩, h.accessFlags⟩, h.interfaces⟩, h.attributes⟩,
      fun name => ⟨h.methodNames name, h.methods name⟩⟩, h.fields⟩

end Covering

section Agreement
variable {o : Options} {left right : ClassFile}

theorem mem_attributeNames {c : ClassFile} {attributes : List AttributeInfo} {name : Bytes} :
    name ∈ attributeNames o c attributes ↔ (attributeMap o c attributes name).isSome := by
  unfold attributeNames attributeMap
  rw [Finset.mem_sdiff, List.mem_toFinset, ← lastOf_isSome]
  split_ifs with hignored <;> simp [hignored]

theorem attributeCount_eq (c : ClassFile) (attributes : List AttributeInfo) :
    attributeCount o c attributes =
      Set.ncard {name | (attributeMap o c attributes name).isSome} := by
  have hset : {name | (attributeMap o c attributes name).isSome} =
      (attributeNames o c attributes : Set Bytes) :=
    Set.ext fun _ => mem_attributeNames.symm
  rw [hset, Set.ncard_coe_finset]
  rfl

theorem attributeCount_congr {ls rs : List AttributeInfo}
    (h : attributeMap o left ls = attributeMap o right rs) :
    attributeCount o left ls = attributeCount o right rs := by
  rw [attributeCount_eq, attributeCount_eq, h]

theorem CoversAttributes.names_subset {ls rs : List AttributeInfo}
    (h : CoversAttributes o left right ls rs) :
    attributeNames o right rs ⊆ attributeNames o left ls := by
  intro name hname
  rw [mem_attributeNames] at hname ⊢
  obtain ⟨bytes, hbytes⟩ := Option.isSome_iff_exists.mp hname
  rw [h name bytes hbytes]
  rfl

theorem CoversAttributes.count_le {ls rs : List AttributeInfo}
    (h : CoversAttributes o left right ls rs) :
    attributeCount o right rs ≤ attributeCount o left ls := Finset.card_le_card h.names_subset

/-- A side that covers the other and has no more attributes has the same ones. -/
theorem CoversAttributes.eq_of_count_le {ls rs : List AttributeInfo}
    (h : CoversAttributes o left right ls rs)
    (hle : attributeCount o left ls ≤ attributeCount o right rs) :
    attributeMap o left ls = attributeMap o right rs := by
  have hnames := Finset.eq_of_subset_of_card_le h.names_subset hle
  funext name
  cases hright : attributeMap o right rs name with
  | some bytes => exact h name bytes hright
  | none =>
      have hnot : name ∉ attributeNames o left ls := by
        rw [← hnames, mem_attributeNames, hright]
        simp
      rw [mem_attributeNames] at hnot
      exact Option.not_isSome_iff_eq_none.mp hnot

theorem CoversMember.view_eq {l r : FieldInfo} (h : CoversMember o left right l r)
    (hle : attributeCount o left l.attributes ≤ attributeCount o right r.attributes) :
    memberView o left l = memberView o right r := by
  unfold memberView
  rw [h.accessFlags, h.descriptor, h.attributes.eq_of_count_le hle]

/-- The methods agree exactly if the overloads of each name do. -/
theorem methods_perm_iff :
    ((consideredMethods o left).map fun m => (memberName left m, memberView o left m)).Perm
      ((consideredMethods o right).map fun m => (memberName right m, memberView o right m)) ↔
    ∀ name, ((overloads o left name).map (memberView o left)).Perm
      ((overloads o right name).map (memberView o right)) := by
  rw [perm_iff_namesakes]
  unfold overloads
  simp only [List.filter_map, List.map_map]
  rfl

theorem overloads_weight {name : Bytes}
    (h : ((overloads o left name).map (memberView o left)).Perm
      ((overloads o right name).map (memberView o right))) :
    ((overloads o left name).map fun m => attributeCount o left m.attributes).sum =
      ((overloads o right name).map fun m => attributeCount o right m.attributes).sum := by
  have hsum := (h.map fun view => Set.ncard {name | (view.attributes name).isSome}).sum_nat
  rw [List.map_map, List.map_map] at hsum
  simp only [attributeCount_eq]
  exact hsum

theorem Agree.nothingMore (h : Agree o left right) : NothingMore o left right where
  attributes := (attributeCount_congr h.attributes).le
  methodCounts := by
    intro name
    simpa using (methods_perm_iff.mp h.methods name).length_eq.le
  methodAttributes := fun name => (overloads_weight (methods_perm_iff.mp h.methods name)).le
  fieldAttributes := by
    intro name l hl r hr
    have hview := h.fields name
    rw [hl, hr] at hview
    exact (attributeCount_congr (congrArg MemberView.attributes (Option.some.inj hview))).le

theorem Covered.agree (h : Covered o left right) (hmore : NothingMore o left right) :
    Agree o left right where
  classname := h.classname
  superClass := h.superClass
  accessFlags := h.accessFlags
  interfaces := h.interfaces
  attributes := h.attributes.eq_of_count_le hmore.attributes
  methods := by
    refine methods_perm_iff.mpr fun name => ?_
    exact (h.methods name).perm (fun _ _ hcovers => hcovers.attributes.count_le)
      (fun _ _ hcovers hle => hcovers.view_eq hle) (hmore.methodCounts name)
      (hmore.methodAttributes name)
  fields := by
    intro name
    have hcovers := h.fields name
    have hle := hmore.fieldAttributes name
    cases hl : fieldOf o left name with
    | none =>
        cases hr : fieldOf o right name with
        | none => rfl
        | some r =>
            rw [hl, hr] at hcovers
            exact hcovers.elim
    | some l =>
        cases hr : fieldOf o right name with
        | none =>
            rw [hl, hr] at hcovers
            exact hcovers.elim
        | some r =>
            rw [hl, hr] at hcovers
            exact congrArg some (CoversMember.view_eq hcovers (hle l hl r hr))

theorem differenceCount_eq_zero :
    differenceCount o left right = 0 ↔ 2 ^ 32 ∣ countedDifferences o left right := by
  unfold differenceCount
  rw [compare_adds o left right 0, Nat.zero_add, ← UInt32.toNat_inj, UInt32.toNat_ofNat,
    Nat.dvd_iff_mod_eq_zero]
  rfl

theorem Agree.symm (h : Agree o left right) : Agree o right left where
  classname := h.classname.imp_right Eq.symm
  superClass := h.superClass.symm
  accessFlags := h.accessFlags.symm
  interfaces := fun name => (h.interfaces name).symm
  attributes := h.attributes.symm
  methods := h.methods.symm
  fields := fun name => (h.fields name).symm

theorem coversAttributes_of_eq {ls rs : List AttributeInfo}
    (h : attributeMap o left ls = attributeMap o right rs) :
    CoversAttributes o left right ls rs := by
  intro name bytes hbytes
  rw [h, hbytes]

theorem coversMember_of_view {l r : FieldInfo}
    (h : memberView o left l = memberView o right r) : CoversMember o left right l r :=
  ⟨congrArg MemberView.accessFlags h, congrArg MemberView.descriptor h,
    coversAttributes_of_eq (congrArg MemberView.attributes h)⟩

theorem coversField_of_view {l r : Option FieldInfo}
    (h : l.map (memberView o left) = r.map (memberView o right)) :
    CoversField o left right l r := by
  cases l with
  | none =>
      cases r with
      | none => trivial
      | some r => exact absurd h (by simp)
  | some l =>
      cases r with
      | none => exact absurd h (by simp)
      | some r =>
          exact coversMember_of_view (Option.some.inj h)

/-- Files that agree cover each other, up to the order of their overloads. -/
theorem Agree.covered (h : Agree o left right)
    (htakes : ∀ name,
      Takes (CoversMember o left right) (overloads o left name) (overloads o right name)) :
    Covered o left right where
  classname := h.classname
  superClass := h.superClass
  accessFlags := h.accessFlags
  interfaces := h.interfaces
  attributes := coversAttributes_of_eq h.attributes
  methodNames := by
    intro name
    have hlength := (methods_perm_iff.mp h.methods name).length_eq
    rw [List.length_map, List.length_map] at hlength
    rw [← List.length_eq_zero_iff, ← List.length_eq_zero_iff, hlength]
  methods := htakes
  fields := fun name => coversField_of_view (h.fields name)

/-- No overloads are crossed in a file that holds no method twice. -/
theorem not_crossed (hnodup : ∀ name, ((overloads o right name).map fun m =>
      getString right.constantPool m.descriptorIndex).Nodup) :
    ¬Crossed o left right := by
  rintro ⟨hagree, name, hstuck⟩
  refine hstuck (takes_of_perm (methods_perm_iff.mp hagree.methods name) ?_
    (fun l r hcovers => hcovers.descriptor) (hnodup name))
  exact fun l r hview => coversMember_of_view hview

theorem crossed_iff_agree (hcovered : ¬Covered o left right) :
    Crossed o left right ↔ Agree o left right := by
  refine ⟨Crossed.agree, fun h => ⟨h, ?_⟩⟩
  by_contra hall
  exact hcovered (h.covered (by simpa using hall))

/-- One direction of the comparison. -/
theorem differenceCount_iff_agree :
    (differenceCount o left right = 0 ↔ Agree o left right) ↔ Exact o left right := by
  rw [differenceCount_eq_zero]
  by_cases hcovered : Covered o left right
  · have hzero := countedDifferences_eq_zero.mpr hcovered
    have hcrossed : ¬Crossed o left right := fun h =>
      h.stuck.elim fun name hname => hname (hcovered.methods name)
    have hwraps : ¬Wraps o left right := fun h => h.1 hzero
    simp only [hzero, dvd_zero, true_iff]
    exact ⟨fun h => ⟨fun _ => h.nothingMore, iff_of_false hcrossed hwraps⟩,
      fun h => hcovered.agree (h.nothingMore hcovered)⟩
  · have hne : countedDifferences o left right ≠ 0 :=
      fun h => hcovered (countedDifferences_eq_zero.mp h)
    have hwraps : Wraps o left right ↔ 2 ^ 32 ∣ countedDifferences o left right :=
      and_iff_right hne
    rw [← crossed_iff_agree hcovered, ← hwraps]
    exact ⟨fun h => ⟨fun hc => absurd hc hcovered, h.symm⟩, fun h => h.crossed_iff.symm⟩

section Sample

/-- `class A`, with or without an attribute. -/
def sampleFile (attributes : List AttributeInfo) : ClassFile where
  constantPool := ⟨[none, some (.utf8Info [65]), some (.classInfo 1),
    some (.utf8Info (ascii "java/lang/Object")), some (.classInfo 3),
    some (.utf8Info (ascii "Deprecated"))]⟩
  mainClassInfo := ⟨0x21, 2, 4⟩
  interfaces := []
  fields := []
  methods := []
  attributes := attributes

def deprecated : AttributeInfo := ⟨5, [], .classFile⟩

theorem sampleFile_refsValid {attributes : List AttributeInfo}
    (h : ∀ a ∈ attributes, a = deprecated) : (sampleFile attributes).RefsValid where
  thisClass := ⟨1, rfl, rfl⟩
  superClass := .inr ⟨3, rfl, rfl⟩
  interfaces := nofun
  fields := nofun
  methods := nofun
  attributes := by
    intro a ha
    rw [h a ha]
    rfl

end Sample

end Agreement

end Tarracsh.DiffVerdicts
