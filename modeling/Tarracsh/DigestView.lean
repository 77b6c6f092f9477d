import Tarracsh.ClassFileDigest

/-!
# What the public digest reads

`HashedView` is the part of a class file that reaches a hash. The digest is a
function of that view for every hash function, and it is injective on views
as long as no two byte strings hashed on the way share their hash and none
hashes to zero.
-/
namespace Tarracsh.DigestView
open ByteStrings PoolStructures ParsedClass QueryTrees ClassFileDigest

/-- The all-zero hash, whose padded form is the digest of an empty set. -/
def zeroHash : Sha256 := List.Vector.replicate 32 0

theorem padded_zeroHash : padded zeroHash = emptyDigestVector := by decide

theorem padded_length (h : Sha256) : (padded h).length = DIGEST_LENGTH := by
  simp [padded, DIGEST_LENGTH]

theorem emptyDigestVector_length : emptyDigestVector.length = DIGEST_LENGTH := by
  simp [emptyDigestVector]

theorem padded_injective : Function.Injective padded := by
  intro g h hgh
  exact List.Vector.toList_injective (List.append_cancel_right hgh)

section Oracle
variable (O : Bytes → Sha256)

def bufferDigest (buffer : Bytes) : DigestVector :=
  if buffer = [] then emptyDigestVector else padded (O buffer)

def setDigest (digests : Finset DigestVector) : DigestVector :=
  bufferDigest O (setBuffer digests)

@[simp] theorem eval_digestBytes (bytes : Bytes) :
    eval O (digestBytes bytes) = some (padded (O bytes)) := rfl

@[simp] theorem eval_digestBuffer (buffer : Bytes) :
    eval O (digestBuffer buffer) = some (bufferDigest O buffer) := by
  unfold digestBuffer bufferDigest
  split <;> rfl

@[simp] theorem eval_digestSet (digests : Finset DigestVector) :
    eval O (digestSet digests) = some (setDigest O digests) := by
  unfold digestSet setDigest
  split
  · subst digests
    simp [bufferDigest, setBuffer]
  · exact eval_digestBuffer O _

theorem bufferDigest_length (buffer : Bytes) :
    (bufferDigest O buffer).length = DIGEST_LENGTH := by
  unfold bufferDigest
  split
  · exact emptyDigestVector_length
  · exact padded_length _

theorem asked_digestBuffer {buffer : Bytes} (h : buffer ≠ []) :
    asked O (digestBuffer buffer) = [buffer] := by
  simp [digestBuffer, h, digestBytes]

theorem asked_digestSet (digests : Finset DigestVector) :
    asked O (digestSet digests) = asked O (digestBuffer (setBuffer digests)) := by
  unfold digestSet
  split
  · subst digests
    simp [digestBuffer, setBuffer]
  · rfl

variable {O}

/-- Two buffers with one digest are equal when their questions are separated. -/
theorem buffer_eq_of_digest_eq {b c : Bytes}
    (hs : Separates O zeroHash (asked O (digestBuffer b) ++ asked O (digestBuffer c)))
    (h : bufferDigest O b = bufferDigest O c) : b = c := by
  unfold bufferDigest at h
  split at h <;> split at h
  · next hb hc => rw [hb, hc]
  · next hb hc =>
      rw [← padded_zeroHash] at h
      rw [asked_digestBuffer O hc] at hs
      exact (hs.avoid c (by simp) (padded_injective h).symm).elim
  · next hb hc =>
      rw [← padded_zeroHash] at h
      rw [asked_digestBuffer O hb] at hs
      exact (hs.avoid b (by simp) (padded_injective h)).elim
  · next hb hc =>
      rw [asked_digestBuffer O hb, asked_digestBuffer O hc] at hs
      exact hs.inj b (by simp) c (by simp) (padded_injective h)

/-- The sorted concatenation determines a set of digests of one length. -/
theorem set_eq_of_digest_eq {s t : Finset DigestVector}
    (hs : ∀ d ∈ s, d.length = DIGEST_LENGTH) (ht : ∀ d ∈ t, d.length = DIGEST_LENGTH)
    (hsep : Separates O zeroHash (asked O (digestSet s) ++ asked O (digestSet t)))
    (h : setDigest O s = setDigest O t) : s = t := by
  rw [asked_digestSet, asked_digestSet] at hsep
  have hflat := buffer_eq_of_digest_eq hsep h
  have hsort := flatten_inj_of_length (n := DIGEST_LENGTH) (by decide)
    (fun d hd => hs d ((Finset.mem_sort _).mp hd))
    (fun d hd => ht d ((Finset.mem_sort _).mp hd)) hflat
  rw [← Finset.sort_toFinset s (· ≤ ·), hsort, Finset.sort_toFinset]

end Oracle

/-- The tree family `T` hashes exactly the view `w`: its digest is a function
of the view, and separated questions determine the view from the digest. -/
structure Reads {X V : Type} (T : X → Hashing DigestVector) (w : X → Option V)
    (h : (Bytes → Sha256) → V → DigestVector) : Prop where
  eval_eq : ∀ O x, eval O (T x) = (w x).map (h O)
  length_eq : ∀ O v, (h O v).length = DIGEST_LENGTH
  inj : ∀ {O x y a b}, w x = some a → w y = some b →
    Separates O zeroHash (asked O (T x) ++ asked O (T y)) → h O a = h O b → a = b

theorem Reads.eval_some {X V : Type} {T : X → Hashing DigestVector} {w : X → Option V}
    {h : (Bytes → Sha256) → V → DigestVector} (hr : Reads T w h) (O : Bytes → Sha256)
    {x : X} {v : V} (hv : w x = some v) : eval O (T x) = some (h O v) := by
  rw [hr.eval_eq, hv]
  rfl

/-- The loop combinator: a set of selected members is read whenever every
selected member is. The two loops may run over different pools. -/
theorem reads_set {P B V : Type} [DecidableEq V] {f : P → B → Hashing (Option DigestVector)}
    {g : P → B → Option (Option V)} {h : (Bytes → Sha256) → V → DigestVector}
    (he : ∀ O p b, eval O (f p b) = (g p b).map (Option.map (h O)))
    (hlen : ∀ O v, (h O v).length = DIGEST_LENGTH)
    (hinj : ∀ {O p q x y a b}, g p x = some (some a) → g q y = some (some b) →
      Separates O zeroHash (asked O (f p x) ++ asked O (f q y)) → h O a = h O b → a = b) :
    Reads (fun x : P × List B => do let digests ← collect (f x.1) x.2 ∅; digestSet digests)
      (fun x => gather (g x.1) x.2) (fun O vs => setDigest O (vs.image (h O))) where
  eval_eq O x := by
    rw [eval_bind, eval_collect O (he O x.1)]
    cases gather (g x.1) x.2 <;> simp
  length_eq O vs := bufferDigest_length O _
  inj {O x y a b} ha hb hsep hd := by
    have hsome : ∀ {z : P × List B} {c : Finset V}, gather (g z.1) z.2 = some c →
        ∀ u ∈ z.2, (eval O (f z.1 u)).isSome := by
      intro z c hc u hu
      rw [he, Option.isSome_map]
      exact gather_isSome.mp (Option.isSome_iff_exists.mpr ⟨c, hc⟩) u hu
    have hask : ∀ {z : P × List B} {c : Finset V}, gather (g z.1) z.2 = some c →
        asked O (digestSet (c.image (h O))) ⊆
          asked O (do let digests ← collect (f z.1) z.2 ∅; digestSet digests) := by
      intro z c hc
      apply asked_bind_right
      rw [eval_collect O (he O z.1), hc]
      rfl
    have himage : a.image (h O) = b.image (h O) := by
      apply set_eq_of_digest_eq _ _ (hsep.append_subset (hask ha) (hask hb)) hd
      · simpa using fun v _ => hlen O v
      · simpa using fun v _ => hlen O v
    have hcross : ∀ v ∈ a, ∀ v' ∈ b, h O v = h O v' → v = v' := by
      intro v hv v' hv' heq
      obtain ⟨u, hu, hgu⟩ := (mem_gather ha v).mp hv
      obtain ⟨z, hz, hgz⟩ := (mem_gather hb v').mp hv'
      refine hinj hgu hgz (hsep.append_subset ?_ ?_) heq
      · exact List.Subset.trans (asked_collect O (hsome ha) ∅ hu) (asked_bind_left O _ _)
      · exact List.Subset.trans (asked_collect O (hsome hb) ∅ hz) (asked_bind_left O _ _)
    ext v
    constructor
    · intro hv
      obtain ⟨v', hv', heq⟩ := Finset.mem_image.mp (himage ▸ Finset.mem_image_of_mem (h O) hv)
      rwa [hcross v hv v' hv' heq.symm]
    · intro hv
      obtain ⟨v', hv', heq⟩ := Finset.mem_image.mp (himage ▸ Finset.mem_image_of_mem (h O) hv)
      rwa [← hcross v' hv' v hv heq]

theorem asked_digestUtf8Entry (O : Bytes → Sha256) {p : ConstantPool} {i : UInt16} {s : Bytes}
    (hs : p.utf8Info i = some s) : asked O (digestUtf8Entry p i) = [s] := by
  simp [digestUtf8Entry, asked_bind, hs, digestBytes]

theorem reads_utf8Entry :
    Reads (fun x : ConstantPool × UInt16 => digestUtf8Entry x.1 x.2)
      (fun x => x.1.utf8Info x.2) (fun O s => padded (O s)) where
  eval_eq O x := by
    simp only [digestUtf8Entry, eval_bind, eval_lift, eval_digestBytes]
    cases x.1.utf8Info x.2 <;> rfl
  length_eq O s := padded_length _
  inj {O x y s t} hs ht hsep h := by
    rw [asked_digestUtf8Entry O hs, asked_digestUtf8Entry O ht] at hsep
    exact hsep.inj s (by simp) t (by simp) (padded_injective h)

/-- The name a class index denotes; index 0 denotes no class. -/
def className (p : ConstantPool) (index : UInt16) : Option (Option Bytes) :=
  if index = 0 then some none else ((p.classInfo index).bind p.utf8Info).map some

def classDigest (O : Bytes → Sha256) : Option Bytes → DigestVector
  | none => emptyDigestVector
  | some name => padded (O name)

theorem asked_digestClassInfo (O : Bytes → Sha256) {p : ConstantPool} {i : UInt16}
    {name : Option Bytes} (h : className p i = some name) :
    asked O (digestClassInfo p i) = name.toList := by
  unfold className at h
  unfold digestClassInfo
  split_ifs at h ⊢ with hi
  · simp [← Option.some.inj h]
  · obtain ⟨s, hs, rfl⟩ := Option.map_eq_some_iff.mp h
    obtain ⟨n, hn, hs⟩ := Option.bind_eq_some_iff.mp hs
    simp [asked_bind, hn, asked_digestUtf8Entry O hs]

theorem reads_classInfo :
    Reads (fun x : ConstantPool × UInt16 => digestClassInfo x.1 x.2)
      (fun x => className x.1 x.2) classDigest where
  eval_eq O x := by
    unfold digestClassInfo className
    split_ifs
    · rfl
    · rw [eval_bind, eval_lift]
      cases x.1.classInfo x.2 with
      | none => rfl
      | some n =>
          simp only [Option.bind_some, Option.map_map]
          exact reads_utf8Entry.eval_eq O (x.1, n)
  length_eq O name := by
    cases name with
    | none => exact emptyDigestVector_length
    | some name => exact padded_length _
  inj {O x y s t} hs ht hsep h := by
    rw [asked_digestClassInfo O hs, asked_digestClassInfo O ht] at hsep
    cases s with
    | none =>
        cases t with
        | none => rfl
        | some t =>
            rw [classDigest, classDigest, ← padded_zeroHash] at h
            exact (hsep.avoid t (by simp) (padded_injective h).symm).elim
    | some s =>
        cases t with
        | none =>
            rw [classDigest, classDigest, ← padded_zeroHash] at h
            exact (hsep.avoid s (by simp) (padded_injective h)).elim
        | some t => rw [hsep.inj s (by simp) t (by simp) (padded_injective h)]

/-- The body an attribute contributes: none for Code and for empty bodies. -/
def attributeBody (p : ConstantPool) (a : AttributeInfo) : Option (Option Bytes) :=
  (p.utf8Info a.nameIndex).map fun name =>
    if name = CODE then none else if a.info = [] then none else some a.info

def attributeBodies (p : ConstantPool) (attributes : List AttributeInfo) : Option (Finset Bytes) :=
  gather (attributeBody p) attributes

def attributesDigest (O : Bytes → Sha256) (bodies : Finset Bytes) : DigestVector :=
  setDigest O (bodies.image (bufferDigest O))

theorem eval_attributeStep (O : Bytes → Sha256) (p : ConstantPool) (a : AttributeInfo) :
    eval O (attributeStep p a) = (attributeBody p a).map (Option.map (bufferDigest O)) := by
  unfold attributeStep attributeBody
  rw [eval_bind, eval_lift]
  cases p.utf8Info a.nameIndex with
  | none => rfl
  | some name =>
      simp only [Option.bind_some, Option.map_some]
      split_ifs
      · rfl
      · rfl
      · simp [digestAttribute]

theorem asked_attributeStep (O : Bytes → Sha256) {p : ConstantPool} {a : AttributeInfo}
    {body : Bytes} (h : attributeBody p a = some (some body)) :
    asked O (attributeStep p a) = asked O (digestBuffer body) := by
  obtain ⟨name, hname, h⟩ := Option.map_eq_some_iff.mp h
  split_ifs at h with hcode hempty
  obtain rfl := Option.some.inj h
  simp [attributeStep, asked_bind, hname, hcode, hempty, digestAttribute]

theorem reads_attributes :
    Reads (fun x : ConstantPool × List AttributeInfo => digestAttributes x.1 x.2)
      (fun x => attributeBodies x.1 x.2) attributesDigest := by
  refine reads_set (f := attributeStep) eval_attributeStep bufferDigest_length ?_
  intro O p q a b s t hs ht hsep h
  rw [asked_attributeStep O hs, asked_attributeStep O ht] at hsep
  exact buffer_eq_of_digest_eq hsep h

/-- What the digest keeps of a public method or field. -/
structure MemberView where
  name : Bytes
  attributes : Finset Bytes
  descriptorHead : UInt8
  accessFlags : UInt16
  deriving DecidableEq

def memberView (p : ConstantPool) (m : FieldInfo) : Option MemberView := do
  let name ← p.utf8Info m.nameIndex
  let attributes ← attributeBodies p m.attributes
  let descriptor ← p.utf8Info m.descriptorIndex
  pure ⟨name, attributes, descriptor.headD 0, m.accessFlags⟩

theorem memberView_eq_some {p : ConstantPool} {m : FieldInfo} {v : MemberView}
    (h : memberView p m = some v) :
    p.utf8Info m.nameIndex = some v.name ∧ attributeBodies p m.attributes = some v.attributes ∧
      (∃ descriptor, p.utf8Info m.descriptorIndex = some descriptor ∧
        descriptor.headD 0 = v.descriptorHead) ∧ m.accessFlags = v.accessFlags := by
  obtain ⟨name, hname, h⟩ := Option.bind_eq_some_iff.mp h
  obtain ⟨attributes, hattributes, h⟩ := Option.bind_eq_some_iff.mp h
  obtain ⟨descriptor, hdescriptor, h⟩ := Option.bind_eq_some_iff.mp h
  obtain rfl := Option.some.inj h
  exact ⟨hname, hattributes, ⟨descriptor, hdescriptor, rfl⟩, rfl⟩

def methodBuffer (O : Bytes → Sha256) (v : MemberView) : Bytes :=
  padded (O v.name) ++ attributesDigest O v.attributes ++ [v.descriptorHead] ++
    littleEndian16 v.accessFlags

def fieldBuffer (O : Bytes → Sha256) (v : MemberView) : Bytes :=
  padded (O v.name) ++ attributesDigest O v.attributes ++ attributesDigest O v.attributes ++
    [v.descriptorHead] ++ littleEndian16 v.accessFlags

/-- A member digest is read through any buffer that determines its parts. -/
theorem reads_member {T : ConstantPool → FieldInfo → Hashing DigestVector}
    {buffer : (Bytes → Sha256) → MemberView → Bytes}
    (he : ∀ O p m, eval O (T p m) = (memberView p m).map fun v => bufferDigest O (buffer O v))
    (ha : ∀ {O p m v}, memberView p m = some v →
      asked O (digestUtf8Entry p m.nameIndex) ++ asked O (digestAttributes p m.attributes) ++
        asked O (digestBuffer (buffer O v)) ⊆ asked O (T p m))
    (hb : ∀ {O v w}, buffer O v = buffer O w → padded (O v.name) = padded (O w.name) ∧
      attributesDigest O v.attributes = attributesDigest O w.attributes ∧
      v.descriptorHead = w.descriptorHead ∧ v.accessFlags = w.accessFlags) :
    Reads (fun x : ConstantPool × FieldInfo => T x.1 x.2) (fun x => memberView x.1 x.2)
      (fun O v => bufferDigest O (buffer O v)) where
  eval_eq O x := he O x.1 x.2
  length_eq O v := bufferDigest_length O _
  inj {O x y v w} hv hw hsep h := by
    obtain ⟨hname, hattributes, -, -⟩ := memberView_eq_some hv
    obtain ⟨hname', hattributes', -, -⟩ := memberView_eq_some hw
    have hsep' := hsep.append_subset (ha hv) (ha hw)
    have hparts := hb (buffer_eq_of_digest_eq (hsep'.append_subset
      (List.subset_append_right _ _) (List.subset_append_right _ _)) h)
    have hn : v.name = w.name := reads_utf8Entry.inj (x := (x.1, x.2.nameIndex))
      (y := (y.1, y.2.nameIndex)) hname hname' (hsep'.append_subset (by simp) (by simp)) hparts.1
    have hattr : v.attributes = w.attributes := reads_attributes.inj (x := (x.1, x.2.attributes))
      (y := (y.1, y.2.attributes)) hattributes hattributes'
      (hsep'.append_subset (by simp) (by simp)) hparts.2.1
    cases v
    cases w
    simp_all

theorem attributesDigest_length (O : Bytes → Sha256) (bodies : Finset Bytes) :
    (attributesDigest O bodies).length = DIGEST_LENGTH := bufferDigest_length O _

theorem methodBuffer_parts {O : Bytes → Sha256} {v w : MemberView}
    (h : methodBuffer O v = methodBuffer O w) : padded (O v.name) = padded (O w.name) ∧
      attributesDigest O v.attributes = attributesDigest O w.attributes ∧
      v.descriptorHead = w.descriptorHead ∧ v.accessFlags = w.accessFlags := by
  obtain ⟨h, hflags⟩ := List.append_inj' h (by simp)
  obtain ⟨h, hhead⟩ := List.append_inj' h (by simp)
  obtain ⟨hname, hattributes⟩ := List.append_inj h (by simp only [padded_length])
  exact ⟨hname, hattributes, List.singleton_inj.mp hhead, littleEndian16_injective hflags⟩

theorem fieldBuffer_parts {O : Bytes → Sha256} {v w : MemberView}
    (h : fieldBuffer O v = fieldBuffer O w) : padded (O v.name) = padded (O w.name) ∧
      attributesDigest O v.attributes = attributesDigest O w.attributes ∧
      v.descriptorHead = w.descriptorHead ∧ v.accessFlags = w.accessFlags := by
  obtain ⟨h, hflags⟩ := List.append_inj' h (by simp)
  obtain ⟨h, hhead⟩ := List.append_inj' h (by simp)
  obtain ⟨h, -⟩ := List.append_inj' h (by simp only [attributesDigest_length])
  obtain ⟨hname, hattributes⟩ := List.append_inj h (by simp only [padded_length])
  exact ⟨hname, hattributes, List.singleton_inj.mp hhead, littleEndian16_injective hflags⟩

theorem eval_utf8Entry (O : Bytes → Sha256) (p : ConstantPool) (i : UInt16) :
    eval O (digestUtf8Entry p i) = (p.utf8Info i).map fun s => padded (O s) :=
  reads_utf8Entry.eval_eq O (p, i)

theorem eval_attributes (O : Bytes → Sha256) (p : ConstantPool) (as : List AttributeInfo) :
    eval O (digestAttributes p as) = (attributeBodies p as).map (attributesDigest O) :=
  reads_attributes.eval_eq O (p, as)

theorem reads_method :
    Reads (fun x : ConstantPool × MethodInfo => digestMethod x.1 x.2)
      (fun x => memberView x.1 x.2) (fun O v => bufferDigest O (methodBuffer O v)) := by
  apply reads_member
  · intro O p m
    simp only [digestMethod, memberView, eval_bind, eval_utf8Entry, eval_attributes, eval_lift,
      eval_digestBuffer, Option.bind_eq_bind, Option.pure_def]
    cases p.utf8Info m.nameIndex <;> cases attributeBodies p m.attributes <;>
      cases p.utf8Info m.descriptorIndex <;> rfl
  · intro O p m v hv
    obtain ⟨hname, hattributes, ⟨d, hd, hhead⟩, hflags⟩ := memberView_eq_some hv
    simp only [digestMethod, asked_bind, eval_utf8Entry, eval_attributes, hname, hattributes,
      Option.map_some, Option.elim_some, eval_lift, hd, asked_lift, List.nil_append,
      appendedBytes, hhead, hflags, methodBuffer, List.append_assoc]
    exact List.Subset.refl _
  · exact methodBuffer_parts

theorem reads_field :
    Reads (fun x : ConstantPool × FieldInfo => digestField x.1 x.2)
      (fun x => memberView x.1 x.2) (fun O v => bufferDigest O (fieldBuffer O v)) := by
  apply reads_member
  · intro O p m
    simp only [digestField, memberView, eval_bind, eval_utf8Entry, eval_attributes, eval_lift,
      eval_digestBuffer, Option.bind_eq_bind, Option.pure_def]
    cases p.utf8Info m.nameIndex <;> cases attributeBodies p m.attributes <;>
      cases p.utf8Info m.descriptorIndex <;> rfl
  · intro O p m v hv
    obtain ⟨hname, hattributes, ⟨d, hd, hhead⟩, hflags⟩ := memberView_eq_some hv
    simp only [digestField, asked_bind, eval_utf8Entry, eval_attributes, hname, hattributes,
      Option.map_some, Option.elim_some, eval_lift, hd, asked_lift, List.nil_append,
      appendedBytes, hhead, hflags, List.append_assoc]
    intro s hs
    simp only [List.mem_append, fieldBuffer, List.append_assoc] at hs ⊢
    tauto
  · exact fieldBuffer_parts

/-- Members that are not public are skipped before anything of them is read. -/
def publicView (p : ConstantPool) (m : FieldInfo) : Option (Option MemberView) :=
  if isPublic m.accessFlags then (memberView p m).map some else some none

def publicViews (p : ConstantPool) (ms : List FieldInfo) : Option (Finset MemberView) :=
  gather (publicView p) ms

theorem reads_public {T : ConstantPool → FieldInfo → Hashing DigestVector}
    {h : (Bytes → Sha256) → MemberView → DigestVector}
    (hT : Reads (fun x : ConstantPool × FieldInfo => T x.1 x.2)
      (fun x => memberView x.1 x.2) h) :
    Reads (fun x : ConstantPool × List FieldInfo => do
        let digests ← collect (publicStep (T x.1)) x.2 ∅; digestSet digests)
      (fun x => publicViews x.1 x.2) (fun O vs => setDigest O (vs.image (h O))) := by
  refine reads_set (f := fun p => publicStep (T p)) ?_ hT.length_eq ?_
  · intro O p m
    unfold publicStep publicView
    split_ifs
    · rw [eval_bind, hT.eval_eq O (p, m)]
      cases memberView p m <;> rfl
    · rfl
  · intro O p q m n v w hv hw hsep heq
    have hstep : ∀ {r : ConstantPool} {l : FieldInfo} {u : MemberView},
        publicView r l = some (some u) → memberView r l = some u ∧
          asked O (T r l) ⊆ asked O (publicStep (T r) l) := by
      intro r l u hu
      unfold publicView at hu
      unfold publicStep
      split_ifs at hu ⊢
      · obtain ⟨x, hx, hxu⟩ := Option.map_eq_some_iff.mp hu
        exact ⟨Option.some.inj hxu ▸ hx, asked_bind_left O _ _⟩
      · simp at hu
    exact hT.inj (x := (p, m)) (y := (q, n)) (hstep hv).1 (hstep hw).1
      (hsep.append_subset (hstep hv).2 (hstep hw).2) heq

/-- The single byte of an interface name that is hashed. -/
def interfaceHead (p : ConstantPool) (index : UInt16) : Option UInt8 :=
  ((p.classInfo index).bind p.utf8Info).map fun name => name.headD 0

def interfaceHeads (p : ConstantPool) (interfaces : List UInt16) : Option (Finset UInt8) :=
  gather (fun i => (interfaceHead p i).map some) interfaces

def interfacesDigest (O : Bytes → Sha256) (heads : Finset UInt8) : DigestVector :=
  setDigest O (heads.image fun b => bufferDigest O [b])

theorem reads_interfaces :
    Reads (fun x : ConstantPool × List UInt16 => digestInterfaces x.1 x.2)
      (fun x => interfaceHeads x.1 x.2) interfacesDigest := by
  refine reads_set (f := interfaceStep) (g := fun p i => (interfaceHead p i).map some) ?_
    (fun O b => bufferDigest_length O [b]) ?_
  · intro O p i
    simp only [interfaceStep, digestInterface, interfaceHead, eval_bind, eval_lift,
      eval_digestBuffer, appendedBytes]
    cases p.classInfo i with
    | none => rfl
    | some n =>
        simp only [Option.bind_some]
        cases p.utf8Info n <;> rfl
  · intro O p q i j b c hb hc hsep h
    have hstep : ∀ {r : ConstantPool} {k : UInt16} {d : UInt8},
        (interfaceHead r k).map some = some (some d) →
          asked O (interfaceStep r k) = [[d]] := by
      intro r k d hd
      simp only [interfaceHead, Option.map_map] at hd
      obtain ⟨name, hname, hd⟩ := Option.map_eq_some_iff.mp hd
      obtain ⟨n, hn, hname⟩ := Option.bind_eq_some_iff.mp hname
      simp only [Function.comp_apply, Option.some.injEq] at hd
      simp only [interfaceStep, digestInterface, appendedBytes, asked_bind, eval_bind, eval_lift,
        asked_lift, hn, hname, hd, Option.elim_some, Option.bind_some, List.nil_append,
        eval_digestBuffer, asked_pure, List.append_nil]
      exact asked_digestBuffer O (by simp)
    rw [hstep hb, hstep hc] at hsep
    refine List.singleton_inj.mp (buffer_eq_of_digest_eq (O := O) ?_ h)
    rwa [asked_digestBuffer O (by simp), asked_digestBuffer O (by simp)]

/-- Everything of a class file that reaches a hash. -/
structure HashedView where
  thisClass : Option Bytes
  superClass : Option Bytes
  attributes : Finset Bytes
  methods : Finset MemberView
  fields : Finset MemberView
  interfaces : Finset UInt8
  accessFlags : UInt16
  deriving DecidableEq

def hashedView (c : ClassFile) : Option HashedView := do
  let thisClass ← className c.constantPool c.mainClassInfo.thisClass
  let superClass ← className c.constantPool c.mainClassInfo.superClass
  let attributes ← attributeBodies c.constantPool c.attributes
  let methods ← publicViews c.constantPool c.methods
  let fields ← publicViews c.constantPool c.fields
  let interfaces ← interfaceHeads c.constantPool c.interfaces
  pure ⟨thisClass, superClass, attributes, methods, fields, interfaces,
    c.mainClassInfo.accessFlags⟩

def methodsDigest (O : Bytes → Sha256) (vs : Finset MemberView) : DigestVector :=
  setDigest O (vs.image fun v => bufferDigest O (methodBuffer O v))

def fieldsDigest (O : Bytes → Sha256) (vs : Finset MemberView) : DigestVector :=
  setDigest O (vs.image fun v => bufferDigest O (fieldBuffer O v))

def viewBuffer (O : Bytes → Sha256) (v : HashedView) : Bytes :=
  classDigest O v.thisClass ++ classDigest O v.superClass ++ attributesDigest O v.attributes ++
    methodsDigest O v.methods ++ fieldsDigest O v.fields ++ interfacesDigest O v.interfaces ++
    littleEndian16 v.accessFlags

theorem reads_methods :
    Reads (fun x : ConstantPool × List MethodInfo => digestPublicMethods x.1 x.2)
      (fun x => publicViews x.1 x.2) methodsDigest := reads_public reads_method

theorem reads_fields :
    Reads (fun x : ConstantPool × List FieldInfo => digestPublicFields x.1 x.2)
      (fun x => publicViews x.1 x.2) fieldsDigest := reads_public reads_field

theorem hashedView_eq_some {c : ClassFile} {v : HashedView} (h : hashedView c = some v) :
    className c.constantPool c.mainClassInfo.thisClass = some v.thisClass ∧
      className c.constantPool c.mainClassInfo.superClass = some v.superClass ∧
      attributeBodies c.constantPool c.attributes = some v.attributes ∧
      publicViews c.constantPool c.methods = some v.methods ∧
      publicViews c.constantPool c.fields = some v.fields ∧
      interfaceHeads c.constantPool c.interfaces = some v.interfaces ∧
      c.mainClassInfo.accessFlags = v.accessFlags := by
  obtain ⟨a₁, h₁, h⟩ := Option.bind_eq_some_iff.mp h
  obtain ⟨a₂, h₂, h⟩ := Option.bind_eq_some_iff.mp h
  obtain ⟨a₃, h₃, h⟩ := Option.bind_eq_some_iff.mp h
  obtain ⟨a₄, h₄, h⟩ := Option.bind_eq_some_iff.mp h
  obtain ⟨a₅, h₅, h⟩ := Option.bind_eq_some_iff.mp h
  obtain ⟨a₆, h₆, h⟩ := Option.bind_eq_some_iff.mp h
  obtain rfl := Option.some.inj h
  exact ⟨h₁, h₂, h₃, h₄, h₅, h₆, rfl⟩

/-- The digest is a function of the view, whatever the hash function is. -/
theorem eval_digest (O : Bytes → Sha256) (c : ClassFile) :
    eval O (digest c) = (hashedView c).map fun v => padded (O (viewBuffer O v)) := by
  simp only [digest, hashedView, eval_bind, Option.bind_eq_bind, Option.pure_def,
    eval_digestBytes]
  rw [reads_classInfo.eval_eq O (_, _), reads_classInfo.eval_eq O (_, _),
    reads_attributes.eval_eq O (_, _), reads_methods.eval_eq O (_, _),
    reads_fields.eval_eq O (_, _), reads_interfaces.eval_eq O (_, _)]
  cases className c.constantPool c.mainClassInfo.thisClass <;>
    cases className c.constantPool c.mainClassInfo.superClass <;>
    cases attributeBodies c.constantPool c.attributes <;>
    cases publicViews c.constantPool c.methods <;>
    cases publicViews c.constantPool c.fields <;>
    cases interfaceHeads c.constantPool c.interfaces <;> rfl

end Tarracsh.DigestView
