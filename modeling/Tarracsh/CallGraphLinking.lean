import Tarracsh.CallGraphTables
import Tarracsh.CountedLoops
import Mathlib.Data.Finset.Sort

/-!
# Linking references to what they refer to

`CallGraphAnalyzer::linkRefNodes` builds an index of the classes by name and
of the methods and fields by class, name and descriptor, and then joins every
reference with it. An edge goes into an edge table under the key of its two
ends, the reference counts its edges and the target its references.

`Table::forEach` runs with a 32-bit row counter. An `unordered_set` is iterated
in an order that is not specified.
-/
namespace Tarracsh.CallGraphLinking
open ByteStrings RecordCodecs StringPool TableModel DomainTables CallGraphTables CountedLoops

/-- `Table::forEach` over the table that the state holds. The callback gets the
pointer of each row that is not deleted. -/
def forEach {α S : Type} (table : S → Table α) (func : S → ℕ → Option S) (fuel : ℕ) (s : S) :
    Progress S :=
  loop (fun rowId s =>
    match (table s).autoIncrementIndex[rowId]? with
    | none => .done
    | some pRow =>
        match (table s).heap.lookup pRow with
        | none => .abort
        | some row =>
            if row.isDeleted then .next s
            else
              match func s pRow with
              | none => .abort
              | some s => .next s) fuel 0 s

structure EdgeCols where
  ownerClass : RefCol := 0
  fromId : RefCol := 0
  toId : RefCol := 0
  deriving DecidableEq, Repr

/-- The three tables of edges have the same columns and the same key. -/
inductive EdgeTable where
  | classRefEdges | methodRefEdges | fieldRefEdges
  deriving DecidableEq, Repr

namespace EdgeTable

def codec : Codec EdgeCols :=
  (Codec.uint64.prod (Codec.uint64.prod Codec.uint64)).map
    (fun v => ⟨v.1, v.2.1, v.2.2⟩) (fun r => (r.ownerClass, r.fromId, r.toId)) fun _ => rfl

/-- The columns, with the tables and columns that the two ends are displayed as. -/
def columns (fromTable fromColumn toTable toColumn : String) : List Properties :=
  [.column "id" .UInt64 .AsUInt64 8,
    .foreign "from" 24 fromTable fromColumn,
    .foreign "to" 32 toTable toColumn,
    .foreign "ownerClass" 16 "classfiles" "ownerClass"]

def format : EdgeTable → Format EdgeCols
  | .classRefEdges =>
      DomainTables.format codec "classRefEdges"
        (columns "classRefs" "classRef" "classfiles" "classname") (by simp [columns])
  | .methodRefEdges =>
      DomainTables.format codec "methodRefEdges"
        (columns "methodRefs" "methodRef" "methodRefs" "member") (by simp [columns])
  | .fieldRefEdges =>
      DomainTables.format codec "fieldRefEdges"
        (columns "fieldRefs" "fieldRef" "fieldRefs" "field") (by simp [columns])

def getKey (row : EdgeCols) : Bytes :=
  ascii (toString row.fromId.toNat) ++ ascii "-" ++ ascii (toString row.toId.toNat)

def layout (i : EdgeTable) : Layout EdgeCols := ⟨i.format, getKey⟩

end EdgeTable

/-- The database with its tables of edges. -/
structure LinkDb extends CallGraphDb where
  edges : EdgeTable → Table EdgeCols

/-- The order in which an `unordered_set` is iterated. -/
structure Iteration where
  order : Finset ℕ → List ℕ
  nodup : ∀ s, (order s).Nodup
  mem_order : ∀ s x, x ∈ order s ↔ x ∈ s

/-- One such order. -/
def Iteration.sorted : Iteration where
  order s := s.sort
  nodup s := s.sort_nodup _
  mem_order s _ := s.mem_sort _

/-- `_classesByName`, with the pointers of the class rows. -/
abbrev ClassesByName := AList fun _ : StringCol => Finset ℕ

def insertClass (index : ClassesByName) (classname : StringCol) (pRow : ℕ) : ClassesByName :=
  match index.lookup classname with
  | some rows => index.insert classname (insert pRow rows)
  | none => index.insert classname {pRow}

def createClassnameIndex (fuel : ℕ) (classFiles : Table ClassFileCols) : Progress ClassesByName :=
  forEach (fun _ => classFiles) (fun index pRow => do
    let row ← classFiles.heap.lookup pRow
    some (insertClass index row.cols.classname pRow)) fuel ∅

abbrev Descriptor2Member := AList fun _ : StringCol => Finset ℕ

abbrev MemberName2Descriptors := AList fun _ : StringCol => Descriptor2Member

/-- Class name, member name and descriptor to the ids of the members. -/
abbrev MembersIndex := AList fun _ : StringCol => MemberName2Descriptors

/-- The columns that linking uses of a table of references and of its targets. -/
structure Types (ρ τ : Type) where
  classname : ρ → StringCol
  refName : ρ → StringCol
  refDescriptor : ρ → StringCol
  refOwner : ρ → RefCol
  edgeCount : ρ → UInt64
  setEdgeCount : ρ → UInt64 → ρ
  targetOwner : τ → RefCol
  targetName : τ → StringCol
  targetDescriptor : τ → StringCol
  refCount : τ → UInt64
  setRefCount : τ → UInt64 → τ

/-- `MethodRefEdges::Types`. -/
def methodTypes : Types MethodRefCols MethodCols where
  classname r := r.classname
  refName r := r.name
  refDescriptor r := r.descriptor
  refOwner r := r.ownerClass
  edgeCount r := r.edgeCount
  setEdgeCount r n := { r with edgeCount := n }
  targetOwner m := m.ownerClass
  targetName m := m.name
  targetDescriptor m := m.descriptor
  refCount m := m.refCount
  setRefCount m n := { m with refCount := n }

/-- `FieldRefEdges::Types`. -/
def fieldTypes : Types FieldRefCols FieldCols where
  classname r := r.classname
  refName r := r.name
  refDescriptor r := r.descriptor
  refOwner r := r.ownerClass
  edgeCount r := r.edgeCount
  setEdgeCount r n := { r with edgeCount := n }
  targetOwner m := m.ownerClass
  targetName m := m.name
  targetDescriptor m := m.descriptor
  refCount m := m.refCount
  setRefCount m n := { m with refCount := n }

section Members
variable {ρ τ : Type} (T : Types ρ τ)

/-- The three maps are extended where a key is new. -/
def insertMember (index : MembersIndex) (classname name descriptor : StringCol) (id : ℕ) :
    MembersIndex :=
  let memberName2Descriptors := (index.lookup classname).getD ∅
  let descriptor2Member := (memberName2Descriptors.lookup name).getD ∅
  let members := (descriptor2Member.lookup descriptor).getD ∅
  index.insert classname (memberName2Descriptors.insert name
    (descriptor2Member.insert descriptor (insert id members)))

def createMemberIndex (fuel : ℕ) (classes : Table ClassFileCols) (memberTable : Table τ) :
    Progress MembersIndex :=
  forEach (fun _ => memberTable) (fun index pRow => do
    let row ← memberTable.heap.lookup pRow
    let owner ← classes.getRow (T.targetOwner row.cols).toNat
    some (insertMember index owner.cols.classname (T.targetName row.cols)
      (T.targetDescriptor row.cols) row.id)) fuel ∅

def getMemberMatches (I : Iteration) (index : MembersIndex) (row : ρ) : List ℕ :=
  match index.lookup (T.classname row) with
  | none => []
  | some memberName2Descriptors =>
      match memberName2Descriptors.lookup (T.refName row) with
      | none => []
      | some descriptor2Member =>
          match descriptor2Member.lookup (T.refDescriptor row) with
          | none => []
          | some members => I.order members

end Members

/-- The three tables of a pass over the references of one kind. -/
structure Pass (ρ τ : Type) where
  refs : Table ρ
  edges : Table EdgeCols
  targets : Table τ

section Passes
variable {ρ τ : Type} (A : ∀ α : Type, Allocator α) (I : Iteration) (E : EdgeTable)

/-- A new edge, and one more reference for the target at the pointer. -/
def linkEdge (cols : EdgeCols) (pTarget : Option ℕ) (addReference : τ → τ) (s : Pass ρ τ) :
    Option (Pass ρ τ) := do
  let (edges, pEdge) := s.edges.allocate (A _) (CallGraphDb.newRow cols)
  let (edges, _) ← edges.add E.layout pEdge
  let p ← pTarget
  let targets ← s.targets.updateInPlace p fun row => { row with cols := addReference row.cols }
  some { s with edges := edges, targets := targets }

/-- The callback of `linkClassRefs`. -/
def linkClassRef (classesByName : ClassesByName) (s : Pass ClassRefCols ClassFileCols)
    (pRow : ℕ) : Option (Pass ClassRefCols ClassFileCols) := do
  let classRefRow ← s.refs.heap.lookup pRow
  match classesByName.lookup classRefRow.cols.name with
  | none => some s
  | some classes => do
      let refs ← s.refs.updateInPlace pRow fun row =>
        { row with cols := { row.cols with
          edgeCount := row.cols.edgeCount + UInt64.ofNat classes.card } }
      (I.order classes).foldlM (fun s pClassFileRow => do
        let classFileRow ← s.targets.heap.lookup pClassFileRow
        linkEdge A E
          { fromId := UInt64.ofNat classRefRow.id, toId := UInt64.ofNat classFileRow.id }
          (some pClassFileRow) (fun cols => { cols with refCount := cols.refCount + 1 }) s)
        { s with refs := refs }

/-- The callback of `linkMemberRefs`. -/
def linkMemberRef (T : Types ρ τ) (index : MembersIndex) (s : Pass ρ τ) (pRow : ℕ) :
    Option (Pass ρ τ) := do
  let refRow ← s.refs.heap.lookup pRow
  let found := getMemberMatches T I index refRow.cols
  if 0 < found.length then do
    let s ← found.foldlM (fun s id =>
      linkEdge A E
        { ownerClass := T.refOwner refRow.cols, fromId := UInt64.ofNat refRow.id,
          toId := UInt64.ofNat id }
        s.targets.autoIncrementIndex[id]?
        (fun cols => T.setRefCount cols (T.refCount cols + 1)) s) s
    let refs ← s.refs.updateInPlace pRow fun row =>
      { row with cols :=
        T.setEdgeCount row.cols (T.edgeCount row.cols + UInt64.ofNat found.length) }
    some { s with refs := refs }
  else some s

end Passes

namespace LinkDb
variable (A : ∀ α : Type, Allocator α) (I : Iteration) (fuel : ℕ)

def linkClassRefs (classesByName : ClassesByName) (db : LinkDb) : Progress LinkDb := do
  let s ← forEach Pass.refs (linkClassRef A I .classRefEdges classesByName) fuel
    ⟨db.nodes .classRefs, db.edges .classRefEdges, db.classfiles⟩
  pure { db with
    classfiles := s.targets
    nodes := Function.update db.nodes .classRefs s.refs
    edges := Function.update db.edges .classRefEdges s.edges }

def linkMethodRefs (methodsIndex : MembersIndex) (db : LinkDb) : Progress LinkDb := do
  let s ← forEach Pass.refs (linkMemberRef A I .methodRefEdges methodTypes methodsIndex) fuel
    ⟨db.nodes .methodRefs, db.edges .methodRefEdges, db.nodes .methods⟩
  pure { db with
    nodes := Function.update (Function.update db.nodes .methodRefs s.refs) .methods s.targets
    edges := Function.update db.edges .methodRefEdges s.edges }

def linkFieldRefs (fieldsIndex : MembersIndex) (db : LinkDb) : Progress LinkDb := do
  let s ← forEach Pass.refs (linkMemberRef A I .fieldRefEdges fieldTypes fieldsIndex) fuel
    ⟨db.nodes .fieldRefs, db.edges .fieldRefEdges, db.nodes .fields⟩
  pure { db with
    nodes := Function.update (Function.update db.nodes .fieldRefs s.refs) .fields s.targets
    edges := Function.update db.edges .fieldRefEdges s.edges }

/-- `linkRefNodes` of an analyzer whose indexes are empty. -/
def linkRefNodes (db : LinkDb) : Progress LinkDb := do
  let classesByName ← createClassnameIndex fuel db.classfiles
  let methodsIndex ← createMemberIndex methodTypes fuel db.classfiles (db.nodes .methods)
  let fieldsIndex ← createMemberIndex fieldTypes fuel db.classfiles (db.nodes .fields)
  let db ← linkClassRefs A I fuel classesByName db
  let db ← linkMethodRefs A I fuel methodsIndex db
  linkFieldRefs A I fuel fieldsIndex db

end LinkDb

end Tarracsh.CallGraphLinking
