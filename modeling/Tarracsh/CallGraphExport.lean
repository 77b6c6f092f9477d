import Tarracsh.CallGraphLinking
import Tarracsh.MachineIntegers

/-!
# Exporting the call graph

`CallGraphExporter` gives every live class a node and turns the rows of the
edge tables into solid edges between the nodes of two classes. A reference
without an edge becomes a dashed edge to a node for what is missing, which is
shared by all references to it. The id of a node is its position as an `int`.

Here are `buildClassNodes` and `collectEdges`. The text that is made of the
records comes with the labels in it.
-/
namespace Tarracsh.CallGraphExport
open ByteStrings StringPool TableModel DomainTables CallGraphTables CallGraphLinking CountedLoops
open MachineIntegers

structure NodeRecord where
  id : ℤ
  label : Bytes
  isMissing : Bool
  deriving DecidableEq, Repr

inductive Style where
  | solid | dashed
  deriving DecidableEq, Repr

structure EdgeRecord where
  fromId : ℤ
  toId : ℤ
  label : Bytes
  color : String
  style : Style
  deriving DecidableEq, Repr

def kClassEdgeColor : String := "#4F81BD"

def kMethodEdgeColor : String := "#70AD47"

def kFieldEdgeColor : String := "#ED7D31"

def kMissingColor : String := "#C00000"

/-- The fields of the exporter, with the edges that are collected. -/
structure Exporter where
  nodes : List NodeRecord := []
  classNodeIds : AList fun _ : ℕ => ℤ := ∅
  missingNodeIds : AList fun _ : Bytes => ℤ := ∅
  edges : List EdgeRecord := []

/-- `forEach` over a table that stays, with the row at each pointer. -/
def forEachRow {α S : Type} (table : Table α) (func : S → Row α → Option S) (fuel : ℕ) (s : S) :
    Progress S :=
  forEach (fun _ => table) (fun s pRow => do
    let row ← table.heap.lookup pRow
    func s row) fuel s

namespace Exporter

/-- The callback of `buildClassNodes`. -/
def addClassNode (db : LinkDb) (x : Exporter) (row : Row ClassFileCols) : Exporter :=
  let label := ClassFiles.getStrongClassname db.pool db.files row.cols
  let nodeId := toInt x.nodes.length
  { x with
    nodes := x.nodes ++ [⟨nodeId, label, false⟩]
    classNodeIds := x.classNodeIds.insert row.id nodeId }

def getClassNodeId (x : Exporter) (classId : RefCol) : ℤ :=
  match x.classNodeIds.lookup classId.toNat with
  | none => -1
  | some nodeId => nodeId

def getMissingNodeId (x : Exporter) (label : Bytes) : Exporter × ℤ :=
  match x.missingNodeIds.lookup label with
  | some nodeId => (x, nodeId)
  | none =>
      let nodeId := toInt x.nodes.length
      ({ x with
        nodes := x.nodes ++ [⟨nodeId, label, true⟩]
        missingNodeIds := x.missingNodeIds.insert label nodeId }, nodeId)

def pushEdge (x : Exporter) (edge : EdgeRecord) : Exporter :=
  { x with edges := x.edges ++ [edge] }

/-- The callback over `classRefEdges`. -/
def collectClassEdge (x : Exporter) (edgeRow : EdgeCols) : Exporter :=
  let fromId := x.getClassNodeId edgeRow.ownerClass
  let toId := x.getClassNodeId edgeRow.toId
  if fromId ≥ 0 ∧ toId ≥ 0 then
    x.pushEdge ⟨fromId, toId, ascii "class", kClassEdgeColor, .solid⟩
  else x

/-- The callbacks over `methodRefEdges` and `fieldRefEdges`. An id that has no
row is read behind the end of the table. -/
def collectMemberEdge {τ : Type} (members : Table τ) (ownerClass : τ → RefCol)
    (label : τ → Bytes) (color : String) (x : Exporter) (edgeRow : EdgeCols) :
    Option Exporter := do
  let fromId := x.getClassNodeId edgeRow.ownerClass
  let memberRow ← members.getRow edgeRow.toId.toNat
  if fromId < 0 then some x
  else
    let toId := x.getClassNodeId (ownerClass memberRow.cols)
    if toId < 0 then some x
    else some (x.pushEdge ⟨fromId, toId, label memberRow.cols, color, .solid⟩)

end Exporter

/-- What the exporter reads of a reference: how many edges it has, its owner,
the label of the node of a missing target and the label of the edge to it. -/
structure Reference where
  edgeCount : UInt64
  ownerClass : RefCol
  missingKey : Bytes
  label : Bytes
  deriving DecidableEq

/-- The label of the edge is the name, and that of the node says that it is
missing. -/
def classReference (pool : Pool) (row : ClassRefCols) : Reference where
  edgeCount := row.edgeCount
  ownerClass := row.ownerClass
  missingKey := text pool row.name ++ ascii " (missing)"
  label := text pool row.name

/-- For methods and fields it is the other way round. -/
def memberReference (pool : Pool) (row : MethodRefCols) : Reference :=
  let missingKey := text pool row.classname ++ ascii "#" ++ text pool row.name ++ ascii " " ++
    text pool row.descriptor
  { edgeCount := row.edgeCount
    ownerClass := row.ownerClass
    missingKey := missingKey
    label := missingKey ++ ascii " (missing)" }

namespace Exporter

/-- The callbacks over the references. -/
def collectMissing (x : Exporter) (ref : Reference) : Exporter :=
  if ref.edgeCount = 0 then
    let fromId := x.getClassNodeId ref.ownerClass
    if fromId < 0 then x
    else
      let (x, missingId) := x.getMissingNodeId ref.missingKey
      x.pushEdge ⟨fromId, missingId, ref.label, kMissingColor, .dashed⟩
  else x

end Exporter

section Run
variable (db : LinkDb) (fuel : ℕ)

def buildClassNodes : Progress Exporter :=
  forEachRow db.classfiles (fun x row => some (x.addClassNode db row)) fuel {}

def collectClassEdges (x : Exporter) : Progress Exporter := do
  let x ← forEachRow (db.edges .classRefEdges)
    (fun x row => some (x.collectClassEdge row.cols)) fuel x
  forEachRow (db.nodes .classRefs)
    (fun x row => some (x.collectMissing (classReference db.pool row.cols))) fuel x

def methodLabel (row : MethodCols) : Bytes :=
  Methods.getStrongMemberName db.toCallGraphDb row ++ ascii " " ++ text db.pool row.descriptor

def collectMethodEdges (x : Exporter) : Progress Exporter := do
  let x ← forEachRow (db.edges .methodRefEdges) (fun x row =>
    x.collectMemberEdge (db.nodes .methods) MethodCols.ownerClass (methodLabel db)
      kMethodEdgeColor row.cols) fuel x
  forEachRow (db.nodes .methodRefs)
    (fun x row => some (x.collectMissing (memberReference db.pool row.cols))) fuel x

def fieldLabel (row : FieldCols) : Bytes :=
  Fields.getStrongMemberName db.toCallGraphDb row ++ ascii " " ++ text db.pool row.descriptor

def collectFieldEdges (x : Exporter) : Progress Exporter := do
  let x ← forEachRow (db.edges .fieldRefEdges) (fun x row =>
    x.collectMemberEdge (db.nodes .fields) FieldCols.ownerClass (fieldLabel db)
      kFieldEdgeColor row.cols) fuel x
  forEachRow (db.nodes .fieldRefs)
    (fun x row => some (x.collectMissing (memberReference db.pool row.cols))) fuel x

def collectEdges (x : Exporter) : Progress Exporter := do
  let x ← collectClassEdges db fuel x
  let x ← collectMethodEdges db fuel x
  collectFieldEdges db fuel x

/-- `run` up to the writing of files. Without a class there is no graph. -/
def run : Progress (Option Exporter) := do
  let x ← buildClassNodes db fuel
  if x.nodes.isEmpty then pure none
  else
    let x ← collectEdges db fuel x
    pure (some x)

end Run

end Tarracsh.CallGraphExport
