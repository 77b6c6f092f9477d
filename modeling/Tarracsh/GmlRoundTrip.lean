import Tarracsh.ExportedLabels
import Tarracsh.KeyedTexts
import Tarracsh.ProgramExport

/-!
# Reading the exported GML

A reader of GML takes the file of `writeGml` apart into nested fields and finds
the nodes and edges that were written, whatever bytes the labels have. So the
file that is exported for a program holds a drawing of its call graph.
-/
namespace Tarracsh.GmlRoundTrip
open ByteStrings QuotedTexts KeyedTexts CallGraphExport ExportedLabels
open TableModel DomainTables CallGraphTables CallGraphInvariant CallGraphLinking LinkRuns
open CallGraphAnalysis Reporting ProgramAnalysis ProgramGraph ProgramExport

abbrev Fields := List (Bytes × Value)

def valueAt (key : String) (fields : Fields) : Option Value :=
  (fields.find? fun field => field.1 = ascii key).map Prod.snd

def wordAt (key : String) (fields : Fields) : Option Bytes :=
  match valueAt key fields with
  | some (.word w) => some w
  | _ => none

def textAt (key : String) (fields : Fields) : Option Bytes :=
  match valueAt key fields with
  | some (.text s) => some s
  | _ => none

def recordAt (key : String) (fields : Fields) : Option Fields :=
  match valueAt key fields with
  | some (.record inner) => some inner
  | _ => none

/-- The records under a key, in order; other values under it are passed over. -/
def recordsAt (key : String) (fields : Fields) : List Fields :=
  fields.filterMap fun
    | (name, .record inner) => if name = ascii key then some inner else none
    | _ => none

def naturalOf (w : Bytes) : ℕ := Nat.ofDigitChars 10 (w.map fun b => Char.ofNat b.toNat) 0

def numberOf (w : Bytes) : ℤ :=
  if w.head? = some 45 then -(naturalOf w.tail : ℤ) else naturalOf w

/-- An edge of the file; its colour is a text there. -/
structure EdgeText where
  fromId : ℤ
  toId : ℤ
  label : Bytes
  color : Bytes
  style : Style

def readNode (fields : Fields) : Option NodeRecord := do
  let id ← wordAt "id" fields
  let label ← textAt "label" fields
  let graphics ← recordAt "graphics" fields
  let fill ← textAt "fill" graphics
  some ⟨numberOf id, label, fill = ascii kMissingColor⟩

def readEdge (fields : Fields) : Option EdgeText := do
  let source ← wordAt "source" fields
  let target ← wordAt "target" fields
  let label ← textAt "label" fields
  let graphics ← recordAt "graphics" fields
  let fill ← textAt "fill" graphics
  some ⟨numberOf source, numberOf target, label, fill,
    if textAt "pattern" graphics = some (ascii "dashed") then .dashed else .solid⟩

/-- Reads a file that has one graph. -/
def readGml (file : Bytes) : Option (List NodeRecord × List EdgeText) := do
  let fields ← readFields file
  let graph ← recordAt "graph" fields
  let nodes ← (recordsAt "node" graph).mapM readNode
  let edges ← (recordsAt "edge" graph).mapM readEdge
  some (nodes, edges)

def edgeText (edge : EdgeRecord) : EdgeText :=
  ⟨edge.fromId, edge.toId, edge.label, ascii edge.color, edge.style⟩

section Numbers

theorem naturalOf_natural (n : ℕ) : naturalOf (ascii (toString n)) = n := by
  have hchars : (ascii (toString n)).map (fun b => Char.ofNat b.toNat) = Nat.toDigits 10 n := by
    rw [ascii_toString, List.map_map]
    calc (Nat.toDigits 10 n).map _ = (Nat.toDigits 10 n).map id := by
          apply List.map_congr_left
          intro c hc
          have hrange := digit_of_mem_toDigits hc
          simp only [Function.comp_apply, UInt8.toNat_ofNat', id_eq]
          rw [Nat.mod_eq_of_lt (by omega), Char.ofNat_toNat]
      _ = Nat.toDigits 10 n := List.map_id _
  rw [naturalOf, hchars, Nat.ofDigitChars_ten_toDigits]

theorem decimal_negative (n : ℕ) :
    ascii (toString (Int.negSucc n)) = 45 :: ascii (toString (n + 1)) := by
  simp [ascii, toString, Int.repr]

theorem numberOf_decimal (n : ℤ) : numberOf (ascii (toString n)) = n := by
  cases n with
  | ofNat n =>
      have hhead : (ascii (toString n)).head? ≠ some 45 := by
        intro hsign
        have hrange := digit_of_mem_ascii_toString (List.mem_of_mem_head? hsign)
        simp at hrange
      change numberOf (ascii (toString n)) = n
      rw [numberOf, if_neg hhead, naturalOf_natural]
  | negSucc n =>
      have hhead : (45 :: ascii (toString (n + 1))).head? = some 45 := rfl
      rw [decimal_negative, numberOf, if_pos hhead, List.tail_cons, naturalOf_natural]
      rfl

theorem ordinary_digit {b : UInt8} (h : 48 ≤ b.toNat ∧ b.toNat ≤ 57) : Ordinary b := by
  have hne : ∀ c : UInt8, c.toNat < 48 ∨ 57 < c.toNat → b ≠ c := by
    rintro c hc rfl
    omega
  have h32 := hne 32 (by decide)
  have h10 := hne 10 (by decide)
  exact ⟨by simp [isBlank, h32, h10], hne 91 (by decide), hne 93 (by decide),
    hne quote (by decide)⟩

theorem ordinary_decimal (n : ℤ) :
    ascii (toString n) ≠ [] ∧ ∀ b ∈ ascii (toString n), Ordinary b := by
  have hnatural : ∀ n : ℕ, ascii (toString n) ≠ [] ∧ ∀ b ∈ ascii (toString n), Ordinary b := by
    intro n
    refine ⟨?_, fun b hb => ordinary_digit (digit_of_mem_ascii_toString hb)⟩
    rw [ascii_toString, ne_eq, List.map_eq_nil_iff]
    exact Nat.toDigits_ne_nil
  cases n with
  | ofNat n => exact hnatural n
  | negSucc n =>
      rw [decimal_negative]
      refine ⟨by simp, fun b hb => ?_⟩
      rcases List.mem_cons.mp hb with rfl | hb
      · exact ⟨rfl, by decide, by decide, by decide⟩
      · exact (hnatural (n + 1)).2 b hb

end Numbers

section Parts

def nodeFields (node : NodeRecord) : Fields :=
  [(ascii "id", .word (ascii (toString node.id))), (ascii "label", .text node.label),
    (ascii "graphics", .record [(ascii "fill", .text (ascii (gmlFill node)))])]

def patternFields : Style → Fields
  | .dashed => [(ascii "pattern", .text (ascii "dashed"))]
  | .solid => []

def edgeFields (edge : EdgeRecord) : Fields :=
  [(ascii "source", .word (ascii (toString edge.fromId))),
    (ascii "target", .word (ascii (toString edge.toId))), (ascii "label", .text edge.label),
    (ascii "graphics",
      .record ((ascii "fill", .text (ascii edge.color)) :: patternFields edge.style))]

theorem scan_gmlLabel (s : Bytes) : scan .outside (gmlLabel s) = ([.text s], .outside) := by
  apply scan_inQuotes
  intro b _ seen
  by_cases hquote : b = quote
  · simp [scan, scanByte, hquote, quote, backslash]
  by_cases hbackslash : b = backslash
  · simp [scan, scanByte, hbackslash, quote, backslash]
  · simp [scan, scanByte, hquote, hbackslash]

theorem newline : ascii "\n" = [10] := rfl

theorem denotes_number (start : Bytes) {key : Bytes}
    (hkey : scan .outside start = ([.word key], .outside)) (n : ℤ) :
    Denotes (start ++ (ascii (toString n) ++ [10])) [(key, .word (ascii (toString n)))] :=
  denotes_word start hkey (ordinary_decimal n).1 (ordinary_decimal n).2

theorem denotes_node (node : NodeRecord) :
    Denotes (gmlNode node) [(ascii "node", .record (nodeFields node))] := by
  have hid : Denotes _ [(ascii "id", _)] := denotes_number (ascii "    id ") rfl node.id
  have hlabel : Denotes _ [(ascii "label", _)] :=
    denotes_text (ascii "    label ") rfl (scan_gmlLabel node.label)
  have hfill : Denotes _ [(ascii "fill", _)] :=
    denotes_text (ascii "      fill ") rfl (scan_plain (plain_gmlFill node))
  have hgraphics : Denotes _ [(ascii "graphics", _)] :=
    denotes_record (ascii "    graphics [\n") (ascii "    ]\n") rfl hfill rfl
  have hnode : Denotes _ [(ascii "node", _)] :=
    denotes_record (ascii "  node [\n") (ascii "  ]\n") rfl
      ((hid.append hlabel).append hgraphics) rfl
  simpa [gmlNode, nodeFields, literal, newline, List.append_assoc] using hnode

theorem denotes_pattern (style : Style) : Denotes (gmlPattern style) (patternFields style) := by
  cases style with
  | solid => exact denotes_nil
  | dashed =>
      have hdashed : Plain (ascii "dashed") := by decide
      have hpattern : Denotes _ [(ascii "pattern", _)] :=
        denotes_text (ascii "      pattern ") rfl (scan_plain hdashed)
      simpa [gmlPattern, patternFields, literal, newline, List.append_assoc] using hpattern

theorem denotes_edge {edge : EdgeRecord} (hcolor : Plain (ascii edge.color)) :
    Denotes (gmlEdge edge) [(ascii "edge", .record (edgeFields edge))] := by
  have hsource : Denotes _ [(ascii "source", _)] :=
    denotes_number (ascii "    source ") rfl edge.fromId
  have htarget : Denotes _ [(ascii "target", _)] :=
    denotes_number (ascii "    target ") rfl edge.toId
  have hlabel : Denotes _ [(ascii "label", _)] :=
    denotes_text (ascii "    label ") rfl (scan_gmlLabel edge.label)
  have hfill : Denotes _ [(ascii "fill", _)] :=
    denotes_text (ascii "      fill ") rfl (scan_plain hcolor)
  have hgraphics : Denotes _ [(ascii "graphics", _)] :=
    denotes_record (ascii "    graphics [\n") (ascii "    ]\n") rfl
      (hfill.append (denotes_pattern edge.style)) rfl
  have hedge : Denotes _ [(ascii "edge", _)] :=
    denotes_record (ascii "  edge [\n") (ascii "  ]\n") rfl
      (((hsource.append htarget).append hlabel).append hgraphics) rfl
  simpa [gmlEdge, edgeFields, literal, newline, List.append_assoc] using hedge

theorem readNode_nodeFields (node : NodeRecord) : readNode (nodeFields node) = some node := by
  have hmissing : decide (ascii (gmlFill node) = ascii kMissingColor) = node.isMissing := by
    unfold gmlFill
    cases node.isMissing <;> decide
  change some (NodeRecord.mk (numberOf (ascii (toString node.id))) node.label
    (decide (ascii (gmlFill node) = ascii kMissingColor))) = _
  rw [numberOf_decimal, hmissing]

theorem readEdge_edgeFields (edge : EdgeRecord) :
    readEdge (edgeFields edge) = some (edgeText edge) := by
  have hstyle : (if textAt "pattern" ((ascii "fill", .text (ascii edge.color)) ::
      patternFields edge.style) = some (ascii "dashed") then Style.dashed else .solid) =
        edge.style := by
    cases edge.style <;> rfl
  change some (EdgeText.mk (numberOf (ascii (toString edge.fromId)))
    (numberOf (ascii (toString edge.toId))) edge.label (ascii edge.color)
      (if textAt "pattern" ((ascii "fill", .text (ascii edge.color)) ::
        patternFields edge.style) = some (ascii "dashed") then Style.dashed else .solid)) = _
  rw [numberOf_decimal, numberOf_decimal, hstyle]
  rfl

end Parts

/-- The fields of the graph in the file. -/
def graphFields (nodes : List NodeRecord) (edges : List EdgeRecord) : Fields :=
  (ascii "directed", .word (ascii "1")) ::
    (nodes.map fun node => (ascii "node", Value.record (nodeFields node))) ++
      edges.map fun edge => (ascii "edge", Value.record (edgeFields edge))

theorem denotes_writeGml (nodes : List NodeRecord) {edges : List EdgeRecord}
    (hcolors : ∀ edge ∈ edges, Plain (ascii edge.color)) :
    Denotes (writeGml nodes edges) [(ascii "graph", .record (graphFields nodes edges))] := by
  have hdirected : Denotes _ [(ascii "directed", .word (ascii "1"))] :=
    denotes_number (ascii "  directed ") rfl 1
  have hnodes := denotes_flatMap nodes fun node _ => denotes_node node
  have hedges := denotes_flatMap edges fun edge hedge => denotes_edge (hcolors edge hedge)
  have hgraph : Denotes _ [(ascii "graph", _)] :=
    denotes_record (ascii "graph [\n") (ascii "]\n") rfl ((hdirected.append hnodes).append hedges)
      rfl
  have hline : ascii "  directed 1\n" = ascii "  directed " ++ (ascii (toString (1 : ℤ)) ++ [10]) :=
    rfl
  simpa [writeGml, graphFields, hline, List.append_assoc] using hgraph

theorem recordsAt_append (key : String) (fs gs : Fields) :
    recordsAt key (fs ++ gs) = recordsAt key fs ++ recordsAt key gs :=
  List.filterMap_append

theorem recordsAt_map {α : Type} (key : String) (name : Bytes) (f : α → Fields) (xs : List α) :
    recordsAt key (xs.map fun x => (name, Value.record (f x))) =
      if name = ascii key then xs.map f else [] := by
  induction xs with
  | nil => simp [recordsAt]
  | cons x xs ih =>
      have hcons : recordsAt key ((name, Value.record (f x)) ::
          xs.map fun x => (name, Value.record (f x))) =
          (if name = ascii key then [f x] else []) ++
            recordsAt key (xs.map fun x => (name, Value.record (f x))) := by
        by_cases hname : name = ascii key <;> simp [recordsAt, hname]
      rw [List.map_cons, hcons, ih]
      split_ifs <;> simp

theorem mapM_some {α β γ : Type} {f : α → β} {g : β → Option γ} {h : α → γ}
    (hg : ∀ x, g (f x) = some (h x)) (xs : List α) : (xs.map f).mapM g = some (xs.map h) := by
  induction xs with
  | nil => rfl
  | cons x xs ih =>
      rw [List.map_cons, List.mapM_cons, hg, ih]
      rfl

/-- Reading the file of `writeGml` gives back its nodes and edges. -/
theorem readGml_writeGml (nodes : List NodeRecord) {edges : List EdgeRecord}
    (hcolors : ∀ edge ∈ edges, Plain (ascii edge.color)) :
    readGml (writeGml nodes edges) = some (nodes, edges.map edgeText) := by
  have hnodes : recordsAt "node" (graphFields nodes edges) = nodes.map nodeFields := by
    have hother : ascii "edge" ≠ ascii "node" := by decide
    rw [graphFields, List.cons_append, ← List.singleton_append, recordsAt_append, recordsAt_append,
      recordsAt_map, recordsAt_map, if_pos rfl, if_neg hother, List.append_nil]
    rfl
  have hedges : recordsAt "edge" (graphFields nodes edges) = edges.map edgeFields := by
    have hother : ascii "node" ≠ ascii "edge" := by decide
    rw [graphFields, List.cons_append, ← List.singleton_append, recordsAt_append, recordsAt_append,
      recordsAt_map, recordsAt_map, if_pos rfl, if_neg hother]
    rfl
  rw [readGml, (denotes_writeGml nodes hcolors).readFields]
  change ((recordsAt "node" (graphFields nodes edges)).mapM readNode).bind (fun ns =>
    ((recordsAt "edge" (graphFields nodes edges)).mapM readEdge).bind fun es =>
      some (ns, es)) = _
  rw [hnodes, hedges, mapM_some readNode_nodeFields, mapM_some readEdge_edgeFields, List.map_id']
  rfl

theorem exists_of_forall₂ {α β : Type} {P : α → β → Prop} {as : List α} {bs : List β}
    (h : List.Forall₂ P as bs) {a : α} (ha : a ∈ as) : ∃ b, P a b := by
  induction h with
  | nil => cases ha
  | cons hp _ ih =>
      rcases List.mem_cons.mp ha with rfl | ha
      · exact ⟨_, hp⟩
      · exact ih ha

/-- The exporter uses colours that need no escape. -/
theorem plain_colors {x : Exporter} {C : GraphContents.Contents} (h : Draws x C) :
    ∀ e ∈ x.edges, Plain (ascii e.color) := by
  intro e he
  have htarget : ∀ v, Plain (ascii (targetColor v)) := by
    intro v
    have hclass : Plain (ascii kClassEdgeColor) := by decide
    have hmethod : Plain (ascii kMethodEdgeColor) := by decide
    have hfield : Plain (ascii kFieldEdgeColor) := by decide
    cases v with
    | classfile c => exact hclass
    | node i y =>
        cases i with
        | methods => exact hmethod
        | _ => exact hfield
  cases hstyle : e.style with
  | solid =>
      obtain ⟨ps, -, -, hall⟩ := h.solid
      obtain ⟨p, hp⟩ := exists_of_forall₂ hall (List.mem_filter.mpr ⟨he, by simp [hstyle]⟩)
      rw [hp.color]
      exact htarget p.2
  | dashed =>
      obtain ⟨us, -, -, hall⟩ := h.dashed
      obtain ⟨u, hu⟩ := exists_of_forall₂ hall (List.mem_filter.mpr ⟨he, by simp [hstyle]⟩)
      rw [hu.color]
      decide

section Programs
variable (A : ∀ α : Type, Allocator α) (I : Iteration) (garbage : ℕ → UInt8) (options : Options)
  {words : List Bytes} {xs : List GraphInput}

/-- From the GML that is exported for a program a reader gets exactly the nodes
and edges of the exporter, and these are a drawing of its call graph. -/
theorem gml_holds_callGraph (hw : Lexicon words) (hnil : [] ∈ words)
    (hdry : options.dryRun = false) (h : Analysable words xs) {results : Results} {linked : LinkDb}
    (hrun : Analyses A I garbage options xs results linked) :
    ∀ fuel out, run linked fuel = .returned out →
      ((program xs).classes = [] ∧ out = none) ∨ (program xs).classes ≠ [] ∧
        ∃ x, out = some x ∧ (x.nodes.length < 2 ^ 31 →
          readGml (writeGml x.nodes x.edges) = some (x.nodes, x.edges.map edgeText) ∧
            Draws x (program xs)) := by
  intro fuel out hout
  obtain ⟨R, hreads, hexact⟩ := reads_of_analyses A I garbage options hw hnil hdry h hrun
  rcases draws_of_run hreads hexact hout with hnone | ⟨hclasses, x, hx, hdraws⟩
  · exact .inl hnone
  · refine .inr ⟨hclasses, x, hx, fun hsmall => ?_⟩
    exact ⟨readGml_writeGml x.nodes (plain_colors (hdraws hsmall)), hdraws hsmall⟩

end Programs

/-- Two jars with one class each. -/
theorem gml_holds_callGraph_sample : ∃ linked fuel x,
    Analyses Allocator.next Iteration.sorted (fun _ => 0) {}
      [sampleJarFile (ascii "a.jar"), sampleJarFile (ascii "b.jar")] {} linked ∧
    run linked fuel = .returned (some x) ∧
    readGml (writeGml x.nodes x.edges) = some (x.nodes, x.edges.map edgeText) ∧
    Draws x (program [sampleJarFile (ascii "a.jar"), sampleJarFile (ascii "b.jar")]) := by
  obtain ⟨linked, fuel, x, hrun, hout, hlt⟩ := exists_run_sample
  rcases gml_holds_callGraph Allocator.next Iteration.sorted (fun _ => 0) {}
    lexicon_programWords (by decide) rfl analysable_sample hrun fuel _ hout with
    ⟨-, hnone⟩ | ⟨-, x', hx', hx⟩
  · cases hnone
  · obtain rfl := Option.some.inj hx'
    exact ⟨linked, fuel, x, hrun, hout, (hx hlt).1, (hx hlt).2⟩

end Tarracsh.GmlRoundTrip
