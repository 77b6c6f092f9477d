import Tarracsh.CallGraphExport
import Tarracsh.QuotedTexts

/-!
# The labels in the exported files

`writeDot` and `writeGml` put the nodes and edges of the call graph into text.
The labels come from the names in the archives and may have any bytes. Both
formats read a backslash as the escape of the byte behind it.
-/
namespace Tarracsh.ExportedLabels
open ByteStrings QuotedTexts CallGraphExport

def escapeForDot (value : Bytes) : Bytes :=
  value.flatMap fun ch => if ch = quote then [backslash, quote] else [ch]

def escapeForGml (value : Bytes) : Bytes :=
  value.flatMap fun ch =>
    if ch = quote then [backslash, quote]
    else if ch = backslash then [backslash, backslash]
    else [ch]

/-- The label as it stands in the lines of `writeDot`. -/
def dotLabel (label : Bytes) : Bytes := inQuotes (escapeForDot label)

def gmlLabel (label : Bytes) : Bytes := inQuotes (escapeForGml label)

/-- A string that is written as it is. -/
def literal (s : String) : Bytes := inQuotes (ascii s)

def Style.text : Style → String
  | .solid => "solid"
  | .dashed => "dashed"

section Dot

def dotColor (node : NodeRecord) : String :=
  if node.isMissing then kMissingColor else "#333333"

def dotHead : Bytes :=
  ascii "digraph CallGraph \x7b\n" ++ ascii "  rankdir=LR;\n" ++
    ascii "  node [shape=box, fontname=" ++ literal "Helvetica" ++ ascii "];\n"

def dotNode (node : NodeRecord) : Bytes :=
  ascii "  n" ++ ascii (toString node.id) ++ ascii " [label=" ++ dotLabel node.label ++
    ascii ", color=" ++ literal (dotColor node) ++ ascii "];\n"

def dotEdge (edge : EdgeRecord) : Bytes :=
  ascii "  n" ++ ascii (toString edge.fromId) ++ ascii " -> n" ++ ascii (toString edge.toId) ++
    ascii " [label=" ++ dotLabel edge.label ++ ascii ", color=" ++ literal edge.color ++
    ascii ", style=" ++ literal (Style.text edge.style) ++ ascii "];\n"

/-- What is in quotes in the line of a node. -/
def dotNodeTexts (node : NodeRecord) : List Bytes := [node.label, ascii (dotColor node)]

def dotEdgeTexts (edge : EdgeRecord) : List Bytes :=
  [edge.label, ascii edge.color, ascii (Style.text edge.style)]

/-- The contents of the file. -/
def writeDot (nodes : List NodeRecord) (edges : List EdgeRecord) : Bytes :=
  dotHead ++ nodes.flatMap dotNode ++ edges.flatMap dotEdge ++ ascii "\x7d\n"

/-- All that is in quotes, in the order of the file. -/
def dotTexts (nodes : List NodeRecord) (edges : List EdgeRecord) : List Bytes :=
  ascii "Helvetica" :: nodes.flatMap dotNodeTexts ++ edges.flatMap dotEdgeTexts

end Dot

section Gml

def gmlFill (node : NodeRecord) : String :=
  if node.isMissing then kMissingColor else "#FFFFFF"

def gmlNode (node : NodeRecord) : Bytes :=
  ascii "  node [\n" ++
    ascii "    id " ++ ascii (toString node.id) ++ ascii "\n" ++
    ascii "    label " ++ gmlLabel node.label ++ ascii "\n" ++
    ascii "    graphics [\n" ++
    ascii "      fill " ++ literal (gmlFill node) ++ ascii "\n" ++
    ascii "    ]\n" ++ ascii "  ]\n"

def gmlPattern : Style → Bytes
  | .dashed => ascii "      pattern " ++ literal "dashed" ++ ascii "\n"
  | .solid => []

def gmlEdge (edge : EdgeRecord) : Bytes :=
  ascii "  edge [\n" ++
    ascii "    source " ++ ascii (toString edge.fromId) ++ ascii "\n" ++
    ascii "    target " ++ ascii (toString edge.toId) ++ ascii "\n" ++
    ascii "    label " ++ gmlLabel edge.label ++ ascii "\n" ++
    ascii "    graphics [\n" ++
    ascii "      fill " ++ literal edge.color ++ ascii "\n" ++
    gmlPattern edge.style ++
    ascii "    ]\n" ++ ascii "  ]\n"

def writeGml (nodes : List NodeRecord) (edges : List EdgeRecord) : Bytes :=
  ascii "graph [\n" ++ ascii "  directed 1\n" ++ nodes.flatMap gmlNode ++ edges.flatMap gmlEdge ++
    ascii "]\n"

def gmlNodeTexts (node : NodeRecord) : List Bytes := [node.label, ascii (gmlFill node)]

def patternTexts : Style → List Bytes
  | .dashed => [ascii "dashed"]
  | .solid => []

def gmlEdgeTexts (edge : EdgeRecord) : List Bytes :=
  edge.label :: ascii edge.color :: patternTexts edge.style

def gmlTexts (nodes : List NodeRecord) (edges : List EdgeRecord) : List Bytes :=
  nodes.flatMap gmlNodeTexts ++ edges.flatMap gmlEdgeTexts

end Gml

theorem gml_survives (s : Bytes) : Survives gmlLabel s := by
  have hall : ∀ b ∈ s, Faithful (fun ch => if ch = quote then [backslash, quote]
      else if ch = backslash then [backslash, backslash] else [ch]) b := by
    intro b _ rest
    by_cases hquote : b = quote
    · simp [hquote]
    by_cases hbackslash : b = backslash
    · simp [hbackslash, show ¬backslash = quote by decide]
    simp [hquote, hbackslash, readQuoted_other hquote hbackslash rest]
  exact survives_flatMap hall

theorem dot_survives {s : Bytes} (h : backslash ∉ s) : Survives dotLabel s := by
  have hall : ∀ b ∈ s, Faithful (fun ch => if ch = quote then [backslash, quote] else [ch]) b := by
    intro b hb rest
    by_cases hquote : b = quote
    · simp [hquote]
    have hbackslash : b ≠ backslash := fun heq => h (heq ▸ hb)
    simp [hquote, readQuoted_other hquote hbackslash rest]
  exact survives_flatMap hall

/-- `escapeForDot` spends one backslash on a backslash, where it takes two. -/
theorem escapes_eq_dot (s : Bytes) :
    escapes s = (dotLabel s).count backslash + s.count backslash := by
  rw [dotLabel, count_inQuotes]
  induction s with
  | nil => rfl
  | cons b s ih =>
      have hbyte : cost b = List.count backslash (if b = quote then [backslash, quote] else [b]) +
          List.count backslash [b] := by
        unfold cost
        by_cases hquote : b = quote
        · simp [hquote, quote, backslash]
        by_cases hbackslash : b = backslash
        · simp [hbackslash, quote, backslash]
        simp [hquote, hbackslash]
      have hcount :
          List.count backslash (b :: s) = List.count backslash [b] + s.count backslash := by
        rw [← List.singleton_append, List.count_append]
      have hescape : escapeForDot (b :: s) =
          (if b = quote then [backslash, quote] else [b]) ++ escapeForDot s := List.flatMap_cons
      rw [escapes_cons, ih, hbyte, hescape, List.count_append, hcount]
      omega

theorem dot_survives_iff (s : Bytes) : Survives dotLabel s ↔ backslash ∉ s := by
  constructor
  · intro h hmem
    have hpaid := h.escapes_le
    have hcost := escapes_eq_dot s
    have hpos := List.count_pos_iff.mpr hmem
    omega
  · exact dot_survives

theorem plain_natural (n : ℕ) : Plain (ascii (toString n)) := by
  constructor
  · intro h
    have hrange := digit_of_mem_ascii_toString h
    simp [quote] at hrange
  · intro h
    have hrange := digit_of_mem_ascii_toString h
    simp [backslash] at hrange

theorem plain_decimal (n : ℤ) : Plain (ascii (toString n)) := by
  cases n with
  | ofNat n => exact plain_natural n
  | negSucc n =>
      have hsign : ascii (toString (Int.negSucc n)) = ascii "-" ++ ascii (toString (n + 1)) := by
        simp [ascii, toString, Int.repr]
      rw [hsign]
      exact .append (by decide) (plain_natural (n + 1))

/-- A label is read back from both formats if it has no backslash. With one, the
GML is read back and the DOT is not. -/
theorem labels_survive_iff (s : Bytes) :
    Survives dotLabel s ∧ Survives gmlLabel s ↔ backslash ∉ s := by
  constructor
  · rintro ⟨hdot, -⟩
    exact (dot_survives_iff s).mp hdot
  · intro h
    exact ⟨dot_survives h, gml_survives s⟩

/-- A backslash at the end takes the closing quote with it. -/
theorem trailing_backslash_is_lost :
    ¬(Survives dotLabel (ascii "a\\") ∧ Survives gmlLabel (ascii "a\\")) := by
  rintro ⟨hdot, -⟩
  exact absurd (hdot []) (by decide)

section Lines
variable {file : Bytes} {texts : List Bytes}

theorem plain_dotColor (node : NodeRecord) : Plain (ascii (dotColor node)) := by
  unfold dotColor
  split <;> decide

theorem plain_gmlFill (node : NodeRecord) : Plain (ascii (gmlFill node)) := by
  unfold gmlFill
  split <;> decide

theorem plain_style (style : Style) : Plain (ascii (Style.text style)) := by
  cases style <;> decide

theorem reads_dotNode {node : NodeRecord} (hlabel : backslash ∉ node.label)
    (h : Reads file texts) :
    Reads (dotNode node ++ file) (dotNodeTexts node ++ texts) := by
  simp only [dotNode, List.append_assoc]
  apply Reads.plain (by decide)
  apply Reads.plain (plain_decimal node.id).1
  apply Reads.plain (by decide)
  apply Reads.literal (dot_survives hlabel)
  apply Reads.plain (by decide)
  apply Reads.literal (plain_dotColor node).survives
  exact Reads.plain (by decide) h

theorem reads_dotEdge {edge : EdgeRecord} (hlabel : backslash ∉ edge.label)
    (hcolor : Plain (ascii edge.color)) (h : Reads file texts) :
    Reads (dotEdge edge ++ file) (dotEdgeTexts edge ++ texts) := by
  simp only [dotEdge, List.append_assoc]
  apply Reads.plain (by decide)
  apply Reads.plain (plain_decimal edge.fromId).1
  apply Reads.plain (by decide)
  apply Reads.plain (plain_decimal edge.toId).1
  apply Reads.plain (by decide)
  apply Reads.literal (dot_survives hlabel)
  apply Reads.plain (by decide)
  apply Reads.literal hcolor.survives
  apply Reads.plain (by decide)
  apply Reads.literal (plain_style edge.style).survives
  exact Reads.plain (by decide) h

theorem reads_gmlNode (node : NodeRecord) (h : Reads file texts) :
    Reads (gmlNode node ++ file) (gmlNodeTexts node ++ texts) := by
  simp only [gmlNode, List.append_assoc]
  apply Reads.plain (by decide)
  apply Reads.plain (by decide)
  apply Reads.plain (plain_decimal node.id).1
  apply Reads.plain (by decide)
  apply Reads.plain (by decide)
  apply Reads.literal (gml_survives node.label)
  apply Reads.plain (by decide)
  apply Reads.plain (by decide)
  apply Reads.plain (by decide)
  apply Reads.literal (plain_gmlFill node).survives
  apply Reads.plain (by decide)
  apply Reads.plain (by decide)
  exact Reads.plain (by decide) h

theorem reads_gmlPattern (style : Style) (h : Reads file texts) :
    Reads (gmlPattern style ++ file) (patternTexts style ++ texts) := by
  cases style with
  | solid => exact h
  | dashed =>
      have hdashed : Plain (ascii "dashed") := by decide
      simp only [gmlPattern, List.append_assoc]
      apply Reads.plain (by decide)
      apply Reads.literal hdashed.survives
      exact Reads.plain (by decide) h

theorem reads_gmlEdge {edge : EdgeRecord} (hcolor : Plain (ascii edge.color))
    (h : Reads file texts) :
    Reads (gmlEdge edge ++ file) (gmlEdgeTexts edge ++ texts) := by
  simp only [gmlEdge, List.append_assoc]
  apply Reads.plain (by decide)
  apply Reads.plain (by decide)
  apply Reads.plain (plain_decimal edge.fromId).1
  apply Reads.plain (by decide)
  apply Reads.plain (by decide)
  apply Reads.plain (plain_decimal edge.toId).1
  apply Reads.plain (by decide)
  apply Reads.plain (by decide)
  apply Reads.literal (gml_survives edge.label)
  apply Reads.plain (by decide)
  apply Reads.plain (by decide)
  apply Reads.plain (by decide)
  apply Reads.literal hcolor.survives
  apply Reads.plain (by decide)
  apply reads_gmlPattern
  apply Reads.plain (by decide)
  exact Reads.plain (by decide) h

theorem escapes_dotNode (node : NodeRecord) :
    ((dotNodeTexts node).map escapes).sum =
      (dotNode node).count backslash + node.label.count backslash := by
  have hid := (plain_decimal node.id).count
  have hcolor := plain_dotColor node
  have hhead : (ascii "  n").count backslash = 0 := by decide
  have hlabel : (ascii " [label=").count backslash = 0 := by decide
  have hnext : (ascii ", color=").count backslash = 0 := by decide
  have hend : (ascii "];\n").count backslash = 0 := by decide
  simp only [dotNodeTexts, dotNode, literal, List.map_cons, List.map_nil, List.sum_cons,
    List.sum_nil, List.count_append, count_inQuotes, hcolor.escapes, hcolor.count,
    escapes_eq_dot]
  omega

theorem escapes_dotEdge {edge : EdgeRecord} (hcolor : Plain (ascii edge.color)) :
    ((dotEdgeTexts edge).map escapes).sum =
      (dotEdge edge).count backslash + edge.label.count backslash := by
  have hfrom := (plain_decimal edge.fromId).count
  have hto := (plain_decimal edge.toId).count
  have hstyle := plain_style edge.style
  have hhead : (ascii "  n").count backslash = 0 := by decide
  have harrow : (ascii " -> n").count backslash = 0 := by decide
  have hlabel : (ascii " [label=").count backslash = 0 := by decide
  have hnext : (ascii ", color=").count backslash = 0 := by decide
  have hlast : (ascii ", style=").count backslash = 0 := by decide
  have hend : (ascii "];\n").count backslash = 0 := by decide
  simp only [dotEdgeTexts, dotEdge, literal, List.map_cons, List.map_nil, List.sum_cons,
    List.sum_nil, List.count_append, count_inQuotes, hcolor.escapes, hcolor.count,
    hstyle.escapes, hstyle.count, escapes_eq_dot]
  omega

end Lines

section Files
variable {nodes : List NodeRecord} {edges : List EdgeRecord}

/-- The file in GML holds the labels of the graph and nothing else in quotes. -/
theorem reads_writeGml (hcolors : ∀ edge ∈ edges, Plain (ascii edge.color)) :
    Reads (writeGml nodes edges) (gmlTexts nodes edges) := by
  have hend : Reads (ascii "]\n" ++ []) [] := .plain (by decide) .nil
  have hedges := Reads.flatMap (fun edge hedge _ _ => reads_gmlEdge (hcolors edge hedge)) hend
  have hnodes := Reads.flatMap (fun node (_ : node ∈ nodes) _ _ => reads_gmlNode node) hedges
  rw [List.append_nil, List.append_nil] at hnodes
  simp only [writeGml, List.append_assoc]
  apply Reads.plain (by decide)
  exact Reads.plain (by decide) hnodes

theorem reads_writeDot (hcolors : ∀ edge ∈ edges, Plain (ascii edge.color))
    (hnodes : ∀ node ∈ nodes, backslash ∉ node.label)
    (hedges : ∀ edge ∈ edges, backslash ∉ edge.label) :
    Reads (writeDot nodes edges) (dotTexts nodes edges) := by
  have hfont : Plain (ascii "Helvetica") := by decide
  have hend : Reads (ascii "\x7d\n" ++ []) [] := .plain (by decide) .nil
  have hlast := Reads.flatMap
    (fun edge hedge _ _ => reads_dotEdge (hedges edge hedge) (hcolors edge hedge)) hend
  have hall := Reads.flatMap (fun node hnode _ _ => reads_dotNode (hnodes node hnode)) hlast
  rw [List.append_nil, List.append_nil] at hall
  simp only [writeDot, dotHead, List.append_assoc]
  apply Reads.plain (by decide)
  apply Reads.plain (by decide)
  apply Reads.plain (by decide)
  apply Reads.literal hfont.survives
  exact Reads.plain (by decide) hall

/-- A file in DOT is read as it was meant if no label has a backslash, and only
then. -/
theorem reads_writeDot_iff (hcolors : ∀ edge ∈ edges, Plain (ascii edge.color)) :
    Reads (writeDot nodes edges) (dotTexts nodes edges) ↔
      (∀ node ∈ nodes, backslash ∉ node.label) ∧ ∀ edge ∈ edges, backslash ∉ edge.label := by
  constructor
  · intro h
    have hpaid := h.escapes_le
    have hnodes : ((nodes.flatMap dotNodeTexts).map escapes).sum = _ + _ :=
      sum_escapes_flatMap fun node _ => escapes_dotNode node
    have hedges : ((edges.flatMap dotEdgeTexts).map escapes).sum = _ + _ :=
      sum_escapes_flatMap fun edge hedge => escapes_dotEdge (hcolors edge hedge)
    have hhead : dotHead.count backslash = 0 := by decide
    have hend : (ascii "\x7d\n").count backslash = 0 := by decide
    have hfont : escapes (ascii "Helvetica") = 0 := by decide
    simp only [writeDot, dotTexts, List.cons_append, List.map_cons, List.map_append,
      List.sum_cons, List.sum_append, List.count_append] at hpaid
    have hzero : (nodes.map fun node => node.label.count backslash).sum = 0 ∧
        (edges.map fun edge => edge.label.count backslash).sum = 0 := by omega
    rw [List.sum_eq_zero_iff_forall_eq_nat, List.sum_eq_zero_iff_forall_eq_nat] at hzero
    constructor
    · intro node hnode
      exact List.count_eq_zero.mp (hzero.1 _ (List.mem_map_of_mem hnode))
    · intro edge hedge
      exact List.count_eq_zero.mp (hzero.2 _ (List.mem_map_of_mem hedge))
  · rintro ⟨hnodes, hedges⟩
    exact reads_writeDot hcolors hnodes hedges

end Files

end Tarracsh.ExportedLabels
