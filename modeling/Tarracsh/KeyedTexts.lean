import Tarracsh.QuotedTexts

/-!
# Nested records in a text

A text of keys and values. A value is a word, a quoted text, or a record of
keys and values in brackets. The text is cut into tokens byte by byte, and the
tokens are put together with a stack of the records that are still open. Both
passes compose, so what a writer puts out part by part is read part by part.
-/
namespace Tarracsh.KeyedTexts
open ByteStrings QuotedTexts

inductive Token where
  | word (w : Bytes)
  | text (s : Bytes)
  | opening
  | closing
  deriving DecidableEq

/-- What the bytes read last belong to. -/
inductive Mode where
  | outside
  | word (w : Bytes)
  | quoted (s : Bytes)
  | escaped (s : Bytes)
  deriving DecidableEq

def isBlank (b : UInt8) : Bool := b = 32 || b = 10

def scanByte : Mode → UInt8 → List Token × Mode
  | .outside, b =>
      if isBlank b then ([], .outside)
      else if b = 91 then ([.opening], .outside)
      else if b = 93 then ([.closing], .outside)
      else if b = quote then ([], .quoted [])
      else ([], .word [b])
  | .word w, b => if isBlank b then ([.word w], .outside) else ([], .word (w ++ [b]))
  | .quoted s, b =>
      if b = quote then ([.text s], .outside)
      else if b = backslash then ([], .escaped s)
      else ([], .quoted (s ++ [b]))
  | .escaped s, b => ([], .quoted (s ++ [b]))

def scan : Mode → Bytes → List Token × Mode
  | m, [] => ([], m)
  | m, b :: bs =>
      let first := scanByte m b
      let rest := scan first.2 bs
      (first.1 ++ rest.1, rest.2)

theorem scan_append (m : Mode) (p q : Bytes) :
    scan m (p ++ q) = ((scan m p).1 ++ (scan (scan m p).2 q).1, (scan (scan m p).2 q).2) := by
  induction p generalizing m with
  | nil => rfl
  | cons b p ih =>
      rw [List.cons_append, scan, ih]
      simp only [scan, List.append_assoc]

/-- Bytes that a word can begin with. -/
def Ordinary (b : UInt8) : Prop := isBlank b = false ∧ b ≠ 91 ∧ b ≠ 93 ∧ b ≠ quote

theorem scan_wordRest {w : Bytes} (hw : ∀ b ∈ w, Ordinary b) (seen : Bytes) :
    scan (.word seen) w = ([], .word (seen ++ w)) := by
  induction w generalizing seen with
  | nil => simp [scan]
  | cons b w ih =>
      have hb := hw b (by simp)
      have hstep : scanByte (.word seen) b = ([], .word (seen ++ [b])) := by
        simp [scanByte, hb.1]
      rw [scan, hstep, ih fun c hc => hw c (by simp [hc])]
      simp

theorem scan_word {w : Bytes} (hne : w ≠ []) (hw : ∀ b ∈ w, Ordinary b) :
    scan .outside (w ++ [10]) = ([.word w], .outside) := by
  obtain ⟨b, rest, rfl⟩ := List.exists_cons_of_ne_nil hne
  obtain ⟨hblank, hopening, hclosing, hquote⟩ := hw b (by simp)
  have hfirst : scanByte .outside b = ([], .word [b]) := by
    simp [scanByte, hblank, hopening, hclosing, hquote]
  rw [scan_append, scan, hfirst, scan_wordRest fun c hc => hw c (by simp [hc])]
  rfl

/-- A text in quotes whose bytes are escaped one by one. -/
theorem scan_inQuotes {code : UInt8 → Bytes} {s : Bytes}
    (hcode : ∀ b ∈ s, ∀ seen, scan (.quoted seen) (code b) = ([], .quoted (seen ++ [b]))) :
    scan .outside (inQuotes (s.flatMap code)) = ([.text s], .outside) := by
  have hbody : ∀ seen, scan (.quoted seen) (s.flatMap code) = ([], .quoted (seen ++ s)) := by
    induction s with
    | nil => intro seen; simp [scan]
    | cons b s ih =>
        intro seen
        rw [List.flatMap_cons, scan_append, hcode b (by simp),
          ih fun c hc => hcode c (by simp [hc])]
        simp
  have hopen : scanByte .outside quote = ([], .quoted []) := by decide
  rw [inQuotes, List.cons_append, scan, hopen, scan_append, hbody]
  simp [scan, scanByte]

theorem scan_plain {s : Bytes} (h : Plain s) :
    scan .outside (inQuotes s) = ([.text s], .outside) := by
  have hcode : ∀ b ∈ s, ∀ seen, scan (.quoted seen) [b] = ([], .quoted (seen ++ [b])) := by
    intro b hb seen
    have hquote : b ≠ quote := fun heq => h.1 (heq ▸ hb)
    have hbackslash : b ≠ backslash := fun heq => h.2 (heq ▸ hb)
    simp [scan, scanByte, hquote, hbackslash]
  have hscan := scan_inQuotes hcode
  rwa [List.flatMap_singleton'] at hscan

inductive Value where
  | word (w : Bytes)
  | text (s : Bytes)
  | record (fields : List (Bytes × Value))

/-- The records that are open, each with its key and the fields around it. -/
abbrev Open := List (List (Bytes × Value) × Bytes)

def build : Open → List (Bytes × Value) → List Token → Option (List (Bytes × Value))
  | [], fields, [] => some fields
  | stack, fields, .word key :: .word w :: ts => build stack (fields ++ [(key, .word w)]) ts
  | stack, fields, .word key :: .text s :: ts => build stack (fields ++ [(key, .text s)]) ts
  | stack, fields, .word key :: .opening :: ts => build ((fields, key) :: stack) [] ts
  | (outer, key) :: stack, fields, .closing :: ts =>
      build stack (outer ++ [(key, .record fields)]) ts
  | _, _, _ => none

/-- The fields that a text stands for. -/
def readFields (file : Bytes) : Option (List (Bytes × Value)) :=
  match scan .outside file with
  | (ts, .outside) => build [] [] ts
  | _ => none

/-- Wherever the part stands, it adds its fields. -/
def Denotes (part : Bytes) (fields : List (Bytes × Value)) : Prop :=
  ∃ ts, scan .outside part = (ts, .outside) ∧
    ∀ stack before rest, build stack before (ts ++ rest) = build stack (before ++ fields) rest

theorem Denotes.readFields {file : Bytes} {fields : List (Bytes × Value)}
    (h : Denotes file fields) : readFields file = some fields := by
  obtain ⟨ts, hscan, hbuild⟩ := h
  have hall := hbuild [] [] []
  rw [List.append_nil, List.nil_append] at hall
  rw [KeyedTexts.readFields, hscan]
  simp only [hall]
  rfl

theorem denotes_nil : Denotes [] [] := ⟨[], rfl, by simp⟩

theorem Denotes.append {p q : Bytes} {fs gs : List (Bytes × Value)} (hp : Denotes p fs)
    (hq : Denotes q gs) : Denotes (p ++ q) (fs ++ gs) := by
  obtain ⟨ts, hscan, hbuild⟩ := hp
  obtain ⟨us, hscan', hbuild'⟩ := hq
  refine ⟨ts ++ us, by rw [scan_append, hscan, hscan'], fun stack before rest => ?_⟩
  rw [List.append_assoc, hbuild, hbuild', List.append_assoc]

theorem denotes_flatMap {α : Type*} {part : α → Bytes} {field : α → Bytes × Value} (xs : List α)
    (h : ∀ x ∈ xs, Denotes (part x) [field x]) : Denotes (xs.flatMap part) (xs.map field) := by
  induction xs with
  | nil => exact denotes_nil
  | cons x xs ih =>
      exact (h x (by simp)).append (ih fun y hy => h y (by simp [hy]))

theorem denotes_word (start : Bytes) {w key : Bytes}
    (hkey : scan .outside start = ([.word key], .outside)) (hne : w ≠ [])
    (hw : ∀ b ∈ w, Ordinary b) : Denotes (start ++ (w ++ [10])) [(key, .word w)] := by
  refine ⟨[.word key, .word w], by rw [scan_append, hkey, scan_word hne hw]; rfl, ?_⟩
  intro stack before rest
  simp [build]

theorem denotes_text (start : Bytes) {written s key : Bytes}
    (hkey : scan .outside start = ([.word key], .outside))
    (hs : scan .outside written = ([.text s], .outside)) :
    Denotes (start ++ (written ++ [10])) [(key, .text s)] := by
  refine ⟨[.word key, .text s], by rw [scan_append, hkey, scan_append, hs]; rfl, ?_⟩
  intro stack before rest
  simp [build]

theorem denotes_record (start closing : Bytes) {part key : Bytes} {fields : List (Bytes × Value)}
    (hstart : scan .outside start = ([.word key, .opening], .outside)) (h : Denotes part fields)
    (hclosing : scan .outside closing = ([.closing], .outside)) :
    Denotes (start ++ (part ++ closing)) [(key, .record fields)] := by
  obtain ⟨ts, hscan, hbuild⟩ := h
  refine ⟨.word key :: .opening :: (ts ++ [.closing]), ?_, fun stack before rest => ?_⟩
  · rw [scan_append, hstart, scan_append, hscan, hclosing]
    rfl
  · have hinner := hbuild ((before, key) :: stack) [] (.closing :: rest)
    simp only [List.cons_append, List.append_assoc, List.nil_append] at hinner ⊢
    rw [build, hinner, build]

end Tarracsh.KeyedTexts
