import Tarracsh.ByteStrings

/-!
# Quoted texts

A quoted text starts and ends with a double quote. In between a backslash takes
the byte behind it as it is. Several file formats write their strings so. What
is said here holds for every way of escaping that works byte by byte.
-/
namespace Tarracsh.QuotedTexts
open ByteStrings

def quote : UInt8 := 34

def backslash : UInt8 := 92

/-- The text up to the closing quote, and what follows that quote. -/
def readQuoted : Bytes → Option (Bytes × Bytes)
  | [] => none
  | b :: rest =>
      if b = quote then some ([], rest)
      else if b = backslash then
        match rest with
        | [] => none
        | c :: rest => (readQuoted rest).map fun (s, left) => (c :: s, left)
      else (readQuoted rest).map fun (s, left) => (b :: s, left)

@[simp] theorem readQuoted_quote (rest : Bytes) : readQuoted (quote :: rest) = some ([], rest) := by
  rw [readQuoted.eq_def]
  simp

@[simp] theorem readQuoted_backslash (c : UInt8) (rest : Bytes) :
    readQuoted (backslash :: c :: rest) =
      (readQuoted rest).map fun (s, left) => (c :: s, left) := by
  rw [readQuoted]
  simp [quote, backslash]

theorem readQuoted_other {b : UInt8} (hquote : b ≠ quote) (hbackslash : b ≠ backslash)
    (rest : Bytes) :
    readQuoted (b :: rest) = (readQuoted rest).map fun (s, left) => (b :: s, left) := by
  rw [readQuoted.eq_def]
  simp [hquote, hbackslash]

/-- A quoted text with its opening quote. -/
def readLiteral : Bytes → Option (Bytes × Bytes)
  | [] => none
  | b :: rest => if b = quote then readQuoted rest else none

@[simp] theorem readLiteral_quote (rest : Bytes) :
    readLiteral (quote :: rest) = readQuoted rest := by
  simp [readLiteral]

/-- However the text goes on, the literal that is written for `s` is read as
`s` and ends where it was closed. -/
def Survives (write : Bytes → Bytes) (s : Bytes) : Prop :=
  ∀ rest, readLiteral (write s ++ rest) = some (s, rest)

/-- Two strings that survive are not written alike. -/
theorem Survives.injective {write : Bytes → Bytes} {s t : Bytes} (hs : Survives write s)
    (ht : Survives write t) (h : write s = write t) : s = t := by
  have hread := hs []
  rw [h, ht []] at hread
  simpa using hread.symm

def inQuotes (s : Bytes) : Bytes := quote :: s ++ [quote]

@[simp] theorem count_inQuotes (s : Bytes) :
    (inQuotes s).count backslash = s.count backslash := by
  simp [inQuotes, quote, backslash]

/-- What is written for a byte is read as this byte. -/
def Faithful (code : UInt8 → Bytes) (b : UInt8) : Prop :=
  ∀ rest, readQuoted (code b ++ rest) = (readQuoted rest).map fun (s, left) => (b :: s, left)

theorem survives_flatMap {code : UInt8 → Bytes} {s : Bytes} (h : ∀ b ∈ s, Faithful code b) :
    Survives (fun s => inQuotes (s.flatMap code)) s := by
  intro rest
  have hbody : readQuoted (s.flatMap code ++ quote :: rest) = some (s, rest) := by
    induction s with
    | nil => simp
    | cons b s ih =>
        have htail := ih fun c hc => h c (List.mem_cons_of_mem b hc)
        rw [List.flatMap_cons, List.append_assoc, h b (by simp), htail]
        rfl
  simpa [inQuotes] using hbody

/-- Neither of the two special bytes is in the text. -/
def Plain (s : Bytes) : Prop := quote ∉ s ∧ backslash ∉ s

instance (s : Bytes) : Decidable (Plain s) := inferInstanceAs (Decidable (_ ∧ _))

theorem Plain.append {s t : Bytes} (hs : Plain s) (ht : Plain t) : Plain (s ++ t) :=
  ⟨by simp [hs.1, ht.1], by simp [hs.2, ht.2]⟩

theorem Plain.survives {s : Bytes} (h : Plain s) : Survives inQuotes s := by
  have hall : ∀ b ∈ s, Faithful (fun b => [b]) b := by
    intro b hb rest
    have hquote : b ≠ quote := fun heq => h.1 (heq ▸ hb)
    have hbackslash : b ≠ backslash := fun heq => h.2 (heq ▸ hb)
    exact readQuoted_other hquote hbackslash rest
  simpa [Survives] using survives_flatMap hall

/-- How many backslashes it takes to write a byte. -/
def cost (b : UInt8) : ℕ := if b = backslash then 2 else if b = quote then 1 else 0

def escapes (s : Bytes) : ℕ := (s.map cost).sum

@[simp] theorem escapes_nil : escapes [] = 0 := rfl

@[simp] theorem escapes_cons (b : UInt8) (s : Bytes) : escapes (b :: s) = cost b + escapes s := by
  simp [escapes]

theorem Plain.count {s : Bytes} (h : Plain s) : s.count backslash = 0 :=
  List.count_eq_zero.mpr h.2

theorem Plain.escapes {s : Bytes} (h : Plain s) : escapes s = 0 := by
  induction s with
  | nil => rfl
  | cons b s ih =>
      obtain ⟨hquote, hbackslash⟩ := h
      rw [List.mem_cons, not_or] at hquote hbackslash
      have hcost : cost b = 0 := by simp [cost, Ne.symm hquote.1, Ne.symm hbackslash.1]
      rw [escapes_cons, hcost, ih ⟨hquote.2, hbackslash.2⟩]

theorem cost_le_count (b : UInt8) : cost b ≤ 1 + List.count backslash [b] := by
  unfold cost
  split_ifs with hbackslash hquote
  · simp [hbackslash]
  · simp
  · simp

/-- What was read had its backslashes. -/
theorem escapes_le_of_readQuoted {t s left : Bytes} (h : readQuoted t = some (s, left)) :
    escapes s + left.count backslash ≤ t.count backslash := by
  induction t using readQuoted.induct generalizing s left with
  | case1 => simp [readQuoted] at h
  | case2 rest =>
      obtain ⟨rfl, rfl⟩ : [] = s ∧ rest = left := by simpa using h
      simp [List.count_cons]
  | case3 hquote =>
      rw [readQuoted] at h
      simp [quote, backslash] at h
  | case4 c rest hquote ih =>
      rw [readQuoted_backslash, Option.map_eq_some_iff] at h
      obtain ⟨⟨s', left'⟩, hread, hout⟩ := h
      obtain ⟨rfl, rfl⟩ : c :: s' = s ∧ left' = left := by simpa using hout
      have hrest := ih hread
      have hcost := cost_le_count c
      rw [List.count_singleton] at hcost
      rw [escapes_cons, List.count_cons_self, List.count_cons]
      omega
  | case5 b rest hquote hbackslash ih =>
      rw [readQuoted_other hquote hbackslash, Option.map_eq_some_iff] at h
      obtain ⟨⟨s', left'⟩, hread, hout⟩ := h
      obtain ⟨rfl, rfl⟩ : b :: s' = s ∧ left' = left := by simpa using hout
      have hrest := ih hread
      have hcost : cost b = 0 := by simp [cost, hquote, hbackslash]
      rw [escapes_cons, hcost, List.count_cons_of_ne hbackslash]
      omega

/-- The texts between quotes in a file, one after the other. -/
inductive Reads : Bytes → List Bytes → Prop
  | nil : Reads [] []
  | other {b file texts} : b ≠ quote → Reads file texts → Reads (b :: file) texts
  | text {file s left texts} : readQuoted file = some (s, left) → Reads left texts →
      Reads (quote :: file) (s :: texts)

/-- There is one way to read a file. -/
theorem Reads.unique {file : Bytes} {texts texts' : List Bytes} (h : Reads file texts)
    (h' : Reads file texts') : texts = texts' := by
  induction h generalizing texts' with
  | nil => cases h'; rfl
  | other hb _ ih =>
      cases h' with
      | other _ h' => exact ih h'
      | text => exact absurd rfl hb
  | text hread _ ih =>
      cases h' with
      | other hb => exact absurd rfl hb
      | text hread' h' =>
          obtain ⟨rfl, rfl⟩ := Prod.mk.inj (Option.some.inj (hread.symm.trans hread'))
          rw [ih h']

/-- Text without quotes is passed over. -/
theorem Reads.plain {file plain : Bytes} {texts : List Bytes} (hplain : quote ∉ plain)
    (h : Reads file texts) : Reads (plain ++ file) texts := by
  induction plain with
  | nil => exact h
  | cons b plain ih =>
      have hb : b ≠ quote := fun hb => hplain (by simp [hb])
      exact .other hb (ih fun hmem => hplain (List.mem_cons_of_mem b hmem))

theorem Reads.literal {write : Bytes → Bytes} {file s : Bytes} {texts : List Bytes}
    (hs : Survives write s) (h : Reads file texts) : Reads (write s ++ file) (s :: texts) := by
  have hread := hs file
  cases hwrite : write s ++ file with
  | nil => simp [hwrite, readLiteral] at hread
  | cons b rest =>
      rw [hwrite, readLiteral] at hread
      split at hread
      · rename_i hb
        subst hb
        exact .text hread h
      · simp at hread

/-- Parts of a file that are read one by one. -/
theorem Reads.flatMap {α : Type*} {part : α → Bytes} {inPart : α → List Bytes} {xs : List α}
    (hpart : ∀ x ∈ xs, ∀ file texts, Reads file texts →
      Reads (part x ++ file) (inPart x ++ texts))
    {file : Bytes} {texts : List Bytes} (h : Reads file texts) :
    Reads (xs.flatMap part ++ file) (xs.flatMap inPart ++ texts) := by
  induction xs with
  | nil => exact h
  | cons x xs ih =>
      have htail := ih fun y hy => hpart y (List.mem_cons_of_mem x hy)
      simp only [List.flatMap_cons, List.append_assoc]
      exact hpart x (by simp) _ _ htail

theorem Reads.escapes_le {file : Bytes} {texts : List Bytes} (h : Reads file texts) :
    (texts.map escapes).sum ≤ file.count backslash := by
  induction h with
  | nil => simp
  | @other b file texts _ _ ih => exact ih.trans (List.count_le_count_cons)
  | @text file s left texts hread _ ih =>
      have hcount := escapes_le_of_readQuoted hread
      have hquote : List.count backslash (quote :: file) = file.count backslash :=
        List.count_cons_of_ne (by decide)
      rw [List.map_cons, List.sum_cons, hquote]
      omega

/-- The backslashes that are missing in a file, part by part. -/
theorem sum_escapes_flatMap {α : Type*} {part : α → Bytes} {inPart : α → List Bytes}
    {missing : α → ℕ} {xs : List α}
    (hpart : ∀ x ∈ xs, ((inPart x).map escapes).sum = (part x).count backslash + missing x) :
    ((xs.flatMap inPart).map escapes).sum =
      (xs.flatMap part).count backslash + (xs.map missing).sum := by
  induction xs with
  | nil => rfl
  | cons x xs ih =>
      have hhead := hpart x (by simp)
      have htail := ih fun y hy => hpart y (List.mem_cons_of_mem x hy)
      simp only [List.flatMap_cons, List.map_append, List.sum_append, List.count_append,
        List.map_cons, List.sum_cons]
      omega

/-- A literal without the backslashes that its text takes is misread. -/
theorem Survives.escapes_le {write : Bytes → Bytes} {s : Bytes} (h : Survives write s) :
    escapes s ≤ (write s).count backslash := by
  have hfile := (Reads.literal h .nil).escapes_le
  simpa using hfile

end Tarracsh.QuotedTexts
