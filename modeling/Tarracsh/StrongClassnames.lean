import Tarracsh.DomainTables
import Tarracsh.Reporting
import Tarracsh.CountedLoops
import Mathlib.Data.List.TakeWhile

/-!
# Strong class names

The strong name of a class is the name of its file, a separator and its own
name. It is the key of the table of classes, and the report splits it again to
get at the file. A separator in one of the two names makes it ambiguous.
-/
namespace Tarracsh.StrongClassnames
open ByteStrings DomainTables CountedLoops Reporting

def separator : UInt8 := 64

/-- `std::string::find` in the text that is left. -/
def find (separator : Bytes) : Bytes → Option ℕ
  | [] => if separator = [] then some 0 else none
  | b :: rest =>
      if separator.isPrefixOf (b :: rest) then some 0
      else (find separator rest).map (· + 1)

/-- The loop of `split` over the text from `start` on. -/
def split (separator : Bytes) : ℕ → Bytes → Progress (List Bytes)
  | 0, _ => .running
  | fuel + 1, value =>
      if value = [] then .returned []
      else
        match find separator value with
        | some index => do
            let result ← split separator fuel (value.drop (index + separator.length))
            .returned (value.take index :: result)
        | none => .returned [value]

def splitStrongClassname (fuel : ℕ) (strongClassname : Bytes) : Progress (List Bytes) :=
  split (ascii "@") fuel strongClassname

theorem ascii_separator : ascii "@" = [separator] := by decide

section Split
variable {p value f c : Bytes} {fuel : ℕ} {result : List Bytes}

theorem find_of_not_mem (h : separator ∉ value) : find [separator] value = none := by
  induction value with
  | nil => rfl
  | cons b value ih =>
      rw [List.mem_cons, not_or] at h
      simp [find, List.isPrefixOf, h.1, ih h.2]

theorem find_append (h : separator ∉ p) (rest : Bytes) :
    find [separator] (p ++ separator :: rest) = some p.length := by
  induction p with
  | nil => simp [find, List.isPrefixOf]
  | cons b p ih =>
      rw [List.mem_cons, not_or] at h
      simp [find, List.isPrefixOf, h.1, ih h.2]

theorem split_of_not_mem (hvalue : value ≠ []) (h : separator ∉ value) :
    splitStrongClassname (fuel + 1) value = .returned [value] := by
  rw [splitStrongClassname, ascii_separator, split, if_neg hvalue, find_of_not_mem h]

/-- The first piece ends at the first separator. -/
theorem split_append (h : separator ∉ p) (rest : Bytes) :
    splitStrongClassname (fuel + 1) (p ++ separator :: rest) =
      splitStrongClassname fuel rest >>= fun result => .returned (p :: result) := by
  rw [splitStrongClassname, ascii_separator, split, if_neg (by simp), find_append h]
  simp [splitStrongClassname, ascii_separator]

/-- No piece has a separator. -/
theorem not_mem_of_split (h : splitStrongClassname fuel value = .returned result) :
    ∀ piece ∈ result, separator ∉ piece := by
  induction fuel generalizing value result with
  | zero => simp [splitStrongClassname, split] at h
  | succ fuel ih =>
      by_cases hvalue : value = []
      · subst hvalue
        cases h
        simp
      by_cases hmem : separator ∈ value
      · obtain ⟨p, rest, rfl, hp⟩ := List.eq_append_cons_of_mem hmem
        rw [split_append hp] at h
        obtain ⟨pieces, hpieces, hresult⟩ := Progress.bind_eq_returned h
        cases hresult
        intro piece hpiece
        rcases List.mem_cons.mp hpiece with rfl | hpiece
        · exact hp
        · exact ih hpieces piece hpiece
      · rw [split_of_not_mem hvalue hmem] at h
        cases h
        simpa using hmem

end Split

section Names
variable {f c : Bytes}

theorem getStrongClassname_eq (hc : c ≠ []) :
    getStrongClassname f c = f ++ separator :: c := by
  simp [getStrongClassname, hc, ascii_separator]

/-- With enough turns the loop ends with the two names. -/
theorem split_iff (hc : c ≠ []) :
    (∃ least, ∀ fuel ≥ least,
      splitStrongClassname fuel (getStrongClassname f c) = .returned [f, c]) ↔
      separator ∉ f ∧ separator ∉ c := by
  rw [getStrongClassname_eq hc]
  constructor
  · rintro ⟨least, h⟩
    have hpieces := not_mem_of_split (h least (Nat.le_refl least))
    exact ⟨hpieces f (by simp), hpieces c (by simp)⟩
  · rintro ⟨hf, hc'⟩
    refine ⟨2, fun fuel hfuel => ?_⟩
    obtain ⟨turns, rfl⟩ := Nat.exists_eq_add_of_le' hfuel
    rw [split_append hf, split_of_not_mem hc hc']
    rfl

theorem filenameOf_of_not_mem {value : Bytes} (h : separator ∉ value) :
    Results.filenameOf value = value := by
  refine List.takeWhile_eq_self_iff.mpr fun b hb => decide_eq_true fun heq => h ?_
  rw [separator, ← heq]
  exact hb

theorem filenameOf_append (rest : Bytes) :
    Results.filenameOf (f ++ separator :: rest) = f ↔ separator ∉ f := by
  unfold Results.filenameOf
  constructor
  · intro h hmem
    rw [← h] at hmem
    have hother := List.all_eq_true.mp List.all_takeWhile separator hmem
    simp [separator] at hother
  · intro h
    have hself := List.takeWhile_eq_self_iff.mp (filenameOf_of_not_mem h)
    rw [List.takeWhile_append_of_pos hself, List.takeWhile_cons_of_neg (by decide), List.append_nil]

/-- The report takes the first piece for the file. -/
theorem head?_split {value : Bytes} {fuel : ℕ} {result : List Bytes} (hvalue : value ≠ [])
    (h : splitStrongClassname fuel value = .returned result) :
    result.head? = some (Results.filenameOf value) := by
  cases fuel with
  | zero => simp [splitStrongClassname, split] at h
  | succ fuel =>
      by_cases hmem : separator ∈ value
      · obtain ⟨p, rest, rfl, hp⟩ := List.eq_append_cons_of_mem hmem
        rw [split_append hp] at h
        obtain ⟨pieces, -, hresult⟩ := Progress.bind_eq_returned h
        cases hresult
        rw [(filenameOf_append rest).mpr hp, List.head?_cons]
      · rw [split_of_not_mem hvalue hmem] at h
        cases h
        rw [filenameOf_of_not_mem hmem, List.head?_cons]

/-- A strong name says which file and which class it belongs to. -/
structure Unambiguous (f c : Bytes) : Prop where
  identifies : ∀ g d, d ≠ [] → getStrongClassname f c = getStrongClassname g d → f = g ∧ c = d
  splits : ∃ least, ∀ fuel ≥ least,
    splitStrongClassname fuel (getStrongClassname f c) = .returned [f, c]
  reported : Results.filenameOf (getStrongClassname f c) = f

/-- The key of a class is its own as long as the separator is in neither name, but
for the end of the class name. -/
theorem identifies_iff (hc : c ≠ []) :
    (∀ g d, d ≠ [] → getStrongClassname f c = getStrongClassname g d → f = g ∧ c = d) ↔
      separator ∉ f ∧ separator ∉ c.dropLast := by
  rw [getStrongClassname_eq hc]
  constructor
  · intro h
    constructor
    · intro hmem
      obtain ⟨p, rest, rfl, hp⟩ := List.eq_append_cons_of_mem hmem
      have hother := h p (rest ++ separator :: c) (by simp) (by
        rw [getStrongClassname_eq (by simp)]
        simp)
      simpa using hother.1
    · intro hmem
      obtain ⟨p, rest, hsplit, -⟩ := List.eq_append_cons_of_mem hmem
      have hname : c = p ++ separator :: (rest ++ [c.getLast hc]) := by
        conv_lhs => rw [← List.dropLast_append_getLast hc, hsplit]
        simp
      have hother := h (f ++ separator :: p) (rest ++ [c.getLast hc]) (by simp) (by
        rw [getStrongClassname_eq (by simp), List.append_assoc, List.cons_append, ← hname])
      simpa using hother.1
  · rintro ⟨hf, hc'⟩ g d hd heq
    rw [getStrongClassname_eq hd, ← List.dropLast_append_getLast hc,
      ← List.dropLast_append_getLast hd, ← List.cons_append, ← List.cons_append,
      ← List.append_assoc, ← List.append_assoc] at heq
    obtain ⟨hnames, hlast⟩ := List.append_inj' heq rfl
    obtain ⟨rfl, -, hdropLast⟩ := (List.append_cons_inj_of_notMem hf hc').mp hnames
    refine ⟨rfl, ?_⟩
    rw [← List.dropLast_append_getLast hc, ← List.dropLast_append_getLast hd, hlast, hdropLast]

/-- A strong name is unambiguous exactly when the separator is in neither name. -/
theorem unambiguous_iff (f : Bytes) {c : Bytes} (hc : c ≠ []) :
    Unambiguous f c ↔ separator ∉ f ∧ separator ∉ c := by
  constructor
  · intro h
    exact (split_iff hc).mp h.splits
  · intro h
    have hdropLast : separator ∉ c.dropLast := fun hmem => h.2 (List.mem_of_mem_dropLast hmem)
    refine ⟨(identifies_iff hc).mpr ⟨h.1, hdropLast⟩, (split_iff hc).mpr h, ?_⟩
    rw [getStrongClassname_eq hc]
    exact (filenameOf_append c).mpr h.1

theorem unambiguous_sample : Unambiguous (ascii "foo.jar") (ascii "pkg/Clazz") :=
  (unambiguous_iff _ (by decide)).mpr (by decide)

/-- The class `c` of the file `a@b` has the key of the class `b@c` of the file `a`. -/
theorem separator_in_path_ambiguous :
    getStrongClassname (ascii "a@b") (ascii "c") = getStrongClassname (ascii "a") (ascii "b@c") ∧
      ¬Unambiguous (ascii "a@b") (ascii "c") := by
  refine ⟨by decide, fun h => ?_⟩
  have hsame := h.identifies (ascii "a") (ascii "b@c") (by decide) (by decide)
  exact absurd hsame.1 (by decide)

end Names

end Tarracsh.StrongClassnames
