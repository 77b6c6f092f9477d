import Tarracsh.ByteStrings
import Mathlib.Data.List.Infix

/-!
# Runs of a recursive-descent parser

A parser moves a cursor over a text. It may look at the character at the end of
the text, which is NUL; behind that there is nothing to look at. Recursion and
loops are given a number that bounds them. `Yields` says that every large number
gives one and the same outcome.

Where a run stands is said by what is left of the text.
-/
namespace Tarracsh.DescentRuns
open ByteStrings

structure Cursor where
  position : ℕ
  errors : List String
  deriving DecidableEq, Repr

/-- How a run ends. `outside` is an access behind the end of the text, and
`running` says that the bound was too small. -/
inductive Outcome (α : Type) where
  | running
  | outside
  | threw (message : Bytes)
  | returned (value : α) (cursor : Cursor)

abbrev Run (α : Type) : Type := Cursor → Outcome α

namespace Run
variable {α β : Type}

def bind (f : Run α) (g : α → Run β) : Run β := fun c =>
  match f c with
  | .running => .running
  | .outside => .outside
  | .threw message => .threw message
  | .returned a c => g a c

instance : Monad Run where
  pure a c := .returned a c
  bind := bind

/-- The bound is used up. -/
def never : Run α := fun _ => .running

def fail (message : Bytes) : Run α := fun _ => .threw message

def getPosition : Run ℕ := fun c => .returned c.position c

def advance : Run Unit := fun c => .returned () { c with position := c.position + 1 }

def addError (error : String) : Run Unit := fun c =>
  .returned () { c with errors := c.errors ++ [error] }

/-- The character at the cursor. -/
def current (input : Bytes) : Run UInt8 := fun c =>
  if c.position ≤ input.length then .returned (input.getD c.position 0) c else .outside

/-- A loop over items that goes on as long as the character at the cursor asks
for one. -/
def repeatWhile (input : Bytes) (more : UInt8 → Bool) (item : Run α) : ℕ → List α → Run (List α)
  | 0, _ => never
  | turns + 1, items => do
      let c ← current input
      if more c then do
        let a ← item
        repeatWhile input more item turns (items ++ [a])
      else pure items

@[simp] theorem pure_apply (a : α) (c : Cursor) : (pure a : Run α) c = .returned a c := rfl

@[simp] theorem fail_apply (message : Bytes) (c : Cursor) :
    (fail message : Run α) c = .threw message := rfl

@[simp] theorem never_apply (c : Cursor) : (never : Run α) c = .running := rfl

@[simp] theorem addError_apply (error : String) (c : Cursor) :
    addError error c = .returned () { c with errors := c.errors ++ [error] } := rfl

@[simp] theorem getPosition_apply (c : Cursor) : getPosition c = .returned c.position c := rfl

section Bind
variable {f : Run α} {g : α → Run β} {c c' : Cursor}

theorem bind_returned {a : α} (h : f c = .returned a c') : (f >>= g) c = g a c' := by
  change bind f g c = _
  rw [bind, h]

theorem bind_threw {message : Bytes} (h : f c = .threw message) :
    (f >>= g) c = .threw message := by
  change bind f g c = _
  rw [bind, h]

theorem bind_outside (h : f c = .outside) : (f >>= g) c = .outside := by
  change bind f g c = _
  rw [bind, h]

theorem bind_running (h : f c = .running) : (f >>= g) c = .running := by
  change bind f g c = _
  rw [bind, h]

theorem bind_assoc {γ : Type} (f : Run α) (g : α → Run β) (h : β → Run γ) :
    (f >>= g) >>= h = f >>= fun a => g a >>= h := by
  funext c
  change bind (bind f g) h c = bind f (fun a => bind (g a) h) c
  rw [bind, bind, bind]
  cases f c <;> rfl

@[simp] theorem pure_bind (a : α) (g : α → Run β) (c : Cursor) :
    ((pure a : Run α) >>= g) c = g a c := rfl

@[simp] theorem advance_bind (g : Unit → Run β) (c : Cursor) :
    (advance >>= g) c = g () { c with position := c.position + 1 } := rfl

@[simp] theorem addError_bind (error : String) (g : Unit → Run β) (c : Cursor) :
    (addError error >>= g) c = g () { c with errors := c.errors ++ [error] } := rfl

@[simp] theorem getPosition_bind (g : ℕ → Run β) (c : Cursor) :
    (getPosition >>= g) c = g c.position c := rfl

end Bind

end Run

section Standing
variable (input : Bytes)

/-- The cursor in front of what is left. -/
def standing (left : Bytes) (errors : List String) : Cursor :=
  ⟨input.length - left.length, errors⟩

/-- The cursor behind the NUL. -/
def past (errors : List String) : Cursor := ⟨input.length + 1, errors⟩

@[simp] theorem standing_errors (left : Bytes) (errors : List String) :
    (standing input left errors).errors = errors := rfl

variable {input}

theorem current_standing {left : Bytes} (h : left <:+ input) (errors : List String) :
    Run.current input (standing input left errors) =
      .returned (left.headD 0) (standing input left errors) := by
  obtain ⟨front, rfl⟩ := h
  have hposition : (front ++ left).length - left.length = front.length := by simp
  rw [Run.current, standing, hposition, if_pos (by simp)]
  have hget : (front ++ left).getD front.length 0 = left.headD 0 := by
    rw [List.getD_eq_getElem?_getD, List.getElem?_append_right le_rfl, Nat.sub_self]
    cases left <;> rfl
  rw [hget]

theorem current_past (errors : List String) :
    Run.current input (past input errors) = .outside := by
  rw [Run.current, past, if_neg (by simp)]

/-- A step over the first character of what is left. -/
theorem standing_succ {c : UInt8} {left : Bytes} (h : c :: left <:+ input)
    (errors : List String) :
    ({ standing input (c :: left) errors with
      position := (standing input (c :: left) errors).position + 1 } : Cursor) =
      standing input left errors := by
  have hle := h.length_le
  rw [List.length_cons] at hle
  simp only [standing, List.length_cons, Cursor.mk.injEq, and_true]
  omega

theorem standing_nil_succ (errors : List String) :
    ({ standing input [] errors with
      position := (standing input [] errors).position + 1 } : Cursor) = past input errors := rfl

section Bind
variable {β : Type} {left : Bytes} {c : UInt8} {errors : List String}

theorem current_bind (h : left <:+ input) (g : UInt8 → Run β) :
    (Run.current input >>= g) (standing input left errors) =
      g (left.headD 0) (standing input left errors) :=
  Run.bind_returned (current_standing h errors)

theorem current_bind_cons (h : c :: left <:+ input) (g : UInt8 → Run β) :
    (Run.current input >>= g) (standing input (c :: left) errors) =
      g c (standing input (c :: left) errors) :=
  current_bind h g

theorem current_bind_past (g : UInt8 → Run β) :
    (Run.current input >>= g) (past input errors) = .outside :=
  Run.bind_outside (current_past errors)

theorem advance_bind_cons (h : c :: left <:+ input) (g : Unit → Run β) :
    (Run.advance >>= g) (standing input (c :: left) errors) =
      g () (standing input left errors) := by
  rw [Run.advance_bind, standing_succ h]

end Bind

/-- At the start everything is left. -/
theorem standing_self (errors : List String) : standing input input errors = ⟨0, errors⟩ := by
  simp [standing]

end Standing

section Yields
variable {α β : Type}

/-- From some bound on, the outcome is the same. -/
def Yields (run : ℕ → Outcome α) (outcome : Outcome α) : Prop := ∃ n, ∀ m, n ≤ m → run m = outcome

namespace Yields

theorem const {run : ℕ → Outcome α} {o : Outcome α} (h : ∀ m, run m = o) : Yields run o :=
  ⟨0, fun m _ => h m⟩

theorem congr {run run' : ℕ → Outcome α} {o : Outcome α} (h : Yields run o)
    (heq : ∀ m, run' m = run m) : Yields run' o := by
  obtain ⟨n, hn⟩ := h
  exact ⟨n, fun m hm => (heq m).trans (hn m hm)⟩

theorem unique {run : ℕ → Outcome α} {o o' : Outcome α} (h : Yields run o) (h' : Yields run o') :
    o = o' := by
  obtain ⟨n, hn⟩ := h
  obtain ⟨n', hn'⟩ := h'
  rw [← hn (max n n') (le_max_left _ _), hn' (max n n') (le_max_right _ _)]

/-- A function that hands on one less. -/
theorem succ {run : ℕ → Outcome α} {o : Outcome α} (h : Yields (fun m => run (m + 1)) o) :
    Yields run o := by
  obtain ⟨n, hn⟩ := h
  refine ⟨n + 1, fun m hm => ?_⟩
  obtain ⟨k, rfl⟩ : ∃ k, m = k + 1 := ⟨m - 1, by omega⟩
  exact hn k (by omega)

/-- A function that is handed one less. -/
theorem pred {run run' : ℕ → Outcome α} {o : Outcome α} (h : Yields run o)
    (heq : ∀ m, run (m + 1) = run' m) : Yields run' o := by
  obtain ⟨n, hn⟩ := h
  exact ⟨n, fun m hm => (heq m).symm.trans (hn (m + 1) (by omega))⟩

section Bind
variable {f : ℕ → Run α} {g : ℕ → α → Run β} {c c' : Cursor}

theorem bind {a : α} {o : Outcome β} (h : Yields (fun m => f m c) (.returned a c'))
    (hg : Yields (fun m => g m a c') o) : Yields (fun m => (f m >>= g m) c) o := by
  obtain ⟨n, hn⟩ := h
  obtain ⟨n', hn'⟩ := hg
  refine ⟨max n n', fun m hm => ?_⟩
  have hf : f m c = .returned a c' := hn m (le_trans (le_max_left _ _) hm)
  exact (Run.bind_returned hf).trans (hn' m (le_trans (le_max_right _ _) hm))

theorem map {a : α} (h : Yields (fun m => f m c) (.returned a c')) (value : α → β) :
    Yields (fun m => (f m >>= fun a => pure (value a)) c) (.returned (value a) c') := by
  have hvalue : Yields (fun _ => (pure (value a) : Run β) c') (.returned (value a) c') :=
    const fun _ => rfl
  exact h.bind hvalue

end Bind

end Yields

end Yields

section Reading
variable {α β : Type} (input : Bytes)

/-- A run that does not come back. `endless` is one for which no bound is large
enough. -/
inductive Failure where
  | endless
  | outside
  | threw (message : Bytes)

def Failure.outcome : Failure → Outcome α
  | .endless => .running
  | .outside => .outside
  | .threw message => .threw message

/-- In front of `phrase ++ left` the run returns the value and leaves `left`. -/
def Reads (run : ℕ → Run α) (phrase : Bytes) (value : α) (left : Bytes) : Prop :=
  ∀ errors, Yields (fun m => run m (standing input (phrase ++ left) errors))
    (.returned value (standing input left errors))

/-- In front of the text the run fails. -/
def Fails (run : ℕ → Run α) (text : Bytes) (x : Failure) : Prop :=
  ∀ errors, Yields (fun m => run m (standing input text errors)) x.outcome

variable {input}

section Failures
variable {f : ℕ → Run α} {g : ℕ → α → Run β} {c : Cursor} {x : Failure}

theorem Run.bind_failure {f : Run α} {g : α → Run β} (h : f c = x.outcome) :
    (f >>= g) c = x.outcome := by
  cases x with
  | endless => exact Run.bind_running h
  | outside => exact Run.bind_outside h
  | threw message => exact Run.bind_threw h

theorem Yields.bind_failure (h : Yields (fun m => f m c) x.outcome) :
    Yields (fun m => (f m >>= g m) c) x.outcome := by
  obtain ⟨n, hn⟩ := h
  exact ⟨n, fun m hm => Run.bind_failure (hn m hm)⟩

end Failures

section Loops
variable {τ : Type} {text : τ → Bytes} {value : τ → α} {more : UInt8 → Bool} {item : ℕ → Run α}
  {follow : Bytes → Prop}

/-- The loop asks for each of the items, and reads it if the right thing follows. -/
structure Items (input : Bytes) (more : UInt8 → Bool) (item : ℕ → Run α) (text : τ → Bytes)
    (value : τ → α) (follow : Bytes → Prop) (ts : List τ) : Prop where
  reads : ∀ t ∈ ts, ∀ left, follow left → text t ++ left <:+ input →
    Reads input item (text t) (value t) left
  more : ∀ t ∈ ts, ∃ c rest, text t = c :: rest ∧ more c = true
  follow : ∀ t ∈ ts, ∀ left, follow (text t ++ left)

theorem Items.tail {t : τ} {ts : List τ}
    (h : Items input more item text value follow (t :: ts)) :
    Items input more item text value follow ts :=
  ⟨fun t ht => h.reads t (by simp [ht]), fun t ht => h.more t (by simp [ht]),
    fun t ht => h.follow t (by simp [ht])⟩

theorem Items.follow_flatMap {ts : List τ} (h : Items input more item text value follow ts)
    {left : Bytes} (hleft : follow left) : follow (ts.flatMap text ++ left) := by
  cases ts with
  | nil => exact hleft
  | cons t ts =>
      rw [List.flatMap_cons, List.append_assoc]
      exact h.follow t (by simp) _

/-- With enough turns, and with a large bound for the items, the loop has the
outcome. -/
def Loops (input : Bytes) (more : UInt8 → Bool) (item : ℕ → Run α) (items : List α) (c : Cursor)
    (outcome : Outcome (List α)) : Prop :=
  ∃ n, ∀ m, n ≤ m → ∀ turns, n ≤ turns →
    Run.repeatWhile input more (item m) turns items c = outcome

namespace Loops
variable {items : List α} {c : Cursor} {outcome : Outcome (List α)} {left : Bytes}
  {errors : List String}

theorem yields (h : Loops input more item items c outcome) :
    Yields (fun m => Run.repeatWhile input more (item m) m items c) outcome := by
  obtain ⟨n, hn⟩ := h
  exact ⟨n, fun m hm => hn m hm m hm⟩

/-- One more turn is given to the loop than it needs behind the look at the next
character. -/
theorem turn (h : ∃ n, ∀ m, n ≤ m → ∀ turns, n ≤ turns →
      (Run.current input >>= fun c => if more c then item m >>= fun a =>
        Run.repeatWhile input more (item m) turns (items ++ [a]) else pure items) c = outcome) :
    Loops input more item items c outcome := by
  obtain ⟨n, hn⟩ := h
  refine ⟨n + 1, fun m hm turns hturns => ?_⟩
  obtain ⟨k, rfl⟩ : ∃ k, turns = k + 1 := ⟨turns - 1, by omega⟩
  exact hn m (by omega) k (by omega)

theorem stop (h : left <:+ input) (hstop : more (left.headD 0) = false) :
    Loops input more item items (standing input left errors)
      (.returned items (standing input left errors)) :=
  turn ⟨0, fun m _ turns _ => by rw [current_bind h, hstop]; rfl⟩

/-- There is nothing to look at. -/
theorem past : Loops input more item items (past input errors) .outside :=
  turn ⟨0, fun m _ turns _ => by rw [current_bind_past]⟩

theorem step (h : left <:+ input) (hgoes : more (left.headD 0) = true) {a : α} {c : Cursor}
    (hitem : Yields (fun m => item m (standing input left errors)) (.returned a c))
    (hrest : Loops input more item (items ++ [a]) c outcome) :
    Loops input more item items (standing input left errors) outcome := by
  obtain ⟨n, hn⟩ := hitem
  obtain ⟨n', hn'⟩ := hrest
  refine turn ⟨max n n', fun m hm turns hturns => ?_⟩
  have hread : item m (standing input left errors) = .returned a c := hn m (by omega)
  rw [current_bind h, if_pos hgoes, Run.bind_returned hread]
  exact hn' m (by omega) turns (by omega)

theorem fail (h : left <:+ input) (hgoes : more (left.headD 0) = true) {x : Failure}
    (hitem : Yields (fun m => item m (standing input left errors)) x.outcome) :
    Loops input more item items (standing input left errors) x.outcome := by
  obtain ⟨n, hn⟩ := hitem
  refine turn ⟨n, fun m hm turns _ => ?_⟩
  rw [current_bind h, if_pos hgoes]
  exact Run.bind_failure (hn m hm)

/-- A loop that every item leaves in a state from which it goes on. -/
theorem endless {inv : Cursor → Prop}
    (hcurrent : ∀ c, inv c → ∃ b, Run.current input c = .returned b c ∧ more b = true)
    (hitem : ∀ m c, inv c → ∃ a c', item m c = .returned a c' ∧ inv c') (hc : inv c) :
    Loops input more item items c .running := by
  refine ⟨0, fun m _ turns _ => ?_⟩
  induction turns generalizing items c with
  | zero => rfl
  | succ turns ih =>
      obtain ⟨b, hb, hmore⟩ := hcurrent c hc
      obtain ⟨a, c', ha, hc'⟩ := hitem m c hc
      rw [Run.repeatWhile, Run.bind_returned hb, if_pos hmore, Run.bind_returned ha]
      exact ih hc' (Nat.zero_le _)

/-- Some items, then the rest of the loop. -/
theorem items_append {ts : List τ} (hitems : Items input more item text value follow ts)
    (hleft : follow left) (hinput : ts.flatMap text ++ left <:+ input)
    (hrest : Loops input more item (items ++ ts.map value) (standing input left errors) outcome) :
    Loops input more item items (standing input (ts.flatMap text ++ left) errors) outcome := by
  induction ts generalizing items with
  | nil => simpa using hrest
  | cons t ts ih =>
      rw [List.flatMap_cons, List.append_assoc] at hinput ⊢
      obtain ⟨d, rest, htext, hd⟩ := hitems.more t (by simp)
      have hread := hitems.reads t (by simp) _ (hitems.tail.follow_flatMap hleft) hinput errors
      refine step hinput (by simpa [htext] using hd) hread ?_
      exact ih hitems.tail ((List.suffix_append _ _).trans hinput) (by simpa using hrest)

end Loops

/-- The loop ends behind its items. -/
theorem Reads.repeatWhile {ts : List τ} (h : Items input more item text value follow ts)
    {left : Bytes} (hleft : follow left) (hinput : ts.flatMap text ++ left <:+ input)
    (hstop : more (left.headD 0) = false) (items : List α) :
    Reads input (fun m => Run.repeatWhile input more (item m) m items) (ts.flatMap text)
      (items ++ ts.map value) left := fun _ =>
  (Loops.items_append h hleft hinput
    (Loops.stop ((List.suffix_append _ _).trans hinput) hstop)).yields

/-- The loop fails at the item behind the ones it has read. -/
theorem Fails.repeatWhile {ts : List τ} (h : Items input more item text value follow ts)
    {left : Bytes} (hleft : follow left) (hinput : ts.flatMap text ++ left <:+ input)
    (hgoes : more (left.headD 0) = true) {x : Failure} (hfails : Fails input item left x)
    (items : List α) :
    Fails input (fun m => Run.repeatWhile input more (item m) m items) (ts.flatMap text ++ left)
      x := fun errors =>
  (Loops.items_append h hleft hinput
    (Loops.fail ((List.suffix_append _ _).trans hinput) hgoes (hfails errors))).yields

variable (more follow) in
/-- The loop stops behind some items, or something else stands there. -/
theorem exists_items {ok : τ → Prop} {other : Bytes → Prop} {bound : ℕ}
    (hitem : ∀ u, u <:+ input → u.length ≤ bound → more (u.headD 0) = true →
      (∃ t left, ok t ∧ u = text t ++ left ∧ follow left) ∨ other u)
    (hnonempty : ∀ t, ok t → text t ≠ []) {u : Bytes} (hfollow : follow u) (hu : u <:+ input)
    (hbound : u.length ≤ bound) :
    ∃ (ts : List τ) (left : Bytes), (∀ t ∈ ts, ok t) ∧ u = ts.flatMap text ++ left ∧
      follow left ∧ (more (left.headD 0) = false ∨ (more (left.headD 0) = true ∧ other left)) := by
  induction hn : u.length using Nat.strong_induction_on generalizing u with
  | _ n ih =>
      cases hmore : more (u.headD 0) with
      | false => exact ⟨[], u, by simp, rfl, hfollow, .inl hmore⟩
      | true =>
          rcases hitem u hu hbound hmore with ⟨t, left, ht, rfl, hleft⟩ | hother
          · have hpos := List.length_pos_iff.mpr (hnonempty t ht)
            rw [List.length_append] at hn hbound
            obtain ⟨ts, left', hts, rfl, hleft', hend⟩ := ih left.length (by omega) hleft
              ((List.suffix_append _ _).trans hu) (by omega) rfl
            exact ⟨t :: ts, left', by simpa [ht] using hts, by simp, hleft', hend⟩
          · exact ⟨[], u, by simp, rfl, hfollow, .inr ⟨hmore, hother⟩⟩

end Loops

end Reading

end Tarracsh.DescentRuns
