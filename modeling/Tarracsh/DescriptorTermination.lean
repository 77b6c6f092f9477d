import Tarracsh.DescriptorRoundTrip

/-!
# The texts on which the descriptor parsers end

No loop of the parsers ends because the text does. A class name is read up to its
semicolon and an argument list up to its closing parenthesis; the scanner stays at the
last character and delivers NUL meanwhile. Whether the semicolon and the parenthesis
are there is asked of the text by two automata.
-/
namespace Tarracsh.DescriptorTermination
open ByteStrings CountedLoops DescriptorParsers DescriptorRoundTrip

section Automata

/-- Where in a type a character stands. -/
inductive TypePlace where
  | start
  | nameStart
  | name
  | complete
  | stopped
  deriving DecidableEq, Repr

/-- Brackets and skipped characters leave the type open, and so does `L;`. NUL and the
closing parenthesis end it without being read. -/
def TypePlace.next : TypePlace → UInt8 → TypePlace
  | .start, c =>
      if c = 0 ∨ c = 0x29 then .stopped
      else if c = 0x4C then .nameStart
      else if c = 0x5B ∨ isSkipped c then .start
      else .complete
  | .nameStart, c => if c = 0x3B then .start else .name
  | .name, c => if c = 0x3B then .complete else .name
  | .complete, _ => .complete
  | .stopped, _ => .stopped

/-- Not inside a class name. -/
def TypePlace.settled : TypePlace → Bool
  | .nameStart | .name => false
  | .start | .complete | .stopped => true

/-- Where in a method descriptor a character stands. -/
inductive MethodPlace where
  | outside
  | arguments
  | argumentName
  | result (place : TypePlace)
  | ended
  | stuck
  deriving DecidableEq, Repr

/-- The character at which the return type ends is passed over with it. A NUL among the
arguments is never passed. -/
def MethodPlace.next : MethodPlace → UInt8 → MethodPlace
  | .outside, c => if c = 0 then .ended else if c = 0x28 then .arguments else .outside
  | .arguments, c =>
      if c = 0x29 then .result .start
      else if c = 0 then .stuck
      else if c = 0x4C then .argumentName
      else .arguments
  | .argumentName, c => if c = 0x3B then .arguments else .argumentName
  | .result .complete, _ => .outside
  | .result place, c =>
      if place.next c = .stopped then .outside else .result (place.next c)
  | .ended, _ => .ended
  | .stuck, _ => .stuck

/-- Neither in an argument list nor in the class name of a return type. -/
def MethodPlace.settled : MethodPlace → Bool
  | .outside | .ended => true
  | .result place => place.settled
  | .arguments | .argumentName | .stuck => false

/-- The text has the semicolons that the reading of one type waits for. -/
def fieldSettled (text : Bytes) : Bool := (text.foldl TypePlace.next .start).settled

/-- The text has the semicolons and parentheses that the reading of methods waits for. -/
def methodSettled (text : Bytes) : Bool := (text.foldl MethodPlace.next .outside).settled

end Automata

section Rests

/-- What is left where the reading of a type ends. -/
def typeRest : TypePlace → Bytes → Option Bytes
  | place, [] => if place.settled then some [] else none
  | .complete, c :: cs => some (c :: cs)
  | .stopped, c :: cs => some (c :: cs)
  | place, c :: cs =>
      if place.next c = .stopped then some (c :: cs) else typeRest (place.next c) cs

/-- What is left in front of the parenthesis that closes the arguments. -/
def argumentsRest (inName : Bool) : Bytes → Option Bytes
  | [] => none
  | c :: cs =>
      if inName then argumentsRest (c ≠ 0x3B) cs
      else if c = 0x29 then some (c :: cs)
      else if c = 0 then none
      else argumentsRest (c = 0x4C) cs

variable {place : TypePlace} {rest cs r : Bytes} {c : UInt8}

@[simp] theorem typeRest_complete (cs : Bytes) : typeRest .complete cs = some cs := by
  cases cs <;> rfl

theorem typeRest_open (hcomplete : place ≠ .complete) (hstopped : place ≠ .stopped) :
    typeRest place (c :: cs) =
      if place.next c = .stopped then some (c :: cs) else typeRest (place.next c) cs := by
  cases place <;> first | rfl | contradiction

/-- Inside a name nothing is stopped at. -/
theorem typeRest_name (name more : Bytes) (h : 0x3B ∉ name) :
    typeRest .name (name ++ 0x3B :: more) = some more := by
  induction name with
  | nil => simp [typeRest_open, TypePlace.next]
  | cons e name ih =>
      have he : e ≠ 0x3B := fun he => h (he ▸ List.mem_cons_self)
      have hname : 0x3B ∉ name := fun he => h (List.mem_cons_of_mem _ he)
      rw [List.cons_append, typeRest_open (by decide) (by decide),
        if_neg (by simp [TypePlace.next, he])]
      simpa [TypePlace.next, he] using ih hname

theorem typeRest_unclosed (h : 0x3B ∉ cs) : typeRest .name cs = none := by
  induction cs with
  | nil => rfl
  | cons e cs ih =>
      have he : e ≠ 0x3B := fun he => h (he ▸ List.mem_cons_self)
      have hcs : 0x3B ∉ cs := fun he => h (List.mem_cons_of_mem _ he)
      rw [typeRest_open (by decide) (by decide), if_neg (by simp [TypePlace.next, he])]
      simpa [TypePlace.next, he] using ih hcs

theorem typeRest_class (name more : Bytes) (h : 0x3B ∉ name) :
    typeRest .start (0x4C :: (name ++ 0x3B :: more)) =
      if name = [] then typeRest .start more else some more := by
  have hstart : typeRest .start (0x4C :: (name ++ 0x3B :: more)) =
      typeRest .nameStart (name ++ 0x3B :: more) := rfl
  rw [hstart]
  cases name with
  | nil => rfl
  | cons e name =>
      have he : e ≠ 0x3B := fun he => h (he ▸ List.mem_cons_self)
      have hname : 0x3B ∉ name := fun he => h (List.mem_cons_of_mem _ he)
      rw [List.cons_append, typeRest_open (by decide) (by decide),
        if_neg (by simp [TypePlace.next, he]), if_neg (by simp)]
      simpa [TypePlace.next, he] using typeRest_name name more hname

theorem typeRest_class_unclosed (h : 0x3B ∉ cs) : typeRest .start (0x4C :: cs) = none := by
  have hstart : typeRest .start (0x4C :: cs) = typeRest .nameStart cs := rfl
  rw [hstart]
  cases cs with
  | nil => rfl
  | cons e cs =>
      have he : e ≠ 0x3B := fun he => h (he ▸ List.mem_cons_self)
      have hcs : 0x3B ∉ cs := fun he => h (List.mem_cons_of_mem _ he)
      rw [typeRest_open (by decide) (by decide), if_neg (by simp [TypePlace.next, he])]
      simpa [TypePlace.next, he] using typeRest_unclosed hcs

theorem foldl_stopped (cs : Bytes) : cs.foldl TypePlace.next .stopped = .stopped := by
  induction cs with
  | nil => rfl
  | cons c cs ih => exact ih

theorem foldl_complete (cs : Bytes) : cs.foldl TypePlace.next .complete = .complete := by
  induction cs with
  | nil => rfl
  | cons c cs ih => exact ih

/-- The automaton of a type is settled when the reading ends. -/
theorem typeRest_isSome (place : TypePlace) (cs : Bytes) :
    (typeRest place cs).isSome = (cs.foldl TypePlace.next place).settled := by
  induction cs generalizing place with
  | nil => cases place <;> rfl
  | cons c cs ih =>
      by_cases hcomplete : place = .complete
      · subst hcomplete
        rw [foldl_complete]
        rfl
      by_cases hstopped : place = .stopped
      · subst hstopped
        rw [foldl_stopped]
        rfl
      rw [typeRest_open hcomplete hstopped, List.foldl_cons]
      by_cases hnext : place.next c = .stopped
      · rw [if_pos hnext, hnext, foldl_stopped]
        rfl
      · rw [if_neg hnext]
        exact ih _

/-- The arguments of a list that starts with a type are read on behind that type. -/
theorem argumentsRest_eq (place : TypePlace) (cs : Bytes) :
    argumentsRest (!place.settled) cs = (typeRest place cs).bind (argumentsRest false) := by
  induction cs generalizing place with
  | nil => cases place <;> rfl
  | cons c cs ih =>
      cases place with
      | complete => rfl
      | stopped => rfl
      | name =>
          rw [typeRest_open (by decide) (by decide), argumentsRest]
          by_cases hc : c = 0x3B
          · simp [TypePlace.next, TypePlace.settled, hc]
          · simpa [TypePlace.next, TypePlace.settled, hc] using ih .name
      | nameStart =>
          rw [typeRest_open (by decide) (by decide), argumentsRest]
          by_cases hc : c = 0x3B
          · simpa [TypePlace.next, TypePlace.settled, hc] using ih .start
          · simpa [TypePlace.next, TypePlace.settled, hc] using ih .name
      | start =>
          rw [typeRest_open (by decide) (by decide)]
          by_cases hstop : c = 0 ∨ c = 0x29
          · simp [TypePlace.next, TypePlace.settled, hstop]
          have hzero : c ≠ 0 := fun h => hstop (.inl h)
          have hclose : c ≠ 0x29 := fun h => hstop (.inr h)
          have hread : argumentsRest false (c :: cs) = argumentsRest (c = 0x4C) cs := by
            simp [argumentsRest, hzero, hclose]
          change argumentsRest false (c :: cs) = _
          rw [hread]
          by_cases hclass : c = 0x4C
          · simpa [TypePlace.next, TypePlace.settled, hclass] using ih .nameStart
          by_cases hskip : c = 0x5B ∨ isSkipped c
          · simpa [TypePlace.next, TypePlace.settled, hstop, hclass, hskip] using ih .start
          · simp [TypePlace.next, hstop, hclass, hskip]

theorem settled_result (place : TypePlace) (cs : Bytes) :
    (cs.foldl MethodPlace.next (.result place)).settled =
      (typeRest place cs).elim false fun r => methodSettled r.tail := by
  induction cs generalizing place with
  | nil => cases place <;> rfl
  | cons c cs ih =>
      by_cases hcomplete : place = .complete
      · subst hcomplete
        rfl
      by_cases hstopped : place = .stopped
      · subst hstopped
        rfl
      have hnext : (MethodPlace.result place).next c =
          if place.next c = .stopped then .outside else .result (place.next c) := by
        cases place <;> first | rfl | contradiction
      rw [List.foldl_cons, hnext, typeRest_open hcomplete hstopped]
      by_cases hstop : place.next c = .stopped
      · rw [if_pos hstop, if_pos hstop]
        rfl
      · rw [if_neg hstop, if_neg hstop]
        exact ih _

theorem foldl_stuck (cs : Bytes) : cs.foldl MethodPlace.next .stuck = .stuck := by
  induction cs with
  | nil => rfl
  | cons c cs ih => exact ih

theorem settled_arguments (inName : Bool) (cs : Bytes) :
    (cs.foldl MethodPlace.next (if inName then .argumentName else .arguments)).settled =
      (argumentsRest inName cs).elim false fun r =>
        (r.tail.foldl MethodPlace.next (.result .start)).settled := by
  induction cs generalizing inName with
  | nil => cases inName <;> rfl
  | cons c cs ih =>
      rw [List.foldl_cons, argumentsRest]
      cases inName with
      | true =>
          have hnext : MethodPlace.argumentName.next c =
              if decide (c ≠ 0x3B) then .argumentName else .arguments := by
            by_cases hc : c = 0x3B <;> simp [MethodPlace.next, hc]
          rw [if_pos rfl, if_pos rfl, hnext]
          exact ih _
      | false =>
          rw [if_neg (by decide), if_neg (by decide)]
          by_cases hclose : c = 0x29
          · rw [if_pos hclose, MethodPlace.next, if_pos hclose]
            rfl
          rw [if_neg hclose, MethodPlace.next, if_neg hclose]
          by_cases hzero : c = 0
          · rw [if_pos hzero, if_pos hzero, foldl_stuck]
            rfl
          rw [if_neg hzero, if_neg hzero]
          simpa using ih (decide (c = 0x4C))

/-- What is left of a list of arguments starts with the parenthesis. -/
theorem argumentsRest_eq_cons {inName : Bool} (h : argumentsRest inName cs = some r) :
    ∃ more, r = 0x29 :: more := by
  induction cs generalizing inName with
  | nil => simp [argumentsRest] at h
  | cons c cs ih =>
      rw [argumentsRest] at h
      split_ifs at h with hname hclose hzero
      · exact ih h
      · cases h
        exact ⟨cs, by rw [hclose]⟩
      · exact ih h

/-- A type whose reading goes to the end of the text does not end with a parenthesis. -/
theorem typeRest_ne_end (place : TypePlace) (cs : Bytes) :
    typeRest place (cs ++ [0x29]) ≠ some [] := by
  induction cs generalizing place with
  | nil => cases place <;> decide
  | cons c cs ih =>
      rw [List.cons_append]
      by_cases hcomplete : place = .complete
      · subst hcomplete
        simp
      by_cases hstopped : place = .stopped
      · subst hstopped
        simp [typeRest]
      rw [typeRest_open hcomplete hstopped]
      split_ifs with hstop
      · simp
      · exact ih _

end Rests

section Types
variable {before rest cs passed : Bytes} {c : UInt8} {turns : ℕ} {d : Descriptor}
  {S : Type} {run run' : ℕ → Progress (SignatureScanner × S)} {o : Option Bytes}

/-- With enough turns the run hands the scanner over in front of what is left; where
nothing is said of what is left it never returns. -/
def HandsOver {S : Type} (run : ℕ → Progress (SignatureScanner × S)) (before rest : Bytes) :
    Option Bytes → Prop
  | none => Endless run
  | some left => ∃ passed bound result, rest = passed ++ left ∧
      ∀ turns, (turns < bound ∧ run turns = .running) ∨
        run turns = .returned (standing (before ++ passed) left, result)

/-- A run that has passed over a part of the text and goes on as another one. -/
theorem HandsOver.after (passed : Bytes) (bound : ℕ) (h : HandsOver run' (before ++ passed) rest o)
    (hzero : run 0 = .running)
    (hrun : ∀ turns, (turns < bound ∧ run (turns + 1) = .running) ∨ run (turns + 1) = run' turns) :
    HandsOver run before (passed ++ rest) o := by
  cases o with
  | none =>
      intro turns x
      cases turns with
      | zero => simp [hzero]
      | succ turns =>
          rcases hrun turns with ⟨-, hr⟩ | hr
          · simp [hr]
          · rw [hr]
            exact h turns x
  | some left =>
      obtain ⟨more, bound', result, rfl, hreturned⟩ := h
      refine ⟨passed ++ more, max bound bound' + 1, result, by simp, fun turns => ?_⟩
      cases turns with
      | zero => exact .inl ⟨by omega, hzero⟩
      | succ turns =>
          rcases hrun turns with ⟨hlt, hr⟩ | hr
          · exact .inl ⟨by omega, hr⟩
          · rw [hr]
            rcases hreturned turns with ⟨hlt, hr'⟩ | hr'
            · exact .inl ⟨by omega, hr'⟩
            · exact .inr (by simpa using hr')

theorem HandsOver.map {T : Type} (f : S → T) (h : HandsOver run before rest o) :
    HandsOver (fun turns => run turns >>= fun x => pure (x.1, f x.2)) before rest o := by
  cases o with
  | none =>
      intro turns x hx
      obtain ⟨y, hy, -⟩ := Progress.bind_eq_returned hx
      exact h turns y hy
  | some left =>
      obtain ⟨passed, bound, result, hrest, hruns⟩ := h
      refine ⟨passed, bound, f result, hrest, fun turns => ?_⟩
      rcases hruns turns with ⟨hlt, hr⟩ | hr
      · exact .inl ⟨hlt, by simp [hr]⟩
      · exact .inr (by simp [hr])

theorem HandsOver.returned (h : HandsOver run before rest o) {x : SignatureScanner × S}
    (hx : run turns = .returned x) :
    ∃ passed left, o = some left ∧ rest = passed ++ left ∧
      x.1 = standing (before ++ passed) left := by
  cases o with
  | none => exact absurd hx (h turns x)
  | some left =>
      obtain ⟨passed, bound, result, hrest, hruns⟩ := h
      rcases hruns turns with ⟨-, hr⟩ | hr
      · simp [hr] at hx
      · rw [hr] at hx
        cases hx
        exact ⟨passed, left, rfl, hrest, rfl⟩

/-- As many turns as there are letters before the semicolon are not enough. -/
theorem getFQClassname_running (hlength : (before ++ rest).length < 2 ^ 31)
    (h : 0x3B ∉ rest.tail.take turns) :
    getFQClassname turns (standing before rest) d = .running := by
  induction turns generalizing before rest d with
  | zero => rfl
  | succ turns ih =>
      cases rest with
      | nil =>
          rw [getFQClassname, getNextChar_end (by simpa using hlength)]
          exact ih hlength (by simp)
      | cons c cs =>
          have hnext : (before ++ [c] ++ cs).length < 2 ^ 31 := by simpa using hlength
          rw [getFQClassname_standing hlength]
          cases cs with
          | nil => exact ih hnext (by simp)
          | cons e cs =>
              simp only [List.tail_cons, List.take_succ_cons, List.mem_cons, not_or] at h
              rw [List.headD_cons, if_neg (Ne.symm h.1)]
              exact ih hnext h.2

theorem baseType_ne_nil {name : Bytes} (h : baseType c = some name) : name ≠ [] := by
  unfold baseType at h
  split at h <;> cases h <;> decide

/-- One turn of the loop at a character that is passed over. -/
theorem parseFrom_passed (hd : d.type = []) (hzero : c ≠ 0) (hclose : c ≠ 0x29)
    (hskip : c = 0x5B ∨ isSkipped c) (hlength : (before ++ c :: cs).length < 2 ^ 31) :
    ∃ d', d'.type = [] ∧ ∀ turns, parseFrom (turns + 1) c (standing before (c :: cs)) d =
      parseFrom turns (cs.headD 0) (standing (before ++ [c]) cs) d' := by
  by_cases harray : c = 0x5B
  · refine ⟨{ d with isArray := true, dimensions := d.dimensions + 1 }, hd, fun turns => ?_⟩
    rw [parseFrom_standing hd hzero hclose, parseChar, if_pos harray, Progress.returned_bind,
      getNextChar_standing hlength]
  · have hskipped : isSkipped c = true := hskip.resolve_left harray
    have hclass : c ≠ 0x4C := by
      rintro rfl
      exact absurd hskipped (by decide)
    refine ⟨d, hd, fun turns => ?_⟩
    rw [parseFrom_standing hd hzero hclose, parseChar, if_neg harray, if_neg hclass,
      if_pos hskipped, Progress.returned_bind, getNextChar_standing hlength]

/-- One turn of the loop at a character that is a type. -/
theorem parseFrom_letter (hd : d.type = []) (hzero : c ≠ 0) (hclose : c ≠ 0x29)
    (hclass : c ≠ 0x4C) (hskip : ¬ (c = 0x5B ∨ isSkipped c))
    (hlength : (before ++ c :: cs).length < 2 ^ 31) :
    ∃ d', d'.type ≠ [] ∧ ∀ turns, parseFrom (turns + 1) c (standing before (c :: cs)) d =
      parseFrom turns (cs.headD 0) (standing (before ++ [c]) cs) d' := by
  have harray : c ≠ 0x5B := fun h => hskip (.inl h)
  have hskipped : ¬ isSkipped c = true := fun h => hskip (.inr h)
  refine ⟨{ d with type := (baseType c).getD (before ++ c :: cs) }, ?_, fun turns => ?_⟩
  · cases hbase : baseType c with
    | none => simp
    | some name => exact baseType_ne_nil hbase
  · rw [parseFrom_standing hd hzero hclose, parseChar, if_neg harray, if_neg hclass,
      if_neg hskipped, Progress.returned_bind]
    simp only
    rw [getNextChar_standing hlength]
    rfl

/-- The loop is not entered. -/
theorem parseFrom_skips {character : UInt8}
    (h : ¬ (character ≠ 0 ∧ d.type = [] ∧ character ≠ 0x29)) :
    HandsOver (fun turns => parseFrom turns character (standing before rest) d) before rest
      (some rest) := by
  refine ⟨[], 1, d, rfl, fun turns => ?_⟩
  cases turns with
  | zero => exact .inl ⟨by omega, rfl⟩
  | succ turns =>
      right
      change parseFrom (turns + 1) character (standing before rest) d = _
      rw [parseFrom, if_neg h, List.append_nil]

/-- The turn at the letter of a class type, whose name is closed. -/
theorem parseFrom_closed {name more : Bytes} (hd : d.type = []) (hname : 0x3B ∉ name)
    (hlength : (before ++ 0x4C :: (name ++ 0x3B :: more)).length < 2 ^ 31) (turns : ℕ) :
    parseFrom (turns + 1) 0x4C (standing before (0x4C :: (name ++ 0x3B :: more))) d =
      if name.length < turns then
        parseFrom turns (more.headD 0) (standing (before ++ 0x4C :: name ++ [0x3B]) more)
          { d with isClass := true, type := dotted name }
      else .running := by
  have hnext : (before ++ 0x4C :: name ++ 0x3B :: more).length < 2 ^ 31 := by
    simpa using hlength
  rw [parseFrom_standing hd (by decide) (by decide), parseChar, if_neg (by decide), if_pos rfl]
  by_cases hturns : name.length < turns
  · rw [if_pos hturns, getFQClassname_name 0x4C hname hlength hturns, Progress.returned_bind]
    simp only
    rw [getNextChar_standing hnext, hd]
    rfl
  · have htake : (name ++ 0x3B :: more).take turns = name.take turns :=
      List.take_append_of_le_length (by omega)
    have hrunning : 0x3B ∉ (0x4C :: (name ++ 0x3B :: more)).tail.take turns := by
      rw [List.tail_cons, htake]
      exact fun h => hname (List.mem_of_mem_take h)
    rw [if_neg hturns, getFQClassname_running hlength hrunning, Progress.running_bind]

/-- Behind `L;` the type is still open. -/
theorem parseFrom_closed_handsOver {name more : Bytes} (hd : d.type = []) (hname : 0x3B ∉ name)
    (hlength : (before ++ 0x4C :: (name ++ 0x3B :: more)).length < 2 ^ 31)
    (hopen : HandsOver (fun turns => parseFrom turns (more.headD 0)
      (standing (before ++ [0x4C, 0x3B]) more) { d with isClass := true })
      (before ++ [0x4C, 0x3B]) more (typeRest .start more)) :
    HandsOver (fun turns =>
        parseFrom turns 0x4C (standing before (0x4C :: (name ++ 0x3B :: more))) d) before
      (0x4C :: (name ++ 0x3B :: more)) (typeRest .start (0x4C :: (name ++ 0x3B :: more))) := by
  have hturn := parseFrom_closed hd hname hlength
  have hafter : HandsOver (fun turns => parseFrom turns (more.headD 0)
      (standing (before ++ 0x4C :: name ++ [0x3B]) more)
      { d with isClass := true, type := dotted name })
      (before ++ (0x4C :: name ++ [0x3B])) more
      (if name = [] then typeRest .start more else some more) := by
    rw [← List.append_assoc]
    split_ifs with hnil
    · subst hnil
      have hd' : dotted [] = d.type := hd.symm
      simpa [hd'] using hopen
    · exact parseFrom_skips (by simp [dotted, hnil])
  have htext : 0x4C :: (name ++ 0x3B :: more) = 0x4C :: name ++ [0x3B] ++ more := by simp
  have hall : HandsOver (fun turns =>
        parseFrom turns 0x4C (standing before (0x4C :: (name ++ 0x3B :: more))) d) before
      (0x4C :: name ++ [0x3B] ++ more)
      (if name = [] then typeRest .start more else some more) := by
    refine HandsOver.after _ (name.length + 1) hafter rfl fun turns => ?_
    by_cases hturns : name.length < turns
    · exact .inr ((hturn turns).trans (if_pos hturns))
    · exact .inl ⟨by omega, (hturn turns).trans (if_neg hturns)⟩
  rw [typeRest_class name more hname]
  rwa [← htext] at hall

theorem parseFrom_unclosed (hd : d.type = []) (hcs : 0x3B ∉ cs)
    (hlength : (before ++ 0x4C :: cs).length < 2 ^ 31) :
    Endless fun turns => parseFrom turns 0x4C (standing before (0x4C :: cs)) d := by
  intro turns x
  cases turns with
  | zero => simp [parseFrom]
  | succ turns =>
      have hrunning : 0x3B ∉ (0x4C :: cs).tail.take turns := fun h => hcs (List.mem_of_mem_take h)
      change parseFrom (turns + 1) 0x4C (standing before (0x4C :: cs)) d ≠ _
      rw [parseFrom_standing hd (by decide) (by decide), parseChar, if_neg (by decide),
        if_pos rfl, getFQClassname_running hlength hrunning, Progress.running_bind]
      simp

/-- The loop hands the scanner over where the reading of a type ends. -/
theorem parseFrom_handsOver (n : ℕ) (hn : rest.length ≤ n) (hd : d.type = [])
    (hlength : (before ++ rest).length < 2 ^ 31) :
    HandsOver (fun turns => parseFrom turns (rest.headD 0) (standing before rest) d) before rest
      (typeRest .start rest) := by
  induction n generalizing rest before d with
  | zero =>
      obtain rfl : rest = [] := List.length_eq_zero_iff.1 (by omega)
      exact parseFrom_skips (by simp)
  | succ n ih =>
      cases rest with
      | nil => exact parseFrom_skips (by simp)
      | cons c cs =>
          rw [List.headD_cons]
          have hcs : cs.length ≤ n := by simpa using hn
          have hnext : (before ++ [c] ++ cs).length < 2 ^ 31 := by simpa using hlength
          by_cases hstop : c = 0 ∨ c = 0x29
          · rw [typeRest_open (by decide) (by decide), if_pos (by simp [TypePlace.next, hstop])]
            exact parseFrom_skips (by tauto)
          have hzero : c ≠ 0 := fun h => hstop (.inl h)
          have hclose : c ≠ 0x29 := fun h => hstop (.inr h)
          by_cases hclass : c = 0x4C
          · subst hclass
            by_cases hmem : 0x3B ∈ cs
            · obtain ⟨name, more, rfl, hname⟩ := List.eq_append_cons_of_mem hmem
              have hmore : more.length ≤ n := by
                simp at hcs
                omega
              refine parseFrom_closed_handsOver hd hname hlength (ih hmore ?_ ?_)
              · exact hd
              · simp at hlength ⊢
                omega
            · rw [typeRest_class_unclosed hmem]
              exact parseFrom_unclosed hd hmem hlength
          rw [typeRest_open (by decide) (by decide)]
          by_cases hskip : c = 0x5B ∨ isSkipped c
          · obtain ⟨d', hd', hturn⟩ := parseFrom_passed hd hzero hclose hskip hlength
            have hplace : TypePlace.start.next c = .start := by
              simp [TypePlace.next, hstop, hclass, hskip]
            rw [hplace, if_neg (by decide)]
            exact HandsOver.after [c] 0 (ih hcs hd' hnext) rfl fun turns => .inr (hturn turns)
          · obtain ⟨d', hd', hturn⟩ := parseFrom_letter hd hzero hclose hclass hskip hlength
            have hplace : TypePlace.start.next c = .complete := by
              simp [TypePlace.next, hstop, hclass, hskip]
            rw [hplace, if_neg (by decide), typeRest_complete]
            exact HandsOver.after [c] 0 (parseFrom_skips fun h => hd' h.2.1) rfl
              fun turns => .inr (hturn turns)

theorem parseDescriptor_handsOver (hrest : rest ≠ [])
    (hlength : (before ++ rest).length < 2 ^ 31) :
    HandsOver (fun turns => parseDescriptor turns (standing before rest)) before rest
      (typeRest .start rest) := by
  have h := parseFrom_handsOver (d := {}) rest.length le_rfl rfl hlength
  simpa only [parseDescriptor, currentChar_of_ne_nil hrest hlength, Progress.returned_bind] using h

theorem standing_end (before : Bytes) (c : UInt8) :
    standing (before ++ [c]) [] = standing before [c] := by
  simp [standing]

end Types

section Parameters
variable {before rest : Bytes} {c : UInt8} (found : List Descriptor)

/-- Where the scanner does not leave a character that closes nothing, there is an
argument without end. -/
theorem parseParametersFrom_stuck {s : SignatureScanner} (hcurrent : s.currentChar = .returned c)
    (hc : c ≠ 0x29) (hstay : ∀ turns x, parseDescriptor turns s = .returned x → x.1 = s) :
    Endless fun turns => parseParametersFrom turns s found := by
  intro turns x
  induction turns generalizing found with
  | zero => simp [parseParametersFrom]
  | succ turns ih =>
      intro h
      change parseParametersFrom (turns + 1) s found = _ at h
      rw [parseParametersFrom, hcurrent, Progress.returned_bind, if_pos hc] at h
      obtain ⟨y, hy, hrest⟩ := Progress.bind_eq_returned h
      rw [← hstay turns y hy] at ih
      exact ih _ hrest

/-- The last character is read again and again. -/
theorem parseParametersFrom_last (hc : c ≠ 0x29) (hlength : (before ++ [c]).length < 2 ^ 31) :
    Endless fun turns => parseParametersFrom turns (standing before [c]) found := by
  refine parseParametersFrom_stuck found (currentChar_standing hlength) hc fun turns x hx => ?_
  have h := parseDescriptor_handsOver (List.cons_ne_nil c []) hlength
  obtain ⟨passed, left, -, heq, hx⟩ := h.returned hx
  rw [hx]
  rcases List.cons_eq_append_iff.1 heq with ⟨rfl, rfl⟩ | ⟨passed', rfl, hnil⟩
  · simp
  · obtain ⟨rfl, rfl⟩ := List.append_eq_nil_iff.1 hnil.symm
    exact standing_end before c

/-- NUL is not passed. -/
theorem parseParametersFrom_nul (cs : Bytes) (hlength : (before ++ 0 :: cs).length < 2 ^ 31) :
    Endless fun turns => parseParametersFrom turns (standing before (0 :: cs)) found := by
  refine parseParametersFrom_stuck found (currentChar_standing hlength) (by decide)
    fun turns x hx => ?_
  have h := parseDescriptor_handsOver (List.cons_ne_nil 0 cs) hlength
  obtain ⟨passed, left, hleft, heq, hx⟩ := h.returned hx
  obtain rfl : 0 :: cs = left := Option.some.inj hleft
  obtain rfl : passed = [] := by simpa using heq
  simpa using hx

theorem length_typeRest {cs r : Bytes} {place : TypePlace} (h : typeRest place cs = some r) :
    r.length ≤ cs.length := by
  induction cs generalizing place with
  | nil => cases place <;> simp_all [typeRest, TypePlace.settled]
  | cons c cs ih =>
      by_cases hcomplete : place = .complete
      · subst hcomplete
        cases h
        exact le_rfl
      by_cases hstopped : place = .stopped
      · subst hstopped
        cases h
        exact le_rfl
      rw [typeRest_open hcomplete hstopped] at h
      split_ifs at h with hstop
      · cases h
        exact le_rfl
      · exact (ih h).trans (Nat.le_succ _)

theorem length_typeRest_start {cs r : Bytes} (hzero : c ≠ 0) (hclose : c ≠ 0x29)
    (h : typeRest .start (c :: cs) = some r) : r.length ≤ cs.length := by
  have hnext : TypePlace.start.next c ≠ .stopped := by
    simp only [TypePlace.next, hzero, hclose, or_self, if_false]
    split_ifs <;> decide
  rw [typeRest_open (by decide) (by decide), if_neg hnext] at h
  exact length_typeRest h

/-- An argument behind which the text ends is the last of no list. -/
theorem parseParametersFrom_end {cs passed : Bytes} (hpassed : c :: cs = passed)
    (htype : typeRest .start (c :: cs) = some [])
    (hlength : (before ++ passed ++ []).length < 2 ^ 31) :
    Endless fun turns => parseParametersFrom turns (standing (before ++ passed) []) found := by
  obtain ⟨pre, last, hlast⟩ := List.eq_nil_or_concat' (c :: cs) |>.resolve_left (by simp)
  have hne : last ≠ 0x29 := by
    rintro rfl
    rw [hlast] at htype
    exact typeRest_ne_end .start pre htype
  have hend : (before ++ pre ++ [last]).length < 2 ^ 31 := by
    simpa [← hpassed, hlast] using hlength
  have h := parseParametersFrom_last found hne hend
  rwa [← standing_end, List.append_assoc, ← hlast, hpassed] at h

/-- The loop over the arguments hands the scanner over in front of the parenthesis. -/
theorem parseParametersFrom_handsOver (n : ℕ) (hn : rest.length ≤ n) (hrest : rest ≠ [])
    (hlength : (before ++ rest).length < 2 ^ 31) :
    HandsOver (fun turns => parseParametersFrom turns (standing before rest) found) before rest
      (argumentsRest false rest) := by
  induction n generalizing rest before found with
  | zero => exact absurd (List.length_eq_zero_iff.1 (by omega)) hrest
  | succ n ih =>
      obtain ⟨c, cs, rfl⟩ := List.exists_cons_of_ne_nil hrest
      by_cases hclose : c = 0x29
      · subst hclose
        refine ⟨[], 1, found, rfl, fun turns => ?_⟩
        cases turns with
        | zero => exact .inl ⟨by omega, rfl⟩
        | succ turns =>
            right
            change parseParametersFrom (turns + 1) (standing before (0x29 :: cs)) found = _
            rw [parseParametersFrom, currentChar_standing hlength]
            simp
      by_cases hzero : c = 0
      · subst hzero
        exact parseParametersFrom_nul found cs hlength
      have hturn : ∀ turns, parseParametersFrom (turns + 1) (standing before (c :: cs)) found =
          parseDescriptor turns (standing before (c :: cs)) >>= fun x =>
            parseParametersFrom turns x.1 (found ++ [x.2]) := by
        intro turns
        rw [parseParametersFrom, currentChar_standing hlength, Progress.returned_bind,
          if_pos hclose]
      have hargument := parseDescriptor_handsOver hrest hlength
      have hnext := argumentsRest_eq .start (c :: cs)
      change argumentsRest false (c :: cs) = _ at hnext
      rw [hnext]
      cases htype : typeRest .start (c :: cs) with
      | none =>
          rw [htype] at hargument
          intro turns x hx
          cases turns with
          | zero => simp [parseParametersFrom] at hx
          | succ turns =>
              obtain ⟨y, hy, -⟩ := Progress.bind_eq_returned ((hturn turns).symm.trans hx)
              exact hargument turns y hy
      | some left =>
          rw [htype] at hargument
          obtain ⟨passed, bound, d, heq, hruns⟩ := hargument
          have hall : (before ++ passed ++ left).length < 2 ^ 31 := by
            rwa [List.append_assoc, ← heq]
          have hafter : HandsOver (fun turns => parseParametersFrom turns
              (standing (before ++ passed) left) (found ++ [d])) (before ++ passed) left
              (argumentsRest false left) := by
            by_cases hleft : left = []
            · subst hleft
              exact parseParametersFrom_end (found ++ [d]) (by simpa using heq) htype hall
            · have hshort := length_typeRest_start hzero hclose htype
              exact ih (found ++ [d]) (hshort.trans (by simpa using hn)) hleft hall
          rw [heq]
          refine HandsOver.after passed bound hafter rfl fun turns => ?_
          simp only [← heq, hturn]
          rcases hruns turns with ⟨hlt, hr⟩ | hr
          · exact .inl ⟨hlt, by simp [hr]⟩
          · exact .inr (by simp [hr])

theorem parseParameters_handsOver (hc : c ≠ 0x29) (m : MethodDescriptor)
    (hlength : (before ++ c :: rest).length < 2 ^ 31) :
    HandsOver (fun turns => parseParameters turns (standing before (c :: rest)) m)
      (before ++ [c]) rest (argumentsRest false rest) := by
  have hnext : (before ++ [c] ++ rest).length < 2 ^ 31 := by simpa using hlength
  have hparameters : HandsOver (fun turns => parseParametersFrom turns
      (standing (before ++ [c]) rest) m.arguments) (before ++ [c]) rest
      (argumentsRest false rest) := by
    by_cases hrest : rest = []
    · subst hrest
      have hlast := parseParametersFrom_last m.arguments hc hlength
      rwa [← standing_end] at hlast
    · exact parseParametersFrom_handsOver m.arguments rest.length le_rfl hrest hnext
  have hturn : ∀ turns, parseParameters turns (standing before (c :: rest)) m =
      parseParametersFrom turns (standing (before ++ [c]) rest) m.arguments >>= fun x =>
        pure (x.1, { m with arguments := x.2 }) := by
    intro turns
    rw [parseParameters, step_eq, getNextChar_standing hlength]
  simp only [hturn]
  exact hparameters.map fun arguments => { m with arguments := arguments }

theorem parseReturnType_handsOver (m : MethodDescriptor)
    (hlength : (before ++ 0x29 :: rest).length < 2 ^ 31) :
    HandsOver (fun turns => parseReturnType turns (standing before (0x29 :: rest)) m)
      (before ++ [0x29]) rest (typeRest .start rest) := by
  have hnext : (before ++ [0x29] ++ rest).length < 2 ^ 31 := by simpa using hlength
  have htype : HandsOver (fun turns => parseDescriptor turns (standing (before ++ [0x29]) rest))
      (before ++ [0x29]) rest (typeRest .start rest) := by
    by_cases hrest : rest = []
    · subst hrest
      refine ⟨[], 1, {}, rfl, fun turns => ?_⟩
      simp only [standing_end, parseDescriptor, currentChar_standing hlength,
        Progress.returned_bind, List.append_nil]
      cases turns with
      | zero => exact .inl ⟨by omega, rfl⟩
      | succ turns => exact .inr (by rw [parseFrom, if_neg (by simp)])
    · exact parseDescriptor_handsOver hrest hnext
  have hturn : ∀ turns, parseReturnType turns (standing before (0x29 :: rest)) m =
      parseDescriptor turns (standing (before ++ [0x29]) rest) >>= fun x =>
        pure (x.1, { m with returnType := x.2 }) := by
    intro turns
    rw [parseReturnType, step_eq, getNextChar_standing hlength]
  simp only [hturn]
  exact htype.map fun d => { m with returnType := d }

end Parameters

section Methods
variable {before rest cs : Bytes} {c : UInt8} {m : MethodDescriptor}

theorem getNextChar_tail (hlength : (before ++ rest).length < 2 ^ 31) :
    (standing before rest).getNextChar =
      (rest.tail.headD 0, standing (before ++ rest.take 1) rest.tail) := by
  cases rest with
  | nil =>
      have hend : before.length < 2 ^ 31 := by simpa using hlength
      simpa using getNextChar_end hend
  | cons c cs => exact getNextChar_standing hlength

/-- With enough turns the run returns, or it never does. -/
def Stops {S : Type} (run : ℕ → Progress S) : Bool → Prop
  | true => ∃ bound x, ∀ turns ≥ bound, run turns = .returned x
  | false => Endless run

theorem Stops.iff {S : Type} {run : ℕ → Progress S} {good : Bool} (h : Stops run good) :
    (∃ turns x, run turns = .returned x) ↔ good = true := by
  cases good with
  | true =>
      obtain ⟨bound, x, hx⟩ := h
      exact iff_of_true ⟨bound, x, hx bound le_rfl⟩ rfl
  | false =>
      refine iff_of_false ?_ (by decide)
      rintro ⟨turns, x, hx⟩
      exact h turns x hx

/-- A first part that hands the scanner over, and what follows it. -/
theorem HandsOver.stops {S T : Type} {run : ℕ → Progress (SignatureScanner × S)}
    {run' : ℕ → SignatureScanner × S → Progress T} {o : Option Bytes} {good : Bytes → Bool}
    (h : HandsOver run before rest o)
    (hafter : ∀ passed left x, rest = passed ++ left → o = some left →
      Stops (fun turns => run' turns (standing (before ++ passed) left, x)) (good left)) :
    Stops (fun turns => run turns >>= run' turns) (o.elim false good) := by
  cases o with
  | none =>
      intro turns x hx
      obtain ⟨y, hy, -⟩ := Progress.bind_eq_returned hx
      exact h turns y hy
  | some left =>
      obtain ⟨passed, bound, result, hrest, hruns⟩ := h
      have hs := hafter passed left result hrest rfl
      rw [Option.elim_some]
      cases hgood : good left with
      | true =>
          rw [hgood] at hs
          obtain ⟨bound', x, hx⟩ := hs
          refine ⟨max bound bound', x, fun turns hturns => ?_⟩
          rcases hruns turns with ⟨hlt, -⟩ | hr
          · omega
          · simp only [hr, Progress.returned_bind]
            exact hx turns (by omega)
      | false =>
          rw [hgood] at hs
          intro turns x hx
          rcases hruns turns with ⟨-, hr⟩ | hr
          · simp [hr] at hx
          · simp only [hr, Progress.returned_bind] at hx
            exact hs turns x hx

/-- One more turn. -/
theorem Stops.succ {S : Type} {run run' : ℕ → Progress S} {good : Bool} (h : Stops run' good)
    (hzero : run 0 = .running) (hrun : ∀ turns, run (turns + 1) = run' turns) :
    Stops run good := by
  cases good with
  | true =>
      obtain ⟨bound, x, hx⟩ := h
      refine ⟨bound + 1, x, fun turns hturns => ?_⟩
      obtain ⟨turns, rfl⟩ : ∃ n, turns = n + 1 := ⟨turns - 1, by omega⟩
      rw [hrun]
      exact hx turns (by omega)
  | false =>
      intro turns x
      cases turns with
      | zero => simp [hzero]
      | succ turns =>
          rw [hrun]
          exact h turns x

theorem foldl_ended (cs : Bytes) : cs.foldl MethodPlace.next .ended = .ended := by
  induction cs with
  | nil => rfl
  | cons c cs ih => exact ih

theorem parseMethodFrom_nul (s : SignatureScanner) :
    Stops (fun turns => parseMethodFrom turns 0 s m) true := by
  refine ⟨1, m, fun turns hturns => ?_⟩
  obtain ⟨turns, rfl⟩ : ∃ n, turns = n + 1 := ⟨turns - 1, by omega⟩
  change parseMethodFrom (turns + 1) 0 s m = _
  rw [parseMethodFrom, if_pos rfl]

/-- One turn of the loop at the parenthesis that opens the arguments. -/
theorem parseMethodFrom_open (turns : ℕ) (s : SignatureScanner) :
    parseMethodFrom (turns + 1) 0x28 s m =
      parseParameters turns s m >>= fun x => parseReturnType turns x.1 x.2 >>= fun y =>
        parseMethodFrom turns y.1.getNextChar.1 y.1.getNextChar.2 y.2 := by
  rw [parseMethodFrom, if_neg (by decide), if_pos rfl]

theorem methodSettled_open (cs : Bytes) :
    methodSettled (0x28 :: cs) = (argumentsRest false cs).elim false fun r =>
      (typeRest .start r.tail).elim false fun left => methodSettled left.tail := by
  have h := settled_arguments false cs
  simp only [settled_result] at h
  exact h

/-- The loop of the method parser returns when the automaton is settled. -/
theorem parseMethodFrom_stops (n : ℕ) (hn : rest.length ≤ n)
    (hlength : (before ++ rest).length < 2 ^ 31) :
    Stops (fun turns => parseMethodFrom turns (rest.headD 0) (standing before rest) m)
      (methodSettled rest) := by
  induction n generalizing rest before m with
  | zero =>
      obtain rfl : rest = [] := List.length_eq_zero_iff.1 (by omega)
      exact parseMethodFrom_nul _
  | succ n ih =>
      cases rest with
      | nil => exact parseMethodFrom_nul _
      | cons c cs =>
          rw [List.headD_cons]
          by_cases hzero : c = 0
          · subst hzero
            have hsettled : methodSettled (0 :: cs) = true := by
              change (cs.foldl MethodPlace.next .ended).settled = true
              rw [foldl_ended]
              rfl
            rw [hsettled]
            exact parseMethodFrom_nul _
          by_cases hopen : c = 0x28
          · subst hopen
            rw [methodSettled_open]
            refine Stops.succ ?_ rfl fun turns => parseMethodFrom_open turns _
            refine (parseParameters_handsOver (by decide) m hlength).stops
              fun passed left m' hleft harguments => ?_
            obtain ⟨more, rfl⟩ := argumentsRest_eq_cons harguments
            subst hleft
            have hclose : (before ++ [0x28] ++ passed ++ 0x29 :: more).length < 2 ^ 31 := by
              simpa using hlength
            refine (parseReturnType_handsOver m' hclose).stops fun passed' left' m'' hleft _ => ?_
            change more = passed' ++ left' at hleft
            subst hleft
            have hbehind : (before ++ [0x28] ++ passed ++ [0x29] ++ passed' ++ left').length <
                2 ^ 31 := by
              simpa using hlength
            simp only [getNextChar_tail hbehind]
            refine ih ?_ ?_
            · simp at hn ⊢
              omega
            · cases left' <;> simpa using hbehind
          · have hsettled : methodSettled (c :: cs) = methodSettled cs := by
              simp [methodSettled, MethodPlace.next, hzero, hopen]
            have hnext : (before ++ [c] ++ cs).length < 2 ^ 31 := by simpa using hlength
            rw [hsettled]
            refine Stops.succ (ih (m := m) (by simpa using hn) hnext) rfl fun turns => ?_
            rw [parseMethodFrom, if_neg hzero, if_neg hopen, Progress.pure_eq,
              Progress.returned_bind]
            simp only
            rw [getNextChar_standing hlength]

end Methods

section Parsers
variable {text : Bytes}

/-- The field parser returns exactly on the texts that are not empty and whose automaton
is settled. -/
theorem descriptorParser_returns_iff (hlength : text.length < 2 ^ 31) :
    (∃ turns d, descriptorParser turns text = .returned d) ↔
      text ≠ [] ∧ fieldSettled text = true := by
  have hstart : (scanner text).step = standing [] text := by
    rw [step_eq, getNextChar_scanner hlength]
  rw [fieldSettled, ← typeRest_isSome]
  by_cases htext : text = []
  · subst htext
    refine iff_of_false ?_ fun h => h.1 rfl
    rintro ⟨turns, d, h⟩
    cases h
  have htype : HandsOver (fun turns => parseDescriptor turns (standing [] text)) [] text
      (typeRest .start text) := parseDescriptor_handsOver htext hlength
  constructor
  · rintro ⟨turns, d, h⟩
    rw [descriptorParser, hstart] at h
    obtain ⟨x, hx, -⟩ := Progress.bind_eq_returned h
    obtain ⟨passed, left, hleft, -⟩ := htype.returned hx
    exact ⟨htext, by rw [hleft]; rfl⟩
  · rintro ⟨-, hsome⟩
    obtain ⟨left, hleft⟩ := Option.isSome_iff_exists.1 hsome
    rw [hleft] at htype
    obtain ⟨passed, bound, d, -, hruns⟩ := htype
    refine ⟨bound, d, ?_⟩
    have hr := (hruns bound).resolve_left fun h => lt_irrefl _ h.1
    simp only at hr
    rw [descriptorParser, hstart, hr]
    rfl

theorem methodDescriptorParser_returns_iff (hlength : text.length < 2 ^ 31) :
    (∃ turns m, methodDescriptorParser turns text = .returned m) ↔ methodSettled text = true := by
  have hstops : Stops (fun turns => parseMethodFrom turns (text.headD 0) (standing [] text) {})
      (methodSettled text) := parseMethodFrom_stops text.length le_rfl hlength
  simpa only [methodDescriptorParser, getNextChar_scanner hlength] using hstops.iff

/-- The texts on which the two parsers return. -/
theorem parsers_return_iff (text : Bytes) (hlength : text.length < 2 ^ 31) :
    ((∃ turns d, descriptorParser turns text = .returned d) ↔
      text ≠ [] ∧ fieldSettled text = true) ∧
    ((∃ turns m, methodDescriptorParser turns text = .returned m) ↔ methodSettled text = true) :=
  ⟨descriptorParser_returns_iff hlength, methodDescriptorParser_returns_iff hlength⟩

/-- The text `(Ljava/lang/String;)V` is no obstacle to either parser. -/
theorem parsers_return_on_method :
    (ascii "(Ljava/lang/String;)V").length < 2 ^ 31 ∧
    (∃ turns d, descriptorParser turns (ascii "(Ljava/lang/String;)V") = .returned d) ∧
    ∃ turns m, methodDescriptorParser turns (ascii "(Ljava/lang/String;)V") = .returned m :=
  have h := parsers_return_iff (ascii "(Ljava/lang/String;)V") (by decide)
  ⟨by decide, h.1.2 (by decide), h.2.2 (by decide)⟩

/-- A class name without its semicolon, an argument list without its parenthesis, and an
empty text. -/
theorem parsers_without_terminator :
    (∀ turns d, descriptorParser turns (ascii "Ljava/lang/String") ≠ .returned d) ∧
    (∀ turns m, methodDescriptorParser turns (ascii "(I") ≠ .returned m) ∧
    ∀ turns d, descriptorParser turns [] ≠ .returned d := by
  refine ⟨fun turns d h => ?_, fun turns m h => ?_, fun turns d h => ?_⟩
  · have hreturns := (descriptorParser_returns_iff (by decide)).1 ⟨turns, d, h⟩
    exact absurd hreturns (by decide)
  · have hreturns := (methodDescriptorParser_returns_iff (by decide)).1 ⟨turns, m, h⟩
    exact absurd hreturns (by decide)
  · exact ((descriptorParser_returns_iff (by decide)).1 ⟨turns, d, h⟩).1 rfl

end Parsers

end Tarracsh.DescriptorTermination
