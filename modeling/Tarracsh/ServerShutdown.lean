import Tarracsh.PartialRuns
import Mathlib.Logic.Function.Basic

/-!
# Whether the server sees that it shall quit

The server thread waits until `_quickReceived` is set. A call of `Quit` sets it
and notifies, without the mutex that the server thread holds from its test of
the flag until it waits. A call that does both in between is overlooked, and
once every call has been answered only a spurious wakeup can end the server.
Accesses to the flag happen one after the other.
-/
namespace Tarracsh.ServerShutdown
open PartialRuns

/-- Where the server thread stands in `waitForShutDown`. It is `entering` from a
test that failed until it waits. -/
inductive Waiter where
  | checking
  | entering
  | waiting
  | released

/-- Where a call of `Quit` stands in `signalQuick`. -/
inductive Call where
  | received
  | flagged
  | answered

/-- `wake` is a spurious wakeup. -/
inductive Event (ι : Type) where
  | check
  | sleep
  | wake
  | set (i : ι)
  | notify (i : ι)

structure State (ι : Type) where
  waiter : Waiter
  quickReceived : Bool
  calls : ι → Call

/-- `notify_one` reaches only a thread that waits. -/
def Waiter.notified : Waiter → Waiter
  | .waiting => .checking
  | waiter => waiter

def Event.ofCall {ι : Type} : Event ι → Bool
  | .set _ | .notify _ => true
  | _ => false

variable {ι : Type} [DecidableEq ι]

namespace State

def start : State ι := ⟨.checking, false, fun _ => .received⟩

def step (S : State ι) : Event ι → Option (State ι)
  | .check =>
      match S.waiter with
      | .checking => some { S with waiter := if S.quickReceived then .released else .entering }
      | _ => none
  | .sleep =>
      match S.waiter with
      | .entering => some { S with waiter := .waiting }
      | _ => none
  | .wake =>
      match S.waiter with
      | .waiting => some { S with waiter := .checking }
      | _ => none
  | .set i =>
      match S.calls i with
      | .received =>
          some
            { S with
              quickReceived := true
              calls := Function.update S.calls i .flagged }
      | _ => none
  | .notify i =>
      match S.calls i with
      | .flagged =>
          some
            { S with
              waiter := S.waiter.notified
              calls := Function.update S.calls i .answered }
      | _ => none

end State

section Steps
variable {S S' : State ι} {i : ι}

theorem check_some (h : S.step .check = some S') :
    S.waiter = .checking ∧
      S' = { S with waiter := if S.quickReceived then .released else .entering } := by
  cases hw : S.waiter <;> simp [State.step, hw] at h ⊢
  exact h.symm

theorem sleep_some (h : S.step .sleep = some S') :
    S.waiter = .entering ∧ S' = { S with waiter := .waiting } := by
  cases hw : S.waiter <;> simp [State.step, hw] at h ⊢
  exact h.symm

theorem wake_some (h : S.step .wake = some S') :
    S.waiter = .waiting ∧ S' = { S with waiter := .checking } := by
  cases hw : S.waiter <;> simp [State.step, hw] at h ⊢
  exact h.symm

theorem set_some (h : S.step (.set i) = some S') :
    S.calls i = .received ∧ S' =
      { S with
        quickReceived := true
        calls := Function.update S.calls i .flagged } := by
  cases hc : S.calls i <;> simp [State.step, hc] at h ⊢
  exact h.symm

theorem notify_some (h : S.step (.notify i) = some S') :
    S.calls i = .flagged ∧ S' =
      { S with
        waiter := S.waiter.notified
        calls := Function.update S.calls i .answered } := by
  cases hc : S.calls i <;> simp [State.step, hc] at h ⊢
  exact h.symm

end Steps

/-- The server thread tests the flag after `before`, finds it unset, and then
only calls of `Quit` go on. -/
def Tested (before during : List (Event ι)) : Prop :=
  (∃ T, run State.step State.start before = some T ∧ T.quickReceived = false) ∧
    ∀ e ∈ during, e.ofCall = true

/-- What the state says about the history of a run. -/
structure History (events : List (Event ι)) (S : State ι) : Prop where
  flag : ∀ i, S.calls i ≠ .received → S.quickReceived = true
  entering : S.waiter = .entering → ∃ before during,
    events = before ++ .check :: during ∧ Tested before during
  waiting : S.waiter = .waiting → ∃ before during after,
    events = before ++ .check :: (during ++ .sleep :: after) ∧ Tested before during ∧
      ∀ e ∈ after, ∃ i, e = .set i ∧ S.calls i = .flagged

theorem history_start : History [] (State.start : State ι) where
  flag i hi := absurd rfl hi
  entering h := by simp [State.start] at h
  waiting h := by simp [State.start] at h

theorem history_step {events : List (Event ι)} {e : Event ι} {S S' : State ι}
    (hrun : run State.step State.start events = some S) (h : History events S)
    (hstep : S.step e = some S') : History (events ++ [e]) S' := by
  cases e with
  | check =>
      obtain ⟨-, rfl⟩ := check_some hstep
      refine ⟨h.flag, fun hw => ?_, fun hw => ?_⟩
      · have hflag : S.quickReceived = false := by
          cases hq : S.quickReceived <;> simp [hq] at hw ⊢
        exact ⟨events, [], rfl, ⟨S, hrun, hflag⟩, by simp⟩
      · cases hq : S.quickReceived <;> simp [hq] at hw
  | sleep =>
      obtain ⟨hw, rfl⟩ := sleep_some hstep
      obtain ⟨before, during, rfl, htested⟩ := h.entering hw
      refine ⟨h.flag, fun hw => by simp at hw, fun _ => ?_⟩
      exact ⟨before, during, [], by simp, htested, by simp⟩
  | wake =>
      obtain ⟨-, rfl⟩ := wake_some hstep
      exact ⟨h.flag, fun hw => by simp at hw, fun hw => by simp at hw⟩
  | set i =>
      obtain ⟨-, rfl⟩ := set_some hstep
      refine ⟨fun _ _ => rfl, fun hw => ?_, fun hw => ?_⟩
      · obtain ⟨before, during, rfl, hflag, hcalls⟩ := h.entering hw
        refine ⟨before, during ++ [.set i], by simp, hflag, fun e he => ?_⟩
        rcases List.mem_append.mp he with he | he
        · exact hcalls e he
        · obtain rfl := List.mem_singleton.mp he
          rfl
      · obtain ⟨before, during, after, rfl, htested, hafter⟩ := h.waiting hw
        refine ⟨before, during, after ++ [.set i], by simp, htested, fun e he => ?_⟩
        rcases List.mem_append.mp he with he | he
        · obtain ⟨j, rfl, hj⟩ := hafter e he
          refine ⟨j, rfl, ?_⟩
          by_cases hji : j = i
          · subst hji
            exact Function.update_self ..
          · exact (Function.update_of_ne hji ..).trans hj
        · exact ⟨i, List.mem_singleton.mp he, Function.update_self ..⟩
  | notify i =>
      obtain ⟨hflagged, rfl⟩ := notify_some hstep
      have hflag : S.quickReceived = true := h.flag i (by simp [hflagged])
      refine ⟨fun _ _ => hflag, fun hw => ?_, fun hw => ?_⟩
      · have hw : S.waiter = .entering := by
          cases hs : S.waiter <;> simp [Waiter.notified, hs] at hw ⊢
        obtain ⟨before, during, rfl, htest, hcalls⟩ := h.entering hw
        refine ⟨before, during ++ [.notify i], by simp, htest, fun e he => ?_⟩
        rcases List.mem_append.mp he with he | he
        · exact hcalls e he
        · obtain rfl := List.mem_singleton.mp he
          rfl
      · cases hs : S.waiter <;> simp [Waiter.notified, hs] at hw

/-- All calls have been answered and the server thread is not going to test the
flag again. -/
def Asleep (S : State ι) : Prop :=
  (S.waiter = .entering ∨ S.waiter = .waiting) ∧ ∀ i, S.calls i = .answered

theorem asleep_step {e : Event ι} {S S' : State ι} (he : e ≠ .wake) (h : Asleep S)
    (hstep : S.step e = some S') : Asleep S' := by
  obtain ⟨hwaiter, hanswered⟩ := h
  cases e with
  | check =>
      obtain ⟨hw, -⟩ := check_some hstep
      simp [hw] at hwaiter
  | sleep =>
      obtain ⟨-, rfl⟩ := sleep_some hstep
      exact ⟨.inr rfl, hanswered⟩
  | wake => exact absurd rfl he
  | set i =>
      obtain ⟨hc, -⟩ := set_some hstep
      simp [hanswered i] at hc
  | notify i =>
      obtain ⟨hc, -⟩ := notify_some hstep
      simp [hanswered i] at hc

/-- Calls of `Quit` leave a thread that has tested the flag to enter its wait. -/
theorem entering_step {e : Event ι} {S S' : State ι} (he : e.ofCall = true)
    (h : S.waiter = .entering) (hstep : S.step e = some S') : S'.waiter = .entering := by
  cases e with
  | set i =>
      obtain ⟨-, rfl⟩ := set_some hstep
      exact h
  | notify i =>
      obtain ⟨-, rfl⟩ := notify_some hstep
      simp [Waiter.notified, h]
  | check => simp [Event.ofCall] at he
  | sleep => simp [Event.ofCall] at he
  | wake => simp [Event.ofCall] at he

theorem entering_of_tested {before during : List (Event ι)} {S : State ι}
    (h : Tested before during)
    (hrun : run State.step State.start (before ++ .check :: during) = some S) :
    S.waiter = .entering := by
  obtain ⟨⟨T, hbefore, hflag⟩, hcalls⟩ := h
  rw [run_rest hbefore] at hrun
  obtain ⟨U, hcheck, hduring⟩ := run_cons_some hrun
  obtain ⟨-, rfl⟩ := check_some hcheck
  exact kept (P := fun S : State ι => S.waiter = .entering) (fun _ _ _ => entering_step) hcalls
    (by simp [hflag]) hduring

/-- After any run in which every call of `Quit` has been answered, and there was
one, the server never ends without a spurious wakeup exactly if the run ends
with a test of the flag before the first call and all calls between this test
and the wait. -/
theorem quit_overlooked [Nonempty ι] {events : List (Event ι)} {S : State ι}
    (hrun : run State.step State.start events = some S) (hanswered : ∀ i, S.calls i = .answered) :
    (∀ later S', .wake ∉ later → run State.step S later = some S' → S'.waiter ≠ .released) ↔
      ∃ before during, Tested before during ∧ (events = before ++ .check :: during ∨
        events = before ++ .check :: (during ++ [.sleep])) := by
  have hhistory := history history_start (fun _ _ _ _ => history_step) hrun
  constructor
  · intro hnever
    cases hw : S.waiter with
    | checking =>
        obtain ⟨i⟩ := ‹Nonempty ι›
        have hflag := hhistory.flag i (by simp [hanswered i])
        have hcheck : run State.step S [.check] = some { S with waiter := .released } := by
          simp [run_singleton, State.step, hw, hflag]
        exact absurd rfl (hnever _ _ (by simp) hcheck)
    | entering =>
        obtain ⟨before, during, hevents, htested⟩ := hhistory.entering hw
        exact ⟨before, during, htested, .inl hevents⟩
    | waiting =>
        obtain ⟨before, during, after, hevents, htested, hafter⟩ := hhistory.waiting hw
        have hnone : after = [] := by
          rw [List.eq_nil_iff_forall_not_mem]
          intro e he
          obtain ⟨i, -, hi⟩ := hafter e he
          simp [hanswered i] at hi
        subst hnone
        exact ⟨before, during, htested, .inr hevents⟩
    | released => exact absurd hw (hnever [] S (by simp) rfl)
  · rintro ⟨before, during, htested, hevents⟩ later S' hwake hlater
    have hasleep : Asleep S := by
      refine ⟨?_, hanswered⟩
      rcases hevents with rfl | rfl
      · exact .inl (entering_of_tested htested hrun)
      · rw [← List.cons_append, ← List.append_assoc] at hrun
        obtain ⟨T, hbefore, hsleep⟩ := run_append_some hrun
        rw [run_singleton] at hsleep
        obtain ⟨-, rfl⟩ := sleep_some hsleep
        exact .inr rfl
    have hasleep' := kept (P := Asleep) (C := fun e => e ≠ .wake) (fun _ _ _ => asleep_step)
      (fun e he => ne_of_mem_of_not_mem he hwake) hasleep hlater
    intro hreleased
    simp [Asleep, hreleased] at hasleep'

/-- One call, and the server never ends. -/
theorem quit_overlooked_sample :
    ∃ S : State Unit,
      run State.step State.start [.check, .set (), .notify (), .sleep] = some S ∧
        ∀ later S', .wake ∉ later → run State.step S later = some S' → S'.waiter ≠ .released := by
  have hrun : run State.step State.start [.check, .set (), .notify (), .sleep] = some
      ⟨.waiting, true, Function.update (Function.update (fun _ => .received) () .flagged) ()
        .answered⟩ := rfl
  refine ⟨_, hrun, (quit_overlooked hrun fun _ => by simp).mpr ⟨[], [.set (), .notify ()], ?_, ?_⟩⟩
  · exact ⟨⟨_, rfl, rfl⟩, by simp [Event.ofCall]⟩
  · exact .inr rfl

end Tarracsh.ServerShutdown
