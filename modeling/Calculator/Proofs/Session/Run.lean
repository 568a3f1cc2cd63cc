import Mathlib.Data.List.Basic
import Calculator.Proofs.Variables
import Calculator.Session

/-!
# Runs of a session

A run is any sequence of calls. Each call changes the session by the assignment that its answer
reports, and by nothing else, so the assignments of a run tell what it has done.

* `Session.perform`, `Session.run`: one call, and all calls with their answers.
* `Session.perform_snd`: one call changes the session by its assignment.
* `Session.get?_run`, `Session.run_assignments`: what a run leaves in the variables, and what
  remains of it if all calls without an assignment are left out.
* `Session.run_effect`: all of this about one call and about every run.
-/

namespace Calculator

/-- A call to a session: any line, or a line that has to be an assignment. -/
inductive Call where
  | answer (line : String)
  | assign (line : String)
  deriving DecidableEq

/-- A call with its answer. -/
structure Event where
  call : Call
  answer : Answer
  deriving DecidableEq

namespace Event

/-- The variable that has a new value, and the value. -/
def assigned? (event : Event) : Option (Char × Float) :=
  match event.answer with
  | .ok (some (.assigned name value)) => some (name, value)
  | .ok (some (.value _)) | .ok none | .error _ => none

theorem assigned?_eq_some {event : Event} {name : Char} {value : Float} :
    event.assigned? = some (name, value) ↔ event.answer = .ok (some (.assigned name value)) := by
  unfold assigned?
  split <;> simp_all

theorem assigned?_eq_none {event : Event} :
    event.assigned? = none ↔ ∀ name value, event.answer ≠ .ok (some (.assigned name value)) := by
  simp only [Option.eq_none_iff_forall_ne_some, ne_eq, Prod.forall, assigned?_eq_some]

end Event

/-- The value that the last assignment to a variable gave it. -/
def lastValue? (events : List Event) (name : Char) : Option Float :=
  (events.filterMap Event.assigned?).reverse.lookup name

namespace Session

/-- The answer to a call, and the session after it. -/
def perform (s : Session) : Call → Answer × Session
  | .answer line => s.answer line
  | .assign line => ((s.assign line).1.map some, (s.assign line).2)

/-- All calls with their answers, and the session after them. -/
def run (s : Session) : List Call → List Event × Session
  | [] => ([], s)
  | call :: calls =>
    let (answer, s) := s.perform call
    let (events, s) := s.run calls
    (⟨call, answer⟩ :: events, s)

/-- The session after an event. -/
def after (s : Session) (event : Event) : Session :=
  match event.assigned? with
  | some (name, value) => { s with vars := s.vars.set name value }
  | none => s

variable {s : Session} {event : Event}

/-! ## One call -/

theorem after_of_none (h : event.assigned? = none) : s.after event = s := by
  rw [after, h]

theorem maxDepth_after (s : Session) (event : Event) : (s.after event).maxDepth = s.maxDepth := by
  unfold after
  split <;> rfl

/-- An event sets the variable that it assigns. -/
theorem get?_after (s : Session) (event : Event) (name : Char) :
    (s.after event).vars.get? name =
      (event.assigned?.toList.lookup name).or (s.vars.get? name) := by
  unfold after
  split
  · rename_i name' value h
    rw [h, Option.toList_some]
    exact s.vars.get?_set_eq_lookup name' name value
  · rename_i h
    rw [h]
    rfl

/-- An assignment line changes the session by its assignment. -/
theorem assign_snd (s : Session) (line : String) (call : Call) :
    (s.assign line).2 = s.after ⟨call, (s.assign line).1.map some⟩ := by
  unfold assign
  split
  · rfl
  · split <;> rfl

/-- A call changes the session by its assignment. -/
theorem perform_snd (s : Session) (call : Call) :
    (s.perform call).2 = s.after ⟨call, (s.perform call).1⟩ := by
  cases call with
  | assign line => exact s.assign_snd line _
  | answer line =>
    rw [perform, answer]
    split
    · rfl
    · split
      · exact s.assign_snd line _
      · refine (after_of_none ?_).symm
        cases s.evaluate line <;> rfl

/-! ## All calls -/

theorem run_cons (s : Session) (call : Call) (calls : List Call) :
    s.run (call :: calls) =
      (⟨call, (s.perform call).1⟩ :: ((s.perform call).2.run calls).1,
        ((s.perform call).2.run calls).2) := rfl

theorem answerAll_cons (s : Session) (line : String) (lines : List String) :
    s.answerAll (line :: lines) =
      ((s.answer line).1 :: ((s.answer line).2.answerAll lines).1,
        ((s.answer line).2.answerAll lines).2) := rfl

/-- The events of a run are the answers to its calls. -/
theorem map_call_run (s : Session) (calls : List Call) :
    (s.run calls).1.map Event.call = calls := by
  induction calls generalizing s with
  | nil => rfl
  | cons call calls ih => rw [run_cons, List.map_cons, ih]

theorem maxDepth_run (s : Session) (calls : List Call) :
    (s.run calls).2.maxDepth = s.maxDepth := by
  induction calls generalizing s with
  | nil => rfl
  | cons call calls ih => rw [run_cons, ih, perform_snd, maxDepth_after]

/-- A variable has the value of the last assignment to it, or the one from before the run. -/
theorem get?_run (s : Session) (calls : List Call) (name : Char) :
    (s.run calls).2.vars.get? name =
      (lastValue? (s.run calls).1 name).or (s.vars.get? name) := by
  induction calls generalizing s with
  | nil => rfl
  | cons call calls ih =>
    rw [run_cons, ih, perform_snd, get?_after, ← Option.or_assoc, lastValue?, lastValue?,
      ← List.lookup_append]
    congr 2
    cases h : Event.assigned? ⟨call, (s.perform call).1⟩ with
    | none => rw [List.filterMap_cons_none h, Option.toList_none, List.append_nil]
    | some p => rw [List.filterMap_cons_some h, Option.toList_some, List.reverse_cons]

/-- What remains of a run without the calls that assign nothing: the same answers to the other
calls, and the same session. -/
theorem run_assignments (s : Session) (calls : List Call) :
    let kept := (s.run calls).1.filter (·.assigned?.isSome)
    s.run (kept.map Event.call) = (kept, (s.run calls).2) := by
  induction calls generalizing s with
  | nil => rfl
  | cons call calls ih =>
    intro kept
    have hkept : kept = ((s.run (call :: calls)).1.filter (·.assigned?.isSome)) := rfl
    rw [run_cons] at hkept
    cases h : Event.assigned? ⟨call, (s.perform call).1⟩ with
    | none =>
      -- Without the call, those after it meet the session that they met before.
      rw [List.filter_cons_of_neg (by simp [h]), perform_snd, after_of_none h] at hkept
      rw [run_cons, perform_snd, after_of_none h, hkept]
      exact ih s
    | some p =>
      rw [List.filter_cons_of_pos (by simp [h])] at hkept
      rw [hkept, List.map_cons, run_cons, ih, run_cons]

/-- A call that assigns nothing leaves the session as it was, and any other call changes the one
variable that it reports. So after a run each variable has the value that was last reported for it,
and the calls that assign nothing can be left out of the run. -/
theorem run_effect :
    (∀ (s : Session) (call : Call),
      ((∀ name value, (s.perform call).1 ≠ .ok (some (.assigned name value))) →
        (s.perform call).2 = s) ∧
      ∀ name value, (s.perform call).1 = .ok (some (.assigned name value)) →
        (s.perform call).2.maxDepth = s.maxDepth ∧
        (s.perform call).2.vars.get? name = some value ∧
        ∀ other, other ≠ name → (s.perform call).2.vars.get? other = s.vars.get? other) ∧
    ∀ (s : Session) (calls : List Call),
      (s.run calls).1.map Event.call = calls ∧
      (s.run calls).2.maxDepth = s.maxDepth ∧
      (∀ name, (s.run calls).2.vars.get? name =
        (lastValue? (s.run calls).1 name).or (s.vars.get? name)) ∧
      let kept := (s.run calls).1.filter (·.assigned?.isSome)
      s.run (kept.map Event.call) = (kept, (s.run calls).2) := by
  refine ⟨fun s call => ⟨fun h => ?_, fun name value h => ?_⟩, fun s calls => ?_⟩
  · rw [perform_snd]
    exact after_of_none (Event.assigned?_eq_none.2 h)
  · have hassigned : Event.assigned? ⟨call, (s.perform call).1⟩ = some (name, value) :=
      Event.assigned?_eq_some.2 h
    rw [perform_snd]
    refine ⟨maxDepth_after s _, ?_, fun other hother => ?_⟩
    · rw [get?_after, hassigned]
      simp
    · rw [get?_after, hassigned, Option.toList_some, List.lookup_cons, beq_false_of_ne hother]
      rfl
  · exact ⟨s.map_call_run calls, s.maxDepth_run calls, s.get?_run calls, s.run_assignments calls⟩

/-- Of a failed assignment, one that succeeds, a blank line, a call that is no assignment and an
expression, only the second leaves a trace. -/
theorem run_effect_division :
    let s : Session := { vars := Variables.set ∅ 'x' 2 }
    let failed : Call := .answer "y = x/0"
    let stored : Call := .answer "x = x+1"
    let calls := [failed, stored, .answer " ", .assign "2x", .answer "2x"]
    ((s.perform failed).1 = .error (.evaluation .divisionByZero) ∧ (s.perform failed).2 = s) ∧
    ((s.perform stored).1 = .ok (some (.assigned 'x' 3)) ∧
      (s.perform stored).2.vars.get? 'x' = some 3 ∧ (s.perform stored).2.vars.get? 'y' = none) ∧
    (s.run calls).2.vars.get? 'x' = some 3 ∧
    s.run [stored] = ([⟨stored, .ok (some (.assigned 'x' 3))⟩], (s.run calls).2) := by
  intro s failed stored calls
  obtain ⟨hcall, hrun⟩ := run_effect
  have hfailed : (s.perform failed).1 = .error (.evaluation .divisionByZero) := by decide +kernel
  have hstored : (s.perform stored).1 = .ok (some (.assigned 'x' 3)) := by decide +kernel
  obtain ⟨-, hx, hother⟩ := (hcall s stored).2 'x' 3 hstored
  obtain ⟨-, -, hlast, hkept⟩ := hrun s calls
  have hy : s.vars.get? 'y' = none := by decide +kernel
  have hvalue : lastValue? (s.run calls).1 'x' = some 3 := by decide +kernel
  have hevents : (s.run calls).1.filter (·.assigned?.isSome) =
      [⟨stored, .ok (some (.assigned 'x' 3))⟩] := by decide +kernel
  refine ⟨⟨hfailed, (hcall s failed).1 fun name value h => ?_⟩,
    ⟨hstored, hx, (hother 'y' (by decide)).trans hy⟩, ?_, ?_⟩
  · rw [hfailed] at h
    cases h
  · rw [hlast, hvalue]
    rfl
  · rw [hevents] at hkept
    exact hkept

end Session

end Calculator
