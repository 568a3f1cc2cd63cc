import Mathlib.Data.List.Nodup
import Mathlib.Data.List.Perm.Subperm
import Calculator.Proofs.Session.Dependence

/-!
# The names of a session's variables

A name is found in front of an equals sign and is read back by a line of its own. Both ask for an
ASCII letter, so every variable of a session that started without any can be read.

* `Assignment.target?`: the variable that a line names for an assignment.
* `Variables.Lettered`: all variables are letters; `Lettered.size_le` counts them.
* `Session.lettered_perform`, `Session.lettered_run`: one call and all calls keep to letters.
* `Session.answer_singleton`: the answer to a line that is one variable.
* `Session.variables_of_run`: all of this about the sessions that a run leads to.
-/

namespace Calculator

/-! ## The name of an assignment -/

namespace Assignment

variable {vars : Variables} {line : String}

/-- The variable that a line names for an assignment: the first letter before its equals sign. -/
def target? (line : String) : Option Char :=
  if '=' ∈ line.toList then name? (line.toList.takeWhile (· ≠ '=')) else none

theorem isAlpha_of_target? {name : Char} (h : target? line = some name) :
    name.isAlpha = true := by
  unfold target? at h
  split at h
  · exact List.find?_some h
  · cases h

theorem target?_of_ofLine {a : Assignment} (h : ofLine vars line = .ok a) :
    target? line = some a.name := by
  unfold ofLine at h
  split at h
  · cases h
  · rename_i c source hs
    have hmem : '=' ∈ line.toList := by
      by_contra hmem
      rw [List.dropWhile_ne_of_not_mem hmem] at hs
      cases hs
    rw [target?, if_pos hmem]
    split at h
    · cases h
    · split at h
      · cases h
      · rename_i hname
        split at h
        · cases h
          exact hname
        · cases h

end Assignment

/-! ## Letters -/

namespace Variables

variable {vars : Variables}

/-- All variables are letters. -/
def Lettered (vars : Variables) : Prop :=
  ∀ name, vars.contains name = true → name.isAlpha = true

theorem lettered_empty : Lettered ∅ := by
  intro name h
  rw [contains_eq_isSome, get?_empty] at h
  cases h

/-- There are no more variables than letters. -/
theorem Lettered.size_le (h : vars.Lettered) : vars.size ≤ 52 := by
  have hnodup : (vars.table.keys.map Char.toNat).Nodup :=
    Std.ExtTreeMap.nodup_keys.map fun _ _ => Char.toNat_inj.1
  have hcodes : vars.table.keys.map Char.toNat ⊆ List.range' 65 26 ++ List.range' 97 26 := by
    intro code hcode
    obtain ⟨name, hname, rfl⟩ := List.mem_map.1 hcode
    have := Lexeme.toNat_of_isAlpha (h name (Std.ExtTreeMap.mem_keys.1 hname))
    rw [List.mem_append, List.mem_range'_1, List.mem_range'_1]
    omega
  have hlength := (List.subperm_of_subset hnodup hcodes).length_le
  rwa [List.length_map, Std.ExtTreeMap.length_keys] at hlength

end Variables

/-- The line of a call. -/
def Call.line : Call → String
  | answer line | assign line => line

namespace Session

variable {s : Session} {line : String} {name : Char} {value : Float} {call : Call}

theorem target?_of_assign (h : (s.assign line).1 = .ok (.assigned name value)) :
    Assignment.target? line = some name := by
  unfold assign at h
  split at h
  · cases h
  · rename_i hline
    split at h
    · cases h
    · cases h
      exact Assignment.target?_of_ofLine hline

/-- A call assigns the variable that its line names. -/
theorem target?_of_perform (h : (s.perform call).1 = .ok (some (.assigned name value))) :
    Assignment.target? call.line = some name := by
  have hassign : ∀ line, (s.assign line).1.map some = .ok (some (.assigned name value)) →
      Assignment.target? line = some name := by
    intro line hline
    cases ha : (s.assign line).1 with
    | error e => rw [ha] at hline; cases hline
    | ok outcome =>
      rw [ha] at hline
      cases hline
      exact target?_of_assign ha
  cases call with
  | assign line => exact hassign line h
  | answer line =>
    rw [perform, answer] at h
    split at h
    · cases h
    · split at h
      · exact hassign line h
      · cases he : s.evaluate line with
        | error e => rw [he] at h; cases h
        | ok x => rw [he] at h; cases h

/-- A call leaves all other variables alone. -/
theorem get?_perform_of_ne (h : Assignment.target? call.line ≠ some name) :
    (s.perform call).2.vars.get? name = s.vars.get? name := by
  rw [perform_snd, get?_after]
  cases ha : Event.assigned? ⟨call, (s.perform call).1⟩ with
  | none => rfl
  | some p =>
    have ht := target?_of_perform (Event.assigned?_eq_some.1 ha)
    have hne : name ≠ p.1 := fun he => h (he ▸ ht)
    rw [Option.toList_some, List.lookup_cons, beq_false_of_ne hne]
    rfl

theorem lettered_perform (h : s.vars.Lettered) (call : Call) :
    (s.perform call).2.vars.Lettered := by
  intro name hname
  by_cases ht : Assignment.target? call.line = some name
  · exact Assignment.isAlpha_of_target? ht
  · rw [Variables.contains_eq_isSome, get?_perform_of_ne ht] at hname
    exact h name (by rwa [Variables.contains_eq_isSome])

theorem lettered_run (h : s.vars.Lettered) (calls : List Call) :
    (s.run calls).2.vars.Lettered := by
  induction calls generalizing s with
  | nil => exact h
  | cons call calls ih =>
    rw [run_cons]
    exact ih (lettered_perform h call)

end Session

/-! ## Reading a variable -/

section Reading

variable {vars : Variables} {name : Char} {value : Float}

theorem isBlank_singleton (ha : name.isAlpha = true) : isBlank (String.singleton name) = false := by
  have hl := Lexeme.ofChar?_of_isAlpha ha
  exact isBlank_eq_false (by simp [significant, Lexeme.isSkipped_eq_false hl]) hl

/-- A line that is a letter with a value. -/
theorem tokenize_singleton (ha : name.isAlpha = true) (hc : vars.contains name = true) :
    tokenize vars (String.singleton name) = .ok ⟨[.var name]⟩ := by
  have hl := Lexeme.ofChar?_of_isAlpha ha
  have hplaces : Lexeme.occurrences (String.singleton name) =
      [⟨.ok (.letter name), 0, 0 + name.utf8Size⟩] := by
    rw [Lexeme.occurrences, String.toList_singleton]
    simp [Lexeme.occurrencesFrom, Lexeme.isSkipped_eq_false hl, hl]
  have hstep : ∀ start stop,
      Scan.stepAt vars {} ⟨.ok (.letter name), start, stop⟩ = .ok { emitted := [.var name] } := by
    intro start stop
    simp only [Scan.stepAt, Scan.step, Scan.readLetter, if_pos hc]
    rfl
  rw [tokenize, isBlank_singleton ha, if_neg Bool.false_ne_true, hplaces, List.foldlM_cons, hstep]
  rfl

/-- The value of a variable is the one that it has, whatever the limit is. -/
theorem evaluate_var (h : vars.get? name = some value) (limit : Nat) :
    evaluate limit vars [.var name] = .ok value := by
  have hterms : Term.ofTokens vars [.var name] = .ok [.number value] := by
    simp [Term.ofTokens, Term.ofToken, h]
  rw [evaluate, hterms]
  rfl

/-- A line that is a variable is answered with its value. -/
theorem Session.answer_singleton {s : Session} (ha : name.isAlpha = true)
    (h : s.vars.get? name = some value) :
    s.answer (String.singleton name) = (.ok (some (.value value)), s) := by
  have hequals : (String.singleton name).toList.contains '=' = false := by
    have hne : '=' ≠ name := by rintro rfl; cases ha
    simpa using hne
  rw [answer, isBlank_singleton ha, if_neg Bool.false_ne_true, hequals,
    if_neg Bool.false_ne_true, evaluate, tokenize_singleton ha (Variables.contains_of_get? h)]
  simp only [evaluate_var h]
  rfl

end Reading

namespace Session

/-- In every session that a run from an empty table leads to, all variables are letters, so there
are at most 52 of them. None of them is ever lost, and the line that is its name is answered with
its value under every limit. So a variable is read back right after it was assigned. -/
theorem variables_of_run (maxDepth : Nat) (calls : List Call) :
    let s := (run { maxDepth } calls).2
    (∀ name, s.vars.contains name = true → name.isAlpha = true) ∧
    s.vars.size ≤ 52 ∧
    (∀ name, s.vars.contains name = true →
      ∀ later, (s.run later).2.vars.contains name = true) ∧
    (∀ name value, (name, value) ∈ s.vars.entries → ∀ depth,
      let t : Session := { s with maxDepth := depth }
      t.answer (String.singleton name) = (.ok (some (.value value)), t)) ∧
    ∀ call name value, (s.perform call).1 = .ok (some (.assigned name value)) →
      ((s.perform call).2.answer (String.singleton name)).1 = .ok (some (.value value)) := by
  intro s
  have hs : s.vars.Lettered := lettered_run Variables.lettered_empty calls
  refine ⟨hs, hs.size_le, fun name h later => contains_run h later, ?_, ?_⟩
  · intro name value he depth t
    have hget := Variables.mem_entries.1 he
    exact answer_singleton (hs name (Variables.contains_of_get? hget)) hget
  · intro call name value h
    have hassigned : Event.assigned? ⟨call, (s.perform call).1⟩ = some (name, value) :=
      Event.assigned?_eq_some.2 h
    have hget : (s.perform call).2.vars.get? name = some value := by
      rw [perform_snd, get?_after, hassigned]
      simp
    rw [answer_singleton (Assignment.isAlpha_of_target? (target?_of_perform h)) hget]

/-- A variable with a negative value is read back even if no groups are allowed, also after an
assignment to another one has failed. -/
theorem variables_of_run_negative :
    let calls : List Call := [.answer "x = 3-4", .answer "x = 1/0", .assign "2y = x"]
    let s := (run { maxDepth := 0 } calls).2
    let t : Session := { s with maxDepth := 5 }
    let call : Call := .answer "x = 2y"
    ('y'.isAlpha = true ∧ ∀ later, (s.run later).2.vars.contains 'y' = true) ∧
    t.answer (String.singleton 'y') = (.ok (some (.value (-1))), t) ∧
    (s.perform call).1 = .ok (some (.assigned 'x' (-2))) ∧
    ((s.perform call).2.answer (String.singleton 'x')).1 = .ok (some (.value (-2))) := by
  intro calls s t call
  obtain ⟨hletter, -, hkept, hread, hassigned⟩ := variables_of_run 0 calls
  have hget : s.vars.get? 'y' = some (-1) := by decide +kernel
  have hcontains : s.vars.contains 'y' = true := by decide +kernel
  have hcall : (s.perform call).1 = .ok (some (.assigned 'x' (-2))) := by decide +kernel
  exact ⟨⟨hletter 'y' hcontains, hkept 'y' hcontains⟩,
    hread 'y' (-1) (Variables.mem_entries.2 hget) 5, hcall, hassigned call 'x' (-2) hcall⟩

end Session

end Calculator
