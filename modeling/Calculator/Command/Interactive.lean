import Calculator.Command.Output

/-!
# Interactive runs

A banner, and then one line after the other: a prompt, the line, its answer. The run ends at the
exit command or at the end of the input.
-/

namespace Calculator

/-- The text in front of every line that is read. -/
def prompt : String := "Enter: "

/-- The text at the start of an interactive run. -/
def Options.banner (o : Options) : String :=
  s!"Welcome to linecalc! Enter {o.exitCommand} at any time to exit\n" ++
  "Currently can add (+), subtract (-), multiply (*), divide (/), exponentiate (^), " ++
  "and group with parentheses ()\n" ++
  "Assign single-letter variables with x = 3+4 and use them in later lines\n"

/-- The next line of an input, without its end, and the input after it. -/
def readLine? (input : List Char) : Option (String × List Char) :=
  if input.isEmpty then
    none
  else
    let line := input.takeWhile (· ≠ '\n')
    match input.dropWhile (· ≠ '\n') with
    | [] => some (String.ofList line, [])
    | _ :: rest =>
      let line := if line.getLast? = some '\r' then line.dropLast else line
      some (String.ofList line, rest)

theorem length_lt_of_readLine? {input rest : List Char} {line : String}
    (h : readLine? input = some (line, rest)) : rest.length < input.length := by
  unfold readLine? at h
  split at h
  · cases h
  · rename_i hne
    have hpos : 0 < input.length := List.length_pos_iff.2 (by simpa using hne)
    have hle := (List.dropWhile_sublist (· ≠ '\n') (l := input)).length_le
    split at h <;> simp only [Option.some.injEq, Prod.mk.injEq] at h <;> obtain ⟨-, rfl⟩ := h
    · simpa using hpos
    · rename_i heq
      rw [heq] at hle
      exact hle

namespace Options

/-- One exchange: what is written for the next line, the session after it, and the input after it.
There is none at the end of the input and at the exit command. -/
def exchange? (o : Options) (s : Session) (input : List Char) :
    Option (Output × Session × List Char) :=
  match readLine? input with
  | none => none
  | some (line, rest) =>
    if line = o.exitCommand then
      none
    else
      let (answer, s) := s.answer line
      some (o.output answer, s, rest)

theorem length_lt_of_exchange? {o : Options} {s s' : Session} {output : Output}
    {input rest : List Char} (h : o.exchange? s input = some (output, s', rest)) :
    rest.length < input.length := by
  unfold exchange? at h
  split at h
  · cases h
  · rename_i hread
    split at h
    · cases h
    · cases h
      exact length_lt_of_readLine? hread

/-- What is written while an input is read line by line. -/
def converse (o : Options) (s : Session) (input : List Char) : Output :=
  { out := prompt } ++
    match _h : o.exchange? s input with
    | none => {}
    | some (output, s, rest) => output ++ o.converse s rest
termination_by input.length
decreasing_by exact length_lt_of_exchange? (by assumption)

/-- Runs on an input, line by line. -/
def runInteractive (o : Options) (input : String) : Output :=
  { out := o.banner } ++ o.converse o.session input.toList

end Options

end Calculator
