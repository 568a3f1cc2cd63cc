import Calculator.Proofs.Command.Script
import Calculator.Proofs.Separator

/-!
# Interactive runs and scripts

An interactive run cuts its input into the lines that a script with the same text has, and writes
for each of them what the script writes, after a prompt. The two runs stop at the same line and
answer each line in the same session, but only the script fails when a line is refused.

* `readLine?_nil`, `readLine?_last`, `readLine?_lineFeed`, `readLine?_returnLineFeed`: what is read
  from an input. The proofs about runs use nothing else about the reader.
* `Options.exchange?_append`: an exchange needs no more of the input than one line.
  `Options.converse_lineFeed`: so the input may as well come line by line.
* `Options.transcript_eq_written`: what a script writes, answer by answer.
* `Cut.converse_eq`: what an interactive run writes, answer by answer.
* `runCommand_interactive`: the two runs side by side.
-/

namespace Calculator

variable {line rest input : List Char}

/-! ## One line -/

/-- At the end of the input nothing is read. -/
theorem readLine?_nil : readLine? [] = none := rfl

/-- A last line without an end is read as it is. -/
theorem readLine?_last (hne : line ≠ []) (hline : '\n' ∉ line) :
    readLine? line = some (String.ofList line, []) := by
  rw [readLine?, if_neg (by simpa using hne)]
  simp only [List.takeWhile_ne_of_not_mem hline, List.dropWhile_ne_of_not_mem hline]

/-- A line is read without the line feed that ends it. -/
theorem readLine?_lineFeed (hline : '\n' ∉ line) (hlast : line.getLast? ≠ some '\r')
    (rest : List Char) :
    readLine? (line ++ '\n' :: rest) = some (String.ofList line, rest) := by
  rw [readLine?, if_neg (by simp)]
  simp only [List.takeWhile_ne_append hline, List.dropWhile_ne_append hline, if_neg hlast]

/-- A line is read without the carriage return and the line feed that end it. -/
theorem readLine?_returnLineFeed (hline : '\n' ∉ line) (rest : List Char) :
    readLine? (line ++ '\r' :: '\n' :: rest) = some (String.ofList line, rest) := by
  have hreturn : '\n' ∉ line ++ ['\r'] := by simpa using hline
  rw [← List.singleton_append, ← List.append_assoc, readLine?, if_neg (by simp)]
  simp only [List.takeWhile_ne_append hreturn, List.dropWhile_ne_append hreturn,
    List.getLast?_concat, if_true, List.dropLast_concat]

/-- What is read of a line does not depend on the input after it. -/
theorem readLine?_append (hline : '\n' ∉ line) (rest : List Char) :
    readLine? (line ++ '\n' :: rest) =
      (readLine? (line ++ ['\n'])).map fun (text, _) => (text, rest) := by
  rw [readLine?, readLine?, if_neg (by simp), if_neg (by simp)]
  simp only [List.takeWhile_ne_append hline, List.dropWhile_ne_append hline, Option.map_some]

namespace Options

/-- An exchange on a line alone is that on the whole input, up to what is left of the input. -/
theorem exchange?_append (hline : '\n' ∉ line) (rest : List Char) (o : Options) (s : Session) :
    o.exchange? s (line ++ '\n' :: rest) =
      (o.exchange? s (line ++ ['\n'])).map fun (output, s, _) => (output, s, rest) := by
  rw [exchange?, exchange?, readLine?_append hline]
  cases readLine? (line ++ ['\n']) with
  | none => rfl
  | some read =>
    by_cases hexit : read.1 = o.exitCommand
    · simp only [Option.map_some, if_pos hexit, Option.map_none]
    · simp only [Option.map_some, if_neg hexit]

/-! ## All lines -/

theorem converse_eq (o : Options) (s : Session) (input : List Char) :
    o.converse s input = { out := prompt } ++
      match o.exchange? s input with
      | none => {}
      | some (output, s, rest) => output ++ o.converse s rest := by
  rw [converse]
  split
  · rename_i he
    rw [he]
  · rename_i he
    rw [he]

/-- The input may as well come line by line: a round reads one line, and the rest of the run is the
run on the rest of the input. -/
theorem converse_lineFeed (hline : '\n' ∉ line) (rest : List Char) (o : Options) (s : Session) :
    o.converse s (line ++ '\n' :: rest) = { out := prompt } ++
      match o.exchange? s (line ++ ['\n']) with
      | none => {}
      | some (output, s, _) => output ++ o.converse s rest := by
  rw [converse_eq, exchange?_append hline]
  cases o.exchange? s (line ++ ['\n']) with
  | none => rfl
  | some _ => rfl

theorem converse_of_none (h : readLine? input = none) (o : Options) (s : Session) :
    o.converse s input = { out := prompt } := by
  rw [converse_eq, exchange?, h]
  rfl

theorem converse_of_some {line : String} (h : readLine? input = some (line, rest)) (o : Options)
    (s : Session) :
    o.converse s input = { out := prompt } ++
      if line = o.exitCommand then {}
      else o.output (s.answer line).1 ++ o.converse (s.answer line).2 rest := by
  rw [converse_eq, exchange?, h]
  by_cases hexit : line = o.exitCommand
  · simp only [if_pos hexit]
  · simp only [if_neg hexit]

/-- What is written for some answers, stream by stream, with a text in front of each answer. -/
def written (o : Options) (lead : String) (answers : List Answer) : Output where
  out := String.join (answers.map fun answer => lead ++ (o.output answer).out)
  err := String.join (answers.map fun answer => (o.output answer).err)

/-- A script writes for its answers one after the other. -/
theorem transcript_eq_written (o : Options) (answers : List Answer) :
    transcript o.echo answers = o.written "" answers := by
  induction answers with
  | nil => rfl
  | cons answer answers ih =>
    rw [← output_append, ih, written, written, List.map_cons, List.map_cons, String.join_cons,
      String.join_cons, String.empty_append]
    rfl

/-- What is written for some lines, up to the exit command: a prompt in front of each of them, and
one after the last. -/
def conversation (o : Options) (s : Session) (ls : List String) : Output :=
  let written := o.written prompt (s.answerAll (ls.takeWhile (· ≠ o.exitCommand))).1
  ⟨written.out ++ prompt, written.err⟩

theorem conversation_cons (o : Options) (s : Session) (line : String) (ls : List String) :
    o.conversation s (line :: ls) = { out := prompt } ++
      if line = o.exitCommand then {}
      else o.output (s.answer line).1 ++ o.conversation (s.answer line).2 ls := by
  by_cases hexit : line = o.exitCommand
  · rw [if_pos hexit, conversation, List.takeWhile_cons_of_neg (by simpa using hexit)]
    rfl
  · rw [if_neg hexit, conversation, List.takeWhile_cons_of_pos (by simpa using hexit),
      Session.answerAll_cons]
    simp only [written, List.map_cons, String.join_cons, String.append_assoc]
    rfl

end Options

/-- An interactive run takes the lines of its input one after the other. -/
theorem Cut.converse_eq {ls : List String} (h : Cut input ls) (o : Options) (s : Session) :
    o.converse s input = o.conversation s ls := by
  have hnil : ∀ s : Session, o.converse s [] = o.conversation s [] :=
    Options.converse_of_none readLine?_nil o
  induction h generalizing s with
  | nil => exact hnil s
  | last hne hline =>
    rw [Options.converse_of_some (readLine?_last hne hline), Options.conversation_cons, hnil]
  | lineFeed hline hlast _ ih =>
    rw [Options.converse_of_some (readLine?_lineFeed hline hlast _), Options.conversation_cons, ih]
  | returnLineFeed hline _ ih =>
    rw [Options.converse_of_some (readLine?_returnLineFeed hline _), Options.conversation_cons, ih]

/-- A run on the standard input and a run on a script with the same text, both with the same exit
command, limit and echo. The script writes, for each line before the exit command, its answer in
the session that the lines before it have left. The interactive run writes the banner, then the
same texts, each after a prompt, and a last prompt. What the two write to the other stream is the
same, and the interactive run always succeeds. -/
theorem runCommand_interactive :
    (∀ file echo exitCommand maxDepth, maxDepth < Nat.pow 2 64 →
      ∃ args, Options.ofArgs args = .ok { file, echo, exitCommand, maxDepth }) ∧
    ∀ (readFile : String → Option String) args scriptArgs text input file echo exitCommand maxDepth
      path,
      Options.ofArgs args = .ok { file, echo, exitCommand, maxDepth } →
      Options.ofArgs scriptArgs =
        .ok { file := true, echo, exitCommand, maxDepth, operand := some path } →
      readFile path = some text →
      let o : Options := { file, echo, exitCommand, maxDepth }
      let interactive := runCommand readFile args text
      let script := runCommand readFile scriptArgs input
      let processed := (lines text).takeWhile (· ≠ exitCommand)
      ∃ written : List String,
        (∀ i : Nat, written[i]? = processed[i]?.map fun line =>
          let s := (processed.take i).foldl (fun s line => (s.answer line).2) o.session
          (o.output (s.answer line).1).out) ∧
        script.output.out = String.join written ∧
        interactive.output.out = o.banner ++ String.join (written.map (prompt ++ ·)) ++ prompt ∧
        interactive.output.err = script.output.err ∧
        interactive.exitCode = 0 := by
  refine ⟨fun file echo exitCommand maxDepth h => ⟨_, Options.ofArgs_toArgs h⟩, ?_⟩
  intro readFile args scriptArgs text input file echo exitCommand maxDepth path hargs hscript hfile
    o interactive script processed
  let answers := (o.session.answerAll processed).1
  have hinteractive : interactive =
      ⟨{ out := o.banner } ++ o.conversation o.session (lines text), 0⟩ := by
    have hcut : Cut text.toList (lines text) := lines_eq_iff.1 rfl
    rw [← hcut.converse_eq]
    simp only [interactive, runCommand, hargs]
    rfl
  have hout : script.output = o.written "" answers := by
    have hbind : Option.bind (some path) readFile = some text := hfile
    rw [← Options.transcript_eq_written]
    simp only [script, runCommand, hscript, hbind]
    rw [Options.run_script rfl rfl]
    rfl
  rw [hinteractive, hout]
  refine ⟨answers.map fun answer => (o.output answer).out, fun i => ?_, ?_, ?_, ?_, rfl⟩
  · rw [List.getElem?_map, Session.getElem?_answerAll, Option.map_map]
    rfl
  · simp only [Options.written, String.empty_append]
  · change o.banner ++ _ = _
    rw [String.append_assoc, List.map_map]
    rfl
  · exact String.empty_append

/-- A carriage return, an empty line, lines that are refused, and a last line without an end. The
script fails where the interactive run succeeds. -/
theorem runCommand_interactive_division :
    let args := ["--exit-command", "quit", "-e", "--max-depth=0"]
    let scriptArgs := ["-ef", "sums", "--exit-command", "quit", "--max-depth=0"]
    let o : Options := { echo := true, exitCommand := "quit", maxDepth := 0 }
    let text := "x = 2\r\n1/0\n\n(x)\n2x"
    let readFile := fun path => if path = "sums" then some text else none
    let interactive := runCommand readFile args text
    let script := runCommand readFile scriptArgs ""
    (o.maxDepth < Nat.pow 2 64 ∧ ∃ args, Options.ofArgs args = .ok o) ∧
    Options.ofArgs args = .ok o ∧
    Options.ofArgs scriptArgs = .ok { o with file := true, operand := some "sums" } ∧
    readFile "sums" = some text ∧
    script.output.out = "x = 2\n=4\n" ∧ script.exitCode = 1 ∧
    interactive.output.out = o.banner ++
      "Enter: x = 2\nEnter: Enter: Enter: Enter: =4\nEnter: " ∧
    interactive.output.err = script.output.err ∧
    interactive.exitCode = 0 := by
  intro args scriptArgs o text readFile interactive script
  obtain ⟨hgiven, hrun⟩ := runCommand_interactive
  have hargs : Options.ofArgs args = .ok o := by decide +kernel
  have hscript : Options.ofArgs scriptArgs =
      .ok { o with file := true, operand := some "sums" } := by decide +kernel
  have hfile : readFile "sums" = some text := if_pos rfl
  obtain ⟨written, hwritten, hout, hinteractive, herr, hcode⟩ :=
    hrun readFile args scriptArgs text "" false true "quit" 0 "sums" hargs hscript hfile
  have hprocessed : (lines text).takeWhile (· ≠ "quit") = ["x = 2", "1/0", "", "(x)", "2x"] := by
    decide +kernel
  have hlist : written = ["x = 2\n", "", "", "", "=4\n"] := by
    refine List.ext_getElem? fun i => ?_
    rw [hwritten, hprocessed]
    match i with
    | 0 | 1 | 2 | 3 | 4 => decide +kernel
    | i + 5 => rfl
  rw [hlist] at hout hinteractive
  refine ⟨⟨by decide, hgiven false true "quit" 0 (by decide)⟩, hargs, hscript, hfile, hout, ?_,
    ?_, herr, hcode⟩
  · decide +kernel
  · rw [hinteractive]
    decide +kernel

end Calculator
