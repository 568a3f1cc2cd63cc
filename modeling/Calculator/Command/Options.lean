import Calculator.Evaluation

/-!
# Options

The settings of a run, and how they are read from the arguments of the command line.

* An argument that starts with `-` names options: `--name` one by its long name, `-ab` several by
  their letters. `-` alone and all other arguments are operands, and so is all that follows `--`.
* A value follows its option as `--name=value` or as the next argument, which then must not look
  like an option.
* No option may be repeated, and there is at most one operand.
* An option that asks about the program ends the reading.
-/

namespace Calculator

/-- The settings of a run. -/
structure Options where
  /-- The operand is the path of a script. -/
  file : Bool := false
  /-- Assignments are printed too. -/
  echo : Bool := false
  /-- A log is asked for. It changes no answer, and this program keeps none. -/
  verbose : Bool := false
  /-- The line that ends the run. -/
  exitCommand : String := "E"
  /-- How deeply groups may nest. -/
  maxDepth : Nat := defaultMaxDepth
  /-- The operand: a line, or the path of a script. -/
  operand : Option String := none
  deriving DecidableEq

/-- Why arguments cannot be understood. -/
inductive UsageError where
  | unknownOption (text : String)
  | unexpectedValue (name : String)
  | missingValue (name : String)
  | invalidDepth (text : String)
  | repeatedOption
  | unexpectedOperand (text : String)
  deriving DecidableEq

/-- The text of a usage error. -/
def UsageError.message : UsageError → String
  | unknownOption text => s!"error: unknown option '{text}'"
  | unexpectedValue name => s!"error: option '--{name}' takes no value"
  | missingValue name => s!"error: option '--{name}' needs a value"
  | invalidDepth text => s!"error: '{text}' is not a nesting depth"
  | repeatedOption => "error: an option is given twice"
  | unexpectedOperand text => s!"error: unexpected argument '{text}'"

/-- What may be asked about the program instead of running it. -/
inductive Inquiry where
  | help
  | version
  deriving DecidableEq

/-- Why the arguments are not read to their end. -/
inductive Stop where
  | inquiry (question : Inquiry)
  | usage (error : UsageError)
  deriving DecidableEq

/-- An argument, as far as its form tells. -/
inductive Argument where
  | endOfOptions
  | long (name : String) (value : Option String)
  | short (letters : List Char)
  | operand (text : String)
  deriving DecidableEq

/-- The form of an argument. -/
def Argument.ofString (text : String) : Argument :=
  match text.toList with
  | ['-', '-'] => .endOfOptions
  | '-' :: '-' :: cs =>
    let name := String.ofList (cs.takeWhile (· ≠ '='))
    match cs.dropWhile (· ≠ '=') with
    | [] => .long name none
    | _ :: value => .long name (some (String.ofList value))
  | '-' :: c :: cs => .short (c :: cs)
  | _ => .operand text

/-- An option that is on or off. -/
inductive Flag where
  | file
  | echo
  | verbose
  deriving DecidableEq

/-- An option with a value. -/
inductive Setting where
  | exitCommand
  | maxDepth
  deriving DecidableEq

/-- What the name of an option stands for. -/
inductive OptionName where
  | flag (flag : Flag)
  | setting (setting : Setting)
  | inquiry (question : Inquiry)
  deriving DecidableEq

/-- The option with a long name. -/
def OptionName.ofLong? : String → Option OptionName
  | "file" => some (.flag .file)
  | "echo" => some (.flag .echo)
  | "verbose" => some (.flag .verbose)
  | "exit-command" => some (.setting .exitCommand)
  | "max-depth" => some (.setting .maxDepth)
  | "help" => some (.inquiry .help)
  | "version" => some (.inquiry .version)
  | _ => none

/-- The option with a letter; options with a value have none. -/
def OptionName.ofLetter? : Char → Option OptionName
  | 'f' => some (.flag .file)
  | 'e' => some (.flag .echo)
  | 'v' => some (.flag .verbose)
  | 'h' => some (.inquiry .help)
  | 'V' => some (.inquiry .version)
  | _ => none

/-- A nesting depth: decimal digits after an optional plus sign, below `2 ^ 64`. -/
def depth? (text : String) : Option Nat :=
  let digits := match text.toList with
    | '+' :: cs => cs
    | cs => cs
  if digits.isEmpty || !digits.all Char.isDigit then
    none
  else
    let value := digits.foldl (fun n c => 10 * n + (c.toNat - '0'.toNat)) 0
    if value < Nat.pow 2 64 then some value else none

/-- What has been read of the arguments. -/
structure Given where
  flags : List Flag := []
  exitCommand : Option String := none
  maxDepth : Option Nat := none
  operand : Option String := none

namespace Given

/-- Switches a flag on. -/
def addFlag (g : Given) (flag : Flag) : Except Stop Given :=
  if flag ∈ g.flags then .error (.usage .repeatedOption)
  else .ok { g with flags := flag :: g.flags }

/-- Gives a value to a setting. -/
def addSetting (g : Given) (setting : Setting) (value : String) : Except Stop Given :=
  match setting with
  | .exitCommand =>
    if g.exitCommand.isSome then .error (.usage .repeatedOption)
    else .ok { g with exitCommand := some value }
  | .maxDepth =>
    match depth? value with
    | none => .error (.usage (.invalidDepth value))
    | some depth =>
      if g.maxDepth.isSome then .error (.usage .repeatedOption)
      else .ok { g with maxDepth := some depth }

/-- Takes the operand. -/
def addOperand (g : Given) (text : String) : Except Stop Given :=
  if g.operand.isSome then .error (.usage (.unexpectedOperand text))
  else .ok { g with operand := some text }

/-- Takes the option with a letter. -/
def addLetter (g : Given) (letter : Char) : Except Stop Given :=
  match OptionName.ofLetter? letter with
  | some (.flag flag) => g.addFlag flag
  | some (.inquiry question) => .error (.inquiry question)
  | _ => .error (.usage (.unknownOption s!"-{letter}"))

/-- Takes the arguments one after the other. -/
def addAll (g : Given) : List String → Except Stop Given
  | [] => .ok g
  | text :: rest =>
    match Argument.ofString text with
    | .endOfOptions => rest.foldlM addOperand g
    | .operand text => do
      let g ← g.addOperand text
      g.addAll rest
    | .short letters => do
      let g ← letters.foldlM addLetter g
      g.addAll rest
    | .long name (some value) =>
      match OptionName.ofLong? name with
      | some (.setting setting) => do
        let g ← g.addSetting setting value
        g.addAll rest
      | some _ => .error (.usage (.unexpectedValue name))
      | none => .error (.usage (.unknownOption text))
    | .long name none =>
      match OptionName.ofLong? name with
      | some (.flag flag) => do
        let g ← g.addFlag flag
        g.addAll rest
      | some (.inquiry question) => .error (.inquiry question)
      | some (.setting setting) =>
        match rest with
        | [] => .error (.usage (.missingValue name))
        | value :: rest =>
          match Argument.ofString value with
          | .operand value => do
            let g ← g.addSetting setting value
            g.addAll rest
          | _ => .error (.usage (.missingValue name))
      | none => .error (.usage (.unknownOption text))

/-- The settings, with the defaults for what is not given. -/
def options (g : Given) : Options :=
  let defaults : Options := {}
  { file := .file ∈ g.flags
    echo := .echo ∈ g.flags
    verbose := .verbose ∈ g.flags
    exitCommand := g.exitCommand.getD defaults.exitCommand
    maxDepth := g.maxDepth.getD defaults.maxDepth
    operand := g.operand }

end Given

/-- The settings that the arguments of a command line give. -/
def Options.ofArgs (args : List String) : Except Stop Options :=
  (({} : Given).addAll args).map Given.options

end Calculator
