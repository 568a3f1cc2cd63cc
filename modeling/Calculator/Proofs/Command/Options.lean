import Calculator.Command.Options

/-!
# All options can be given

For all options there are arguments that are read as them, whatever the exit command and the operand
are. Only a limit that does not fit a word cannot be given.

* `depth?_repr`: the digits of a limit are read as the limit.
* `Given.addAll_flag`, `Given.addAll_setting`: the arguments of one option.
* `Options.ofArgs_toArgs`: the arguments of all of them.
-/

namespace Calculator

/-- The decimal digits of a number are read as the number. -/
theorem depth?_repr {n : Nat} (h : n < Nat.pow 2 64) : depth? n.repr = some n := by
  have hall : ∀ c ∈ Nat.toDigits 10 n, c.isDigit = true :=
    fun c hc => Nat.isDigit_of_mem_toDigits (by decide) (by decide) hc
  unfold depth?
  extract_lets digits value
  have hdigits : digits = Nat.toDigits 10 n := by
    unfold digits
    rw [Nat.toList_repr]
    split
    · rename_i hcs
      exact absurd (hall '+' (hcs ▸ List.mem_cons_self)) (by decide)
    · rfl
  have hvalue : value = n := by
    unfold value
    rw [hdigits, ← Nat.ofDigitChars_eq_foldl, Nat.ofDigitChars_ten_toDigits]
  have hread : (digits.isEmpty || !digits.all Char.isDigit) = false := by
    rw [hdigits, List.all_eq_true.2 hall]
    simp
  rw [hread, if_neg Bool.false_ne_true, hvalue, if_pos h]

/-- The argument of a flag. -/
def Flag.argument : Flag → String
  | file => "--file"
  | echo => "--echo"
  | verbose => "--verbose"

theorem Flag.exists_ofString (flag : Flag) : ∃ name,
    Argument.ofString flag.argument = .long name none ∧
      OptionName.ofLong? name = some (.flag flag) := by
  cases flag with
  | file => exact ⟨"file", by decide, rfl⟩
  | echo => exact ⟨"echo", by decide, rfl⟩
  | verbose => exact ⟨"verbose", by decide, rfl⟩

theorem Argument.ofString_exitCommand (text : String) :
    ofString ("--exit-command=" ++ text) = .long "exit-command" (some text) := by
  simp [ofString, String.toList_append]

theorem Argument.ofString_maxDepth (text : String) :
    ofString ("--max-depth=" ++ text) = .long "max-depth" (some text) := by
  simp [ofString, String.toList_append]

namespace Given

variable {g g' : Given} {text name value : String} {rest : List String}

/-- The argument of a flag switches it on if it stands there. -/
theorem addAll_flag {flag : Flag} (hflag : flag ∉ g.flags) (on : Bool) (rest : List String) :
    g.addAll ((if on then [flag.argument] else []) ++ rest) =
      ({ g with flags := (if on then [flag] else []) ++ g.flags } : Given).addAll rest := by
  cases on with
  | false => rfl
  | true =>
    obtain ⟨name, ht, hn⟩ := flag.exists_ofString
    have hg : g.addFlag flag = .ok { g with flags := flag :: g.flags } := if_neg hflag
    rw [if_pos rfl, List.singleton_append, addAll, ht]
    simp only [hn, hg]
    rfl

/-- An argument that gives a value to a setting. -/
theorem addAll_setting {setting : Setting} (ht : Argument.ofString text = .long name (some value))
    (hn : OptionName.ofLong? name = some (.setting setting))
    (hg : g.addSetting setting value = .ok g') : g.addAll (text :: rest) = g'.addAll rest := by
  rw [addAll, ht]
  simp only [hn, hg]
  rfl

end Given

namespace Options

/-- The arguments of the settings and of the operand. -/
def valueArgs (o : Options) : List String :=
  ("--exit-command=" ++ o.exitCommand) :: ("--max-depth=" ++ o.maxDepth.repr) ::
    match o.operand with
    | none => []
    | some operand => ["--", operand]

/-- Arguments that give the options. -/
def toArgs (o : Options) : List String :=
  (if o.file then [Flag.file.argument] else []) ++
    ((if o.echo then [Flag.echo.argument] else []) ++
      ((if o.verbose then [Flag.verbose.argument] else []) ++ o.valueArgs))

theorem addAll_valueArgs {o : Options} (h : o.maxDepth < Nat.pow 2 64) (flags : List Flag) :
    ({ flags } : Given).addAll o.valueArgs =
      .ok ⟨flags, some o.exitCommand, some o.maxDepth, o.operand⟩ := by
  have hdepth : Given.addSetting ⟨flags, some o.exitCommand, none, none⟩ .maxDepth
      o.maxDepth.repr = .ok ⟨flags, some o.exitCommand, some o.maxDepth, none⟩ := by
    simp only [Given.addSetting, depth?_repr h]
    rfl
  rw [valueArgs, Given.addAll_setting (Argument.ofString_exitCommand o.exitCommand) rfl rfl,
    Given.addAll_setting (Argument.ofString_maxDepth o.maxDepth.repr) rfl hdepth]
  cases o.operand with
  | none => rfl
  | some operand => rfl

/-- The arguments of some options are read as these options. -/
theorem ofArgs_toArgs {o : Options} (h : o.maxDepth < Nat.pow 2 64) : ofArgs o.toArgs = .ok o := by
  have hecho : Flag.echo ∉ (if o.file then [Flag.file] else []) ++ [] := by
    cases o.file <;> decide
  have hverbose : Flag.verbose ∉
      (if o.echo then [Flag.echo] else []) ++ ((if o.file then [Flag.file] else []) ++ []) := by
    cases o.file <;> cases o.echo <;> decide
  rw [ofArgs, toArgs, Given.addAll_flag List.not_mem_nil, Given.addAll_flag hecho,
    Given.addAll_flag hverbose, addAll_valueArgs h]
  obtain ⟨file, echo, verbose, exitCommand, maxDepth, operand⟩ := o
  cases file <;> cases echo <;> cases verbose <;> rfl

end Options

end Calculator
