import Calculator.Command.Script

/-!
# The lines of a text

Every text is cut into lines in one way only. A carriage return belongs to the end of a line if a
line feed follows it, and to the line itself if not.

* `Cut`: a text and its lines.
* `lines_eq_iff`: these are the lines that a script is made of.
-/

namespace Calculator

/-- A text is cut into lines. A line ends with a line feed, or with a carriage return and a line
feed; the last line may have no end, but then it is not empty. -/
inductive Cut : List Char → List String → Prop
  | nil : Cut [] []
  | last {line : List Char} (hne : line ≠ []) (hline : '\n' ∉ line) :
    Cut line [String.ofList line]
  | lineFeed {line rest : List Char} {ls : List String} (hline : '\n' ∉ line)
    (hlast : line.getLast? ≠ some '\r') (hrest : Cut rest ls) :
    Cut (line ++ '\n' :: rest) (String.ofList line :: ls)
  | returnLineFeed {line rest : List Char} {ls : List String} (hline : '\n' ∉ line)
    (hrest : Cut rest ls) : Cut (line ++ '\r' :: '\n' :: rest) (String.ofList line :: ls)

variable {line left cs rest : List Char} {ls : List String}

theorem linesFrom_of_ne {c : Char} (hc : c ≠ '\n') (left cs : List Char) :
    linesFrom left (c :: cs) = linesFrom (c :: left) cs := if_neg hc

/-- Characters other than a line feed belong to the line that is being read. -/
theorem linesFrom_append (h : '\n' ∉ line) (left rest : List Char) :
    linesFrom left (line ++ rest) = linesFrom (line.reverse ++ left) rest := by
  induction line generalizing left with
  | nil => rfl
  | cons c line ih =>
    obtain ⟨hc, hline⟩ := not_or.1 (mt List.mem_cons.2 h)
    rw [List.cons_append, linesFrom_of_ne (Ne.symm hc), ih hline, List.reverse_cons,
      List.append_assoc]
    rfl

theorem linesFrom_lineFeed (hlast : left.head? ≠ some '\r') (rest : List Char) :
    linesFrom left ('\n' :: rest) = String.ofList left.reverse :: linesFrom [] rest := by
  rw [linesFrom, if_pos rfl]
  rintro line rfl
  exact hlast rfl

theorem linesFrom_returnLineFeed (left rest : List Char) :
    linesFrom ('\r' :: left) ('\n' :: rest) = String.ofList left.reverse :: linesFrom [] rest :=
  rfl

theorem Cut.linesFrom_eq (h : Cut cs ls) : linesFrom [] cs = ls := by
  induction h with
  | nil => rfl
  | @last line hne hline =>
    have happend := linesFrom_append hline [] []
    rw [List.append_nil, List.append_nil] at happend
    rw [happend, linesFrom, List.reverse_reverse]
    exact if_neg (by simpa using hne)
  | lineFeed hline hlast _ ih =>
    rw [linesFrom_append hline, List.append_nil,
      linesFrom_lineFeed (by rwa [List.head?_reverse]), List.reverse_reverse, ih]
  | returnLineFeed hline _ ih =>
    rw [linesFrom_append hline, List.append_nil, linesFrom_of_ne (by decide),
      linesFrom_returnLineFeed, List.reverse_reverse, ih]

/-- What follows a line that has been read in part. -/
theorem cut_linesFrom (hleft : '\n' ∉ left) (cs : List Char) :
    Cut (left.reverse ++ cs) (linesFrom left cs) := by
  induction cs generalizing left with
  | nil =>
    rw [List.append_nil, linesFrom]
    split
    · rename_i hnil
      rw [List.isEmpty_iff.1 hnil]
      exact .nil
    · rename_i hne
      exact .last (by simpa using hne) (by simpa using hleft)
  | cons c cs ih =>
    by_cases hc : c = '\n'
    · subst hc
      have hrest : Cut cs (linesFrom [] cs) := ih List.not_mem_nil
      by_cases hlast : left.head? = some '\r'
      · obtain ⟨left, rfl⟩ := List.head?_eq_some_iff.1 hlast
        rw [linesFrom_returnLineFeed, List.reverse_cons, List.append_assoc]
        exact .returnLineFeed (by simpa using hleft) hrest
      · rw [linesFrom_lineFeed hlast]
        exact .lineFeed (by simpa using hleft) (by rwa [List.getLast?_reverse]) hrest
    · rw [linesFrom_of_ne hc]
      have hcut := @ih (c :: left) (by simpa [Ne.symm hc] using hleft)
      rwa [List.reverse_cons, List.append_assoc] at hcut

/-- Every text is cut into its lines, and into no others. -/
theorem lines_eq_iff {text : String} : lines text = ls ↔ Cut text.toList ls := by
  constructor
  · rintro rfl
    exact cut_linesFrom List.not_mem_nil text.toList
  · exact Cut.linesFrom_eq

end Calculator
