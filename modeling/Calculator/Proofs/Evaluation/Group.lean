import Calculator.Proofs.Evaluation.Level

/-!
# The groups of a tree

Between the tokens of a tree and the passes over its levels stand two steps: variables are replaced
by their values, and groups by theirs.

* `Term.ofTokens_eq_ok_iff`: the first step fails exactly on a variable without a value.
* `replaceGroupsFrom_inside`: inside of a group, terms in which every group that is closed was
  opened are only collected.
* `replaceGroups_group`: where the group ends, its value stands in its place.
* `replaceGroupsFrom_tree`: if the groups inside of a tree get the values of their trees, what is
  left is the tree before the first pass (`Stage`).
-/

namespace Calculator

/-! ## Variables and their values -/

namespace Term

variable {vars : Variables} {token : Token} {tokens tokens' : List Token} {terms : List Term}

theorem ofTokens_cons_eq_ok : ofTokens vars (token :: tokens) = .ok terms ↔
    ∃ term rest, ofToken vars token = .ok term ∧ ofTokens vars tokens = .ok rest ∧
      terms = term :: rest := by
  simp only [ofTokens, List.mapM_cons, Except.bind_eq_ok]
  constructor
  · rintro ⟨term, h, rest, hr, he⟩
    cases he
    exact ⟨term, rest, h, hr, rfl⟩
  · rintro ⟨term, rest, h, hr, rfl⟩
    exact ⟨term, h, rest, hr, rfl⟩

theorem ofTokens_eq_cons {term : Term} (h : ofTokens vars tokens = .ok (term :: terms)) :
    ∃ token rest, tokens = token :: rest ∧ ofToken vars token = .ok term ∧
      ofTokens vars rest = .ok terms := by
  cases tokens with
  | nil => cases h
  | cons token rest =>
    obtain ⟨_, _, ht, hr, he⟩ := ofTokens_cons_eq_ok.1 h
    cases he
    exact ⟨token, rest, rfl, ht, hr⟩

theorem ofTokens_append_eq_ok : ofTokens vars (tokens ++ tokens') = .ok terms ↔
    ∃ ts us, ofTokens vars tokens = .ok ts ∧ ofTokens vars tokens' = .ok us ∧ terms = ts ++ us := by
  simp only [ofTokens, List.mapM_append, Except.bind_eq_ok]
  constructor
  · rintro ⟨ts, h, us, hu, he⟩
    cases he
    exact ⟨ts, us, h, hu, rfl⟩
  · rintro ⟨ts, us, h, hu, rfl⟩
    exact ⟨ts, h, us, hu, rfl⟩

theorem ofTokens_eq_append {ts us : List Term} (h : ofTokens vars tokens = .ok (ts ++ us)) :
    ∃ before after, tokens = before ++ after ∧ ofTokens vars before = .ok ts ∧
      ofTokens vars after = .ok us := by
  induction ts generalizing tokens with
  | nil => exact ⟨[], tokens, rfl, rfl, h⟩
  | cons term ts ih =>
    obtain ⟨token, rest, rfl, ht, hr⟩ := ofTokens_eq_cons h
    obtain ⟨before, after, rfl, hb, ha⟩ := ih hr
    exact ⟨token :: before, after, rfl, ofTokens_cons_eq_ok.2 ⟨term, ts, ht, hb, rfl⟩, ha⟩

/-- Every token but a variable is its own term. -/
theorem ofToken_eq_operator {op : Operator} :
    ofToken vars token = .ok (.operator op) ↔ token = .operator op := by
  cases token with
  | var name => simp only [ofToken]; split <;> simp
  | _ => simp [ofToken]

theorem ofToken_eq_openParen : ofToken vars token = .ok .openParen ↔ token = .openParen := by
  cases token with
  | var name => simp only [ofToken]; split <;> simp
  | _ => simp [ofToken]

theorem ofToken_eq_closeParen : ofToken vars token = .ok .closeParen ↔ token = .closeParen := by
  cases token with
  | var name => simp only [ofToken]; split <;> simp
  | _ => simp [ofToken]

/-- A number is written as such or as a variable, and either is a tree. -/
theorem exists_tree_of_ofToken {x : Float} (h : ofToken vars token = .ok (.number x)) :
    ∃ t : Tree, t.tokens = [token] ∧ t.Ordered ∧ t.rank = 0 ∧ t.depth = 0 ∧
      t.eval vars = .ok x := by
  cases token with
  | number value => cases h; exact ⟨.number x, rfl, trivial, rfl, rfl, rfl⟩
  | var name =>
    refine ⟨.var name, rfl, trivial, rfl, rfl, ?_⟩
    simp only [ofToken] at h
    split at h <;> cases h
    rename_i hx
    simp only [Tree.eval, hx]
  | _ => cases h

theorem ofTokens_var {name : Char} (h : ofTokens vars [.var name] = .ok terms) :
    ∃ x, vars.get? name = some x ∧ terms = [.number x] := by
  obtain ⟨term, rest, ht, hr, rfl⟩ := ofTokens_cons_eq_ok.1 h
  cases hr
  simp only [ofToken] at ht
  split at ht <;> cases ht
  exact ⟨_, by assumption, rfl⟩

theorem ofTokens_group {t : Tree} (h : ofTokens vars t.group.tokens = .ok terms) :
    ∃ ts, ofTokens vars t.tokens = .ok ts ∧ terms = .openParen :: ts ++ [.closeParen] := by
  obtain ⟨us, vs, hu, hv, rfl⟩ := ofTokens_append_eq_ok.1 h
  obtain ⟨term, ts, ht, hts, rfl⟩ := ofTokens_cons_eq_ok.1 hu
  obtain ⟨term', ts', ht', hts', rfl⟩ := ofTokens_cons_eq_ok.1 hv
  cases ht; cases ht'; cases hts'
  exact ⟨ts, hts, rfl⟩

theorem ofTokens_binary {l r : Tree} {op : Operator}
    (h : ofTokens vars (Tree.binary l op r).tokens = .ok terms) :
    ∃ ts us, ofTokens vars l.tokens = .ok ts ∧ ofTokens vars r.tokens = .ok us ∧
      terms = ts ++ .operator op :: us := by
  obtain ⟨ts, vs, ht, hv, rfl⟩ := ofTokens_append_eq_ok.1 h
  obtain ⟨term, us, hop, hu, rfl⟩ := ofTokens_cons_eq_ok.1 hv
  cases hop
  exact ⟨ts, us, ht, hu, rfl⟩

theorem ofToken_eq_error {token : Token} {e : EvalError} (h : ofToken vars token = .error e) :
    ∃ name, token = .var name ∧ vars.get? name = none ∧ e = .unbound name := by
  cases token with
  | var name =>
    simp only [ofToken] at h
    split at h <;> cases h
    exact ⟨name, rfl, by assumption, rfl⟩
  | _ => cases h

/-- Tokens have no terms only for a variable without a value. -/
theorem ofTokens_eq_error {e : EvalError} (h : ofTokens vars tokens = .error e) :
    ∃ name, Token.var name ∈ tokens ∧ vars.get? name = none ∧ e = .unbound name := by
  obtain ⟨before, token, after, rfl, -, ht⟩ := Except.mapM_eq_error.1 h
  obtain ⟨name, rfl, hget⟩ := ofToken_eq_error ht
  exact ⟨name, List.mem_append_right _ List.mem_cons_self, hget⟩

/-- The tokens have terms if all variables among them have values. -/
theorem ofTokens_eq_ok_iff : (∃ terms, ofTokens vars tokens = .ok terms) ↔
    ∀ name, Token.var name ∈ tokens → vars.contains name = true := by
  induction tokens with
  | nil => exact ⟨fun _ _ h => absurd h List.not_mem_nil, fun _ => ⟨[], rfl⟩⟩
  | cons token tokens ih =>
    have htoken : (∃ term, ofToken vars token = .ok term) ↔
        ∀ name, token = .var name → vars.contains name = true := by
      cases token with
      | var name =>
        simp only [ofToken, Token.var.injEq, forall_eq', Variables.contains_eq_isSome]
        cases vars.get? name <;> simp
      | _ => simp [ofToken]
    constructor
    · rintro ⟨terms, h⟩ name hname
      obtain ⟨term, rest, ht, hr, rfl⟩ := ofTokens_cons_eq_ok.1 h
      rcases List.mem_cons.1 hname with rfl | hname
      · exact htoken.1 ⟨term, ht⟩ name rfl
      · exact ih.1 ⟨rest, hr⟩ name hname
    · intro h
      obtain ⟨term, ht⟩ := htoken.2 fun name hn => h name (hn ▸ List.mem_cons_self)
      obtain ⟨rest, hr⟩ := ih.2 fun name hn => h name (List.mem_cons_of_mem _ hn)
      exact ⟨term :: rest, ofTokens_cons_eq_ok.2 ⟨term, rest, ht, hr, rfl⟩⟩

end Term

/-! ## Inside of a group -/

/-- How many groups are open after some terms, of `n` before them; `none` if one is closed that was
not opened. -/
def openAfter : Nat → List Term → Option Nat
  | n, [] => some n
  | n, .openParen :: rest => openAfter (n + 1) rest
  | 0, .closeParen :: _ => none
  | n + 1, .closeParen :: rest => openAfter n rest
  | n, .number _ :: rest | n, .operator _ :: rest => openAfter n rest

section Groups

variable {vars : Variables} {value : List Term → Except EvalError Float} {levels : Nat}
  {terms : List Term} {tokens : List Token} {t : Tree}

/-- In an open group, terms that close only what they open are collected. -/
theorem replaceGroupsFrom_inside {n m : Nat} (h : openAfter n terms = some m)
    (inside rest : List Term) :
    replaceGroupsFrom value (n + 1) inside (terms ++ rest) =
      replaceGroupsFrom value (m + 1) (terms.reverse ++ inside) rest := by
  fun_induction openAfter n terms generalizing inside with
  | case1 n => cases h; rfl
  | case2 n terms ih =>
    rw [List.cons_append, replaceGroupsFrom, ih h]
    simp
  | case3 => cases h
  | case4 n terms ih =>
    rw [List.cons_append, replaceGroupsFrom, ih h]
    simp
  | case5 n x terms ih =>
    simp [replaceGroupsFrom, ih h]
  | case6 n op terms ih =>
    simp [replaceGroupsFrom, ih h]

/-- A group that ends is replaced by its value. -/
theorem replaceGroups_group {inner rest : List Term} (h : openAfter 0 inner = some 0) :
    replaceGroups value (.openParen :: (inner ++ .closeParen :: rest)) =
      value inner >>= fun x => replaceGroups value rest >>= fun us => .ok (.number x :: us) := by
  rw [replaceGroups, replaceGroupsFrom, replaceGroupsFrom_inside h]
  simp [replaceGroupsFrom, replaceGroups]

/-- A tree closes exactly the groups that it opens. -/
theorem openAfter_tree (ht : Term.ofTokens vars t.tokens = .ok terms) (n : Nat)
    (rest : List Term) : openAfter n (terms ++ rest) = openAfter n rest := by
  induction t generalizing terms n rest with
  | number x => cases ht; rfl
  | var name =>
    obtain ⟨x, -, rfl⟩ := Term.ofTokens_var ht
    rfl
  | group inner ih =>
    obtain ⟨ts, hts, rfl⟩ := Term.ofTokens_group ht
    rw [List.append_assoc, List.cons_append, openAfter, ih hts]
    rfl
  | binary l op r ihl ihr =>
    obtain ⟨ts, us, hl, hr, rfl⟩ := Term.ofTokens_binary ht
    rw [List.append_assoc, ihl hl, List.cons_append, openAfter, ihr hr]

/-- What may become of an ordered tree that has groups on fewer than `levels` levels: its value, or
else an error that a line can meet, and then the tree is too deep or has no value. -/
def Tree.Result (vars : Variables) (levels : Nat) (t : Tree) : Except EvalError Float → Prop
  | .ok x => t.eval vars = .ok x ∧ t.depth < levels
  | .error e => ¬ e.IsInternal ∧ (levels ≤ t.depth ∨ t.Fails vars)

/-- Replacing the groups takes an ordered tree to its first stage, in front of whatever follows.
Where it fails, the tree is too deep or has no value. -/
theorem replaceGroupsFrom_tree
    (hvalue : ∀ {t : Tree} {inner : List Term}, t.Ordered →
      Term.ofTokens vars t.tokens = .ok inner → t.Result vars levels (value inner))
    (ho : t.Ordered) (ht : Term.ofTokens vars t.tokens = .ok terms) :
    (∃ ts, Stage vars 0 t ts ∧ t.depth ≤ levels ∧
      ∀ rest, replaceGroupsFrom value 0 [] (terms ++ rest) =
        replaceGroupsFrom value 0 [] rest >>= fun us => .ok (ts ++ us)) ∨
    ∃ e, ¬ e.IsInternal ∧ (levels < t.depth ∨ t.Fails vars) ∧
      ∀ rest, replaceGroupsFrom value 0 [] (terms ++ rest) = .error e := by
  induction t generalizing terms with
  | number x =>
    cases ht
    exact .inl ⟨_, .value (Nat.le_refl _) rfl, Nat.zero_le _, fun rest => rfl⟩
  | var name =>
    obtain ⟨x, hx, rfl⟩ := Term.ofTokens_var ht
    exact .inl ⟨_, .value (Nat.le_refl _) (by simp only [Tree.eval, hx]), Nat.zero_le _,
      fun rest => rfl⟩
  | group inner ih =>
    obtain ⟨ts, hts, rfl⟩ := Term.ofTokens_group ht
    have hopen : openAfter 0 ts = some 0 := by
      simpa [openAfter] using openAfter_tree hts 0 []
    have hclose : ∀ rest, replaceGroupsFrom value 0 [] (.openParen :: ts ++ [.closeParen] ++ rest) =
        value ts >>= fun x => replaceGroupsFrom value 0 [] rest >>= fun us =>
          .ok (.number x :: us) := by
      intro rest
      rw [List.append_assoc, List.cons_append]
      exact replaceGroups_group hopen
    have hinner := hvalue (t := inner) ho hts
    cases hx : value ts with
    | ok x =>
      rw [hx] at hinner
      obtain ⟨hx', hd⟩ := hinner
      exact .inl ⟨_, .value (Nat.le_refl _) hx', hd, fun rest => by rw [hclose, hx]; rfl⟩
    | error e =>
      rw [hx] at hinner
      obtain ⟨he, hd⟩ := hinner
      exact .inr ⟨e, he, hd.imp_left Nat.lt_succ_of_le, fun rest => by rw [hclose, hx]; rfl⟩
  | binary l op r ihl ihr =>
    obtain ⟨hol, hor, -, -⟩ := ho
    obtain ⟨us, ts, hu, hts, rfl⟩ := Term.ofTokens_binary ht
    have hmid : ∀ rest, replaceGroupsFrom value 0 [] (.operator op :: ts ++ rest) =
        replaceGroupsFrom value 0 [] (ts ++ rest) >>= fun us => .ok (.operator op :: us) :=
      fun rest => rfl
    rcases ihl hol hu with ⟨us', hl, hdl, hpl⟩ | ⟨e, he, hev, hpl⟩
    · rcases ihr hor hts with ⟨ts', hr, hdr, hpr⟩ | ⟨e, he, hev, hpr⟩
      · refine .inl ⟨us' ++ .operator op :: ts', .binary (Nat.zero_le _) hl hr,
          Nat.max_le.2 ⟨hdl, hdr⟩, fun rest => ?_⟩
        rw [List.append_assoc, hpl, hmid, hpr]
        cases replaceGroupsFrom value 0 [] rest <;> simp
      · refine .inr ⟨e, he, ?_, fun rest => by rw [List.append_assoc, hpl, hmid, hpr]; rfl⟩
        exact hev.imp (Nat.lt_of_lt_of_le · (Nat.le_max_right _ _)) (·.right l op)
    · refine .inr ⟨e, he, ?_, fun rest => by rw [List.append_assoc, hpl]⟩
      exact hev.imp (Nat.lt_of_lt_of_le · (Nat.le_max_left _ _)) (·.left op r)

end Groups

end Calculator
