import Mathlib.Data.Char
import Mathlib.Data.List.Sort
import Calculator.Variables

/-!
# What a table of variables shows

A table is known by what was set last for each name. All that it shows is a function of that: the
value of a name, and the listing, which is ordered by name whatever the order of the settings was.

* `Variables.setAll`, `lastSet?`: values that are set one after the other, and the last one of a
  name.
* `Variables.get?_setAll`: a name has its last value.
* `Variables.mem_entries`, `Variables.pairwise_entries`: the listing holds each variable once, by
  name.
* `Variables.mergeSort_eq_entries`: whatever order the variables come in, sorting makes it the
  listing.
* `Variables.entries_setAll`: all of this about every sequence of settings.
-/

namespace Calculator

/-- The value that was set last for a name. -/
def lastSet? (sets : List (Char × Float)) (name : Char) : Option Float :=
  sets.reverse.lookup name

namespace Variables

/-- Sets values for names, one after the other. -/
def setAll (vars : Variables) (sets : List (Char × Float)) : Variables :=
  sets.foldl (fun vars (name, value) => vars.set name value) vars

variable {vars : Variables} {name : Char} {value : Float}

/-! ## The value of a name -/

theorem get?_set_eq_lookup (vars : Variables) (name name' : Char) (value : Float) :
    (vars.set name value).get? name' = ([(name, value)].lookup name').or (vars.get? name') := by
  rw [get?_set, List.lookup_cons, List.lookup_nil]
  by_cases hn : name = name'
  · subst hn
    simp
  · rw [if_neg hn, beq_false_of_ne (Ne.symm hn)]
    rfl

/-- A name has the value that was set last, or else the one from before. -/
theorem get?_setAll (vars : Variables) (sets : List (Char × Float)) (name : Char) :
    (vars.setAll sets).get? name = (lastSet? sets name).or (vars.get? name) := by
  induction sets generalizing vars with
  | nil => rfl
  | cons first sets ih =>
    rw [setAll, List.foldl_cons, ← setAll, ih, get?_set_eq_lookup, ← Option.or_assoc, lastSet?,
      lastSet?, List.reverse_cons, List.lookup_append]

theorem contains_iff : vars.contains name = true ↔ ∃ value, vars.get? name = some value := by
  rw [contains_eq_isSome, Option.isSome_iff_exists]

theorem contains_of_get? (h : vars.get? name = some value) : vars.contains name = true :=
  contains_iff.2 ⟨value, h⟩

/-! ## The listing -/

theorem mem_entries : (name, value) ∈ vars.entries ↔ vars.get? name = some value :=
  Std.ExtTreeMap.mem_toList_iff_getElem?_eq_some

/-- The names of the listing increase. -/
theorem pairwise_entries (vars : Variables) : vars.entries.Pairwise fun p q => p.1 < q.1 :=
  Std.ExtTreeMap.ordered_keys_toList.imp compare_lt_iff_lt.1

theorem length_entries (vars : Variables) : vars.entries.length = vars.size :=
  Std.ExtTreeMap.length_toList

theorem isEmpty_iff : vars.isEmpty = true ↔ vars.size = 0 := by
  rw [isEmpty, size, Std.ExtTreeMap.isEmpty_eq_size_beq_zero, beq_iff_eq]

theorem pairwise_mergeSort_names (listing : List (Char × Float)) :
    (listing.mergeSort fun p q => p.1 ≤ q.1).Pairwise fun p q => p.1 ≤ q.1 := by
  let le (p q : Char × Float) : Bool := decide (p.1 ≤ q.1)
  have htrans : ∀ p q r, le p q → le q r → le p r := fun p q r hpq hqr =>
    decide_eq_true ((of_decide_eq_true hpq).trans (of_decide_eq_true hqr))
  have htotal : ∀ p q, le p q || le q p := fun p q => by simpa [le] using le_total p.1 q.1
  exact (List.pairwise_mergeSort htrans htotal listing).imp of_decide_eq_true

/-- The variables in any order, each of them once, sorted by name, are the listing. -/
theorem mergeSort_eq_entries {listing : List (Char × Float)}
    (hn : (listing.map Prod.fst).Nodup)
    (hm : ∀ name value, (name, value) ∈ listing ↔ vars.get? name = some value) :
    listing.mergeSort (fun p q => p.1 ≤ q.1) = vars.entries := by
  have hnodup : vars.entries.Nodup := by
    refine vars.pairwise_entries.imp fun {p q} hlt he => ?_
    rw [he] at hlt
    exact lt_irrefl q.1 hlt
  have hperm : listing.Perm vars.entries :=
    (List.perm_ext_iff_of_nodup hn.of_map hnodup).2 fun p => (hm p.1 p.2).trans mem_entries.symm
  have hsort := (List.mergeSort_perm listing fun p q => p.1 ≤ q.1).trans hperm
  refine List.Perm.eq_of_pairwise (fun p q hp hq hpq hqp => ?_) (pairwise_mergeSort_names listing)
    (vars.pairwise_entries.imp le_of_lt) hsort
  -- Two variables of one name have one value, so they are the same.
  obtain ⟨name, x⟩ := p
  obtain ⟨name', y⟩ := q
  obtain rfl : name = name' := le_antisymm hpq hqp
  have hx := mem_entries.1 (hsort.subset hp)
  have hy := mem_entries.1 hq
  rw [hx] at hy
  rw [Option.some.inj hy]

/-! ## All settings -/

/-- After any settings, each name has the value that was last set for it, or else the one from
before. The listing holds each variable once, by name, and counts them; it is what sorting makes of
the variables in any order, and it depends on nothing but the last values. -/
theorem entries_setAll (vars : Variables) (sets : List (Char × Float)) :
    let after := vars.setAll sets
    (∀ name, after.get? name = (lastSet? sets name).or (vars.get? name)) ∧
    (∀ name, after.contains name = true ↔ ∃ value, after.get? name = some value) ∧
    (∀ name value, (name, value) ∈ after.entries ↔ after.get? name = some value) ∧
    (after.entries.Pairwise fun p q => p.1 < q.1) ∧
    after.size = after.entries.length ∧
    (after.isEmpty = true ↔ after.size = 0) ∧
    (∀ listing : List (Char × Float), (listing.map Prod.fst).Nodup →
      (∀ name value, (name, value) ∈ listing ↔ after.get? name = some value) →
      listing.mergeSort (fun p q => p.1 ≤ q.1) = after.entries) ∧
    ∀ sets', (∀ name, lastSet? sets' name = lastSet? sets name) →
      (vars.setAll sets').entries = after.entries := by
  intro after
  refine ⟨get?_setAll vars sets, fun _ => contains_iff, fun _ _ => mem_entries,
    after.pairwise_entries, after.length_entries.symm, isEmpty_iff,
    fun _ hn hm => mergeSort_eq_entries hn hm, fun sets' h => ?_⟩
  have hafter : vars.setAll sets' = after := by
    refine ext_get? fun name => ?_
    rw [get?_setAll, get?_setAll, h]
  rw [hafter]

/-- The listing does not show that `x` was set twice, nor in which order the other names were. -/
theorem entries_setAll_overwrite :
    let vars : Variables := .set ∅ 'b' 1
    let sets : List (Char × Float) := [('x', 2), ('é', 5), ('a', 4), ('x', 3)]
    let sets' : List (Char × Float) := [('a', 4), ('x', 3), ('é', 5)]
    let listing : List (Char × Float) := [('é', 5), ('x', 3), ('b', 1), ('a', 4)]
    let sorted : List (Char × Float) := [('a', 4), ('b', 1), ('x', 3), ('é', 5)]
    (vars.setAll sets).entries = sorted ∧
    (listing.map Prod.fst).Nodup ∧
    listing.mergeSort (fun p q => p.1 ≤ q.1) = sorted ∧
    (∀ name, lastSet? sets' name = lastSet? sets name) ∧
    (vars.setAll sets').entries = sorted := by
  intro vars sets sets' listing sorted
  obtain ⟨hget, -, hmem, -, -, -, hsort, hlast⟩ := entries_setAll vars sets
  have hentries : (vars.setAll sets).entries = sorted := by decide +kernel
  have hnodup : (listing.map Prod.fst).Nodup := by decide +kernel
  have hlisting : ∀ name value, (name, value) ∈ listing ↔
      (vars.setAll sets).get? name = some value := by
    intro name value
    rw [← hmem, hentries]
    have hperm : listing.Perm sorted := by decide +kernel
    exact hperm.mem_iff
  have hsame : ∀ name, lastSet? sets' name = lastSet? sets name := by
    intro name
    simp only [lastSet?, sets, sets', List.reverse_cons, List.reverse_nil, List.nil_append,
      List.cons_append, List.lookup_cons, List.lookup_nil]
    cases hx : name == 'x' <;> cases ha : name == 'a' <;> cases he : name == 'é' <;> simp_all
  exact ⟨hentries, hnodup, (hsort listing hnodup hlisting).trans hentries, hsame,
    (hlast sets' hsame).trans hentries⟩

end Variables

end Calculator
