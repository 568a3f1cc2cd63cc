import Calculator.Proofs.Session.Names
import Calculator.Session.Shared

/-!
# Clients of a shared session

Clients that keep to variables of their own do not notice each other. Each of them gets the answers
that a session of its own would give, and the table holds what these sessions would hold.

* `Interleaves`: requests that are the lines of some clients, in any order that keeps the order of
  each client.
* `Independent`: no client assigns a variable that another one assigns or reads.
* `Session.AgreeOff`: two sessions that agree except for some names. `AgreeOff.answer` is a line of
  both, `AgreeOff.answer_left` a line of one, and `AgreeOff.serve` all requests.
* `Session.serve_interleaving`: the answers and the table after any interleaving.
-/

namespace Calculator

/-- The lines that a client sends. -/
def linesOf (client : Nat) (requests : List Request) : List String :=
  (requests.filter (·.client = client)).map Request.line

/-- The answers that a client gets. -/
def answersTo (client : Nat) (answers : List (Nat × Answer)) : List Answer :=
  (answers.filter (·.1 = client)).map Prod.snd

/-- The requests are the lines of all clients, each client's lines in their order. -/
def Interleaves (lines : Nat → List String) (requests : List Request) : Prop :=
  ∀ client, linesOf client requests = lines client

/-- No client names a variable for an assignment that another client names for one too, or that
occurs in an expression of another client. -/
def Independent (lines : Nat → List String) : Prop :=
  ∀ client other, client ≠ other → ∀ line ∈ lines client, ∀ name,
    Assignment.target? line = some name → ∀ line' ∈ lines other,
      Assignment.target? line' ≠ some name ∧ name ∉ (expressionPart line').toList

section Requests

variable {lines : Nat → List String} {request : Request} {requests : List Request} {client : Nat}

theorem mem_linesOf {line : String} :
    line ∈ linesOf client requests ↔ ∃ request ∈ requests,
      request.client = client ∧ request.line = line := by
  simp [linesOf, and_assoc]

theorem linesOf_cons_of_eq (h : request.client = client) :
    linesOf client (request :: requests) = request.line :: linesOf client requests := by
  rw [linesOf, List.filter_cons_of_pos (by simpa using h)]
  rfl

theorem linesOf_cons_of_ne (h : request.client ≠ client) :
    linesOf client (request :: requests) = linesOf client requests := by
  rw [linesOf, List.filter_cons_of_neg (by simpa using h)]
  rfl

theorem answersTo_cons_of_eq {answer : Answer} {answers : List (Nat × Answer)} :
    answersTo client ((client, answer) :: answers) = answer :: answersTo client answers := by
  rw [answersTo, List.filter_cons_of_pos (by simp)]
  rfl

theorem answersTo_cons_of_ne {other : Nat} {answer : Answer} {answers : List (Nat × Answer)}
    (h : other ≠ client) :
    answersTo client ((other, answer) :: answers) = answersTo client answers := by
  rw [answersTo, List.filter_cons_of_neg (by simpa using h)]
  rfl

theorem Interleaves.mem (hi : Interleaves lines requests) (h : request ∈ requests) :
    request.line ∈ lines request.client := by
  rw [← hi]
  exact mem_linesOf.2 ⟨request, h, rfl, rfl⟩

end Requests

namespace Session

variable {s t : Session} {line : String}

theorem serve_cons (s : Session) (request : Request) (requests : List Request) :
    s.serve (request :: requests) =
      ((request.client, (s.answer request.line).1) :: ((s.answer request.line).2.serve requests).1,
        ((s.answer request.line).2.serve requests).2) := rfl

theorem answer_snd (s : Session) (line : String) :
    (s.answer line).2 = s.after ⟨.answer line, (s.answer line).1⟩ :=
  s.perform_snd (.answer line)

theorem maxDepth_answer (s : Session) (line : String) :
    (s.answer line).2.maxDepth = s.maxDepth := by
  rw [answer_snd, maxDepth_after]

theorem get?_answer_of_ne {name : Char} (h : Assignment.target? line ≠ some name) :
    (s.answer line).2.vars.get? name = s.vars.get? name :=
  @get?_perform_of_ne s name (.answer line) h

/-- A variable that no request names for an assignment keeps its value. -/
theorem get?_serve_of_ne {requests : List Request} {name : Char}
    (h : ∀ request ∈ requests, Assignment.target? request.line ≠ some name) :
    (s.serve requests).2.vars.get? name = s.vars.get? name := by
  induction requests generalizing s with
  | nil => rfl
  | cons request requests ih =>
    obtain ⟨hrequest, hrequests⟩ := List.forall_mem_cons.1 h
    rw [serve_cons, ih hrequests, get?_answer_of_ne hrequest]

/-! ## Sessions that agree except for some names -/

/-- The sessions have the same limit, and the same variables apart from the `foreign` ones. -/
structure AgreeOff (foreign : Char → Prop) (s t : Session) : Prop where
  maxDepth : s.maxDepth = t.maxDepth
  get? : ∀ name, ¬ foreign name → s.vars.get? name = t.vars.get? name

namespace AgreeOff

variable {foreign : Char → Prop}

theorem refl (foreign : Char → Prop) (s : Session) : AgreeOff foreign s s :=
  ⟨rfl, fun _ _ => rfl⟩

/-- A line that reads no foreign name has the same answer, so it changes both sessions alike. -/
theorem answer (h : AgreeOff foreign s t)
    (hread : ∀ name ∈ (expressionPart line).toList, ¬ foreign name) :
    (s.answer line).1 = (t.answer line).1 ∧
      AgreeOff foreign (s.answer line).2 (t.answer line).2 := by
  have hanswer : (s.answer line).1 = (t.answer line).1 :=
    answer_congr h.maxDepth fun name hname _ => h.get? name (hread name hname)
  refine ⟨hanswer, ?_, fun name hname => ?_⟩
  · rw [maxDepth_answer, maxDepth_answer, h.maxDepth]
  · rw [answer_snd, answer_snd, get?_after, get?_after, hanswer, h.get? name hname]

/-- A line that assigns a foreign name changes nothing else. -/
theorem answer_left (h : AgreeOff foreign s t)
    (hwrite : ∀ name, Assignment.target? line = some name → foreign name) :
    AgreeOff foreign (s.answer line).2 t := by
  refine ⟨(maxDepth_answer s line).trans h.maxDepth, fun name hname => ?_⟩
  rw [← h.get? name hname, get?_answer_of_ne fun ht => hname (hwrite name ht)]

/-- If a client reads no foreign name and the other clients assign foreign names only, then the
client gets the answers of a session of its own, and the sessions still agree. -/
theorem serve {client : Nat} {requests : List Request} (h : AgreeOff foreign s t)
    (hread : ∀ request ∈ requests, request.client = client →
      ∀ name ∈ (expressionPart request.line).toList, ¬ foreign name)
    (hwrite : ∀ request ∈ requests, request.client ≠ client →
      ∀ name, Assignment.target? request.line = some name → foreign name) :
    answersTo client (s.serve requests).1 = (t.answerAll (linesOf client requests)).1 ∧
      AgreeOff foreign (s.serve requests).2 (t.answerAll (linesOf client requests)).2 := by
  induction requests generalizing s t with
  | nil => exact ⟨rfl, h⟩
  | cons request requests ih =>
    obtain ⟨hr, hread⟩ := List.forall_mem_cons.1 hread
    obtain ⟨hw, hwrite⟩ := List.forall_mem_cons.1 hwrite
    rw [serve_cons]
    by_cases hc : request.client = client
    · obtain ⟨hanswer, hafter⟩ := h.answer (hr hc)
      obtain ⟨hanswers, hend⟩ := ih hafter hread hwrite
      rw [linesOf_cons_of_eq hc, answerAll_cons, hc, answersTo_cons_of_eq, hanswer, hanswers]
      exact ⟨rfl, hend⟩
    · rw [linesOf_cons_of_ne hc, answersTo_cons_of_ne hc]
      exact ih (h.answer_left (hw hc)) hread hwrite

end AgreeOff

/-! ## Independent clients -/

section Clients

variable {lines : Nat → List String} {requests : List Request}

/-- To each client the shared session looks like one of its own, apart from the names that the
other clients assign. -/
theorem serve_client (hi : Interleaves lines requests) (hd : Independent lines) (s : Session)
    (client : Nat) :
    answersTo client (s.serve requests).1 = (s.answerAll (lines client)).1 ∧
      AgreeOff (fun name => ∃ other, other ≠ client ∧ ∃ line ∈ lines other,
        Assignment.target? line = some name)
        (s.serve requests).2 (s.answerAll (lines client)).2 := by
  rw [← hi client]
  refine (AgreeOff.refl _ s).serve ?_ ?_
  · rintro request hr rfl name hname ⟨other, hother, line, hline, ht⟩
    exact (hd other request.client hother line hline name ht request.line (hi.mem hr)).2 hname
  · intro request hr hc name ht
    exact ⟨request.client, hc, request.line, hi.mem hr, ht⟩

/-- A variable has the value that the session of the one client that assigns it gives it. -/
theorem get?_serve_client (hi : Interleaves lines requests) (hd : Independent lines) (s : Session)
    {client : Nat} {line : String} {name : Char} (hline : line ∈ lines client)
    (ht : Assignment.target? line = some name) :
    (s.serve requests).2.vars.get? name = (s.answerAll (lines client)).2.vars.get? name := by
  refine (serve_client hi hd s client).2.get? name ?_
  rintro ⟨other, hother, line', hline', ht'⟩
  exact (hd client other hother.symm line hline name ht line' hline').1 ht'

/-- A variable that no client assigns has the value that it had. -/
theorem get?_serve_of_unassigned (hi : Interleaves lines requests) (s : Session) {name : Char}
    (h : ∀ client, ∀ line ∈ lines client, Assignment.target? line ≠ some name) :
    (s.serve requests).2.vars.get? name = s.vars.get? name :=
  get?_serve_of_ne fun request hr => h request.client request.line (hi.mem hr)

theorem maxDepth_serve (s : Session) (requests : List Request) :
    (s.serve requests).2.maxDepth = s.maxDepth := by
  induction requests generalizing s with
  | nil => rfl
  | cons request requests ih => rw [serve_cons, ih, maxDepth_answer]

/-- All interleavings of independent clients leave the same session. -/
theorem serve_snd_eq {requests' : List Request} (hi : Interleaves lines requests)
    (hi' : Interleaves lines requests') (hd : Independent lines) (s : Session) :
    (s.serve requests).2 = (s.serve requests').2 := by
  have hvars : (s.serve requests).2.vars = (s.serve requests').2.vars := by
    refine Variables.ext_get? fun name => ?_
    by_cases h : ∃ client, ∃ line ∈ lines client, Assignment.target? line = some name
    · obtain ⟨client, line, hline, ht⟩ := h
      rw [get?_serve_client hi hd s hline ht, get?_serve_client hi' hd s hline ht]
    · have hn : ∀ client, ∀ line ∈ lines client, Assignment.target? line ≠ some name :=
        fun client line hline ht => h ⟨client, line, hline, ht⟩
      rw [get?_serve_of_unassigned hi s hn, get?_serve_of_unassigned hi' s hn]
  have hdepth : (s.serve requests).2.maxDepth = (s.serve requests').2.maxDepth := by
    rw [maxDepth_serve, maxDepth_serve]
  cases hs : (s.serve requests).2
  cases hs' : (s.serve requests').2
  rw [hs, hs'] at hvars hdepth
  exact congr (congrArg Session.mk hvars) hdepth

/-- Clients of which none assigns a variable that another one assigns or reads do not notice each
other. However their lines are interleaved, each client gets the answers that it would get alone,
and each variable has the value that it has after the lines of the client that assigns it, or the
one from the start if no client does. So the order among the clients leaves no trace. -/
theorem serve_interleaving (hi : Interleaves lines requests) (hd : Independent lines)
    (s : Session) :
    (∀ client, answersTo client (s.serve requests).1 = (s.answerAll (lines client)).1) ∧
    (∀ client, ∀ line ∈ lines client, ∀ name, Assignment.target? line = some name →
      (s.serve requests).2.vars.get? name = (s.answerAll (lines client)).2.vars.get? name) ∧
    (∀ name, (∀ client, ∀ line ∈ lines client, Assignment.target? line ≠ some name) →
      (s.serve requests).2.vars.get? name = s.vars.get? name) ∧
    ∀ requests', Interleaves lines requests' → (s.serve requests').2 = (s.serve requests).2 :=
  ⟨fun client => (serve_client hi hd s client).1,
    fun _ _ hline _ ht => get?_serve_client hi hd s hline ht,
    fun _ h => get?_serve_of_unassigned hi s h,
    fun _ hi' => serve_snd_eq hi' hi hd s⟩

/-- Two clients, one of which divides by zero and reads a variable that neither assigns. -/
theorem serve_interleaving_two :
    let s : Session := { vars := Variables.set ∅ 'c' 3 }
    let lines : Nat → List String
      | 0 => ["a = 1", "a = a+c"]
      | 1 => ["b = c/0", "b = -c", "2b"]
      | _ => []
    let requests : List Request := [⟨1, "b = c/0"⟩, ⟨0, "a = 1"⟩, ⟨1, "b = -c"⟩, ⟨0, "a = a+c"⟩,
      ⟨1, "2b"⟩]
    let requests' : List Request := [⟨0, "a = 1"⟩, ⟨0, "a = a+c"⟩, ⟨1, "b = c/0"⟩, ⟨1, "b = -c"⟩,
      ⟨1, "2b"⟩]
    Interleaves lines requests ∧ Independent lines ∧ Interleaves lines requests' ∧
    answersTo 1 (s.serve requests).1 = [.error (.evaluation .divisionByZero),
      .ok (some (.assigned 'b' (-3))), .ok (some (.value (-6)))] ∧
    (s.serve requests).2.vars.get? 'a' = some 4 ∧ (s.serve requests).2.vars.get? 'c' = some 3 ∧
    (s.serve requests').2 = (s.serve requests).2 := by
  intro s lines requests requests'
  have hi : Interleaves lines requests := by
    rintro (_ | _ | client)
    exacts [rfl, rfl, by simp [linesOf, requests, lines]]
  have hi' : Interleaves lines requests' := by
    rintro (_ | _ | client)
    exacts [rfl, rfl, by simp [linesOf, requests', lines]]
  -- Client 0 has the variable `a` for itself, and client 1 has `b`.
  have hzero : ∀ line ∈ lines 0, Assignment.target? line = some 'a' ∧
      Assignment.target? line ≠ some 'b' ∧ 'b' ∉ (expressionPart line).toList := by decide +kernel
  have hone : ∀ line ∈ lines 1, (Assignment.target? line).getD 'b' = 'b' ∧
      Assignment.target? line ≠ some 'a' ∧ 'a' ∉ (expressionPart line).toList := by decide +kernel
  have hd : Independent lines := by
    rintro (_ | _ | client) (_ | _ | other) hne line hline name ht line' hline'
    · exact absurd rfl hne
    · have hname := (hzero line hline).1
      rw [ht] at hname
      cases hname
      exact (hone line' hline').2
    · cases hline'
    · have hname := (hone line hline).1
      rw [ht] at hname
      cases hname
      exact (hzero line' hline').2
    · exact absurd rfl hne
    · cases hline'
    all_goals cases hline
  obtain ⟨hanswers, hvalue, hother, hsame⟩ := serve_interleaving hi hd s
  refine ⟨hi, hd, hi', ?_, ?_, ?_, hsame requests' hi'⟩
  · rw [hanswers 1]
    decide +kernel
  · rw [hvalue 0 "a = 1" (by decide) 'a' (by decide +kernel)]
    decide +kernel
  · rw [hother 'c' fun client line hline ht => ?_]
    · decide +kernel
    · match client with
      | 0 => rw [(hzero line hline).1] at ht; cases ht
      | 1 => have := (hone line hline).1; rw [ht] at this; cases this
      | _ + 2 => cases hline

end Clients

end Session

end Calculator
