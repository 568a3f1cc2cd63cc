import Calculator.Session

/-!
# Shared sessions

Many clients may send lines to one session. It serves one request at a time, from the first to the
last character of its line, so what the clients see depends only on the order of their requests.
-/

namespace Calculator

/-- A line that a client sends. -/
structure Request where
  client : Nat
  line : String
  deriving DecidableEq

namespace Session

/-- Serves requests in their order. Each answer is sent to the client that asked. -/
def serve (s : Session) : List Request → List (Nat × Answer) × Session
  | [] => ([], s)
  | request :: requests =>
    let (answer, s) := s.answer request.line
    let (answers, s) := s.serve requests
    ((request.client, answer) :: answers, s)

end Session

end Calculator
