import Chronicle.Bytes

/-!
# Sources of octets

A source delivers a finite run of octets and then either ends, or fails, or
fails once and goes on with a further run.  Asking a source for octets tells
how far it got and leaves the source after them.
-/

namespace Chronicle.Loop

structure Source where
  /-- Octets that can be had without a failure. -/
  run : Bytes
  /-- Runs behind one failure each. -/
  later : List Bytes := []
  /-- Whether the end of the last run is reported as a failure, each time. -/
  fails : Bool := false
  deriving DecidableEq, Repr

inductive Supply where
  | complete
  | ended
  | failed
  deriving DecidableEq, Repr

namespace Source

def size (s : Source) : Nat :=
  s.run.length + s.later.flatten.length

/-- The source after its current run is used up and the next octet is asked
for. -/
def exhaust (s : Source) : Supply × Source :=
  match s.later with
  | next :: later => (.failed, { s with run := next, later := later })
  | [] => (if s.fails then .failed else .ended, { s with run := [] })

/-- Whether there is a next octet; nothing is consumed unless the answer is a
failure. -/
def poll (s : Source) : Supply × Source :=
  match s.run with
  | _ :: _ => (.complete, s)
  | [] => s.exhaust

def take (s : Source) (n : Nat) : Supply × Bytes × Source :=
  match splitExact? n s.run with
  | some (front, rest) => (.complete, front, { s with run := rest })
  | none =>
      let (supply, next) := s.exhaust
      (supply, s.run, next)

/-- Octets up to and including the first `stop`, at most `limit` of them.  The
request is complete if it ended at a `stop` or at the limit. -/
def takeThrough (s : Source) (stop : UInt8) (limit : Nat) : Supply × Bytes × Source :=
  let window := s.run.take limit
  let front := window.takeWhile (· != stop)
  if front.length < window.length then
    (.complete, front ++ [stop], { s with run := s.run.drop (front.length + 1) })
  else if window.length = limit then
    (.complete, window, { s with run := s.run.drop limit })
  else
    let (supply, next) := s.exhaust
    (supply, s.run, next)

end Source

end Chronicle.Loop
