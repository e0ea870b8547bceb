import ApiDoc.BuildError

/-!
# Events of a build

What a build reports while it runs, in order. An `Attempt` is the result of a step that reports
events and may fail: the state it leaves is there also after a failure, because a step that fails
part of the way keeps what it has done.
-/

namespace ApiDoc

/-- One report of a build. -/
inductive Event
  | parsed (path : String)
  | skipped (path : String)
  | failed (path message : String)
  | started (description : String)
  | finished (description : String)
  | warning (message : String)
  | error (message : String)
  | debug (message : String)
deriving DecidableEq, Inhabited

/-- The text of a warning, an error or a failed file. -/
def Event.problem? : Event → Option String
  | .failed path message => some (path ++ ": " ++ message)
  | .warning message => some message
  | .error message => some message
  | _ => none

/-- What a step leaves: a state, the events it reported, and why it failed if it did. -/
structure Attempt (α : Type) where
  state : α
  events : List Event := []
  failure : Option BuildError := none
deriving Inhabited

namespace Attempt

variable {α β : Type}

/-- The step that changes nothing and fails. -/
def fail (state : α) (e : BuildError) : Attempt α := { state := state, failure := some e }

def map (f : α → β) (a : Attempt α) : Attempt β := ⟨f a.state, a.events, a.failure⟩

def andThen (a : Attempt α) (next : α → Attempt α) : Attempt α :=
  match a.failure with
  | some _ => a
  | none =>
    let b := next a.state
    { b with events := a.events ++ b.events }

/-- A step on every item of a list, in order, up to the first that fails; the items behind it stay
as they are. -/
def visit (step : α → Attempt α) : List α → Attempt (List α)
  | [] => { state := [] }
  | x :: xs =>
    let head := step x
    match head.failure with
    | some e => ⟨head.state :: xs, head.events, some e⟩
    | none =>
      let tail := visit step xs
      ⟨head.state :: tail.state, head.events ++ tail.events, tail.failure⟩

end Attempt

end ApiDoc
