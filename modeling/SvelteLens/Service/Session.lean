import SvelteLens.Service.Snapshot

/-! Checking sessions and what they report. The engine itself is outside: a session is the record
of the calls made to it, and its reports are in projected coordinates. -/
namespace SvelteLens.Service

inductive Session.Call where
  | diagnostics (path : Path)
  | completions (path : Path) (offset : Nat)
  | definition (path : Path) (offset : Nat)
  | forget (path : Path)
  | dispose
  deriving DecidableEq, Repr, Inhabited

structure Session where
  strict : Bool
  /-- The calls so far, the first one first. -/
  calls : List Session.Call
  deriving DecidableEq, Repr, Inhabited

namespace Session

def start (strict : Bool) : Session := ⟨strict, []⟩

def call (s : Session) (c : Call) : Session := { s with calls := s.calls ++ [c] }

def isDisposed (s : Session) : Bool := s.calls.contains .dispose

def forgotten (s : Session) : List Path :=
  s.calls.filterMap fun
    | .forget p => some p
    | _ => none

end Session

inductive Severity where
  | error
  | warning
  | suggestion
  deriving DecidableEq, Repr, Inhabited

structure Diagnostic where
  span : Span
  message : String
  code : Option Nat
  severity : Severity
  deriving DecidableEq, Repr, Inhabited

structure PlacedDiagnostic where
  file : Path
  diagnostic : Diagnostic
  start : LineCol
  stop : LineCol
  deriving DecidableEq, Repr, Inhabited

structure Completion where
  label : String
  /-- The range that the completion replaces. -/
  replace : Option Span
  deriving DecidableEq, Repr, Inhabited

structure Location where
  path : Path
  span : Span
  deriving DecidableEq, Repr, Inhabited

namespace Snapshot

/-- A diagnostic in source coordinates. There are none for made-up text. -/
def placed? (s : Snapshot) (file : Path) (d : Diagnostic) : Option PlacedDiagnostic := do
  let span ← s.sourceSpan? d.span
  return ⟨file, { d with span }, ← s.sourceLines.lineCol? span.start, ← s.sourceLines.lineCol? span.stop⟩

def placedCompletion (s : Snapshot) (c : Completion) : Completion :=
  { c with replace := c.replace.bind s.sourceSpan? }

end Snapshot
end SvelteLens.Service
