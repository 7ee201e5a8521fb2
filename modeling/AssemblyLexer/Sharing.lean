import AssemblyLexer.Scanner

/-!
Scanners that share a session, with other users of its names and its log. They
act in any order, and each action is complete before the next one. A call or another
action that finds no number left for a name fails, and all go on from there.
-/

set_option autoImplicit false

namespace AssemblyLexer

structure Sharing where
  session : Session
  scanners : List Scanner

namespace Sharing

/-- What a call of a scanner finds, with the diagnostics that the call adds to the log. -/
structure Answer where
  token : Token
  place : Place
  added : List Diagnostic
  deriving DecidableEq

inductive Action
  /-- Call the scanner with the given index. -/
  | call (index : Nat)
  | add (text : Bytes)
  | find (text : Bytes)
  | pushPending (text : Bytes)
  | pushPendingCode (code : Nat)
  | clearPending
  | internPending
  | report (diagnostic : Diagnostic)
  deriving DecidableEq

inductive Event
  | called (index : Nat) (answer : Answer) (name? : Option Name)
  /-- No number was left for the name of a token. -/
  | refused (index : Nat) (added : List Diagnostic)
  | reported (diagnostic : Diagnostic)
  deriving DecidableEq

/-- The diagnostics that come with an event. -/
def Event.added : Event → List Diagnostic
  | called _ answer _ => answer.added
  | refused _ added => added
  | reported diagnostic => [diagnostic]

/-- The answer of the scanner with the given index. -/
def Event.answerOf? (index : Nat) : Event → Option Answer
  | called i answer _ => if i = index then some answer else none
  | refused _ _ => none
  | reported _ => none

/-- What a scanner answers when it is called, with the name of its token. -/
def Event.call? : Event → Option (Answer × Option Name)
  | called _ answer name? => some (answer, name?)
  | refused _ _ => none
  | reported _ => none

/-- A call of the scanner with the given index was refused. -/
def Event.refuses (index : Nat) : Event → Bool
  | called _ _ _ => false
  | refused i _ => i = index
  | reported _ => false

/-- A scanner for each source, in a new session. -/
def opened (sources : List (UInt32 × Buffer)) : Sharing where
  session := .initial
  scanners := sources.map fun (file, buffer) => .ofBuffer file buffer

def mapNames (w : Sharing) (change : NameTable → NameTable) : Sharing :=
  { w with session := w.session.mapNames change }

/-- The diagnostics in the log of a session behind those that were there before. -/
def addedSince (before after : Session) : List Diagnostic :=
  after.log.entries.toList.drop before.log.entries.size

/-- Call a scanner. The diagnostics that it adds are those behind the ones that were there. -/
def call (w : Sharing) (index : Nat) (c : Scanner) :
    Except ScannerError (Sharing × List Event) := do
  match ← c.next w.session with
  | .again s c _ => return (⟨s, w.scanners.set index c⟩, [])
  | .done s c token name? =>
    let place ← c.place
    return (⟨s, w.scanners.set index c⟩,
      [.called index ⟨token, place, addedSince w.session s⟩ name?])
  | .refused s c =>
    return (⟨s, w.scanners.set index c⟩, [.refused index (addedSince w.session s)])

def step (w : Sharing) : Action → Except ScannerError (Sharing × List Event)
  | .call index =>
    match w.scanners[index]? with
    | some c => w.call index c
    | none => .ok (w, [])
  | .add text =>
    .ok (w.mapNames fun names => ((names.add? text).map Prod.fst).getD names, [])
  | .find _ => .ok (w, [])
  | .pushPending text => .ok (w.mapNames fun names => names.pushPending text, [])
  | .pushPendingCode code => .ok (w.mapNames fun names => names.pushPendingCode code, [])
  | .clearPending => .ok (w.mapNames .clearPending, [])
  | .internPending =>
    .ok (w.mapNames fun names => (names.internPending?.map Prod.fst).getD names, [])
  | .report diagnostic =>
    .ok ({ w with session := w.session.record diagnostic }, [.reported diagnostic])

/-- Take actions one after another and collect what happens. -/
def run (w : Sharing) : List Action → Except ScannerError (Sharing × List Event)
  | [] => .ok (w, [])
  | action :: actions => do
    let (w, events) ← w.step action
    let (w, later) ← w.run actions
    return (w, events ++ later)

/-- What happens before a call of the scanner with the given index is refused. -/
def untilRefused (index : Nat) (events : List Event) : List Event :=
  events.takeWhile fun event => !event.refuses index

/-- What a scanner answers that is called so many times and has a new session to itself, until a call
is refused. The session is the one that the calls leave. -/
def solo (file : UInt32) (source : Bytes) (calls : Nat) :
    Except ScannerError (Session × List (Answer × Option Name)) := do
  let (w, events) ← (opened [(file, ⟨0, source⟩)]).run (List.replicate calls (.call 0))
  return (w.session, (untilRefused 0 events).filterMap Event.call?)

end Sharing

end AssemblyLexer
