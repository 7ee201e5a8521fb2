import AssemblyLexer.Recording.Basic

/-!
Replaying a recording. Lines count modulo 2^32 and offsets modulo 2^64, so every
list of items can be replayed, whatever it came from.
-/

set_option autoImplicit false

namespace AssemblyLexer

structure Replay where
  /-- The items that have not been consumed. -/
  items : Bytes
  line : UInt32
  start : UInt64
  stop : UInt64
  deriving DecidableEq

namespace Replay

def ofItems (items : Bytes) (line : UInt32) (offset : UInt64) : Replay :=
  ⟨items, line, offset, offset⟩

/-- Consume items up to the next finished token. An item that cannot be decoded is consumed with
those before it but leaves the place of the last token as it was. -/
def consume (kept : Replay) (line : UInt32) (start offset : UInt64) :
    Bytes → Except RecordingError TokenKind × Replay
  | [] => (.ok .endOfSource, ⟨[], line, start, offset⟩)
  | b :: rest =>
    match RecordingItem.decode b with
    | .error e => (.error e, { kept with items := rest })
    | .ok (.finish kind) => (.ok kind, ⟨rest, line, start, offset⟩)
    | .ok (.start gap length) =>
      let start := offset + UInt64.ofNat gap
      consume kept line start (start + UInt64.ofNat length) rest
    | .ok (.skip lines length) =>
      consume kept (line + UInt32.ofNat lines) start (offset + UInt64.ofNat length) rest

/-- The next token. When no items are left, the end of the source stands at the last offset. -/
def next (r : Replay) : Except RecordingError TokenKind × Replay :=
  r.consume r.line r.stop r.stop r.items

theorem consume_items_length (kept : Replay) (line : UInt32) (start offset : UInt64)
    (items : Bytes) :
    (kept.consume line start offset items).1 = .ok .endOfSource ∨
      (kept.consume line start offset items).2.items.length < items.length := by
  fun_induction consume kept line start offset items with
  | case1 => exact .inl rfl
  | case2 => exact .inr (Nat.lt_succ_self _)
  | case3 => exact .inr (Nat.lt_succ_self _)
  | case4 _ _ _ _ _ _ _ _ _ ih => exact ih.imp_right Nat.lt_succ_of_lt
  | case5 _ _ _ _ _ _ _ _ ih => exact ih.imp_right Nat.lt_succ_of_lt

/-- All tokens up to the end of the source, added to those replayed before. -/
def runFrom (r : Replay) (before : Array RecordedToken) :
    Except RecordingError (Array RecordedToken) :=
  match _h : r.next with
  | (.error e, _) => .error e
  | (.ok kind, after) =>
    let tokens := before.push ⟨kind, after.line, after.start, after.stop⟩
    if _k : kind = .endOfSource then .ok tokens else after.runFrom tokens
termination_by r.items.length
decreasing_by
  have := consume_items_length r r.line r.stop r.stop r.items
  simp_all [next]

/-- All tokens up to and including the end of the source. -/
def run (r : Replay) : Except RecordingError (Array RecordedToken) :=
  r.runFrom #[]

end Replay

/-- A fresh replay of what has been recorded so far. -/
def Recording.replay (r : Recording) : Replay :=
  Replay.ofItems r.items.toList r.originLine r.originOffset

end AssemblyLexer
