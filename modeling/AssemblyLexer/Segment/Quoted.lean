import AssemblyLexer.Segment.Escape

/-!
The inside of a quoted literal, up to the closing quote. An escape that fails
does not end the literal: scanning goes on behind the bytes that it took.
-/

set_option autoImplicit false

namespace AssemblyLexer

structure Quoted where
  /-- A closing quote was found. -/
  closed : Bool
  /-- The number of bytes after the opening quote, the closing one included. -/
  length : Nat
  content : Bytes
  /-- What is wrong with the escapes, at distances from the opening quote. -/
  findings : List Finding

namespace Quoted

/-- Go on after some bytes, with their content and findings in reverse. -/
def scanFrom (quote : Byte) (taken : Nat) (content : Bytes) (findings : List Finding) :
    Bytes → Quoted
  | [] => ⟨false, taken, content.reverse, findings.reverse⟩
  | b :: rest =>
    if b = quote then
      ⟨true, taken + 1, content.reverse, findings.reverse⟩
    else if b = Byte.backslash then
      let escape := Escape.scan rest
      let after := rest.drop escape.length
      match escape.outcome with
      | .ok meant =>
        scanFrom quote (taken + 1 + escape.length) (meant.reverse ++ content) findings after
      | .error finding =>
        let found := { finding with offset := taken + 2 + finding.offset }
        scanFrom quote (taken + 1 + escape.length) content (found :: findings) after
    else
      scanFrom quote (taken + 1) (b :: content) findings rest
termination_by bytes => bytes.length

def scan (quote : Byte) (bytes : Bytes) : Quoted :=
  scanFrom quote 0 [] [] bytes

/-- The single character that the content of a character literal must be. -/
def character (content : Bytes) : Except Fault Char :=
  match content with
  | [] => .error .emptyCharacter
  | _ =>
    match Utf8.decode? content with
    | none => .error .characterNotUtf8
    | some (c, length) => if length = content.length then .ok c else .error .characterTooLong

theorem scanFrom_length (quote : Byte) (taken : Nat) (content : Bytes)
    (findings : List Finding) (bytes : Bytes) :
    taken ≤ (scanFrom quote taken content findings bytes).length ∧
      (scanFrom quote taken content findings bytes).length ≤ taken + bytes.length := by
  fun_induction scanFrom quote taken content findings bytes with
  | case1 => simp
  | case2 => simp
  | case3 taken content findings rest escape after meant _ _ ih =>
    have within : escape.length ≤ rest.length := Escape.scan_length_le rest
    simp only [after, List.length_drop, List.length_cons] at ih ⊢
    omega
  | case4 taken content findings rest escape after finding _ found _ ih =>
    have within : escape.length ≤ rest.length := Escape.scan_length_le rest
    simp only [after, List.length_drop, List.length_cons] at ih ⊢
    omega
  | case5 taken content findings b rest _ _ ih =>
    simp only [List.length_cons]
    omega

theorem length_le (quote : Byte) (bytes : Bytes) : (scan quote bytes).length ≤ bytes.length := by
  simpa [scan] using (scanFrom_length quote 0 [] [] bytes).2

end Quoted

end AssemblyLexer
