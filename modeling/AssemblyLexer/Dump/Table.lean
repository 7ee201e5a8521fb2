import AssemblyLexer.Dump.Row

/-!
Token tables drawn in a frame. A traced table has a column more, for the text of
each token.
-/

set_option autoImplicit false

namespace AssemblyLexer.Table

/-- The width of the columns for values and texts. -/
def valueWidth : Nat := 20

def top (traced : Bool) : String :=
  if traced then
    "╭──────┬────────┬────────┬───────┬──────────────────────┬──────────────────────╮"
  else
    "╭──────┬────────┬────────┬───────┬──────────────────────╮"

def heading (traced : Bool) : String :=
  if traced then
    "│ LINE │ OFFSET │ LENGTH │ TOKEN │ VALUE                │ TEXT                 │"
  else
    "│ LINE │ OFFSET │ LENGTH │ TOKEN │ VALUE                │"

def rule (traced : Bool) : String :=
  if traced then
    "╞══════╪════════╪════════╪═══════╪══════════════════════╪══════════════════════╡"
  else
    "╞══════╪════════╪════════╪═══════╪══════════════════════╡"

def bottom (traced : Bool) : String :=
  if traced then
    "╰──────┴────────┴────────┴───────┴──────────────────────┴──────────────────────╯"
  else
    "╰──────┴────────┴────────┴───────┴──────────────────────╯"

/-- The cells of a row from left to right, each at the width of its column. -/
def cells (traced : Bool) (row : Row) : List Bytes :=
  [Printable.padLeft 4 (Numeral.decimal row.line.toNat),
    Printable.padLeft 6 (Numeral.decimal row.offset.toNat),
    Printable.padLeft 6 (Numeral.decimal row.length.toNat),
    Printable.padRight 5 (Utf8.ofString row.kind.spelling),
    Printable.fit valueWidth row.value] ++
  if traced then [Printable.fit valueWidth (Printable.ofBytes row.text)] else []

def renderRow (traced : Bool) (row : Row) : Bytes :=
  Utf8.ofString "│ " ++ List.intercalate (Utf8.ofString " │ ") (cells traced row) ++
    Utf8.ofString " │"

/-- The lines of a table under the path that it belongs to. -/
def lines (traced : Bool) (path : Bytes) (rows : List Row) : List Bytes :=
  [[0x5B] ++ path ++ Utf8.ofString ":tokens]",
    Utf8.ofString (top traced), Utf8.ofString (heading traced), Utf8.ofString (rule traced)] ++
  rows.map (renderRow traced) ++
  [Utf8.ofString (bottom traced)]

def render (traced : Bool) (path : Bytes) (rows : List Row) : Bytes :=
  (lines traced path rows).flatMap fun line => line ++ [Byte.lineFeed]

end AssemblyLexer.Table
