import AssemblyLexer.Name.Table

/-!
The names that every session knows from the start: the letters that select a
base, the location counter and the directives.
-/

set_option autoImplicit false

namespace AssemblyLexer

def predefinedNames : List String :=
  ["", "b", "B", "o", "O", "d", "D", "x", "X", ".",
    ".nop", ".print", ".warning", ".error", ".include", ".incbin",
    ".define", ".macro", ".undef", ".unmac",
    ".if", ".elif", ".else", ".end", ".for",
    ".section", ".code", ".data", ".bss", ".struct", ".org", ".skip", ".align",
    ".int8", ".int16", ".int32", ".int64",
    ".float16", ".float32", ".float64", ".float96",
    ".ascii", ".asciiz", ".utf8", ".utf8z", ".utf16", ".utf16z",
    ".object"]

def NameTable.predefined : NameTable :=
  NameTable.empty.addAll (predefinedNames.map Utf8.ofString)

end AssemblyLexer
