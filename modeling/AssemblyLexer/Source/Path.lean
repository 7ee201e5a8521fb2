import AssemblyLexer.Text.Byte

/-!
Paths in normal form. Two paths with one normal form name the same file as long
as no symbolic links are involved; nothing is looked up.
-/

set_option autoImplicit false

namespace AssemblyLexer.Path

def current : Bytes := [Byte.dot]

def parent : Bytes := [Byte.dot, Byte.dot]

/-- The components between slashes, empty ones included. -/
def components : Bytes → List Bytes
  | [] => [[]]
  | b :: rest =>
    if b = Byte.slash then [] :: components rest
    else
      match components rest with
      | [] => [[b]]
      | first :: others => (b :: first) :: others

def join (parts : List Bytes) : Bytes :=
  List.intercalate [Byte.slash] parts

/-- Add a component to those kept so far, the last of them first. A step to the parent takes back
the component before it, and leads nowhere from the root. -/
def descend (absolute : Bool) (kept : List Bytes) (component : Bytes) : List Bytes :=
  if component = [] ∨ component = current then kept
  else if component = parent then
    match kept with
    | [] => if absolute then [] else [parent]
    | last :: before => if last = parent then parent :: kept else before
  else component :: kept

/-- The last component names a directory, so the normal form ends in a slash. -/
def endsInDirectory (parts : List Bytes) : Bool :=
  match parts.getLast? with
  | some last => last = [] || last = current || last = parent
  | none => false

def normalize (path : Bytes) : Bytes :=
  let absolute := path.head? == some Byte.slash
  let parts := components path
  let kept := parts.foldl (descend absolute) []
  let root := if absolute then [Byte.slash] else []
  match kept with
  | [] => if path.isEmpty then [] else if absolute then root else current
  | last :: _ =>
    let slash := if endsInDirectory parts && last != parent then [Byte.slash] else []
    root ++ join kept.reverse ++ slash

end AssemblyLexer.Path
