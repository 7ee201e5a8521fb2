import AssemblyLexer.Dump

/-!
The command line. Its flags may stand anywhere around the one argument that
names the source; a single dash names standard input.
-/

set_option autoImplicit false

namespace AssemblyLexer

structure CommandLine where
  options : DumpOptions
  source : Bytes
  deriving DecidableEq

/-- What a run leaves behind. -/
structure Outcome where
  status : UInt8
  output : Bytes
  errors : Bytes
  deriving DecidableEq

namespace CommandLine

def dash : Bytes := [Byte.minus]

def traceFlag : Bytes := Utf8.ofString "--trace"

def memoFlag : Bytes := Utf8.ofString "--memo"

def usage : Bytes :=
  Utf8.ofString "usage: ras-lex-dump [--trace] [--memo] <file|->\n"

/-- An argument that can name a source. -/
def namesSource (argument : Bytes) : Bool :=
  argument == dash || argument.head? != some Byte.minus

/-- Read the arguments that follow some others, which have set options and perhaps a source. -/
def parseFrom (options : DumpOptions) (source? : Option Bytes) :
    List Bytes → Option CommandLine
  | [] => source?.map (CommandLine.mk options)
  | argument :: rest =>
    if argument = traceFlag then parseFrom { options with trace := true } source? rest
    else if argument = memoFlag then parseFrom { options with memoize := true } source? rest
    else if source?.isNone && namesSource argument then parseFrom options (some argument) rest
    else none

def parse? (arguments : List Bytes) : Option CommandLine :=
  parseFrom ⟨false, false⟩ none arguments

/-- Load the source, from standard input under a name of its own. -/
def load (c : CommandLine) (input : Bytes) (find : Bytes → Found) (registry : Registry) :
    Registry × Except LoadError LoadedSource :=
  if c.source = dash then registry.load (Utf8.ofString "<stdin>") input
  else registry.loadFound c.source (find c.source)

/-- Print the table of a loaded source, then what was wrong with it. -/
def dump (c : CommandLine) (source : LoadedSource) (registry : Registry) : Outcome :=
  let registry := registry.setContents source.id source.contents
  let session := { Session.initial with registry := registry }
  let (session, table) := session.dump c.options c.source source.contents source.id
  match table with
  | .ok output =>
    { status := if session.log.errors = 0 then 0 else 1
      output := output
      errors := session.log.render session.registry.path }
  | .error e =>
    { status := 1
      output := []
      errors := Utf8.ofString e.message ++ [Byte.lineFeed] }

def execute (c : CommandLine) (input : Bytes) (find : Bytes → Found) : Outcome :=
  match c.load input find .empty with
  | (registry, .ok source) => c.dump source registry
  | (_, .error e) => ⟨1, [], e.diagnostic.render []⟩

/-- Run the program on its arguments and standard input, given what each path leads to. -/
def run (arguments : List Bytes) (input : Bytes) (find : Bytes → Found) : Outcome :=
  match parse? arguments with
  | some c => c.execute input find
  | none => ⟨1, [], usage⟩

end CommandLine

end AssemblyLexer
