import Stylesheet.Bundle
import Stylesheet.Compile.Basic

/-!
# The command line

There is one command, `build INPUT`, which compiles a bundle file and prints the result or writes it
to a file. Options may be given in a file and on the command line; what is given on the command line
comes on top.

Arguments are read in the usual way: the value of an option may follow it, or be joined to it by an
equals sign, or directly after the short form. After `--` every argument is a plain one. Nothing may
be given twice.
-/

namespace Stylesheet

/-- What a command line asks for. -/
structure Command where
  input : Option String := none
  output : Option String := none
  config : Option String := none
  compress : Bool := false
  strictImports : Bool := false
  maxMixinDepth : Option Nat := none
deriving DecidableEq, Repr

namespace Command

/-- An argument that needs a value. -/
inductive Key where
  | output
  | config
  | maxMixinDepth
deriving DecidableEq, Repr

/-- A natural number of at most 64 bits, with an optional plus sign. -/
def natural? (text : String) : Option Nat :=
  let digits := match text.toList with
    | '+' :: rest => rest
    | cs => cs
  if digits.isEmpty || !digits.all Char.isDigit then none
  else
    let n := Json.naturalOf digits
    if n < UInt64.size then some n else none

/-- Give the input, which is not empty. -/
def setInput (c : Command) (value : String) : Option Command :=
  if c.input.isSome || value.isEmpty then none else some { c with input := some value }

/-- Give a value. The names of files are not empty. -/
def set (c : Command) (key : Key) (value : String) : Option Command :=
  match key with
  | .output =>
    if c.output.isSome || value.isEmpty then none else some { c with output := some value }
  | .config =>
    if c.config.isSome || value.isEmpty then none else some { c with config := some value }
  | .maxMixinDepth =>
    if c.maxMixinDepth.isSome then none
    else (natural? value).map fun n => { c with maxMixinDepth := some n }

/-- Give a flag by its long name. -/
def flag (c : Command) (name : String) : Option Command :=
  if name = "compress" then if c.compress then none else some { c with compress := true }
  else if name = "strict-imports" then
    if c.strictImports then none else some { c with strictImports := true }
  else none

/-- The long names of the arguments that need a value. -/
def key? (name : String) : Option Key :=
  if name = "output" then some .output
  else if name = "config" then some .config
  else if name = "max-mixin-depth" then some .maxMixinDepth
  else none

/-- An argument as it is told from others by its first characters. -/
inductive Shape where
  /-- Two hyphens alone: only plain arguments follow. -/
  | terminator
  /-- A long name, and the value after an equals sign. -/
  | long (name : String) (value : Option String)
  /-- The short form of the output, and the value right after it. -/
  | shortOutput (value : Option String)
  /-- A short form that does not exist. -/
  | unknown
  | plain (value : String)
deriving DecidableEq, Repr

/-- The shape of an argument. A hyphen alone is a plain argument. -/
def Shape.of (arg : String) : Shape :=
  match arg.toList with
  | ['-', '-'] => .terminator
  | '-' :: '-' :: cs =>
    match cs.dropWhile (· ≠ '=') with
    | [] => .long (String.ofList cs) none
    | _ :: value => .long (String.ofList (cs.takeWhile (· ≠ '='))) (some (String.ofList value))
  | ['-', 'o'] => .shortOutput none
  | '-' :: 'o' :: '=' :: value => .shortOutput (some (String.ofList value))
  | '-' :: 'o' :: value => .shortOutput (some (String.ofList value))
  | '-' :: _ :: _ => .unknown
  | _ => .plain arg

/-- Read the arguments after `build`. -/
def parseArgs (c : Command) : List String → Option Command
  | [] => some c
  | arg :: args =>
    match Shape.of arg with
    | .terminator => args.foldlM setInput c
    | .plain value => do parseArgs (← c.setInput value) args
    | .unknown => none
    | .long name value? =>
      match key? name, value?, args with
      | none, none, args => do parseArgs (← c.flag name) args
      | none, some _, _ => none
      | some key, some value, args => do parseArgs (← c.set key value) args
      | some key, none, next :: args =>
        match Shape.of next with
        | .plain value => do parseArgs (← c.set key value) args
        | _ => none
      | some _, none, [] => none
    | .shortOutput (some value) => do parseArgs (← c.set .output value) args
    | .shortOutput none =>
      match args with
      | [] => none
      | next :: args =>
        match Shape.of next with
        | .plain value => do parseArgs (← c.set .output value) args
        | _ => none

/-- Read a whole command line, without the name of the program. -/
def parse : List String → Option Command
  | "build" :: args => parseArgs {} args
  | _ => none

/-- What a command comes to. -/
inductive Outcome where
  /-- The arguments make no sense. -/
  | usage
  /-- The command failed, with a line that says at what, and the cause if the program knows it. -/
  | failed (line : String) (cause : Option String)
  /-- The style sheet is to be printed. -/
  | print (css : String)
  /-- The style sheet is to be written to a file. -/
  | write (path : String) (css : String)
deriving DecidableEq, Repr

/-- The line that reports a file that could not be written. -/
def writeFailure (path : String) : String := s!"Failed to write {path}"

/-- The options that the options file gives, or what is wrong with it. -/
def configOptions (path : String) : Option String → Except Outcome Options
  | none => .error (.failed s!"could not read {path}" none)
  | some text =>
    match Options.read? text with
    | none => .error (.failed s!"invalid options in {path}" none)
    | some options => .ok options

/-- The options of a command on top of those from a file. -/
def options (c : Command) (base : Options) : Options :=
  { compress := base.compress || c.compress
    strictImports := base.strictImports || c.strictImports
    maxMixinDepth := c.maxMixinDepth.getD base.maxMixinDepth }

/-- Compile the text of an input file. -/
def build (c : Command) (input : String) (options : Options) : Option String → Outcome
  | none => .failed s!"Failed to read {input}" none
  | some text =>
    match Bundle.read text with
    | .error _ => .failed s!"Failed to parse rule tree {input}" none
    | .ok bundle =>
      match compileToCss bundle.rules options (some bundle.sources) with
      | .error e => .failed s!"Failed to compile {input}" (some e.message)
      | .ok css =>
        match c.output with
        | none => .print css
        | some path => .write path css

/-- Run a command line. The options file is read first. -/
def run {m : Type → Type} [Monad m] (readFile : String → m (Option String)) (args : List String) :
    m Outcome := do
  match parse args with
  | none => return .usage
  | some c =>
    match c.input with
    | none => return .usage
    | some input =>
      let base ← match c.config with
        | none => pure (.ok {})
        | some path => do pure (configOptions path (← readFile path))
      match base with
      | .error outcome => return outcome
      | .ok base => return c.build input (c.options base) (← readFile input)

end Command

end Stylesheet
