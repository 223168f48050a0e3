import ActionStrings.Report.Findings

namespace ActionStrings.CommandLine

structure Options where
  kind : Kind
  policy : Policy
  colour : Bool

-- What holds before any argument is read: only a screen is coloured unasked.
def Options.standard (screen : Bool) : Options := ⟨.file,.reject,screen⟩

inductive Argument
  | help
  | version
  | colour (on : Bool)
  | wrap
  | kindFollows
  | list
  | endOfOptions
  | kindIs (title : String)
  | unknown
  | operand

def kindMark : String := "--type="

-- The mark is taken off as often as it stands in front.
def unmark : List Char → List Char
  | '-' :: '-' :: 't' :: 'y' :: 'p' :: 'e' :: '=' :: rest => unmark rest
  | title => title

def Argument.of (arg : String) : Argument :=
  match arg with
  | "-h" | "--help" => .help
  | "-V" | "--version" => .version
  | "--color" => .colour true
  | "--no-color" => .colour false
  | "--wrap" => .wrap
  | "--type" | "-t" => .kindFollows
  | "--list" => .list
  | "--" => .endOfOptions
  | "-" => .operand
  | _ =>
    if kindMark.toList.isPrefixOf arg.toList then .kindIs (String.ofList (unmark arg.toList))
    else if ['-'].isPrefixOf arg.toList then .unknown
    else .operand

inductive Plan
  | display (text : String)
  | refuse (complaint : String)
  | encode (options : Options) (operand : Option String)

def version : String := "actionset 0.1.0"

def help : String := version ++ "

Parse a permission action string and show its encodings.

Usage:
  actionset [OPTIONS] [--] <actions...>
  echo 'read, write' | actionset [OPTIONS]

Options:
  -t, --type <type>   Action type: file, socket or property. Default: file
  --list              Print the actions of the selected type in ordinal order.
  --wrap              Encode masks even when the type has more actions than
                      the mask has bits.
  --color             Force ANSI color output.
  --no-color          Disable ANSI color output.
  -h, --help          Show this help message.
  -V, --version       Print version information.

Environment:
  ACTIONSET_LOG       Log filter (e.g. debug, trace). Logs go to stderr.

Exit codes:
  0  The action string is valid.
  1  The action string was rejected.
  2  Invalid arguments or missing input.
"

def listing (kind : Kind) : String :=
  "\n".intercalate (kind.vocabulary.actions.map kind.vocabulary.name)

def unknownKind (title : String) : String :=
  s!"error: unknown action type '{title}' (expected file, socket or property)"

-- Options act in their order; the first operand ends them and takes the rest with it.
def plan (o : Options) : List String → Plan
  | [] => .encode o none
  | arg :: rest =>
    match Argument.of arg with
    | .help => .display help
    | .version => .display version
    | .colour on => plan {o with colour := on} rest
    | .wrap => plan {o with policy := .wrap} rest
    | .kindFollows =>
      match rest with
      | [] => .refuse "error: --type expects a value"
      | title :: more =>
        match Kind.ofTitle? title with
        | some kind => plan {o with kind} more
        | none => .refuse (unknownKind title)
    | .list => .display (listing o.kind)
    | .endOfOptions => .encode o (some (" ".intercalate rest))
    | .kindIs title =>
      match Kind.ofTitle? title with
      | some kind => plan {o with kind} rest
      | none => .refuse (unknownKind title)
    | .unknown => .refuse s!"error: unknown option '{arg}'"
    | .operand => .encode o (some (" ".intercalate (arg :: rest)))

def trimLineEnds (text : String) : String :=
  String.ofList (text.toList.reverse.dropWhile fun c => c == '\n' || c == '\r').reverse

structure Outcome where
  exit : Nat
  stdout : String
  stderr : String
deriving DecidableEq

def refusal (complaint : String) : Outcome := ⟨2,"",complaint ++ "\n"⟩

def invalidInput : String := "error: failed to read stdin: stream did not contain valid UTF-8"

def noInput : String := "error: no input provided\n\n" ++ help

inductive Stdin
  | terminal
  | piped (bytes : ByteArray)

instance : Coe ByteArray Stdin := ⟨.piped⟩

-- All of a run but the time that it took.
inductive Conclusion
  | settled (outcome : Outcome)
  | examined {V : Vocabulary} (colour : Bool) (findings : Report.Findings V)

def examine (o : Options) (text : String) : Conclusion :=
  .examined o.colour (Report.examine o.kind o.policy (trimLineEnds text))

def Plan.readsInput : Plan → Bool
  | .encode _ none => true
  | _ => false

def Plan.carryOut (stdin : Stdin) : Plan → Conclusion
  | .display text => .settled ⟨0,text ++ "\n",""⟩
  | .refuse complaint => .settled (refusal complaint)
  | .encode o (some text) => examine o text
  | .encode o none =>
    match stdin with
    | .terminal => .settled (refusal noInput)
    | .piped bytes =>
      match String.fromUTF8? bytes with
      | some text => examine o text
      | none => .settled (refusal invalidInput)

def Conclusion.outcome (elapsed : Report.Span) : Conclusion → Outcome
  | .settled outcome => outcome
  | .examined colour findings => ⟨findings.exit,Report.render colour (findings.lines elapsed),""⟩

-- Where nothing is said of a screen, stdout is none.
def run (elapsed : Report.Span) (args : List String) (stdin : Stdin) (screen : Bool := false) : Outcome :=
  ((plan (.standard screen) args).carryOut stdin).outcome elapsed

end ActionStrings.CommandLine
