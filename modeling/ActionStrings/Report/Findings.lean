import ActionStrings.Details
import ActionStrings.Kind
import ActionStrings.Report.Styled

namespace ActionStrings.Report

inductive Findings (V : Vocabulary)
  | refused (input : String) (error : Error)
  | accepted (details : Details V) (narrow : Except Error (Mask 32)) (wide : Except Error (Mask 64))
      (flags : Option (FlagNames × Except Error (Flags 32)))

def examine (kind : Kind) (policy : Policy) (input : String) : Findings kind.vocabulary :=
  let V := kind.vocabulary
  match V.parseDetails input with
  | .error error => .refused input error
  | .ok details => .accepted details (V.parseMask 32 policy input) (V.parseMask 64 policy input)
      (kind.flagNames?.map fun names => (names,V.parseFlags 32 input))

def opening (input : String) : List Line := [[],[⟨[.bold,.cyan],s!"⚙  Parsing: \"{input}\""⟩]]

def heading (title : String) : List Line := [[],[⟨[.gray],s!"━━━ {title} ━━━"⟩]]

def field (label : String) (value : Span) : Line := [plain "  ",⟨[.blue],label⟩,plain " ",value]

-- Where a text is underlined, counted in characters and not in bytes.
structure Caret where
  column : Nat
  width : Nat
deriving DecidableEq

-- An index that is no cut of the text counts as a column itself.
def columnOf (input : String) (index : Nat) : Nat :=
  match Text.splitAt? index input.toList with
  | some cut => cut.1.length
  | none => index

def Caret.of (input : String) : Violation → Caret
  | .unexpectedCharacter _ index => ⟨columnOf input index,1⟩
  | .invalidAction action index => ⟨columnOf input index,max action.length 1⟩

-- Only an error that stands at one place of the text is underlined.
def complaint (input : String) (error : Error) : List Line :=
  [plain "  ",⟨[.red],error.message⟩] ::
  match error with
  | .malformed violation _ =>
    let caret := Caret.of input violation
    [[],[plain "    ",plain input],
     [plain "    ",plain ("".pushn ' ' caret.column),⟨[.yellow],"".pushn '^' caret.width⟩]]
  | _ => []

def foundLine (index : Nat) (m : Match) : Line :=
  let reach := match m.ordinal with
    | some ordinal => s!"ordinal {ordinal}"
    | none => "all actions"
  [plain "  ",⟨[.gray],s!"[{index}]"⟩,plain " ",⟨[.bold,.green],m.action⟩,plain " ",⟨[.dim],"│"⟩,
   plain " ",⟨[.yellow],s!"span {m.start}..{m.stop}"⟩,plain " ",⟨[.dim],s!"│ {reach}"⟩]

def foundLines {V : Vocabulary} (details : Details V) : List Line :=
  if details.found.isEmpty then [[⟨[.dim],"  No actions (empty action string)"⟩]]
  else
    let skipped := if details.emptySegments = 0 then []
      else [[plain "  ",⟨[.dim],s!"skipped {details.emptySegments} empty segment(s)"⟩]]
    details.found.mapIdx foundLine ++ skipped

def binary {w : Nat} (mask : Mask w) : String := "0b" ++ String.ofList (Nat.toDigits 2 mask.toNat)

def maskLine {w : Nat} (label : String) : Except Error (Mask w) → Line
  | .ok mask => field label ⟨[.yellow],binary mask⟩
  | .error error => field label ⟨[.dim],error.message⟩

def setText {V : Vocabulary} (set : ActionSet V.size) : String :=
  "\x7b" ++ ", ".intercalate (set.members.map V.label) ++ "\x7d"

def flagsLine (names : FlagNames) : Except Error (Flags 32) → Line
  | .ok flags => field "flags:    " ⟨[.dim],names.describe flags⟩
  | .error error => field "flags:    " ⟨[.red],error.message⟩

-- The span of the elapsed time is given from outside, as no input decides it.
def Findings.lines {V : Vocabulary} (elapsed : Span) : Findings V → List Line
  | .refused input error => opening input ++ heading "Error" ++ complaint input error ++ [[]]
  | .accepted details narrow wide flags =>
    opening details.text ++ heading "Matches" ++ foundLines details ++ heading "Encodings" ++
    [field "canonical:" ⟨[.bold],s!"\"{details.canonical}\""⟩,
     field "set:      " ⟨[.dim],setText details.set⟩,
     maskLine "u32:      " narrow,maskLine "u64:      " wide] ++
    heading "Timing" ++ [[plain "  Scan: ",elapsed],[]] ++
    match flags with
    | some (names,result) => [flagsLine names result,[]]
    | none => []

def Findings.exit {V : Vocabulary} : Findings V → Nat
  | .refused .. => 1
  | .accepted .. => 0

end ActionStrings.Report
