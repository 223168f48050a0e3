import ActionStrings.Report.Findings

namespace ActionStrings.Report

variable {V : Vocabulary} {input : String} {colour : Bool}

def openingText (colour : Bool) (input : String) : List String :=
  ["",painted colour "\x1b[1m" (painted colour "\x1b[36m" ("⚙  Parsing: \"" ++ input ++ "\""))]

def headingText (colour : Bool) (title : String) : List String :=
  ["",painted colour "\x1b[90m" ("━━━ " ++ title ++ " ━━━")]

def fieldText (colour : Bool) (label code value : String) : String :=
  "  " ++ painted colour "\x1b[34m" label ++ " " ++ painted colour code value

def violationText (input : String) : Violation → String
  | .unexpectedCharacter ch index =>
    "unexpected character '" ++ String.singleton ch ++ "' at index " ++ index.repr ++ " of action string \"" ++
      input ++ "\""
  | .invalidAction action index =>
    "invalid action \"" ++ action ++ "\" at index " ++ index.repr ++ " of action string \"" ++ input ++ "\""

def complaintText (colour : Bool) (input message : String) (caret : Caret) : List String :=
  ["  " ++ painted colour "\x1b[31m" message,"","    " ++ input,
   "    " ++ String.ofList (List.replicate caret.column ' ') ++
     painted colour "\x1b[33m" (String.ofList (List.replicate caret.width '^'))]

def reachText : Option Nat → String
  | some ordinal => "ordinal " ++ ordinal.repr
  | none => "all actions"

def matchText (colour : Bool) (index : Nat) (m : Match) : String :=
  "  " ++ painted colour "\x1b[90m" ("[" ++ index.repr ++ "]") ++ " " ++
    painted colour "\x1b[1m" (painted colour "\x1b[32m" m.action) ++ " " ++ painted colour "\x1b[2m" "│" ++ " " ++
    painted colour "\x1b[33m" ("span " ++ m.start.repr ++ ".." ++ m.stop.repr) ++ " " ++
    painted colour "\x1b[2m" ("│ " ++ reachText m.ordinal)

def matchesText (colour : Bool) (found : List Match) (emptySegments : Nat) : List String :=
  if found.isEmpty then [painted colour "\x1b[2m" "  No actions (empty action string)"]
  else
    let skipped := "  " ++ painted colour "\x1b[2m" ("skipped " ++ emptySegments.repr ++ " empty segment(s)")
    found.mapIdx (matchText colour) ++ if emptySegments = 0 then [] else [skipped]

theorem shown_opening (input : String) : (opening input).map (Line.shown colour) = openingText colour input := by
  simp only [opening,openingText,List.map_cons,List.map_nil,Line.shown_cons,Line.shown_nil,String.append_empty]
  rfl

theorem shown_heading (title : String) : (heading title).map (Line.shown colour) = headingText colour title := by
  simp only [heading,headingText,List.map_cons,List.map_nil,Line.shown_cons,Line.shown_nil,String.append_empty]
  rfl

theorem shown_field (label : String) (style : Style) (value : String) :
    Line.shown colour (field label ⟨[style],value⟩) = fieldText colour label style.code value := by
  simp only [field,fieldText,Line.shown_cons,Line.shown_nil,String.append_empty,String.append_assoc]
  rfl

theorem message_malformed (violation : Violation) (input : String) :
    (Error.malformed violation input).message = violationText input violation := by
  cases violation <;> rfl

theorem pushn_eq (c : Char) (n : Nat) : "".pushn c n = String.ofList (List.replicate n c) := by
  induction n with
  | zero => rfl
  | succ n ih =>
    have pushed : "".pushn c (n + 1) = ("".pushn c n).push c := rfl
    rw [pushed,ih]
    apply String.toList_inj.mp
    rw [String.toList_push,String.toList_ofList,String.toList_ofList,List.replicate_succ']

theorem shown_complaint (violation : Violation) (input : String) :
    (complaint input (.malformed violation input)).map (Line.shown colour) =
      complaintText colour input (violationText input violation) (Caret.of input violation) := by
  simp only [complaint,complaintText,message_malformed,pushn_eq,List.map_cons,List.map_nil,Line.shown_cons,
    Line.shown_nil,String.append_empty,String.append_assoc]
  rfl

theorem shown_foundLine (index : Nat) (m : Match) :
    Line.shown colour (foundLine index m) = matchText colour index m := by
  unfold foundLine matchText
  simp only [Line.shown_cons,Line.shown_nil,String.append_empty,String.append_assoc]
  cases m.ordinal <;> rfl

theorem shown_found (found : List Match) :
    (found.mapIdx foundLine).map (Line.shown colour) = found.mapIdx (matchText colour) := by
  rw [List.mapIdx_eq_zipIdx_map,List.mapIdx_eq_zipIdx_map,List.map_map]
  apply List.map_congr_left
  rintro ⟨m,index⟩ _
  exact shown_foundLine index m

theorem shown_foundLines (details : Details V) :
    (foundLines details).map (Line.shown colour) = matchesText colour details.found details.emptySegments := by
  unfold foundLines matchesText
  split
  · simp only [List.map_cons,List.map_nil,Line.shown_cons,Line.shown_nil,String.append_empty]
    rfl
  · rw [List.map_append,shown_found]
    split
    · rfl
    · simp only [List.map_cons,List.map_nil,Line.shown_cons,Line.shown_nil,String.append_empty]
      rfl

def refusedText (colour : Bool) (input : String) (violation : Violation) (caret : Caret) : List String :=
  openingText colour input ++ headingText colour "Error" ++
  complaintText colour input (violationText input violation) caret ++ [""]

def labels : List String := ["canonical:","set:      ","u32:      ","u64:      ","flags:    "]

def labelled (colour : Bool) (label : String) : List Char := ("  " ++ painted colour "\x1b[34m" label).toList

def TellsEncoding (colour : Bool) (line : String) : Prop := ∃ label ∈ labels, labelled colour label <+: line.toList

instance (colour : Bool) (line : String) : Decidable (TellsEncoding colour line) :=
  inferInstanceAs (Decidable (∃ label ∈ labels, labelled colour label <+: line.toList))

-- What a line begins with settles it, where neither goes on as the other.
theorem not_tellsEncoding_append {head : String} (rest : String)
    (apart : ∀ label ∈ labels, ¬labelled colour label <+: head.toList ∧ ¬head.toList <+: labelled colour label) :
    ¬TellsEncoding colour (head ++ rest) := by
  rintro ⟨label,known,begins⟩
  have ahead : head.toList <+: (head ++ rest).toList := by
    rw [String.toList_append]
    exact List.prefix_append _ _
  obtain ⟨short,long⟩ := apart label known
  exact (List.prefix_or_prefix_of_prefix begins ahead).elim short long

theorem not_tellsEncoding_opening : ¬TellsEncoding colour (painted colour "\x1b[1m"
    (painted colour "\x1b[36m" ("⚙  Parsing: \"" ++ input ++ "\""))) := by
  cases colour with
  | false =>
    rw [painted_false,painted_false,String.append_assoc]
    exact not_tellsEncoding_append _ (by decide)
  | true =>
    rw [painted_true,String.append_assoc]
    exact not_tellsEncoding_append _ (by decide)

theorem not_tellsEncoding_message (violation : Violation) :
    ¬TellsEncoding colour ("  " ++ painted colour "\x1b[31m" (violationText input violation)) := by
  cases colour with
  | false =>
    cases violation with
    | unexpectedCharacter ch index =>
      unfold violationText
      simp only [painted_false,String.append_assoc]
      rw [← String.append_assoc]
      exact not_tellsEncoding_append _ (by decide +kernel)
    | invalidAction action index =>
      unfold violationText
      simp only [painted_false,String.append_assoc]
      rw [← String.append_assoc]
      exact not_tellsEncoding_append _ (by decide +kernel)
  | true =>
    rw [painted_true,String.append_assoc,← String.append_assoc]
    exact not_tellsEncoding_append _ (by decide)

theorem not_tellsEncoding_refused (violation : Violation) (caret : Caret) :
    ∀ line ∈ refusedText colour input violation caret, ¬TellsEncoding colour line := by
  have empty : ¬TellsEncoding colour "" := by cases colour <;> decide
  have headed : ¬TellsEncoding colour (painted colour "\x1b[90m" ("━━━ " ++ "Error" ++ " ━━━")) := by
    cases colour <;> decide
  have indented (rest : String) : ¬TellsEncoding colour ("    " ++ rest) :=
    not_tellsEncoding_append rest (by cases colour <;> decide)
  have underlined (spaces carets : String) : ¬TellsEncoding colour ("    " ++ spaces ++ carets) := by
    rw [String.append_assoc]
    exact indented _
  simp only [refusedText,openingText,headingText,complaintText,List.cons_append,List.nil_append,List.forall_mem_cons]
  exact ⟨empty,not_tellsEncoding_opening,empty,headed,not_tellsEncoding_message violation,empty,indented _,
    underlined _ _,empty,List.forall_mem_nil _⟩

end ActionStrings.Report
