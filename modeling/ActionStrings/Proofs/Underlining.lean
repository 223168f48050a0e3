import ActionStrings.Proofs.Verdicts

namespace ActionStrings
open Text

namespace Report

variable {input : String} {violation : Violation} {before after : List Char}

-- The carets stand below the culprit and below nothing else, counted in characters: the index is a
-- cut of the text, and neither an index that is none nor an empty culprit ever has to be made up for.
structure Underlines (input : String) (violation : Violation) (caret : Caret) : Prop where
  column : ∃ before after, input.toList = before ++ after ∧ violation.index = byteLength before ∧
    caret.column = before.length
  width : caret.width = violation.culprit.length
  visible : 0 < violation.culprit.length
  covers : (input.toList.drop caret.column).take caret.width = violation.culprit.toList
  inside : caret.column + caret.width ≤ input.length

theorem columnOf_eq (split : input.toList = before ++ after) :
    columnOf input (byteLength before) = before.length := by
  have cut : splitAt? (byteLength before) input.toList = some (before,after) :=
    splitAt?_eq_some_iff.mpr ⟨split,rfl⟩
  unfold columnOf
  rw [cut]

theorem caret_eq (split : input.toList = before ++ (violation.culprit.toList ++ after))
    (placed : violation.index = byteLength before) (shown : 0 < violation.culprit.length) :
    Caret.of input violation = ⟨before.length,violation.culprit.length⟩ := by
  have column : columnOf input violation.index = before.length := by
    rw [placed]
    exact columnOf_eq split
  cases violation with
  | unexpectedCharacter ch index =>
    have width : (Violation.unexpectedCharacter ch index).culprit.length = 1 := String.length_singleton
    rw [Caret.of,width]
    exact congrArg (Caret.mk · 1) column
  | invalidAction action index =>
    have width : max action.length 1 = action.length := Nat.max_eq_left shown
    rw [Caret.of,width]
    exact congrArg (Caret.mk · action.length) column

theorem caret_underlines (split : input.toList = before ++ (violation.culprit.toList ++ after))
    (placed : violation.index = byteLength before) (shown : 0 < violation.culprit.length) :
    Underlines input violation (Caret.of input violation) := by
  rw [caret_eq split placed shown]
  refine ⟨⟨before,_,split,placed,rfl⟩,rfl,shown,?_,?_⟩
  · rw [split,List.drop_left,← String.length_toList,List.take_left]
  · have whole : input.length = before.length + (violation.culprit.length + after.length) := by
      rw [← String.length_toList,split,List.length_append,List.length_append,String.length_toList]
    rw [whole]
    exact Nat.add_le_add_left (Nat.le_add_right _ _) _

theorem Underlines.columnOf_index {caret : Caret} (underlines : Underlines input violation caret) :
    columnOf input violation.index = caret.column := by
  obtain ⟨before,after,split,placed,column⟩ := underlines.column
  rw [placed,columnOf_eq split,column]

theorem Underlines.unique {caret other : Caret} (underlines : Underlines input violation caret)
    (also : Underlines input violation other) : caret = other := by
  have column : caret.column = other.column := underlines.columnOf_index.symm.trans also.columnOf_index
  have width : caret.width = other.width := underlines.width.trans also.width.symm
  cases caret
  cases other
  cases column
  cases width
  rfl

-- Two bytes too many for each of the wide characters would move and lengthen the line.
example : Caret.of "read,\u3000日本 x" (.invalidAction "日本" 8) = ⟨6,2⟩ := by decide +kernel

end Report

namespace CommandLine
open Report

variable {o : Options} {text : String} {args : List String} {stdin : Stdin} {screen : Bool} {error : Error}

def Rejects (args : List String) (stdin : Stdin) (screen : Bool) (o : Options) (text : String) (error : Error) :
    Prop :=
  (plan (.standard screen) args).carryOut stdin = examine o text ∧
    o.kind.vocabulary.parseDetails (trimLineEnds text) = .error error

-- Only a text that is looked at can be rejected: all other ends of a run have another code.
theorem rejects_of_exit (elapsed : Span) (exited : (run elapsed args stdin screen).exit = 1) :
    ∃ o text error, Rejects args stdin screen o text error := by
  have looked : ∃ o text, (plan (.standard screen) args).carryOut stdin = examine o text := by
    unfold run at exited
    cases planned : plan (.standard screen) args with
    | display shown =>
      rw [planned] at exited
      cases exited
    | refuse complaint =>
      rw [planned] at exited
      cases exited
    | encode o operand =>
      cases operand with
      | some text => exact ⟨o,text,rfl⟩
      | none =>
        rw [planned] at exited
        cases stdin with
        | terminal => cases exited
        | piped bytes =>
          cases decoded : String.fromUTF8? bytes with
          | some text => exact ⟨o,text,by simp only [Plan.carryOut,decoded]⟩
          | none =>
            simp only [Plan.carryOut,decoded] at exited
            cases exited
  obtain ⟨o,text,carried⟩ := looked
  cases read : o.kind.vocabulary.parseDetails (trimLineEnds text) with
  | error error => exact ⟨o,text,error,carried,read⟩
  | ok details =>
    obtain ⟨narrow,_,report⟩ := examine_accepted o.policy read
    rw [run,carried,examine,report] at exited
    cases exited

theorem Rejects.outcome (rejects : Rejects args stdin screen o text error) (elapsed : Span) :
    ∃ violation caret, error = .malformed violation (trimLineEnds text) ∧
      Underlines (trimLineEnds text) violation caret ∧
      run elapsed args stdin screen = ⟨1,printed (refusedText o.colour (trimLineEnds text) violation caret),""⟩ := by
  obtain ⟨carried,read⟩ := rejects
  obtain ⟨violation,before,after,rfl,split,placed,shown⟩ := Vocabulary.parseDetails_error_parts read
  refine ⟨violation,Caret.of (trimLineEnds text) violation,rfl,caret_underlines split placed shown,?_⟩
  rw [run,carried,outcome_refused elapsed read]

-- Whatever text is rejected, in whatever way it was given, the line below it points out the culprit.
theorem run_underlines (elapsed : Span) (args : List String) (stdin : Stdin) (screen : Bool) :
    ((run elapsed args stdin screen).exit = 1 ↔ ∃ o text error, Rejects args stdin screen o text error) ∧
    ∀ o text error, Rejects args stdin screen o text error →
      let trimmed := trimLineEnds text
      ∃ violation caret, error = .malformed violation trimmed ∧ Underlines trimmed violation caret ∧
        run elapsed args stdin screen = ⟨1,printed (openingText o.colour trimmed ++ headingText o.colour "Error" ++
          ["  " ++ painted o.colour "\x1b[31m" (violationText trimmed violation),"","    " ++ trimmed,
           "    " ++ String.ofList (List.replicate caret.column ' ') ++
             painted o.colour "\x1b[33m" (String.ofList (List.replicate caret.width '^'))] ++ [""]),""⟩ := by
  refine ⟨⟨rejects_of_exit elapsed,?_⟩,fun o text error rejects => rejects.outcome elapsed⟩
  rintro ⟨o,text,error,rejects⟩
  obtain ⟨_,_,_,_,printed⟩ := rejects.outcome elapsed
  rw [printed]

theorem run_underlines_wide :
    let text := "read,\u3000日本 x\r\n"
    let trimmed := "read,\u3000日本 x"
    let args := ["--type","file","--color"]
    let elapsed := plain "9ns"
    let violation := Violation.invalidAction "日本" 8
    Rejects args text.toUTF8 false ⟨.file,.reject,true⟩ text (.malformed violation trimmed) ∧
    Underlines trimmed violation ⟨6,2⟩ ∧
    run elapsed args text.toUTF8 false = ⟨1,String.join ["\n",
      "\x1b[1m\x1b[36m⚙  Parsing: \"read,\u3000日本 x\"\x1b[0m\x1b[0m\n","\n","\x1b[90m━━━ Error ━━━\x1b[0m\n",
      "  \x1b[31minvalid action \"日本\" at index 8 of action string \"read,\u3000日本 x\"\x1b[0m\n","\n",
      "    read,\u3000日本 x\n","          \x1b[33m^^\x1b[0m\n","\n"],""⟩ := by
  intro text trimmed args elapsed violation
  have cut : trimLineEnds text = trimmed := by decide +kernel
  have gathered : Kind.file.vocabulary.parseSet trimmed = .error (.malformed violation trimmed) := by decide +kernel
  have rejects : Rejects args text.toUTF8 false ⟨.file,.reject,true⟩ text (.malformed violation trimmed) := by
    refine ⟨carryOut_plan (supplies_typed text) _,?_⟩
    rw [cut]
    exact Vocabulary.parseDetails_of_parseSet_error gathered
  have underlines : Underlines trimmed violation ⟨6,2⟩ :=
    ⟨⟨"read,\u3000".toList,"日本 x".toList,by decide,by decide,by decide⟩,by decide,by decide,by decide,by decide⟩
  obtain ⟨culprit,caret,same,below,printed⟩ := (run_underlines elapsed args text.toUTF8 false).2 _ text _ rejects
  rw [cut] at same below printed
  cases same
  cases below.unique underlines
  let outcome (stdout : String) : Outcome := ⟨1,stdout,""⟩
  refine ⟨rejects,underlines,printed.trans (congrArg outcome ?_)⟩
  decide +kernel

end CommandLine

end ActionStrings
