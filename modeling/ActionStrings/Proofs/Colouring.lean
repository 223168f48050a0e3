import ActionStrings.Proofs.Delivery
import ActionStrings.Proofs.EscapeCodes
import ActionStrings.Proofs.Underlining

namespace ActionStrings

namespace Report

variable {left right sep text title input : String} {list : List String} {V : Vocabulary} {set : ActionSet V.size}
  {first second : List Line}

@[simp] theorem unescaped_append : Unescaped (left ++ right) ↔ Unescaped left ∧ Unescaped right := by
  unfold Unescaped
  rw [String.toList_append,List.mem_append,not_or]

@[simp] theorem unescaped_toString : Unescaped (toString text) ↔ Unescaped text := Iff.rfl

theorem unescaped_ofList {chars : List Char} : Unescaped (String.ofList chars) ↔ escape ∉ chars := by
  rw [Unescaped,String.toList_ofList]

theorem unescaped_of_isDigit {chars : List Char} (digits : ∀ c ∈ chars, c.isDigit = true) :
    Unescaped (String.ofList chars) :=
  unescaped_ofList.mpr fun member => absurd (digits escape member) (by decide)

theorem unescaped_toDigits {base : Nat} (positive : 0 < base) (few : base ≤ 10) (n : Nat) :
    Unescaped (String.ofList (Nat.toDigits base n)) :=
  unescaped_of_isDigit fun _ member => Nat.isDigit_of_mem_toDigits positive few member

@[simp] theorem unescaped_repr (n : Nat) : Unescaped n.repr := by
  have written : n.repr = String.ofList (Nat.toDigits 10 n) := by rw [← Nat.toList_repr,String.ofList_toList]
  rw [written]
  exact unescaped_toDigits (by decide) (by decide) n

@[simp] theorem unescaped_binary {w : Nat} (mask : Mask w) : Unescaped (binary mask) :=
  unescaped_append.mpr ⟨by decide,unescaped_toDigits (by decide) (by decide) mask.toNat⟩

@[simp] theorem text_plain (text : String) : (plain text).text = text := rfl

@[simp] theorem clean_append : Clean (first ++ second) ↔ Clean first ∧ Clean second := List.forall_mem_append

theorem clean_opening (free : Unescaped input) : Clean (opening input) := by
  simp +decide [Clean,opening,free]

theorem clean_heading (free : Unescaped title) : Clean (heading title) := by
  simp +decide [Clean,heading,free]

theorem unescaped_intercalate (between : Unescaped sep) (each : ∀ part ∈ list, Unescaped part) :
    Unescaped (sep.intercalate list) := by
  induction list with
  | nil => exact List.not_mem_nil
  | cons part rest ih =>
    obtain ⟨first,later⟩ := List.forall_mem_cons.mp each
    by_cases last : rest = []
    · subst last
      rw [String.intercalate_singleton]
      exact first
    · rw [String.intercalate_cons_of_ne_nil last]
      exact unescaped_append.mpr ⟨unescaped_append.mpr ⟨first,between⟩,ih later⟩

theorem unescaped_replicate {c : Char} (free : c ≠ escape) (n : Nat) :
    Unescaped (String.ofList (List.replicate n c)) :=
  unescaped_ofList.mpr fun member => free (List.eq_of_mem_replicate member).symm

-- The message is unfolded as it stands: to split its match into equations takes far longer.
theorem unescaped_message {violation : Violation} (culprit : Unescaped violation.culprit) (free : Unescaped input) :
    Unescaped (Error.malformed violation input).message := by
  cases violation with
  | unexpectedCharacter ch index =>
    have shown : Unescaped (toString ch) := culprit
    unfold Error.message
    simp +decide [shown,free]
  | invalidAction action index =>
    have shown : Unescaped action := culprit
    unfold Error.message
    simp +decide [shown,free]

theorem clean_complaint {violation : Violation} (culprit : Unescaped violation.culprit) (free : Unescaped input) :
    Clean (complaint input (.malformed violation input)) := by
  have message := unescaped_message culprit free
  have spaces (n : Nat) : Unescaped (String.ofList (List.replicate n ' ')) := unescaped_replicate (by decide) n
  have carets (n : Nat) : Unescaped (String.ofList (List.replicate n '^')) := unescaped_replicate (by decide) n
  simp +decide [Clean,complaint,pushn_eq,message,free,spaces,carets]

theorem clean_foundLine (index : Nat) {m : Match} (free : Unescaped m.action) :
    ∀ span ∈ foundLine index m, Unescaped span.text := by
  cases reach : m.ordinal with
  | none => simp +decide [foundLine,free,reach]
  | some ordinal => simp +decide [foundLine,free,reach]

theorem clean_foundLines {details : Details V} (free : ∀ m ∈ details.found, Unescaped m.action) :
    Clean (foundLines details) := by
  unfold foundLines
  split
  · simp +decide [Clean]
  · refine clean_append.mpr ⟨?_,?_⟩
    · intro line member
      obtain ⟨index,inside,rfl⟩ := List.mem_mapIdx.mp member
      exact clean_foundLine index (free _ (List.getElem_mem inside))
    · split <;> simp +decide [Clean]

structure Legible (V : Vocabulary) : Prop where
  name : ∀ a : V.Action, Unescaped (V.name a)
  label : ∀ a : V.Action, Unescaped (V.label a)

theorem legible_kind (kind : Kind) : Legible kind.vocabulary := by
  cases kind <;> exact ⟨by decide,by decide⟩

theorem legible_flags {kind : Kind} {names : FlagNames} (flagged : kind.flagNames? = some names) :
    Unescaped names.title ∧ ∀ label ∈ names.labels, Unescaped label := by
  cases kind with
  | file =>
    cases flagged
    decide
  | socket => cases flagged
  | property => cases flagged

theorem Legible.action (legible : Legible V) (hit : Reading.Hit V.Action) : Unescaped (V.matchOf hit).action := by
  cases told : hit.event with
  | named a => simp only [Vocabulary.matchOf,told,legible.name a]
  | everything => simp +decide only [Vocabulary.matchOf,told]

theorem Legible.found (legible : Legible V) {details : Details V} (read : V.parseDetails input = .ok details) :
    ∀ m ∈ details.found, Unescaped m.action := by
  unfold Vocabulary.parseDetails at read
  split at read
  · cases read
  · cases read
    exact List.forall_mem_map.mpr fun hit _ => legible.action hit

theorem Legible.canonical (legible : Legible V) (set : ActionSet V.size) : Unescaped (V.canonicalSet set) := by
  refine unescaped_append.mpr ⟨by decide,unescaped_intercalate (by decide) ?_⟩
  exact List.forall_mem_map.mpr fun a _ => legible.name a

theorem unescaped_setText (legible : Legible V) (set : ActionSet V.size) : Unescaped (setText set) := by
  have members : Unescaped (", ".intercalate (set.members.map V.label)) :=
    unescaped_intercalate (by decide) (List.forall_mem_map.mpr fun a _ => legible.label a)
  simp +decide [setText,members]

theorem unescaped_describe {names : FlagNames} (titled : Unescaped names.title)
    (labelled : ∀ label ∈ names.labels, Unescaped label) (flags : Flags 32) : Unescaped (names.describe flags) := by
  have present : Unescaped (" | ".intercalate (names.labels.zipIdx.filterMap fun row =>
      if flags.bits.getLsbD row.2 then some row.1 else none)) := by
    refine unescaped_intercalate (by decide) fun label member => ?_
    obtain ⟨row,inside,shown⟩ := List.mem_filterMap.mp member
    split at shown
    · cases shown
      exact labelled row.1 (List.fst_mem_of_mem_zipIdx inside)
    · cases shown
  unfold FlagNames.describe
  simp only
  split <;> simp +decide [titled,present]

theorem clean_refused {error : Error} {elapsed : Span} (free : Unescaped input)
    (failed : V.parseDetails input = .error error) :
    Clean ((Findings.refused input error : Findings V).lines elapsed) := by
  obtain ⟨violation,before,after,rfl,split,_,_⟩ := Vocabulary.parseDetails_error_parts failed
  have culprit : Unescaped violation.culprit := by
    intro member
    apply free
    rw [split]
    exact List.mem_append_right before (List.mem_append_left after member)
  have headed : Clean (heading "Error") := clean_heading (by decide)
  have told := clean_complaint culprit free
  have ended : Clean [[]] := by simp [Clean]
  simp only [Findings.lines,clean_append,clean_opening free,headed,told,ended,and_self]

theorem clean_flags {kind : Kind} (flags : Flags 32) :
    Clean (match kind.flagNames?.map fun names => (names,(.ok flags : Except Error (Flags 32))) with
      | some (names,result) => [flagsLine names result,[]]
      | none => []) := by
  cases flagged : kind.flagNames? with
  | none => exact fun _ member => absurd member List.not_mem_nil
  | some names =>
    have shown := unescaped_describe (legible_flags flagged).1 (legible_flags flagged).2 flags
    simp +decide [Clean,flagsLine,field,shown]

theorem clean_accepted {kind : Kind} {details : Details kind.vocabulary} {elapsed : Span} (policy : Policy)
    (free : Unescaped input) (timed : Unescaped elapsed.text)
    (read : kind.vocabulary.parseDetails input = .ok details) :
    Clean ((examine kind policy input).lines elapsed) := by
  obtain ⟨narrow,_,report⟩ := examine_accepted policy read
  have legible := legible_kind kind
  obtain ⟨whole,written⟩ := parts_of_parseDetails read
  have opened : Clean (opening details.text) := by
    rw [whole]
    exact clean_opening free
  have found := clean_foundLines (legible.found read)
  have canonical : Unescaped details.canonical := by
    rw [written]
    exact legible.canonical details.set
  have set := unescaped_setText legible details.set
  have encoded : Clean [field "canonical:" ⟨[.bold],s!"\"{details.canonical}\""⟩,
      field "set:      " ⟨[.dim],setText details.set⟩,maskLine "u32:      " (.ok narrow),
      maskLine "u64:      " (.ok (narrow.setWidth 64))] := by
    simp +decide [Clean,field,maskLine,canonical,set]
  have measured : Clean [[plain "  Scan: ",elapsed],[]] := by simp +decide [Clean,timed]
  rw [report]
  unfold Findings.lines
  simp +decide only [clean_append,opened,clean_heading,found,encoded,measured,true_and]
  exact clean_flags ⟨narrow⟩

theorem clean_examine {elapsed : Span} (kind : Kind) (policy : Policy) (free : Unescaped input)
    (timed : Unescaped elapsed.text) : Clean ((examine kind policy input).lines elapsed) := by
  cases read : kind.vocabulary.parseDetails input with
  | error error =>
    rw [examine_refused policy read]
    exact clean_refused free read
  | ok details => exact clean_accepted policy free timed read

end Report

namespace CommandLine
open Report

variable {o : Options} {text : String} {opts tail : List String} {stdin : Stdin} {screen : Bool} {elapsed : Span}
  {settled : Plan}

theorem unescaped_trimmed (free : Unescaped text) : Unescaped (trimLineEnds text) := by
  obtain ⟨gap,split,_⟩ := trimLineEnds_split text
  rw [split] at free
  exact (unescaped_append.mp free).1

structure Coloured (coloured uncoloured : Outcome) : Prop where
  exit : coloured.exit = uncoloured.exit
  stderr : coloured.stderr = uncoloured.stderr
  stdout : Coded coloured.stdout.toList uncoloured.stdout.toList

theorem coloured_outcome {V : Vocabulary} {findings : Findings V} (clean : Clean (findings.lines elapsed)) :
    Coloured ((Conclusion.examined true findings).outcome elapsed)
      ((Conclusion.examined false findings).outcome elapsed) :=
  ⟨rfl,rfl,coded_render clean⟩

theorem coloured_examine (o : Options) (free : Unescaped text) (timed : Unescaped elapsed.text) :
    Coloured ((examine {o with colour := true} text).outcome elapsed)
      ((examine {o with colour := false} text).outcome elapsed) := by
  have clean := clean_examine o.kind o.policy (unescaped_trimmed free) timed
  exact coloured_outcome clean

-- A long text is opened to its characters one below the other.
set_option maxRecDepth 4000 in
theorem unescaped_help : Unescaped help := by
  refine unescaped_append.mpr ⟨by decide,unescaped_ofList.mpr ?_⟩
  decide +kernel

theorem unescaped_listing (kind : Kind) : Unescaped (listing kind) :=
  unescaped_intercalate (by decide) (List.forall_mem_map.mpr fun a _ => (legible_kind kind).name a)

theorem unescaped_display {shown : String} (free : Unescaped shown) (elapsed : Span) (stdin : Stdin) :
    Unescaped (((Plan.display shown).carryOut stdin).outcome elapsed).stdout :=
  unescaped_append.mpr ⟨free,by decide⟩

theorem Early.unescaped (early : Early settled) (elapsed : Span) (stdin : Stdin) :
    Unescaped ((settled.carryOut stdin).outcome elapsed).stdout := by
  cases early with
  | help => exact unescaped_display unescaped_help elapsed stdin
  | version => exact unescaped_display (by decide) elapsed stdin
  | listing kind => exact unescaped_display (unescaped_listing kind) elapsed stdin
  | refused complaint => exact List.not_mem_nil

theorem run_coloured (screen : Bool) (options : OptionList opts) (supplied : Supplies stdin tail text)
    (free : Unescaped text) (timed : Unescaped elapsed.text) :
    Coloured (run elapsed (opts ++ "--color" :: tail) stdin screen)
      (run elapsed (opts ++ "--no-color" :: tail) stdin screen) := by
  cases options.decides (.standard screen) with
  | @chooses last chosen =>
    have coloured : Chooses (.standard screen) (opts ++ ["--color"]) {last with colour := true} :=
      chosen.append (.coloured .done)
    have uncoloured : Chooses (.standard screen) (opts ++ ["--no-color"]) {last with colour := false} :=
      chosen.append (.uncoloured .done)
    rw [List.append_cons opts "--color" tail,List.append_cons opts "--no-color" tail,
      run_chosen elapsed coloured supplied,run_chosen elapsed uncoloured supplied]
    exact coloured_examine last free timed
  | ends early whatever =>
    rw [run,run,whatever,whatever]
    exact ⟨rfl,rfl,coded_self (early.unescaped elapsed stdin)⟩

-- Colour changes neither the verdict nor a complaint, and puts no more than codes into what is shown:
-- without them it is what is shown without colour, in whatever order they are taken out. The time comes
-- from outside and is read as any other text.
theorem run_decoloured (elapsed : Span) (screen : Bool) (options : OptionList opts)
    (supplied : Supplies stdin tail text) (free : Unescaped text) (timed : Unescaped elapsed.text) :
    let coloured := run elapsed (opts ++ "--color" :: tail) stdin screen
    let uncoloured := run elapsed (opts ++ "--no-color" :: tail) stdin screen
    coloured.exit = uncoloured.exit ∧ coloured.stderr = uncoloured.stderr ∧
    strip coloured.stdout = uncoloured.stdout ∧
    ∀ left, Cleared coloured.stdout.toList left ↔ left = uncoloured.stdout.toList := by
  intro coloured uncoloured
  have same : Coloured coloured uncoloured := run_coloured screen options supplied free timed
  exact ⟨same.exit,same.stderr,strip_coded same.stdout,fun _ => same.stdout.cleared_iff⟩

theorem run_decoloured_brackets :
    let elapsed := Report.plain "5ns"
    let stdin := "read,[0m,[31mx\n".toUTF8
    OptionList ["-t","property"] ∧ Supplies stdin [] "read,[0m,[31mx\n" ∧
    Unescaped "read,[0m,[31mx\n" ∧ Unescaped elapsed.text ∧
    (run elapsed ["-t","property","--color"] stdin true).exit = 1 ∧
    strip (run elapsed ["-t","property","--color"] stdin true).stdout =
      (run elapsed ["-t","property","--no-color"] stdin true).stdout := by
  intro elapsed stdin
  have options : OptionList ["-t","property"] := .announced (.inr rfl) .done
  have supplied : Supplies stdin [] "read,[0m,[31mx\n" := supplies_typed _
  have free : Unescaped "read,[0m,[31mx\n" := by decide
  have timed : Unescaped elapsed.text := by decide
  obtain ⟨_,_,shown,_⟩ := run_decoloured elapsed true options supplied free timed
  exact ⟨options,supplied,free,timed,by decide +kernel,shown⟩

end CommandLine

end ActionStrings
