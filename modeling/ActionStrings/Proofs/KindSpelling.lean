import ActionStrings.Proofs.Delivery

namespace ActionStrings.CommandLine

variable {last : Options} {arg title : String} {opts : List String}

def bare (title : String) : String := String.ofList (unmark title.toList)

theorem of_joined (title : String) : Argument.of (kindMark ++ title) = .kindIs (bare title) := by
  have split : (kindMark ++ title).toList = kindMark.toList ++ title.toList := String.toList_append
  rw [of_eq_kindIs (by rw [split]; exact List.prefix_append _ _),split,unmark_mark]
  rfl

theorem bare_unmarked (unmarked : ¬kindMark.toList <+: title.toList) : bare title = title := by
  rw [bare,unmark_unmarked unmarked,String.ofList_toList]

theorem ofTitle?_marked (marked : kindMark.toList <+: title.toList) : Kind.ofTitle? title = none := by
  unfold Kind.ofTitle?
  split
  case h_4 => rfl
  all_goals exact absurd marked (by decide)

def planFor (o : Options) (title : String) (rest : List String) : Plan :=
  match Kind.ofTitle? title with
  | some kind => plan {o with kind} rest
  | none => .refuse (unknownKind title)

theorem plan_apart (o : Options) (title : String) (rest : List String) :
    plan o ("--type" :: title :: rest) = planFor o title rest := by
  rw [plan.eq_def]
  rfl

theorem plan_joined (o : Options) (title : String) (rest : List String) :
    plan o ((kindMark ++ title) :: rest) = planFor o (bare title) rest := by
  rw [plan.eq_def]
  simp only [of_joined]
  rfl

theorem run_joined (elapsed : Report.Span) (options : OptionList opts) (title : String) (rest : List String)
    (stdin : Stdin) (screen : Bool) : run elapsed (opts ++ (kindMark ++ title) :: rest) stdin screen =
      run elapsed (opts ++ "--type" :: bare title :: rest) stdin screen := by
  cases options.decides (.standard screen) with
  | chooses chosen => rw [run,run,plan_append chosen,plan_append chosen,plan_joined,plan_apart]
  | ends early whatever => rw [run,run,whatever,whatever]

theorem run_apart_marked (elapsed : Report.Span) {screen : Bool} (chosen : Chooses (.standard screen) opts last)
    (marked : kindMark.toList <+: title.toList) (rest : List String) (stdin : Stdin) :
    run elapsed (opts ++ "--type" :: title :: rest) stdin screen = refusal (unknownKind title) := by
  rw [run,plan_append chosen,plan_apart,planFor,ofTitle?_marked marked]
  rfl

-- A title that is joined to its option loses every mark in front of it, and one that stands apart
-- loses none: the two spellings are one where no mark begins the title. With a mark the one is
-- refused, whatever the other asks for.
theorem run_kind_spelled (elapsed : Report.Span) (options : OptionList opts) (title : String)
    (rest : List String) (stdin : Stdin) (screen : Bool) :
    let joined := run elapsed (opts ++ ("--type=" ++ title) :: rest) stdin screen
    let apart := run elapsed (opts ++ "--type" :: title :: rest) stdin screen
    (¬kindMark.toList <+: title.toList → joined = apart) ∧
    joined = run elapsed (opts ++ "--type" :: bare title :: rest) stdin screen ∧
    (∃ n, title.toList = (List.replicate n kindMark.toList).flatten ++ (bare title).toList ∧
      ¬kindMark.toList <+: (bare title).toList) ∧
    ∀ last, Chooses (.standard screen) opts last →
      joined = ((planFor last (bare title) rest).carryOut stdin).outcome elapsed ∧
      (kindMark.toList <+: title.toList → apart = refusal (unknownKind title)) := by
  intro joined apart
  have same : joined = run elapsed (opts ++ "--type" :: bare title :: rest) stdin screen :=
    run_joined elapsed options title rest stdin screen
  refine ⟨?_,same,?_,?_⟩
  · intro unmarked
    rw [same,bare_unmarked unmarked]
  · rw [bare,String.toList_ofList]
    exact unmark_split title.toList
  · intro last chosen
    refine ⟨?_,fun marked => run_apart_marked elapsed chosen marked rest stdin⟩
    rw [same,run,plan_append chosen,plan_apart]

theorem run_kind_spelled_socket :
    let elapsed := Report.plain "3ns"
    OptionList ["--wrap"] ∧
    run elapsed ["--wrap","--type=socket","listen"] .terminal false =
      run elapsed ["--wrap","--type","socket","listen"] .terminal false ∧
    run elapsed ["--wrap","--type=--type=socket","listen"] .terminal false =
      run elapsed ["--wrap","--type","socket","listen"] .terminal false ∧
    run elapsed ["--wrap","--type","--type=socket","listen"] .terminal false =
      refusal (unknownKind "--type=socket") := by
  intro elapsed
  have options : OptionList ["--wrap"] := .single (by decide) .done
  have chosen : Chooses (.standard false) ["--wrap"] ⟨.file,.wrap,false⟩ := .wrap .done
  obtain ⟨once,_⟩ := run_kind_spelled elapsed options "socket" ["listen"] .terminal false
  obtain ⟨_,twice,_,told⟩ := run_kind_spelled elapsed options "--type=socket" ["listen"] .terminal false
  have left : bare "--type=socket" = "socket" := by decide
  rw [left] at twice
  exact ⟨options,once (by decide),twice,(told _ chosen).2 (by decide)⟩

theorem kind_spellings_differ : ¬∀ (elapsed : Report.Span) (opts : List String), OptionList opts →
    ∀ (title : String) (rest : List String) (stdin : Stdin) (screen : Bool),
      run elapsed (opts ++ ("--type=" ++ title) :: rest) stdin screen =
        run elapsed (opts ++ "--type" :: title :: rest) stdin screen := by
  intro alike
  have same := alike (Report.plain "1ns") [] .done "--type=file" ["read"] ByteArray.empty false
  exact absurd (congrArg Outcome.exit same) (by decide +kernel)

end ActionStrings.CommandLine
