import ActionStrings.Proofs.Verdicts

namespace ActionStrings.CommandLine

variable {o : Options} {arg text : String} {opts tail tail' : List String}
  {stdin stdin' : Stdin}

def Single (arg : String) : Prop := Dashed arg ∧ arg ∉ ["-","--","--type","-t"]

instance (arg : String) : Decidable (Single arg) :=
  inferInstanceAs (Decidable (Dashed arg ∧ arg ∉ ["-","--","--type","-t"]))

-- A list of options: one that announces a kind has its title behind it, whatever that is.
inductive OptionList : List String → Prop
  | done : OptionList []
  | single {arg : String} {rest : List String} (alone : Single arg) (later : OptionList rest) :
      OptionList (arg :: rest)
  | announced {arg title : String} {rest : List String} (announces : arg = "--type" ∨ arg = "-t")
      (later : OptionList rest) : OptionList (arg :: title :: rest)

inductive Early : Plan → Prop
  | help : Early (.display help)
  | version : Early (.display version)
  | listing (kind : Kind) : Early (.display (listing kind))
  | refused (complaint : String) : Early (.refuse complaint)

theorem Chooses.append {middle last : Options} {more : List String} (first : Chooses o opts middle)
    (second : Chooses middle more last) : Chooses o (opts ++ more) last := by
  induction first with
  | done => exact second
  | coloured _ ih => exact .coloured (ih second)
  | uncoloured _ ih => exact .uncoloured (ih second)
  | wrap _ ih => exact .wrap (ih second)
  | kindFollows announces _ ih => exact .kindFollows announces (ih second)
  | kindIs marked _ ih => exact .kindIs marked (ih second)

-- Options either choose, or they end the run and then nothing behind them is looked at.
inductive Decides (o : Options) (opts : List String) : Prop
  | chooses {last : Options} (chosen : Chooses o opts last) : Decides o opts
  | ends {settled : Plan} (early : Early settled) (whatever : ∀ tail, plan o (opts ++ tail) = settled) :
      Decides o opts

theorem Decides.behind {middle : Options} {more : List String} (first : Chooses o opts middle)
    (later : Decides middle more) : Decides o (opts ++ more) := by
  cases later with
  | chooses second => exact .chooses (first.append second)
  | ends early whatever =>
    refine .ends early fun tail => ?_
    rw [List.append_assoc,plan_append first]
    exact whatever tail

theorem Decides.early {settled : Plan} {rest : List String} (early : Early settled)
    (whatever : ∀ tail, plan o (arg :: tail) = settled) : Decides o (arg :: rest) :=
  .ends early fun tail => whatever (rest ++ tail)

theorem Single.meaning (alone : Single arg) :
    Argument.of arg ≠ .kindFollows ∧ Argument.of arg ≠ .endOfOptions ∧ Argument.of arg ≠ .operand := by
  obtain ⟨dashed,other⟩ := alone
  simp only [List.mem_cons,List.not_mem_nil,or_false,not_or] at other
  obtain ⟨word,mark,long,short⟩ := other
  have spelled := spelled_of arg
  refine ⟨?_,?_,?_⟩
  · intro means
    rw [means] at spelled
    exact spelled.elim long short
  · intro means
    rw [means] at spelled
    exact mark spelled
  · intro means
    rw [means] at spelled
    exact spelled.elim word fun undashed => undashed dashed

theorem OptionList.decides (options : OptionList opts) (o : Options) : Decides o opts := by
  induction options generalizing o with
  | done => exact .chooses .done
  | @single arg rest alone _ ih =>
    obtain ⟨follows,mark,word⟩ := alone.meaning
    cases means : Argument.of arg with
    | help => exact .early .help fun tail => by rw [plan.eq_def]; simp only [means]
    | version => exact .early .version fun tail => by rw [plan.eq_def]; simp only [means]
    | colour on =>
      obtain rfl := spelled_as means
      cases on with
      | true => exact (ih _).behind (.coloured .done)
      | false => exact (ih _).behind (.uncoloured .done)
    | wrap =>
      obtain rfl := spelled_as means
      exact (ih _).behind (.wrap .done)
    | kindFollows => exact absurd means follows
    | list => exact .early (.listing o.kind) fun tail => by rw [plan.eq_def]; simp only [means]
    | endOfOptions => exact absurd means mark
    | kindIs title =>
      cases known : Kind.ofTitle? title with
      | some kind =>
        obtain rfl := ofTitle?_eq_some_iff.mp known
        exact (ih _).behind (.kindIs (marked_of means) .done)
      | none =>
        exact .early (.refused (unknownKind title)) fun tail => by rw [plan.eq_def]; simp only [means,known]
    | unknown =>
      exact .early (.refused s!"error: unknown option '{arg}'") fun tail => by rw [plan.eq_def]; simp only [means]
    | operand => exact absurd means word
  | @announced arg title rest announces _ ih =>
    have means : Argument.of arg = .kindFollows := by rcases announces with rfl | rfl <;> rfl
    cases known : Kind.ofTitle? title with
    | some kind =>
      obtain rfl := ofTitle?_eq_some_iff.mp known
      exact (ih _).behind (.kindFollows announces .done)
    | none =>
      exact .ends (.refused (unknownKind title)) fun tail => by
        rw [List.cons_append,List.cons_append,plan.eq_def]; simp only [means,known]

theorem carryOut_unread {settled : Plan} (unread : settled.readsInput = false) (stdin other : Stdin) :
    settled.carryOut stdin = settled.carryOut other := by
  cases settled with
  | display shown => rfl
  | refuse complaint => rfl
  | encode o operand =>
    cases operand with
    | some text => rfl
    | none => cases unread

theorem Early.unread {settled : Plan} (early : Early settled) : settled.readsInput = false := by
  cases early <;> rfl

theorem run_supplied (elapsed : Report.Span) (screen : Bool) (options : OptionList opts)
    (one : Supplies stdin tail text) (other : Supplies stdin' tail' text) :
    run elapsed (opts ++ tail) stdin screen = run elapsed (opts ++ tail') stdin' screen := by
  cases options.decides (.standard screen) with
  | chooses chosen => rw [run_chosen elapsed chosen one,run_chosen elapsed chosen other]
  | ends early whatever => rw [run,run,whatever,whatever,carryOut_unread early.unread]

-- Options alone leave a terminal to be read, and that is refused.
theorem run_terminal (elapsed : Report.Span) {screen : Bool} {last : Options}
    (chosen : Chooses (.standard screen) opts last) : run elapsed opts .terminal screen = refusal noInput := by
  have planned : plan (.standard screen) opts = .encode last none := by
    rw [← List.append_nil opts,plan_append chosen]
    rfl
  rw [run,planned]
  rfl

-- What stdout is connected to decides no more than one option in front of all others would.
theorem run_screen (elapsed : Report.Span) (args : List String) (stdin : Stdin) (screen other : Bool) :
    run elapsed args stdin screen =
      run elapsed ((if screen then "--color" else "--no-color") :: args) stdin other := by
  have first : Chooses (.standard other) [if screen then "--color" else "--no-color"] (.standard screen) := by
    cases screen with
    | true => exact .coloured .done
    | false => exact .uncoloured .done
  have planned := plan_append first args
  rw [List.singleton_append] at planned
  rw [run,run,planned]

-- Words behind the mark that ends the options, words behind the options themselves where the first
-- of them is none, and the same words read from standard input make the same run.
theorem run_delivered (elapsed : Report.Span) (screen : Bool) (options : OptionList opts) (words : List String) :
    let typed := (" ".intercalate words).toUTF8
    (∀ stdin, run elapsed (opts ++ "--" :: words) stdin screen = run elapsed opts typed screen) ∧
    ∀ first rest stdin, words = first :: rest → first = "-" ∨ ¬Dashed first →
      run elapsed (opts ++ words) stdin screen = run elapsed opts typed screen := by
  intro typed
  have read : Supplies typed [] (" ".intercalate words) := supplies_typed _
  refine ⟨?_,?_⟩
  · intro stdin
    have marked : Supplies stdin ("--" :: words) (" ".intercalate words) := .marked
    rw [run_supplied elapsed screen options marked read,List.append_nil]
  · rintro first rest stdin rfl stands
    have operand : Supplies stdin (first :: rest) (" ".intercalate (first :: rest)) := .operand stands
    rw [run_supplied elapsed screen options operand read,List.append_nil]

theorem run_delivered_dashed :
    let elapsed := Report.plain "7ns"
    let opts := ["--wrap","-t","socket","--color"]
    let words := ["-","--","--help","","listen\n"]
    OptionList opts ∧ ("-" = "-" ∨ ¬Dashed "-") ∧
    run elapsed (opts ++ "--" :: words) .terminal true = run elapsed opts "- -- --help  listen\n".toUTF8 true ∧
    run elapsed (opts ++ words) ByteArray.empty true = run elapsed opts "- -- --help  listen\n".toUTF8 true := by
  intro elapsed opts words
  have options : OptionList opts :=
    .single (by decide) (.announced (.inr rfl) (.single (by decide) .done))
  have joined : " ".intercalate words = "- -- --help  listen\n" := by decide
  obtain ⟨marked,operand⟩ := run_delivered elapsed true options words
  rw [joined] at marked operand
  exact ⟨options,.inl rfl,marked .terminal,operand "-" _ ByteArray.empty rfl (.inl rfl)⟩

end ActionStrings.CommandLine
