import ActionStrings.CommandLine
import ActionStrings.Proofs.Insertion
import Mathlib.Data.List.TakeWhile

namespace ActionStrings.CommandLine
open Text

variable {o last : Options} {arg title text : String} {opts rest tail : List String} {stdin : Stdin}

def titleOf : Kind → String
  | .file => "file"
  | .socket => "socket"
  | .property => "property"

-- The title behind its mark, which may stand there more than once.
def Marked (arg title : String) : Prop :=
  ∃ n, arg.toList = (List.replicate (n + 1) "--type=".toList).flatten ++ title.toList

def Dashed (arg : String) : Prop := ['-'] <+: arg.toList

instance (arg : String) : Decidable (Dashed arg) := inferInstanceAs (Decidable (['-'] <+: arg.toList))

-- Options that do no more than choose a kind, a policy or a colour, from what holds before them to
-- what holds after.
inductive Chooses : Options → List String → Options → Prop
  | done {o : Options} : Chooses o [] o
  | coloured {o last : Options} {rest : List String} (later : Chooses {o with colour := true} rest last) :
      Chooses o ("--color" :: rest) last
  | uncoloured {o last : Options} {rest : List String} (later : Chooses {o with colour := false} rest last) :
      Chooses o ("--no-color" :: rest) last
  | wrap {o last : Options} {rest : List String} (later : Chooses {o with policy := .wrap} rest last) :
      Chooses o ("--wrap" :: rest) last
  | kindFollows {o last : Options} {arg : String} {rest : List String} {kind : Kind}
      (announces : arg = "--type" ∨ arg = "-t") (later : Chooses {o with kind} rest last) :
      Chooses o (arg :: titleOf kind :: rest) last
  | kindIs {o last : Options} {arg : String} {rest : List String} {kind : Kind}
      (marked : Marked arg (titleOf kind)) (later : Chooses {o with kind} rest last) : Chooses o (arg :: rest) last

-- What may follow the options, with the text that it gives: nothing, where the text is read; the
-- mark that ends them; or a first word that is none of them.
inductive Supplies : Stdin → List String → String → Prop
  | read {bytes : ByteArray} {text : String} (decoded : String.fromUTF8? bytes = some text) :
      Supplies bytes [] text
  | marked {stdin : Stdin} {words : List String} : Supplies stdin ("--" :: words) (" ".intercalate words)
  | operand {stdin : Stdin} {word : String} {words : List String} (stands : word = "-" ∨ ¬Dashed word) :
      Supplies stdin (word :: words) (" ".intercalate (word :: words))

theorem supplies_typed (text : String) : Supplies text.toUTF8 [] text := .read (dif_pos text.isValidUTF8)

def Spelled (arg : String) : Argument → Prop
  | .help => arg = "-h" ∨ arg = "--help"
  | .version => arg = "-V" ∨ arg = "--version"
  | .colour on => arg = if on then "--color" else "--no-color"
  | .wrap => arg = "--wrap"
  | .kindFollows => arg = "--type" ∨ arg = "-t"
  | .list => arg = "--list"
  | .endOfOptions => arg = "--"
  | .kindIs title => kindMark.toList <+: arg.toList ∧ title = String.ofList (unmark arg.toList)
  | .unknown => Dashed arg ∧ arg ≠ "-"
  | .operand => arg = "-" ∨ ¬Dashed arg

theorem spelled_of (arg : String) : Spelled arg (Argument.of arg) := by
  unfold Argument.of
  split
  case h_13 =>
    split
    · rename_i marked
      exact ⟨List.isPrefixOf_iff_prefix.mp marked,rfl⟩
    · split
      · rename_i dashed
        exact ⟨List.isPrefixOf_iff_prefix.mp dashed,by assumption⟩
      · rename_i undashed
        exact .inr (mt List.isPrefixOf_iff_prefix.mpr undashed)
  all_goals simp [Spelled]

theorem spelled_as {meaning : Argument} (means : Argument.of arg = meaning) : Spelled arg meaning := by
  rw [← means]
  exact spelled_of arg

theorem of_eq_operand (stands : arg = "-" ∨ ¬Dashed arg) : Argument.of arg = .operand := by
  rcases stands with rfl | undashed
  · rfl
  · unfold Argument.of
    split
    case h_13 =>
      have unmarked : ¬kindMark.toList <+: arg.toList := fun marked =>
        undashed (List.IsPrefix.trans (by decide) marked)
      rw [if_neg (mt List.isPrefixOf_iff_prefix.mp unmarked),if_neg (mt List.isPrefixOf_iff_prefix.mp undashed)]
    case h_12 => rfl
    all_goals exact absurd (by decide) undashed

theorem ofTitle?_eq_some_iff {kind : Kind} : Kind.ofTitle? title = some kind ↔ title = titleOf kind := by
  constructor
  · intro known
    unfold Kind.ofTitle? at known
    split at known <;> cases known <;> rfl
  · rintro rfl
    cases kind <;> rfl

theorem unmark_mark (rest : List Char) : unmark (kindMark.toList ++ rest) = unmark rest := rfl

theorem unmark_unmarked {title : List Char} (unmarked : ¬kindMark.toList <+: title) : unmark title = title := by
  unfold unmark
  split
  · exact absurd (List.prefix_append kindMark.toList _) unmarked
  · rfl

theorem unmark_split (title : List Char) :
    ∃ n, title = (List.replicate n kindMark.toList).flatten ++ unmark title ∧
      ¬kindMark.toList <+: unmark title := by
  fun_induction unmark title with
  | case1 rest ih =>
    obtain ⟨n,split,unmarked⟩ := ih
    refine ⟨n + 1,?_,unmarked⟩
    rw [List.replicate_succ,List.flatten_cons,List.append_assoc,← split]
    rfl
  | case2 title unmarked =>
    refine ⟨0,rfl,?_⟩
    rintro ⟨rest,rfl⟩
    exact unmarked rest rfl

theorem of_eq_kindIs (marked : kindMark.toList <+: arg.toList) :
    Argument.of arg = .kindIs (String.ofList (unmark arg.toList)) := by
  unfold Argument.of
  split
  case h_13 => rw [if_pos (List.isPrefixOf_iff_prefix.mpr marked)]
  all_goals exact absurd marked (by decide)

theorem unmark_marks (n : Nat) (rest : List Char) :
    unmark ((List.replicate n kindMark.toList).flatten ++ rest) = unmark rest := by
  induction n with
  | zero => rfl
  | succ n ih => rw [List.replicate_succ,List.flatten_cons,List.append_assoc,unmark_mark,ih]

theorem of_marked {kind : Kind} (marked : Marked arg (titleOf kind)) : Argument.of arg = .kindIs (titleOf kind) := by
  obtain ⟨n,split⟩ := marked
  have begins : kindMark.toList <+: arg.toList := by
    rw [split,List.replicate_succ,List.flatten_cons,List.append_assoc]
    exact List.prefix_append _ _
  have left : unmark arg.toList = (titleOf kind).toList := by
    have bare : unmark (titleOf kind).toList = (titleOf kind).toList := by cases kind <;> rfl
    rw [split]
    exact (unmark_marks (n + 1) _).trans bare
  rw [of_eq_kindIs begins,left,String.ofList_toList]

theorem marked_of (means : Argument.of arg = .kindIs title) : Marked arg title := by
  obtain ⟨begins,rfl⟩ := spelled_as means
  obtain ⟨n,split,unmarked⟩ := unmark_split arg.toList
  cases n with
  | zero =>
    rw [List.replicate_zero,List.flatten_nil,List.nil_append] at split
    rw [← split] at unmarked
    exact absurd begins unmarked
  | succ n =>
    have left : (String.ofList (unmark arg.toList)).toList = unmark arg.toList := String.toList_ofList
    refine ⟨n,?_⟩
    rw [left]
    exact split

theorem plan_append (chosen : Chooses o opts last) (tail : List String) :
    plan o (opts ++ tail) = plan last tail := by
  induction chosen with
  | done => rfl
  | coloured _ ih => exact ih
  | uncoloured _ ih => exact ih
  | wrap _ ih => exact ih
  | @kindFollows _ _ _ _ kind announces _ ih =>
    have known : Kind.ofTitle? (titleOf kind) = some kind := ofTitle?_eq_some_iff.mpr rfl
    rw [← ih,List.cons_append,List.cons_append,plan.eq_def]
    rcases announces with rfl | rfl <;> simp only [Argument.of,known]
  | @kindIs _ _ _ _ kind marked _ ih =>
    have known : Kind.ofTitle? (titleOf kind) = some kind := ofTitle?_eq_some_iff.mpr rfl
    rw [← ih,List.cons_append,plan.eq_def]
    simp only [of_marked marked,known]

theorem carryOut_plan (supplied : Supplies stdin tail text) (o : Options) :
    (plan o tail).carryOut stdin = examine o text := by
  cases supplied with
  | read decoded => simp only [plan,Plan.carryOut,decoded]
  | marked => rfl
  | operand stands =>
    rw [plan.eq_def]
    simp only [of_eq_operand stands]
    rfl

def unwrapped (args : List String) : List String := args.filter (· ≠ "--wrap")

theorem unwrapped_cons (other : arg ≠ "--wrap") : unwrapped (arg :: rest) = arg :: unwrapped rest :=
  List.filter_cons_of_pos (decide_eq_true other)

-- Without the one option that sets it, the policy stays what it was, and nothing else changes.
theorem Chooses.unwrapped (chosen : Chooses o opts last) (policy : Policy) :
    Chooses {o with policy} (unwrapped opts) {last with policy} := by
  induction chosen with
  | done => exact .done
  | coloured _ ih => exact .coloured ih
  | uncoloured _ ih => exact .uncoloured ih
  | wrap _ ih => exact ih
  | @kindFollows _ _ arg _ kind announces _ ih =>
    have option : arg ≠ "--wrap" := by rcases announces with rfl | rfl <;> decide
    have title : titleOf kind ≠ "--wrap" := by cases kind <;> decide
    rw [unwrapped_cons option,unwrapped_cons title]
    exact .kindFollows announces ih
  | @kindIs _ _ arg _ kind marked _ ih =>
    have option : arg ≠ "--wrap" := by
      rintro rfl
      cases of_marked marked
    rw [unwrapped_cons option]
    exact .kindIs marked ih

theorem trimLineEnds_split (text : String) :
    ∃ gap, text = trimLineEnds text ++ gap ∧ ∀ c ∈ gap.toList, isSeparator c = true := by
  let ending (c : Char) : Bool := c == '\n' || c == '\r'
  refine ⟨String.ofList (text.toList.reverse.takeWhile ending).reverse,?_,?_⟩
  · apply String.toList_inj.mp
    rw [trimLineEnds,String.toList_append,String.toList_ofList,String.toList_ofList,← List.reverse_append,
      List.takeWhile_append_dropWhile,List.reverse_reverse]
  · intro c member
    rw [String.toList_ofList,List.mem_reverse] at member
    have ends : ending c = true := List.mem_takeWhile_imp member
    simp only [ending,Bool.or_eq_true,beq_iff_eq] at ends
    rcases ends with rfl | rfl <;> decide

-- Line ends that are cut off change neither whether a text is accepted nor what it says.
theorem parseSet_trimLineEnds (V : Vocabulary) (text : String) :
    ∃ place, V.parseSet text = (V.parseSet (trimLineEnds text)).mapError (Error.move place text) := by
  obtain ⟨gap,split,separators⟩ := trimLineEnds_split text
  have seam : Seam (trimLineEnds text) "" := .inr (.inl rfl)
  have wider := V.read_opened (Sink.set V) .empty separators seam
  rw [String.append_empty,String.append_empty,← split] at wider
  refine ⟨opened (trimLineEnds text).utf8ByteSize gap.utf8ByteSize,?_⟩
  unfold Vocabulary.parseSet
  rw [wider]
  exact Error.settle_move _

end ActionStrings.CommandLine
