import ActionStrings.Report.Styled
import Mathlib.Logic.Relation

namespace ActionStrings.Report
open Relation

variable {c : Char} {code other text bare next before after : List Char}

def escape : Char := '\x1b'

def codes : List (List Char) :=
  (reset :: [Style.bold,.dim,.red,.green,.yellow,.blue,.cyan,.gray].map Style.code).map String.toList

theorem reset_mem_codes : reset.toList ∈ codes := List.mem_cons_self

theorem code_mem_codes (style : Style) : style.code.toList ∈ codes := by
  cases style <;> decide

theorem head_code : ∀ code ∈ codes, code.head? = some escape ∧ escape ∉ code.tail := by decide

theorem codes_prefixFree : ∀ code ∈ codes, ∀ other ∈ codes, code <+: other → code = other := by decide

def codeAt? (text : List Char) : Option (List Char) := codes.find? fun code => code.isPrefixOf text

-- Deletes every code from the left; of a code that has begun, some characters are left to pass over.
def stripFrom : Nat → List Char → List Char
  | _, [] => []
  | left + 1, _ :: rest => stripFrom left rest
  | 0, c :: rest =>
    match codeAt? (c :: rest) with
    | some code => stripFrom (code.length - 1) rest
    | none => c :: stripFrom 0 rest

def strip (text : String) : String := String.ofList (stripFrom 0 text.toList)

theorem code_split (known : code ∈ codes) : ∃ tail, code = escape :: tail ∧ escape ∉ tail := by
  obtain ⟨first,others⟩ := head_code code known
  cases code with
  | nil => cases first
  | cons c tail =>
    cases first
    exact ⟨tail,rfl,others⟩

theorem code_unique (known : code ∈ codes) (known' : other ∈ codes) (first : code <+: text)
    (second : other <+: text) : code = other := by
  rcases List.prefix_or_prefix_of_prefix first second with within | within
  · exact codes_prefixFree code known other known' within
  · exact (codes_prefixFree other known' code known within).symm

theorem codeAt?_code (known : code ∈ codes) (rest : List Char) : codeAt? (code ++ rest) = some code := by
  have begins : code <+: code ++ rest := List.prefix_append code rest
  unfold codeAt?
  cases found : codes.find? fun code' => code'.isPrefixOf (code ++ rest) with
  | none => exact absurd (List.isPrefixOf_iff_prefix.mpr begins) (List.find?_eq_none.mp found code known)
  | some other =>
    have holds : other.isPrefixOf (code ++ rest) = true := by simpa only using List.find?_some found
    have fits : other <+: code ++ rest := List.isPrefixOf_iff_prefix.mp holds
    rw [code_unique (List.mem_of_find?_eq_some found) known fits begins]

theorem codeAt?_char (free : c ≠ escape) (rest : List Char) : codeAt? (c :: rest) = none := by
  apply List.find?_eq_none.mpr
  intro code known begins
  obtain ⟨tail,rfl,_⟩ := code_split known
  exact free (List.cons_prefix_cons.mp (List.isPrefixOf_iff_prefix.mp begins)).1.symm

theorem stripFrom_length (code rest : List Char) : stripFrom code.length (code ++ rest) = stripFrom 0 rest := by
  induction code with
  | nil => rfl
  | cons c tail ih => exact ih

-- A text with codes put between its characters, none of which is the one that begins a code.
inductive Coded : List Char → List Char → Prop
  | done : Coded [] []
  | char {c : Char} {text bare : List Char} (free : c ≠ escape) (later : Coded text bare) :
      Coded (c :: text) (c :: bare)
  | code {code text bare : List Char} (known : code ∈ codes) (later : Coded text bare) :
      Coded (code ++ text) bare

theorem stripFrom_coded (coded : Coded text bare) : stripFrom 0 text = bare := by
  induction coded with
  | done => rfl
  | char free _ ih =>
    rw [stripFrom,codeAt?_char free,ih]
  | @code code text bare known _ ih =>
    have found := codeAt?_code known text
    obtain ⟨tail,rfl,_⟩ := code_split known
    rw [List.cons_append] at found ⊢
    rw [stripFrom,found]
    exact (stripFrom_length tail text).trans ih

theorem strip_coded {coloured uncoloured : String} (coded : Coded coloured.toList uncoloured.toList) :
    strip coloured = uncoloured := by
  rw [strip,stripFrom_coded coded,String.ofList_toList]

-- What only looks like the rest of a code stays.
example : strip "\x1b[1m\x1b[31m[0m\x1b[0m\x1b[0m!" = "[0m!" := by decide

theorem Coded.append {text' bare' : List Char} (first : Coded text bare) (second : Coded text' bare') :
    Coded (text ++ text') (bare ++ bare') := by
  induction first with
  | done => exact second
  | char free _ ih => exact .char free ih
  | code known _ ih =>
    rw [List.append_assoc]
    exact .code known ih

theorem coded_self (free : escape ∉ text) : Coded text text := by
  induction text with
  | nil => exact .done
  | cons c rest ih =>
    obtain ⟨differs,later⟩ := not_or.mp (mt List.mem_cons.mpr free)
    exact .char (Ne.symm differs) (ih later)

theorem Coded.free (coded : Coded text bare) : escape ∉ bare := by
  induction coded with
  | done => exact List.not_mem_nil
  | char free _ ih => exact mt List.mem_cons.mp (not_or.mpr ⟨free.symm,ih⟩)
  | code _ _ ih => exact ih

inductive Deletes : List Char → List Char → Prop
  | code (before after : List Char) {code : List Char} (known : code ∈ codes) :
      Deletes (before ++ (code ++ after)) (before ++ after)

-- What remains where codes have been taken out, in any order, until there is none.
def Cleared (text bare : List Char) : Prop := ReflTransGen Deletes text bare ∧ ∀ next, ¬Deletes bare next

theorem Deletes.cons (c : Char) (step : Deletes text next) : Deletes (c :: text) (c :: next) := by
  cases step with
  | code before after known => exact .code (c :: before) after known

-- Two codes in one place are the same code, since neither can begin inside the other.
theorem codes_apart (known : code ∈ codes) (known' : other ∈ codes)
    (whole : before ++ (code ++ after) = other ++ text) :
    (before = [] ∧ after = text) ∨ ∃ more, before = other ++ more ∧ text = more ++ (code ++ after) := by
  rcases List.append_eq_append_iff.mp whole with ⟨more,inside,rest⟩ | ⟨more,behind,rest⟩
  · cases before with
    | nil =>
      have begins : other <+: code ++ after := ⟨text,by rw [rest,inside]; rfl⟩
      have same : code = other := code_unique known known' (List.prefix_append code after) begins
      rw [← same] at whole
      exact .inl ⟨rfl,List.append_cancel_left whole⟩
    | cons d front =>
      cases more with
      | nil => exact .inr ⟨[],by rw [inside,List.append_nil,List.append_nil],rest.symm⟩
      | cons e more =>
        obtain ⟨tail,rfl,_⟩ := code_split known
        obtain ⟨tail',rfl,free⟩ := code_split known'
        have first : escape = e := (List.cons.inj rest).1
        have within : tail' = front ++ e :: more := (List.cons.inj inside).2
        rw [within,← first] at free
        exact absurd (List.mem_append_right front List.mem_cons_self) free
  · exact .inr ⟨more,behind,rest⟩

-- By induction on how the codes were put in, for every place where one is taken out again.
theorem Coded.deletes (coded : Coded text bare) (step : Deletes text next) : Coded next bare := by
  cases step with
  | @code before after code known =>
    obtain ⟨tail,begins,_⟩ := code_split known
    generalize whole : before ++ (code ++ after) = text at coded
    induction coded generalizing before with
    | done =>
      rw [begins] at whole
      exact absurd whole (List.append_ne_nil_of_right_ne_nil before (List.cons_ne_nil _ _))
    | @char c text bare free later ih =>
      cases before with
      | nil =>
        rw [begins] at whole
        exact absurd (List.cons.inj whole).1.symm free
      | cons d before =>
        obtain ⟨rfl,rest⟩ := List.cons.inj whole
        exact .char free (ih before rest)
    | @code other text bare known' later ih =>
      rcases codes_apart known known' whole with ⟨rfl,rfl⟩ | ⟨more,rfl,rest⟩
      · exact later
      · rw [List.append_assoc]
        exact .code known' (ih more rest.symm)

theorem Coded.deletes_all (coded : Coded text bare) (steps : ReflTransGen Deletes text next) : Coded next bare := by
  induction steps with
  | refl => exact coded
  | tail _ step ih => exact ih.deletes step

theorem Coded.reaches (coded : Coded text bare) : ReflTransGen Deletes text bare := by
  induction coded with
  | done => exact .refl
  | @char c text bare _ _ ih => exact ih.lift (List.cons c) fun _ _ step => Deletes.cons c step
  | @code code text bare known _ ih => exact .head (.code [] text known) ih

theorem not_deletes (free : escape ∉ text) : ¬Deletes text next := by
  rintro ⟨before,after,known⟩
  obtain ⟨tail,rfl,_⟩ := code_split known
  exact free (List.mem_append_right _ List.mem_cons_self)

theorem Coded.cleared_iff (coded : Coded text bare) : Cleared text next ↔ next = bare := by
  constructor
  · intro ⟨steps,final⟩
    rcases ReflTransGen.cases_head (coded.deletes_all steps).reaches with same | ⟨later,step,_⟩
    · exact same
    · exact absurd step (final later)
  · rintro rfl
    exact ⟨coded.reaches,fun _ => not_deletes coded.free⟩

def Unescaped (text : String) : Prop := escape ∉ text.toList

instance (text : String) : Decidable (Unescaped text) := inferInstanceAs (Decidable (escape ∉ text.toList))

def Clean (lines : List Line) : Prop := ∀ line ∈ lines, ∀ span ∈ line, Unescaped span.text

theorem coded_codes {list : List String} (known : ∀ code ∈ list, code.toList ∈ codes) :
    Coded (String.join list).toList [] := by
  rw [String.toList_join]
  induction list with
  | nil => exact .done
  | cons code rest ih =>
    obtain ⟨first,later⟩ := List.forall_mem_cons.mp known
    exact .code first (ih later)

theorem coded_span {span : Span} (free : Unescaped span.text) :
    Coded (span.render true).toList (span.render false).toList := by
  have on : Coded (String.join (span.styles.map Style.code)).toList [] :=
    coded_codes (List.forall_mem_map.mpr fun style _ => code_mem_codes style)
  have off : Coded (String.join (span.styles.map fun _ => reset)).toList [] :=
    coded_codes (List.forall_mem_map.mpr fun _ _ => reset_mem_codes)
  have whole := (on.append (coded_self free)).append off
  rw [List.nil_append,List.append_nil] at whole
  rw [Span.render,if_pos rfl,String.toList_append,String.toList_append]
  exact whole

theorem coded_join {α : Type} {list : List α} {coloured uncoloured : α → String}
    (each : ∀ part ∈ list, Coded (coloured part).toList (uncoloured part).toList) :
    Coded (String.join (list.map coloured)).toList (String.join (list.map uncoloured)).toList := by
  rw [String.toList_join,String.toList_join]
  induction list with
  | nil => exact .done
  | cons part rest ih =>
    obtain ⟨first,later⟩ := List.forall_mem_cons.mp each
    exact first.append (ih later)

theorem coded_line {line : Line} (free : ∀ span ∈ line, Unescaped span.text) :
    Coded (line.render true).toList (line.render false).toList := by
  have spans := coded_join fun span member => coded_span (free span member)
  rw [Line.render,Line.render,String.toList_append,String.toList_append]
  exact spans.append (coded_self (by decide))

theorem coded_render {lines : List Line} (clean : Clean lines) :
    Coded (render true lines).toList (render false lines).toList :=
  coded_join fun line member => coded_line (clean line member)

end ActionStrings.Report
