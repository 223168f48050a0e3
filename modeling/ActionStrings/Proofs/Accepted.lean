import ActionStrings.Proofs.Segments

namespace ActionStrings
open Text

namespace Segment

variable {segment : Segment} {front back : List Char} {c : Char} {offset : Nat} {rest : List (List Char)}

def stop (segment : Segment) : Nat := segment.offset + byteLength segment.text

def hit {α : Type} (segment : Segment) (event : Event α) : Reading.Hit α :=
  ⟨segment.trim.offset,segment.trim.stop,segment.trim.text,event⟩

theorem trim_last (last : segment.trim.text.getLast? = some c) : isSpace c = false := by
  obtain ⟨front,split⟩ := List.getLast?_eq_some_iff.mp last
  have nonempty : segment.trim.text ≠ [] := by simp [split]
  have solid : ¬isSpace (segment.trim.text.getLast nonempty) = true :=
    List.rdropWhile_last_not isSpace (segment.text.dropWhile isSpace) nonempty
  simpa [split] using solid

theorem mem_trim (inside : c ∈ segment.trim.text) : c ∈ segment.text := by
  obtain ⟨lead,trail,split,_⟩ := trim_split segment
  simp [split,inside]

theorem trim_eq_nil_iff : segment.trim.text = [] ↔ ∀ c ∈ segment.text, isSpace c = true := by
  constructor
  · intro empty c inside
    obtain ⟨lead,trail,split,_,leading,trailing⟩ := trim_split segment
    rw [split,empty] at inside
    rcases List.mem_append.mp inside with inLead | inTrail
    · exact leading c inLead
    · exact trailing c inTrail
  · intro spaces
    simp [trim,List.dropWhile_eq_nil_iff.mpr spaces]

theorem trim_tight (uncut : ',' ∉ segment.text) (split : segment.trim.text = front ++ back)
    (separators : ∀ c ∈ back, isSeparator c = true) : back = [] := by
  rcases List.eq_nil_or_concat back with empty | ⟨more,c,rfl⟩
  · exact empty
  · rw [List.concat_eq_append] at split separators
    have inside : c ∈ segment.text := mem_trim (by simp [split])
    have last : segment.trim.text.getLast? = some c := by simp [split]
    have space : isSpace c = true := by
      rw [isSpace_of_isSeparator fun comma => uncut (comma ▸ inside)]
      exact separators c (by simp)
    rw [trim_last last] at space
    cases space

theorem layOut_text (offset : Nat) (rest : List (List Char)) : (layOut offset rest).map text = rest := by
  induction rest generalizing offset with
  | nil => rfl
  | cons part more ih => simp [layOut,ih]

theorem intercalate_cons (part : List Char) (rest : List (List Char)) :
    [','].intercalate (part :: rest) = part ++ rest.flatMap fun next => ',' :: next := by
  induction rest generalizing part with
  | nil => simp
  | cons next more ih => simp [List.intercalate_cons_cons,ih]

theorem separators_iff_blank (uncut : ∀ next ∈ rest, ',' ∉ next) :
    (∀ c ∈ rest.flatMap fun next => ',' :: next, isSeparator c = true) ↔
      ∀ next ∈ layOut offset rest, next.trim.text = [] := by
  induction rest generalizing offset with
  | nil => simp [layOut]
  | cons part more ih =>
    obtain ⟨solid,others⟩ := List.forall_mem_cons.mp uncut
    have spaces : (∀ c ∈ part, isSeparator c = true) ↔ ∀ c ∈ part, isSpace c = true :=
      forall₂_congr fun c inside => by rw [isSpace_of_isSeparator fun comma => solid (comma ▸ inside)]
    rw [layOut,List.forall_mem_cons,trim_eq_nil_iff,← ih others,← spaces,List.flatMap_cons,
      List.forall_mem_append,List.forall_mem_cons]
    have comma : isSeparator ',' = true := by decide
    simp [comma]

theorem word_of_isWord (isWord : IsWord segment.text) : segment.word = segment.text := by
  refine List.takeWhile_eq_self_iff.mpr fun c inside => ?_
  have solid := (Bool.or_eq_false_iff.mp (isWord.solid c inside)).2
  simp [solid]

theorem word_unfollowed (uncut : ',' ∉ segment.text) :
    segment.trim.strayFrom? (segment.trim.offset + byteLength segment.trim.word) = none ↔
      segment.trim.word = segment.trim.text := by
  obtain ⟨more,whole,_⟩ := word_split segment.trim
  have follows : segment.trim.strayFrom? (segment.trim.offset + byteLength segment.trim.word) =
      stray? (segment.trim.offset + byteLength segment.trim.word) more := by
    have cut : strayFrom? ⟨segment.trim.offset,segment.trim.word ++ more⟩ _ = _ := strayFrom?_append
    rwa [← whole] at cut
  rw [follows,stray?_eq_none_iff]
  constructor
  · intro separators
    have none := trim_tight uncut whole separators
    rw [whole,none,List.append_nil]
  · intro same
    have none : more = [] := by simpa [← same] using whole
    simp [none]

-- Behind a star only separators may stand, in its own part and in all those after it.
theorem star_unfollowed {more : List Char} (tail : List Char) (uncut : ',' ∉ segment.text)
    (starred : segment.trim.text = '*' :: more) :
    strayFrom? ⟨segment.offset,segment.text ++ tail⟩ (segment.trim.offset + 1) = none ↔
      segment.trim.text = ['*'] ∧ ∀ c ∈ tail, isSeparator c = true := by
  obtain ⟨lead,trail,split,placed,_,trailing⟩ := trim_split segment
  have cut : segment.text ++ tail = (lead ++ ['*']) ++ (more ++ (trail ++ tail)) := by
    simp [split,starred]
  have width : segment.trim.offset + 1 = segment.offset + byteLength (lead ++ ['*']) := by
    rw [placed,byteLength_append,Nat.add_assoc]
    rfl
  have blank : ∀ c ∈ trail, isSeparator c = true := fun c inside => isSeparator_of_isSpace (trailing c inside)
  rw [cut,width,strayFrom?_append,stray?_eq_none_iff,List.forall_mem_append,List.forall_mem_append]
  constructor
  · intro ⟨separators,_,others⟩
    have split : segment.trim.text = ['*'] ++ more := starred
    have none : more = [] := trim_tight uncut split separators
    exact ⟨by rw [starred,none],others⟩
  · intro ⟨alone,others⟩
    have none : more = [] := by simpa [alone] using starred.symm
    exact ⟨by simp [none],blank,others⟩

end Segment

namespace Reading

variable {α σ : Type} {find? : List Char → Option α} {observe : σ → Signal α → σ}
  {offset : Nat} {seen last : σ} {part : Segment} {later : List Segment} {tail : List Char}
  {parts : List (List Char)}

theorem resume_blank_part (uncut : ',' ∉ part.text) (boundary : tail = [] ∨ ∃ more, tail = ',' :: more)
    (blank : part.trim.text = []) :
    resume find? observe ⟨.between,part.offset,seen⟩ (part.text ++ tail) =
      resume find? observe ⟨.between,part.stop,seen⟩ tail :=
  (resume_part uncut boundary).trans (if_pos blank)

theorem resume_star_part_ok_iff (uncut : ',' ∉ part.text) (boundary : tail = [] ∨ ∃ more, tail = ',' :: more)
    (star : part.trim.text.head? = some '*') :
    resume find? observe ⟨.between,part.offset,seen⟩ (part.text ++ tail) = .ok last ↔
      part.trim.text = ['*'] ∧ (∀ c ∈ tail, isSeparator c = true) ∧
        observe seen (.hit (part.hit .everything)) = last := by
  obtain ⟨more,starred⟩ := List.head?_eq_some_iff.mp star
  have nonblank : part.trim.text ≠ [] := by simp [starred]
  have unfollowed := Segment.star_unfollowed tail uncut starred
  obtain ⟨offset,text⟩ := part
  refine Iff.trans (by rw [resume_part uncut boundary,if_neg nonblank,if_pos star]) ?_
  dsimp only at unfollowed ⊢
  cases stray : Segment.strayFrom? ⟨offset,text ++ tail⟩ ((Segment.trim ⟨offset,text⟩).offset + 1) with
  | none =>
    obtain ⟨alone,separators⟩ := unfollowed.mp stray
    have same : (Segment.hit ⟨offset,text⟩ .everything : Hit α) =
        ⟨(Segment.trim ⟨offset,text⟩).offset,(Segment.trim ⟨offset,text⟩).offset + 1,['*'],.everything⟩ := by
      rw [Segment.hit,Segment.stop,alone]
      rfl
    rw [same]
    simp only [Except.ok.injEq]
    exact ⟨fun told => ⟨alone,separators,told⟩,fun accepted => accepted.2.2⟩
  | some row =>
    simp only [reduceCtorEq,false_iff]
    rintro ⟨alone,separators,_⟩
    rw [unfollowed.mpr ⟨alone,separators⟩] at stray
    cases stray

theorem resume_word_part_ok_iff (uncut : ',' ∉ part.text) (boundary : tail = [] ∨ ∃ more, tail = ',' :: more)
    (nonblank : part.trim.text ≠ []) (unstarred : part.trim.text.head? ≠ some '*') :
    resume find? observe ⟨.between,part.offset,seen⟩ (part.text ++ tail) = .ok last ↔
      ∃ action, IsWord part.trim.text ∧ find? part.trim.text = some action ∧
        resume find? observe ⟨.after,part.stop,observe seen (.hit (part.hit (.named action)))⟩ tail =
          .ok last := by
  have unfollowed := Segment.word_unfollowed uncut
  obtain ⟨first,_,begun⟩ := List.exists_cons_of_ne_nil nonblank
  have starts : part.trim.text.head? = some first := by simp [begun]
  have isWord : IsWord part.trim.word :=
    Segment.isWord_word (fun comma => uncut (Segment.mem_trim comma)) starts (Segment.trim_head _ starts) unstarred
  obtain ⟨offset,text⟩ := part
  refine Iff.trans (by rw [resume_part uncut boundary,if_neg nonblank,if_neg unstarred]) ?_
  dsimp only at unfollowed isWord ⊢
  generalize placed : Segment.trim ⟨offset,text⟩ = t at unfollowed isWord ⊢
  by_cases whole : t.word = t.text
  · rw [unfollowed.mpr whole]
    rw [whole] at isWord ⊢
    cases known : find? t.text with
    | none => simp
    | some action => simp [isWord,Segment.stop,Segment.hit,placed]
  · obtain ⟨row,stray⟩ := Option.ne_none_iff_exists'.mp (mt unfollowed.mp whole)
    rw [stray]
    constructor
    · intro accepted
      cases known : find? t.word <;> simp [known] at accepted
    · intro ⟨_,alone,_⟩
      exact absurd (Segment.word_of_isWord alone) whole

-- Whether a text is accepted is asked of one part after another, and each says one thing at most.
theorem resume_part_ok_iff (uncut : ',' ∉ part.text) (boundary : tail = [] ∨ ∃ more, tail = ',' :: more) :
    resume find? observe ⟨.between,part.offset,seen⟩ (part.text ++ tail) = .ok last ↔
      part.trim.text = [] ∧ resume find? observe ⟨.between,part.stop,seen⟩ tail = .ok last ∨
      (∃ action, IsWord part.trim.text ∧ find? part.trim.text = some action ∧
        resume find? observe ⟨.after,part.stop,observe seen (.hit (part.hit (.named action)))⟩ tail =
          .ok last) ∨
      part.trim.text = ['*'] ∧ (∀ c ∈ tail, isSeparator c = true) ∧
        observe seen (.hit (part.hit .everything)) = last := by
  by_cases blank : part.trim.text = []
  · have wordless : ¬IsWord ([] : List Char) := fun isWord => isWord.nonempty rfl
    rw [resume_blank_part uncut boundary blank]
    simp [blank,wordless]
  · by_cases star : part.trim.text.head? = some '*'
    · have wordless : ¬IsWord part.trim.text := fun isWord => isWord.unstarred star
      rw [resume_star_part_ok_iff uncut boundary star]
      simp [blank,wordless]
    · have unstarred : part.trim.text ≠ ['*'] := fun alone => star (by simp [alone])
      rw [resume_word_part_ok_iff uncut boundary blank star]
      simp [blank,unstarred]

-- The comma behind a part that says nothing.
def blankSignal : List Segment → List (Signal α)
  | [] => []
  | _ :: _ => [.blank]

-- All that an observer is told of an accepted text, by rules for one part after another.
inductive Says (find? : List Char → Option α) : List Segment → List (Signal α) → Prop
  | nothing : Says find? [] []
  | blank {part : Segment} {later : List Segment} {signals : List (Signal α)}
      (empty : part.trim.text = []) (onward : Says find? later signals) :
      Says find? (part :: later) (blankSignal later ++ signals)
  | word {part : Segment} {later : List Segment} {signals : List (Signal α)} {action : α}
      (isWord : IsWord part.trim.text) (known : find? part.trim.text = some action)
      (onward : Says find? later signals) :
      Says find? (part :: later) (.hit (part.hit (.named action)) :: signals)
  | star {part : Segment} {later : List Segment} (starred : part.trim.text = ['*'])
      (silent : ∀ next ∈ later, next.trim.text = []) :
      Says find? (part :: later) [.hit (part.hit .everything)]

theorem says_nil_iff {signals : List (Signal α)} : Says find? [] signals ↔ signals = [] := by
  constructor
  · intro said
    cases said
    rfl
  · rintro rfl
    exact .nothing

theorem resume_says_part (part : Segment) (uncut : ',' ∉ part.text)
    (boundary : tail = [] ∨ ∃ more, tail = ',' :: more)
    (silent : (∀ c ∈ tail, isSeparator c = true) ↔ ∀ next ∈ later, next.trim.text = [])
    (between : ∀ seen, resume find? observe ⟨.between,part.stop,seen⟩ tail = .ok last ↔
      ∃ signals, Says find? later signals ∧ (blankSignal later ++ signals).foldl observe seen = last)
    (after : ∀ seen, resume find? observe ⟨.after,part.stop,seen⟩ tail = .ok last ↔
      ∃ signals, Says find? later signals ∧ signals.foldl observe seen = last) :
    resume find? observe ⟨.between,part.offset,seen⟩ (part.text ++ tail) = .ok last ↔
      ∃ signals, Says find? (part :: later) signals ∧ signals.foldl observe seen = last := by
  rw [resume_part_ok_iff uncut boundary]
  constructor
  · rintro (⟨empty,onward⟩ | ⟨action,isWord,known,onward⟩ | ⟨starred,separators,told⟩)
    · obtain ⟨signals,said,told⟩ := (between seen).mp onward
      exact ⟨_,.blank empty said,told⟩
    · obtain ⟨signals,said,told⟩ := (after _).mp onward
      exact ⟨_,.word isWord known said,told⟩
    · exact ⟨_,.star starred (silent.mp separators),told⟩
  · rintro ⟨signals,said,told⟩
    cases said with
    | blank empty onward => exact .inl ⟨empty,(between seen).mpr ⟨_,onward,told⟩⟩
    | word isWord known onward => exact .inr (.inl ⟨_,isWord,known,(after _).mpr ⟨_,onward,told⟩⟩)
    | star starred quiet => exact .inr (.inr ⟨starred,silent.mpr quiet,told⟩)

theorem resume_says {first : List Char} (uncut : ∀ next ∈ first :: parts, ',' ∉ next) :
    resume find? observe ⟨.between,offset,seen⟩ (first ++ parts.flatMap fun next => ',' :: next) = .ok last ↔
      ∃ signals, Says find? (Segment.layOut offset (first :: parts)) signals ∧
        signals.foldl observe seen = last := by
  induction parts generalizing first offset seen with
  | nil =>
    refine resume_says_part ⟨offset,first⟩ (uncut first (by simp)) (.inl rfl) ?_ ?_ ?_
    · simp [Segment.layOut]
    · intro seen
      simp [Segment.layOut,says_nil_iff,blankSignal,resume_nil,finish]
    · intro seen
      simp [Segment.layOut,says_nil_iff,resume_nil,finish]
  | cons next more ih =>
    obtain ⟨solid,others⟩ := List.forall_mem_cons.mp uncut
    refine resume_says_part ⟨offset,first⟩ solid (.inr ⟨_,rfl⟩)
      (Segment.separators_iff_blank others) ?_ ?_
    · intro seen
      rw [List.flatMap_cons,List.cons_append,resume_between_comma]
      exact ih others
    · intro seen
      rw [List.flatMap_cons,List.cons_append,resume_after_comma]
      exact ih others

theorem read_ok_iff {text : List Char} :
    Reading.read find? observe seen text = .ok last ↔
      ∃ signals, Says find? (Segment.ofText text) signals ∧ signals.foldl observe seen = last := by
  have uncut (part : List Char) (member : part ∈ text.splitOn ',') : ',' ∉ part :=
    Vocabulary.comma_not_mem_splitOn member
  obtain ⟨first,parts,split⟩ := List.exists_cons_of_ne_nil (List.splitOn_ne_nil ',' text)
  have whole : text = first ++ parts.flatMap fun next => ',' :: next := by
    rw [← Segment.intercalate_cons,← split,List.intercalate_splitOn]
  rw [split] at uncut
  rw [Segment.ofText,split,← resume_says uncut,← whole]
  rfl

end Reading

end ActionStrings
