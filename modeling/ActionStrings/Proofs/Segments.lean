import ActionStrings.Encoding
import ActionStrings.Proofs.Scanning
import ActionStrings.Proofs.TrieMap
import Mathlib.Data.List.DropRight
import Mathlib.Data.List.Find

namespace ActionStrings

structure Segment where
  offset : Nat
  text : List Char

namespace Segment
open Text

def layOut (offset : Nat) : List (List Char) → List Segment
  | [] => []
  | part :: rest => ⟨offset,part⟩ :: layOut (offset + byteLength part + 1) rest

def ofText (text : List Char) : List Segment := layOut 0 (text.splitOn ',')

def trim (segment : Segment) : Segment :=
  ⟨segment.offset + byteLength (segment.text.takeWhile isSpace),
    (segment.text.dropWhile isSpace).rdropWhile isSpace⟩

def word (segment : Segment) : List Char := segment.text.takeWhile fun c => !isSpace c

def strayFrom? (segment : Segment) (start : Nat) : Option (Nat × Char) :=
  (positions segment.offset segment.text).find? fun row => start ≤ row.1 && !isSeparator row.2

variable {offset start index : Nat} {c : Char} {left right text : List Char}

theorem mem_positions (member : (index,c) ∈ positions offset text) :
    offset ≤ index ∧ index < offset + byteLength text := by
  induction text generalizing offset with
  | nil => cases member
  | cons d rest ih =>
    rw [byteLength_cons]
    have positive := d.utf8Size_pos
    rcases List.mem_cons.mp member with same | later
    · cases same; omega
    · have bounds := ih later
      omega

theorem strayFrom?_skip (past : offset + byteLength left ≤ start) :
    strayFrom? ⟨offset,left ++ right⟩ start = strayFrom? ⟨offset + byteLength left,right⟩ start := by
  have none : strayFrom? ⟨offset,left⟩ start = none := by
    refine List.find?_eq_none.mpr ?_
    intro row member reached
    have early : row.1 < offset + byteLength left := (mem_positions member).2
    have late := (Bool.and_eq_true_iff.mp reached).1
    rw [decide_eq_true_eq] at late
    omega
  rw [strayFrom?,positions_append,List.find?_append]
  rw [strayFrom?] at none
  rw [none,Option.none_or]
  rfl

theorem strayFrom?_start : strayFrom? ⟨offset,text⟩ offset = stray? offset text := by
  refine List.find?_congr ?_
  intro row member
  rw [decide_eq_true (mem_positions member).1,Bool.true_and]

theorem strayFrom?_append :
    strayFrom? ⟨offset,left ++ right⟩ (offset + byteLength left) = stray? (offset + byteLength left) right := by
  rw [strayFrom?_skip (Nat.le_refl _),strayFrom?_start]

theorem trim_split (segment : Segment) :
    ∃ lead trail, segment.text = lead ++ (segment.trim.text ++ trail) ∧
      segment.trim.offset = segment.offset + byteLength lead ∧
      (∀ c ∈ lead, isSpace c = true) ∧ (∀ c ∈ trail, isSpace c = true) := by
  refine ⟨segment.text.takeWhile isSpace,(segment.text.dropWhile isSpace).rtakeWhile isSpace,
    ?_,rfl,fun c => List.mem_takeWhile_imp,fun c => List.mem_rtakeWhile_imp⟩
  rw [trim,List.rdropWhile_append_rtakeWhile,List.takeWhile_append_dropWhile]

theorem trim_head (segment : Segment) (head : segment.trim.text.head? = some c) : isSpace c = false := by
  have rest := (segment.text.dropWhile isSpace).rdropWhile_append_rtakeWhile (p := isSpace)
  have stopped := List.head?_dropWhile_not isSpace segment.text
  rw [← rest,List.head?_append] at stopped
  rw [trim] at head
  rw [head] at stopped
  exact stopped

theorem word_split (segment : Segment) :
    ∃ more, segment.text = segment.word ++ more ∧
      (more = [] ∨ ∃ c rest, more = c :: rest ∧ isSpace c = true) := by
  refine ⟨segment.text.dropWhile fun c => !isSpace c,List.takeWhile_append_dropWhile.symm,?_⟩
  have stopped := List.head?_dropWhile_not (fun c => !isSpace c) segment.text
  cases left : segment.text.dropWhile fun c => !isSpace c with
  | nil => exact .inl rfl
  | cons c rest =>
    rw [left] at stopped
    exact .inr ⟨c,rest,rfl,by simpa using stopped⟩

theorem isWord_word {segment : Segment} (uncut : ',' ∉ segment.text) (head : segment.text.head? = some c)
    (solid : isSpace c = false) (unstarred : segment.text.head? ≠ some '*') : IsWord segment.word := by
  obtain ⟨more,begun⟩ := List.head?_eq_some_iff.mp head
  have letter (d : Char) (inside : d ∈ segment.text) : isSpace d = isSeparator d :=
    isSpace_of_isSeparator fun comma => uncut (comma ▸ inside)
  have first : isSeparator c = false := by
    rw [← letter c (by rw [begun]; exact List.mem_cons_self ..)]; exact solid
  have plain : c ≠ '*' := fun star => unstarred (star ▸ head)
  rw [word,begun,List.takeWhile_cons,solid]
  refine isWord_cons first plain fun d member => ?_
  rw [← letter d (by rw [begun]; exact List.mem_cons_of_mem _ (List.takeWhile_subset _ member))]
  simpa using List.mem_takeWhile_imp member

end Segment

namespace Reading
open Text

variable {α σ : Type} {find? : List Char → Option α} {observe : σ → Signal α → σ} {offset : Nat} {seen : σ}
  {part rest : List Char}

theorem resume_star {lead tail : List Char} (leading : ∀ c ∈ lead, isSpace c = true) :
    let start := offset + byteLength lead
    resume find? observe ⟨.between,offset,seen⟩ (lead ++ '*' :: tail) =
      match Segment.strayFrom? ⟨offset,lead ++ '*' :: tail⟩ (start + 1) with
      | none => .ok (observe seen (.hit ⟨start,start + 1,['*'],.everything⟩))
      | some (index,c) =>
        .error ⟨.unexpectedCharacter c index,observe seen (.hit ⟨start,start + 1,['*'],.everything⟩)⟩ := by
  have cut : lead ++ '*' :: tail = (lead ++ ['*']) ++ tail := by
    rw [List.append_assoc]; rfl
  have width : byteLength (lead ++ ['*']) = byteLength lead + 1 := by
    rw [byteLength_append]; rfl
  have past : Segment.strayFrom? ⟨offset,lead ++ '*' :: tail⟩ (offset + byteLength lead + 1) =
      stray? (offset + byteLength lead + 1) tail := by
    rw [cut,Nat.add_assoc,← width]
    exact Segment.strayFrom?_append
  dsimp only
  rw [past,resume_between_spaces leading,resume_between_star]
  refine resume_closed.trans ?_
  cases stray? (offset + byteLength lead + 1) tail <;> rfl

theorem resume_lone_word {word more trail : List Char} (isWord : IsWord word)
    (next : more = [] ∨ ∃ c tail, more = c :: tail ∧ isSpace c = true) (uncut : ',' ∉ more)
    (trailing : ∀ c ∈ trail, isSpace c = true) (boundary : rest = [] ∨ ∃ after, rest = ',' :: after) :
    let stop := offset + byteLength word
    resume find? observe ⟨.between,offset,seen⟩ (word ++ ((more ++ trail) ++ rest)) =
      match find? word with
      | none => .error ⟨.invalidAction (String.ofList word) offset,seen⟩
      | some action =>
        match Segment.strayFrom? ⟨offset,word ++ more⟩ stop with
        | none => resume find? observe ⟨.after,stop + byteLength (more ++ trail),
            observe seen (.hit ⟨offset,stop,word,.named action⟩)⟩ rest
        | some (index,c) =>
          .error ⟨.unexpectedCharacter c index,observe seen (.hit ⟨offset,stop,word,.named action⟩)⟩ := by
  have ends : Ends ((more ++ trail) ++ rest) := by
    rcases next with rfl | ⟨c,tail,rfl,space⟩
    · cases trail with
      | nil =>
        rcases boundary with rfl | ⟨after,rfl⟩
        · exact .inl rfl
        · exact .inr ⟨',',after,rfl,by decide⟩
      | cons c tail =>
        exact .inr ⟨c,tail ++ rest,rfl,isSeparator_of_isSpace (trailing c (List.mem_cons_self ..))⟩
    · exact .inr ⟨c,_,rfl,isSeparator_of_isSpace space⟩
  have solid : ',' ∉ more ++ trail := by
    intro member
    rcases List.mem_append.mp member with inMore | inTrail
    · exact uncut inMore
    · exact ne_comma_of_isSpace (trailing _ inTrail) rfl
  have blank : stray? (offset + byteLength word + byteLength more) trail = none :=
    stray?_eq_none_iff.mpr fun c member => isSeparator_of_isSpace (trailing c member)
  have seenWhole : stray? (offset + byteLength word) (more ++ trail) =
      stray? (offset + byteLength word) more := by
    rw [stray?_append,blank,Option.or_none]
  dsimp only
  rw [resume_word isWord ends,Segment.strayFrom?_append]
  cases find? word with
  | none => rfl
  | some action =>
    refine (resume_after solid).trans ?_
    generalize stray? (offset + byteLength word) (more ++ trail) = whole at seenWhole ⊢
    subst seenWhole
    cases stray? (offset + byteLength word) more <;> rfl

-- What reading makes of one part, in the terms of the part alone but for a wildcard, which
-- answers for all that comes after it.
theorem resume_part (uncut : ',' ∉ part) (boundary : rest = [] ∨ ∃ more, rest = ',' :: more) :
    resume find? observe ⟨.between,offset,seen⟩ (part ++ rest) =
      let t := Segment.trim ⟨offset,part⟩
      if t.text = [] then resume find? observe ⟨.between,offset + byteLength part,seen⟩ rest
      else if t.text.head? = some '*' then
        let after := observe seen (.hit ⟨t.offset,t.offset + 1,['*'],.everything⟩)
        match Segment.strayFrom? ⟨offset,part ++ rest⟩ (t.offset + 1) with
        | none => .ok after
        | some (index,c) => .error ⟨.unexpectedCharacter c index,after⟩
      else
        match find? t.word with
        | none => .error ⟨.invalidAction (String.ofList t.word) t.offset,seen⟩
        | some action =>
          let stop := t.offset + byteLength t.word
          let after := observe seen (.hit ⟨t.offset,stop,t.word,.named action⟩)
          match t.strayFrom? stop with
          | none => resume find? observe ⟨.after,offset + byteLength part,after⟩ rest
          | some (index,c) => .error ⟨.unexpectedCharacter c index,after⟩ := by
  obtain ⟨lead,trail,split,placed,leading,trailing⟩ := Segment.trim_split ⟨offset,part⟩
  have head {c : Char} := Segment.trim_head ⟨offset,part⟩ (c := c)
  generalize Segment.trim ⟨offset,part⟩ = t at split placed head
  obtain ⟨start,core⟩ := t
  simp only at split placed head ⊢
  subst placed
  subst split
  by_cases blank : core = []
  · subst blank
    have spaces : ∀ c ∈ lead ++ ([] ++ trail), isSpace c = true := by
      intro c member
      rcases List.mem_append.mp member with inLead | inTrail
      · exact leading c inLead
      · exact trailing c inTrail
    rw [if_pos rfl,resume_between_spaces spaces]
  · rw [if_neg blank]
    by_cases star : core.head? = some '*'
    · obtain ⟨tail,rfl⟩ := List.head?_eq_some_iff.mp star
      rw [if_pos star,List.append_assoc,List.cons_append,List.cons_append]
      exact resume_star leading
    · rw [if_neg star]
      obtain ⟨first,_,begun⟩ := List.exists_cons_of_ne_nil blank
      have starts : core.head? = some first := by rw [begun]; rfl
      have solid : ',' ∉ core := fun comma => uncut (by simp [comma])
      obtain ⟨more,whole,next⟩ := Segment.word_split ⟨offset + byteLength lead,core⟩
      have isWord : IsWord (Segment.word ⟨offset + byteLength lead,core⟩) :=
        Segment.isWord_word solid starts (head starts) star
      generalize Segment.word ⟨offset + byteLength lead,core⟩ = word at whole isWord
      simp only at whole
      subst whole
      have width : offset + byteLength lead + byteLength word + byteLength (more ++ trail) =
          offset + byteLength (lead ++ ((word ++ more) ++ trail)) := by
        simp only [byteLength_append]; omega
      have cut : lead ++ ((word ++ more) ++ trail) ++ rest = lead ++ (word ++ ((more ++ trail) ++ rest)) := by
        simp only [List.append_assoc]
      have tight : ',' ∉ more := fun comma => solid (List.mem_append_right _ comma)
      rw [cut,resume_between_spaces leading,← width]
      exact resume_lone_word isWord next tight trailing boundary

end Reading

namespace Vocabulary
open Text

variable (V : Vocabulary)

-- One part of the text after another; the first violation decides.
def judge (text : List Char) (set : ActionSet V.size) :
    List Segment → Except Violation (ActionSet V.size)
  | [] => .ok set
  | part :: rest =>
    let t := part.trim
    if t.text = [] then judge text set rest
    else if t.text.head? = some '*' then
      match Segment.strayFrom? ⟨0,text⟩ (t.offset + 1) with
      | none => .ok .all
      | some (index,c) => .error (.unexpectedCharacter c index)
    else
      match V.lastNamed? (String.ofList t.word) with
      | none => .error (.invalidAction (String.ofList t.word) t.offset)
      | some a =>
        match t.strayFrom? (t.offset + byteLength t.word) with
        | none => judge text (set.insert a) rest
        | some (index,c) => .error (.unexpectedCharacter c index)

theorem resume_between_parts {mode : Reading.Mode} (open' : mode = .between ∨ mode = .after)
    (offset : Nat) (set : ActionSet V.size) (rest : List Char) :
    Reading.resume V.nameTrie.find? (Sink.set V).observe ⟨mode,offset,set⟩ (',' :: rest) =
      Reading.resume V.nameTrie.find? (Sink.set V).observe ⟨.between,offset + 1,set⟩ rest := by
  rcases open' with rfl | rfl
  · exact Reading.resume_between_comma
  · exact Reading.resume_after_comma

-- The judgement of one part, given that of the parts after it from wherever this one may end.
theorem resume_judge_part {done part tail : List Char} {set : ActionSet V.size} {rest : List Segment}
    (uncut : ',' ∉ part) (boundary : tail = [] ∨ ∃ more, tail = ',' :: more)
    (onward : ∀ mode set, (mode = .between ∨ mode = .after) →
      (Reading.resume V.nameTrie.find? (Sink.set V).observe
          ⟨mode,byteLength done + byteLength part,set⟩ tail).mapError Reading.Stop.violation =
        V.judge (done ++ (part ++ tail)) set rest) :
    (Reading.resume V.nameTrie.find? (Sink.set V).observe
        ⟨.between,byteLength done,set⟩ (part ++ tail)).mapError Reading.Stop.violation =
      V.judge (done ++ (part ++ tail)) set (⟨byteLength done,part⟩ :: rest) := by
  have placed : byteLength done ≤ (Segment.trim ⟨byteLength done,part⟩).offset := Nat.le_add_right _ _
  have past : Segment.strayFrom? ⟨0,done ++ (part ++ tail)⟩
        ((Segment.trim ⟨byteLength done,part⟩).offset + 1) =
      Segment.strayFrom? ⟨byteLength done,part ++ tail⟩
        ((Segment.trim ⟨byteLength done,part⟩).offset + 1) := by
    rw [Segment.strayFrom?_skip (by omega),Nat.zero_add]
  rw [Reading.resume_part uncut boundary,judge,past]
  simp only [V.nameTrie_find?]
  generalize Segment.trim ⟨byteLength done,part⟩ = t
  split
  · exact onward .between set (.inl rfl)
  · split
    · cases Segment.strayFrom? ⟨byteLength done,part ++ tail⟩ (t.offset + 1) <;> rfl
    · cases V.lastNamed? (String.ofList t.word) with
      | none => rfl
      | some a =>
        dsimp only
        cases t.strayFrom? (t.offset + byteLength t.word) with
        | none => exact onward .after (set.insert a) (.inr rfl)
        | some row => rfl

theorem resume_judge (done : List Char) (set : ActionSet V.size) (parts : List (List Char))
    (some : parts ≠ []) (uncut : ∀ part ∈ parts, ',' ∉ part) :
    (Reading.resume V.nameTrie.find? (Sink.set V).observe ⟨.between,byteLength done,set⟩
        ([','].intercalate parts)).mapError Reading.Stop.violation =
      V.judge (done ++ [','].intercalate parts) set (Segment.layOut (byteLength done) parts) := by
  induction parts generalizing done set with
  | nil => exact absurd rfl some
  | cons part rest ih =>
    obtain ⟨solid,others⟩ := List.forall_mem_cons.mp uncut
    cases rest with
    | nil =>
      have last : [','].intercalate [part] = part ++ [] := by simp
      rw [last]
      refine V.resume_judge_part solid (.inl rfl) ?_
      intro mode set open'
      rcases open' with rfl | rfl <;> rfl
    | cons next more =>
      have joined : [','].intercalate (part :: next :: more) = part ++ ',' :: [','].intercalate (next :: more) := by
        simp
      have width : byteLength (done ++ (part ++ [','])) = byteLength done + byteLength part + 1 := by
        simp only [byteLength_append,Nat.add_assoc]; rfl
      rw [joined]
      refine V.resume_judge_part solid (.inr ⟨_,rfl⟩) ?_
      intro mode set open'
      have later := ih (done ++ (part ++ [','])) set (List.cons_ne_nil _ _) others
      rw [width] at later
      rw [V.resume_between_parts open',later]
      simp only [List.append_assoc,List.cons_append,List.nil_append]

theorem comma_not_mem_splitOn {text part : List Char} (member : part ∈ text.splitOn ',') : ',' ∉ part := by
  induction text generalizing part with
  | nil =>
    rw [List.splitOn_nil,List.mem_singleton] at member
    subst member
    exact List.not_mem_nil
  | cons c rest ih =>
    rw [List.splitOn_cons_eq_if_modifyHead] at member
    by_cases comma : c = ','
    · simp only [comma,beq_self_eq_true,↓reduceIte,List.mem_cons] at member
      rcases member with rfl | later
      · exact List.not_mem_nil
      · exact ih later
    · obtain ⟨first,parts,split⟩ := List.exists_cons_of_ne_nil (List.splitOn_ne_nil ',' rest)
      simp only [beq_false_of_ne comma,Bool.false_eq_true,↓reduceIte,split,List.modifyHead_cons,
        List.mem_cons] at member
      rcases member with rfl | later
      · intro inside
        rcases List.mem_cons.mp inside with same | inFirst
        · exact comma same.symm
        · exact ih (by rw [split]; exact List.mem_cons_self ..) inFirst
      · exact ih (by rw [split]; exact List.mem_cons_of_mem _ later)

example : (ofNames "door" [("open","Open"),("shut","Shut")]).parseSet " open ,, *x" =
    .error (.malformed (.unexpectedCharacter 'x' 10) " open ,, *x") := by cbv

end Vocabulary

end ActionStrings
