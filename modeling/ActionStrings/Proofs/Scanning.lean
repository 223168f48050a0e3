import ActionStrings.Reading

namespace ActionStrings.Text

def positions : Nat → List Char → List (Nat × Char)
  | _, [] => []
  | offset, c :: rest => (offset,c) :: positions (offset + c.utf8Size) rest

def stray? (offset : Nat) (text : List Char) : Option (Nat × Char) :=
  (positions offset text).find? fun row => !isSeparator row.2

-- What a name is made of, wherever it is written.
structure IsWord (word : List Char) : Prop where
  nonempty : word ≠ []
  unstarred : word.head? ≠ some '*'
  solid : ∀ c ∈ word, isSeparator c = false

-- The characters are looked at one after another, and not all characters that there are.
instance (word : List Char) : Decidable (IsWord word) :=
  decidable_of_iff (word ≠ [] ∧ word.head? ≠ some '*' ∧ word.any isSeparator = false)
    ⟨fun ⟨nonempty,unstarred,solid⟩ => ⟨nonempty,unstarred,fun c inside =>
        Bool.eq_false_iff.mpr (List.any_eq_false.mp solid c inside)⟩,
      fun isWord => ⟨isWord.nonempty,isWord.unstarred,List.any_eq_false.mpr fun c inside =>
        Bool.eq_false_iff.mp (isWord.solid c inside)⟩⟩

theorem isWord_cons {c : Char} {rest : List Char} (letter : isSeparator c = false) (unstarred : c ≠ '*')
    (solid : ∀ d ∈ rest, isSeparator d = false) : IsWord (c :: rest) := by
  refine ⟨List.cons_ne_nil _ _,?_,List.forall_mem_cons.mpr ⟨letter,solid⟩⟩
  intro star
  exact unstarred (Option.some.inj star)

theorem positions_append (offset : Nat) (left right : List Char) :
    positions offset (left ++ right) = positions offset left ++ positions (offset + byteLength left) right := by
  induction left generalizing offset with
  | nil => rfl
  | cons c rest ih => simp only [List.cons_append,positions,ih,byteLength_cons,Nat.add_assoc]

theorem stray?_cons (offset : Nat) (c : Char) (rest : List Char) :
    stray? offset (c :: rest) =
      if isSeparator c then stray? (offset + c.utf8Size) rest else some (offset,c) := by
  simp only [stray?,positions,List.find?_cons]
  cases isSeparator c <;> rfl

theorem stray?_append (offset : Nat) (left right : List Char) :
    stray? offset (left ++ right) = (stray? offset left).or (stray? (offset + byteLength left) right) := by
  rw [stray?,positions_append,List.find?_append]; rfl

theorem stray?_eq_none_iff {offset : Nat} {text : List Char} :
    stray? offset text = none ↔ ∀ c ∈ text, isSeparator c = true := by
  induction text generalizing offset with
  | nil => simp [stray?,positions]
  | cons c rest ih =>
    rw [stray?_cons,List.forall_mem_cons]
    by_cases separates : isSeparator c = true
    · simp only [separates,↓reduceIte,ih,true_and]
    · simp only [separates,Bool.false_eq_true,↓reduceIte,reduceCtorEq,false_and]

theorem isSeparator_of_isSpace {c : Char} (space : isSpace c = true) : isSeparator c = true := by
  rw [isSeparator,space,Bool.or_true]

theorem isSpace_of_isSeparator {c : Char} (other : c ≠ ',') : isSpace c = isSeparator c := by
  rw [isSeparator,beq_false_of_ne other,Bool.false_or]

theorem isSeparator_eq_false {c : Char} (other : c ≠ ',') (solid : ¬isSpace c = true) :
    isSeparator c = false := by
  rw [← isSpace_of_isSeparator other]
  simpa using solid

theorem ne_comma_of_isSpace {c : Char} (space : isSpace c = true) : c ≠ ',' := by
  rintro rfl
  cases space

end ActionStrings.Text

namespace ActionStrings.Reading
open Text

variable {α σ : Type} (find? : List Char → Option α) (observe : σ → Signal α → σ)

def resume (s : State σ) (text : List Char) : Except (Stop σ) σ :=
  match advance find? observe s text with
  | .error stop => .error stop
  | .ok last => finish find? observe last

theorem resume_nil (s : State σ) : resume find? observe s [] = finish find? observe s := rfl

theorem resume_cons (s : State σ) (c : Char) (rest : List Char) :
    resume find? observe s (c :: rest) =
      match step find? observe s c with
      | .error stop => .error stop
      | .ok next => resume find? observe next rest := by
  rw [resume,advance,List.foldlM_cons]
  cases step find? observe s c <;> rfl

variable {find?} {observe} {offset start : Nat} {seen : σ} {c : Char} {reversed rest : List Char}

theorem resume_between_comma :
    resume find? observe ⟨.between,offset,seen⟩ (',' :: rest) =
      resume find? observe ⟨.between,offset + 1,observe seen .blank⟩ rest := by
  rw [resume_cons]; rfl

theorem resume_between_star :
    resume find? observe ⟨.between,offset,seen⟩ ('*' :: rest) =
      resume find? observe ⟨.closed,offset + 1,
        observe seen (.hit ⟨offset,offset + 1,['*'],.everything⟩)⟩ rest := by
  rw [resume_cons]; rfl

theorem resume_between_space (space : isSpace c = true) :
    resume find? observe ⟨.between,offset,seen⟩ (c :: rest) =
      resume find? observe ⟨.between,offset + c.utf8Size,seen⟩ rest := by
  simp only [resume_cons,step,react,ne_comma_of_isSpace space,space,↓reduceIte]

theorem resume_between_letter (letter : isSeparator c = false) (unstarred : c ≠ '*') :
    resume find? observe ⟨.between,offset,seen⟩ (c :: rest) =
      resume find? observe ⟨.word offset [c],offset + c.utf8Size,seen⟩ rest := by
  obtain ⟨other,solid⟩ := Bool.or_eq_false_iff.mp letter
  simp only [resume_cons,step,react,ne_of_beq_false other,solid,unstarred,Bool.false_eq_true,↓reduceIte]

theorem resume_word_letter (letter : isSeparator c = false) :
    resume find? observe ⟨.word start reversed,offset,seen⟩ (c :: rest) =
      resume find? observe ⟨.word start (c :: reversed),offset + c.utf8Size,seen⟩ rest := by
  obtain ⟨other,solid⟩ := Bool.or_eq_false_iff.mp letter
  simp only [resume_cons,step,react,ne_of_beq_false other,solid,Bool.false_eq_true,↓reduceIte]

theorem resume_after_comma :
    resume find? observe ⟨.after,offset,seen⟩ (',' :: rest) =
      resume find? observe ⟨.between,offset + 1,seen⟩ rest := by
  rw [resume_cons]; rfl

theorem resume_after_space (space : isSpace c = true) :
    resume find? observe ⟨.after,offset,seen⟩ (c :: rest) =
      resume find? observe ⟨.after,offset + c.utf8Size,seen⟩ rest := by
  simp only [resume_cons,step,react,ne_comma_of_isSpace space,space,↓reduceIte]

theorem resume_after_letter (letter : isSeparator c = false) :
    resume find? observe ⟨.after,offset,seen⟩ (c :: rest) =
      .error ⟨.unexpectedCharacter c offset,seen⟩ := by
  obtain ⟨other,solid⟩ := Bool.or_eq_false_iff.mp letter
  simp only [resume_cons,step,react,refuse,ne_of_beq_false other,solid,Bool.false_eq_true,↓reduceIte]

theorem resume_closed_cons :
    resume find? observe ⟨.closed,offset,seen⟩ (c :: rest) =
      if isSeparator c then resume find? observe ⟨.closed,offset + c.utf8Size,seen⟩ rest
      else .error ⟨.unexpectedCharacter c offset,seen⟩ := by
  rw [resume_cons,step,react]
  cases isSeparator c <;> rfl

theorem resume_between_spaces {spaces : List Char} (blank : ∀ c ∈ spaces, isSpace c = true) :
    resume find? observe ⟨.between,offset,seen⟩ (spaces ++ rest) =
      resume find? observe ⟨.between,offset + byteLength spaces,seen⟩ rest := by
  induction spaces generalizing offset with
  | nil => rfl
  | cons c more ih =>
    obtain ⟨first,others⟩ := List.forall_mem_cons.mp blank
    rw [List.cons_append,resume_between_space first,ih others,byteLength_cons,Nat.add_assoc]

-- Nothing is said between names, so an observer that passes over blanks is left as it was.
theorem resume_between_separators (quiet : ∀ seen, observe seen .blank = seen) {lead : List Char}
    (separators : ∀ c ∈ lead, isSeparator c = true) :
    resume find? observe ⟨.between,offset,seen⟩ (lead ++ rest) =
      resume find? observe ⟨.between,offset + byteLength lead,seen⟩ rest := by
  induction lead generalizing offset with
  | nil => rfl
  | cons c more ih =>
    obtain ⟨first,others⟩ := List.forall_mem_cons.mp separators
    rw [byteLength_cons,← Nat.add_assoc,← ih others,List.cons_append]
    by_cases comma : c = ','
    · subst comma
      rw [resume_between_comma,quiet]
      rfl
    · exact resume_between_space (by rwa [isSpace_of_isSeparator comma])

theorem resume_word_letters {letters : List Char} (solid : ∀ c ∈ letters, isSeparator c = false) :
    resume find? observe ⟨.word start reversed,offset,seen⟩ (letters ++ rest) =
      resume find? observe ⟨.word start (letters.reverse ++ reversed),offset + byteLength letters,seen⟩ rest := by
  induction letters generalizing offset reversed with
  | nil => rfl
  | cons c more ih =>
    obtain ⟨first,others⟩ := List.forall_mem_cons.mp solid
    rw [List.cons_append,resume_word_letter first,ih others,byteLength_cons,Nat.add_assoc,
      List.reverse_cons,List.append_assoc]
    rfl

theorem resume_closed :
    resume find? observe ⟨.closed,offset,seen⟩ rest =
      match stray? offset rest with
      | none => .ok seen
      | some (index,c) => .error ⟨.unexpectedCharacter c index,seen⟩ := by
  induction rest generalizing offset with
  | nil => rfl
  | cons c more ih =>
    rw [resume_closed_cons,stray?_cons]
    by_cases separates : isSeparator c = true
    · rw [if_pos separates,if_pos separates]; exact ih
    · rw [if_neg separates,if_neg separates]

theorem resume_after {part : List Char} (uncut : ',' ∉ part) :
    resume find? observe ⟨.after,offset,seen⟩ (part ++ rest) =
      match stray? offset part with
      | none => resume find? observe ⟨.after,offset + byteLength part,seen⟩ rest
      | some (index,c) => .error ⟨.unexpectedCharacter c index,seen⟩ := by
  induction part generalizing offset with
  | nil => rfl
  | cons c more ih =>
    obtain ⟨other,others⟩ := not_or.mp (mt List.mem_cons.mpr uncut)
    rw [stray?_cons]
    by_cases separates : isSeparator c = true
    · have space : isSpace c = true := by rwa [isSpace_of_isSeparator (Ne.symm other)]
      rw [List.cons_append,resume_after_space space,ih others,if_pos separates,byteLength_cons,Nat.add_assoc]
    · rw [List.cons_append,resume_after_letter (by simpa using separates),if_neg separates]

def Ends (rest : List Char) : Prop := rest = [] ∨ ∃ c more, rest = c :: more ∧ isSeparator c = true

theorem resume_word_ends (ends : Ends rest) :
    resume find? observe ⟨.word start reversed,offset,seen⟩ rest =
      match find? reversed.reverse with
      | none => .error ⟨.invalidAction (String.ofList reversed.reverse) start,seen⟩
      | some action => resume find? observe ⟨.after,offset,
          observe seen (.hit ⟨start,offset,reversed.reverse,.named action⟩)⟩ rest := by
  rcases ends with rfl | ⟨c,more,rfl,separates⟩
  · rw [resume_nil,finish]
    simp only [closeWord]
    cases find? reversed.reverse <;> rfl
  · by_cases comma : c = ','
    · subst comma
      simp only [resume_cons,step,react,closeWord,↓reduceIte]
      cases find? reversed.reverse <;> rfl
    · have space : isSpace c = true := by rwa [isSpace_of_isSeparator comma]
      simp only [resume_cons,step,react,closeWord,comma,space,↓reduceIte]
      cases find? reversed.reverse <;> rfl

theorem resume_word {word : List Char} (isWord : IsWord word) (ends : Ends rest) :
    resume find? observe ⟨.between,offset,seen⟩ (word ++ rest) =
      match find? word with
      | none => .error ⟨.invalidAction (String.ofList word) offset,seen⟩
      | some action => resume find? observe ⟨.after,offset + byteLength word,
          observe seen (.hit ⟨offset,offset + byteLength word,word,.named action⟩)⟩ rest := by
  obtain ⟨nonempty,unstarred,solid⟩ := isWord
  cases word with
  | nil => exact absurd rfl nonempty
  | cons c more =>
    obtain ⟨first,others⟩ := List.forall_mem_cons.mp solid
    have plain : c ≠ '*' := fun star => unstarred (by rw [star]; rfl)
    rw [List.cons_append,resume_between_letter first plain,resume_word_letters others,
      resume_word_ends ends,List.reverse_append,List.reverse_reverse,byteLength_cons,Nat.add_assoc]
    rfl

end ActionStrings.Reading
