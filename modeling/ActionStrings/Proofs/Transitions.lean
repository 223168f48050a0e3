import ActionStrings.Proofs.Scanning

namespace ActionStrings.Reading
open Text

variable {α σ : Type} (find? : List Char → Option α) (observe : σ → Signal α → σ)

-- All that one character can do, as rules of their own beside the function that does it.
inductive Passes : State σ → Char → State σ → Prop
  | blank {offset : Nat} {seen : σ} :
      Passes ⟨.between,offset,seen⟩ ',' ⟨.between,offset + 1,observe seen .blank⟩
  | lead {offset : Nat} {seen : σ} {c : Char} (space : isSpace c = true) :
      Passes ⟨.between,offset,seen⟩ c ⟨.between,offset + c.utf8Size,seen⟩
  | star {offset : Nat} {seen : σ} :
      Passes ⟨.between,offset,seen⟩ '*'
        ⟨.closed,offset + 1,observe seen (.hit ⟨offset,offset + 1,['*'],.everything⟩)⟩
  | first {offset : Nat} {seen : σ} {c : Char} (letter : isSeparator c = false) (unstarred : c ≠ '*') :
      Passes ⟨.between,offset,seen⟩ c ⟨.word offset [c],offset + c.utf8Size,seen⟩
  | letter {start offset : Nat} {reversed : List Char} {seen : σ} {c : Char}
      (letter : isSeparator c = false) :
      Passes ⟨.word start reversed,offset,seen⟩ c
        ⟨.word start (c :: reversed),offset + c.utf8Size,seen⟩
  | close {start offset : Nat} {reversed : List Char} {seen : σ} {c : Char} {action : α}
      (separates : isSeparator c = true) (known : find? reversed.reverse = some action) :
      Passes ⟨.word start reversed,offset,seen⟩ c
        ⟨if c = ',' then .between else .after,offset + c.utf8Size,
          observe seen (.hit ⟨start,offset,reversed.reverse,.named action⟩)⟩
  | comma {offset : Nat} {seen : σ} : Passes ⟨.after,offset,seen⟩ ',' ⟨.between,offset + 1,seen⟩
  | trail {offset : Nat} {seen : σ} {c : Char} (space : isSpace c = true) :
      Passes ⟨.after,offset,seen⟩ c ⟨.after,offset + c.utf8Size,seen⟩
  | tail {offset : Nat} {seen : σ} {c : Char} (separates : isSeparator c = true) :
      Passes ⟨.closed,offset,seen⟩ c ⟨.closed,offset + c.utf8Size,seen⟩

-- A word is refused for itself, at the character that ends it; all else for the character.
inductive Refuses : State σ → Char → Stop σ → Prop
  | unknown {start offset : Nat} {reversed : List Char} {seen : σ} {c : Char}
      (separates : isSeparator c = true) (unknown : find? reversed.reverse = none) :
      Refuses ⟨.word start reversed,offset,seen⟩ c
        ⟨.invalidAction (String.ofList reversed.reverse) start,seen⟩
  | crowded {offset : Nat} {seen : σ} {c : Char} (letter : isSeparator c = false) :
      Refuses ⟨.after,offset,seen⟩ c ⟨.unexpectedCharacter c offset,seen⟩
  | closed {offset : Nat} {seen : σ} {c : Char} (letter : isSeparator c = false) :
      Refuses ⟨.closed,offset,seen⟩ c ⟨.unexpectedCharacter c offset,seen⟩

variable {find?} {observe} {s next last : State σ} {c : Char} {stop : Stop σ} {text done : List Char}

theorem step_of_passes (passes : Passes find? observe s c next) : step find? observe s c = .ok next := by
  cases passes with
  | blank => rfl
  | lead space => simp only [step,react,ne_comma_of_isSpace space,space,↓reduceIte]
  | star => rfl
  | first letter unstarred =>
    obtain ⟨other,solid⟩ := Bool.or_eq_false_iff.mp letter
    simp only [step,react,ne_of_beq_false other,solid,unstarred,Bool.false_eq_true,↓reduceIte]
  | letter letter =>
    obtain ⟨other,solid⟩ := Bool.or_eq_false_iff.mp letter
    simp only [step,react,ne_of_beq_false other,solid,Bool.false_eq_true,↓reduceIte]
  | close separates known =>
    by_cases comma : c = ','
    · simp only [step,react,closeWord,comma,known,↓reduceIte]
    · have space : isSpace c = true := by rwa [isSpace_of_isSeparator comma]
      simp only [step,react,closeWord,comma,space,known,↓reduceIte]
  | comma => rfl
  | trail space => simp only [step,react,ne_comma_of_isSpace space,space,↓reduceIte]
  | tail separates => simp only [step,react,separates,↓reduceIte]

theorem step_of_refuses (refuses : Refuses find? s c stop) : step find? observe s c = .error stop := by
  cases refuses with
  | unknown separates unknown =>
    by_cases comma : c = ','
    · simp only [step,react,closeWord,comma,unknown,↓reduceIte]
    · have space : isSpace c = true := by rwa [isSpace_of_isSeparator comma]
      simp only [step,react,closeWord,comma,space,unknown,↓reduceIte]
  | crowded letter =>
    obtain ⟨other,solid⟩ := Bool.or_eq_false_iff.mp letter
    simp only [step,react,refuse,ne_of_beq_false other,solid,Bool.false_eq_true,↓reduceIte]
  | closed letter => simp only [step,react,refuse,letter,Bool.false_eq_true,↓reduceIte]

theorem passes_or_refuses (find? : List Char → Option α) (observe : σ → Signal α → σ) (s : State σ)
    (c : Char) : (∃ next, Passes find? observe s c next) ∨ ∃ stop, Refuses find? s c stop := by
  obtain ⟨mode,offset,seen⟩ := s
  by_cases separates : isSeparator c = true
  · have space (other : c ≠ ',') : isSpace c = true := by rwa [isSpace_of_isSeparator other]
    cases mode with
    | between =>
      by_cases comma : c = ','
      · subst comma; exact .inl ⟨_,.blank⟩
      · exact .inl ⟨_,.lead (space comma)⟩
    | word start reversed =>
      cases known : find? reversed.reverse with
      | none => exact .inr ⟨_,.unknown separates known⟩
      | some action => exact .inl ⟨_,.close separates known⟩
    | after =>
      by_cases comma : c = ','
      · subst comma; exact .inl ⟨_,.comma⟩
      · exact .inl ⟨_,.trail (space comma)⟩
    | closed => exact .inl ⟨_,.tail separates⟩
  · have letter : isSeparator c = false := Bool.eq_false_iff.mpr separates
    cases mode with
    | between =>
      by_cases star : c = '*'
      · subst star; exact .inl ⟨_,.star⟩
      · exact .inl ⟨_,.first letter star⟩
    | word start reversed => exact .inl ⟨_,.letter letter⟩
    | after => exact .inr ⟨_,.crowded letter⟩
    | closed => exact .inr ⟨_,.closed letter⟩

theorem step_eq_ok_iff : step find? observe s c = .ok next ↔ Passes find? observe s c next := by
  constructor
  · intro stepped
    rcases passes_or_refuses find? observe s c with ⟨other,passes⟩ | ⟨stop,refuses⟩
    · rw [step_of_passes passes] at stepped
      cases stepped
      exact passes
    · rw [step_of_refuses refuses] at stepped
      cases stepped
  · exact step_of_passes

theorem step_eq_error_iff : step find? observe s c = .error stop ↔ Refuses find? s c stop := by
  constructor
  · intro stepped
    rcases passes_or_refuses find? observe s c with ⟨next,passes⟩ | ⟨other,refuses⟩
    · rw [step_of_passes passes] at stepped
      cases stepped
    · rw [step_of_refuses refuses] at stepped
      cases stepped
      exact refuses
  · exact step_of_refuses

theorem advance_cons_ok {rest : List Char} (stepped : step find? observe s c = .ok next) :
    advance find? observe s (c :: rest) = advance find? observe next rest := by
  unfold advance
  rw [List.foldlM_cons,stepped]
  rfl

theorem advance_cons_error {rest : List Char} (stepped : step find? observe s c = .error stop) :
    advance find? observe s (c :: rest) = .error stop := by
  unfold advance
  rw [List.foldlM_cons,stepped]
  rfl

theorem advance_append_ok {rest : List Char} (ran : advance find? observe s done = .ok next) :
    advance find? observe s (done ++ rest) = advance find? observe next rest := by
  rw [advance_append,ran]
  rfl

theorem advance_append_error {rest : List Char} (ran : advance find? observe s done = .error stop) :
    advance find? observe s (done ++ rest) = .error stop := by
  rw [advance_append,ran]
  rfl

theorem advance_eq_error_iff : advance find? observe s text = .error stop ↔
    ∃ front c rest reached, text = front ++ c :: rest ∧
      advance find? observe s front = .ok reached ∧ Refuses find? reached c stop := by
  constructor
  · intro stopped
    induction text generalizing s with
    | nil => cases stopped
    | cons c rest ih =>
      cases stepped : step find? observe s c with
      | ok next =>
        rw [advance_cons_ok stepped] at stopped
        obtain ⟨front,d,more,reached,rfl,ran,refuses⟩ := ih stopped
        refine ⟨c :: front,d,more,reached,rfl,?_,refuses⟩
        rwa [advance_cons_ok stepped]
      | error other =>
        rw [advance_cons_error stepped] at stopped
        cases stopped
        exact ⟨[],c,rest,s,rfl,rfl,step_eq_error_iff.mp stepped⟩
  · rintro ⟨front,c,rest,reached,rfl,ran,refuses⟩
    rw [advance_append_ok ran]
    exact advance_cons_error (step_of_refuses refuses)

-- What each character keeps, told of the text that was passed, a whole run keeps.
theorem advance_keeps {P : List Char → State σ → Prop}
    (kept : ∀ done s c next, P done s → Passes find? observe s c next → P (done ++ [c]) next)
    (done : List Char) (start : P done s) (ran : advance find? observe s text = .ok last) : P (done ++ text) last := by
  induction text generalizing done s with
  | nil =>
    cases ran
    rwa [List.append_nil]
  | cons c rest ih =>
    cases stepped : step find? observe s c with
    | ok next =>
      rw [advance_cons_ok stepped] at ran
      have more := ih (done ++ [c]) (kept done s c next start (step_eq_ok_iff.mp stepped)) ran
      rwa [List.append_assoc] at more
    | error stop =>
      rw [advance_cons_error stepped] at ran
      cases ran

end ActionStrings.Reading
