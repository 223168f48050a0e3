namespace ActionStrings.Text

-- Every offset into a text counts the bytes of its UTF-8 form, so a character moves it by
-- one to four.
def byteLength : List Char → Nat
  | [] => 0
  | c :: rest => c.utf8Size + byteLength rest

@[simp] theorem byteLength_nil : byteLength [] = 0 := rfl
@[simp] theorem byteLength_cons (c : Char) (rest : List Char) :
    byteLength (c :: rest) = c.utf8Size + byteLength rest := rfl

@[simp] theorem byteLength_append (left right : List Char) :
    byteLength (left ++ right) = byteLength left + byteLength right := by
  induction left with
  | nil => simp
  | cons c rest ih => simp [ih,Nat.add_assoc]

@[simp] theorem byteLength_eq_zero {text : List Char} : byteLength text = 0 ↔ text = [] := by
  cases text with
  | nil => simp
  | cons c rest => simp [Nat.ne_of_gt c.utf8Size_pos]

theorem byteLength_toList (text : String) : byteLength text.toList = text.utf8ByteSize := by
  have counted (chars : List Char) : byteLength chars = (String.ofList chars).utf8ByteSize := by
    induction chars with
    | nil => rfl
    | cons c rest ih =>
      rw [byteLength_cons,ih,String.ofList_cons,String.utf8ByteSize_append,String.utf8ByteSize_singleton]
  rw [counted,String.ofList_toList]

-- A cut is possible only between two characters; inside one, or past the end, there is none.
def splitAt? : Nat → List Char → Option (List Char × List Char)
  | 0, text => some ([],text)
  | _ + 1, [] => none
  | n + 1, c :: rest =>
    if c.utf8Size ≤ n + 1 then
      (splitAt? (n + 1 - c.utf8Size) rest).map fun cut => (c :: cut.1,cut.2)
    else none

theorem splitAt?_eq_some_iff {n : Nat} {text left right : List Char} :
    splitAt? n text = some (left,right) ↔ text = left ++ right ∧ byteLength left = n := by
  fun_induction splitAt? n text generalizing left right with
  | case1 text =>
    constructor
    · intro cut; cases cut; exact ⟨rfl,rfl⟩
    · intro ⟨split,size⟩; rw [byteLength_eq_zero] at size; subst size; subst split; rfl
  | case2 n =>
    constructor
    · intro cut; cases cut
    · intro ⟨split,size⟩; cases left with
      | nil => cases size
      | cons c rest => cases split
  | case3 n c rest fits ih =>
    constructor
    · intro cut
      obtain ⟨⟨front,back⟩,inner,same⟩ := Option.map_eq_some_iff.mp cut
      cases same
      obtain ⟨split,size⟩ := ih.mp inner
      exact ⟨by rw [split]; rfl,by simp only [byteLength_cons,size]; omega⟩
    · intro ⟨split,size⟩
      cases left with
      | nil => cases size
      | cons d front =>
        cases split
        rw [byteLength_cons] at size
        exact Option.map_eq_some_iff.mpr ⟨(front,right),ih.mpr ⟨rfl,by omega⟩,rfl⟩
  | case4 n c rest tooWide =>
    constructor
    · intro cut; cases cut
    · intro ⟨split,size⟩
      cases left with
      | nil => cases size
      | cons d front => cases split; rw [byteLength_cons] at size; omega

def slice? (text : List Char) (start stop : Nat) : Option (List Char) :=
  if start ≤ stop then
    (splitAt? start text).bind fun cut => (splitAt? (stop - start) cut.2).map Prod.fst
  else none

theorem slice?_eq_some_iff {text body : List Char} {start stop : Nat} :
    slice? text start stop = some body ↔
      ∃ left right, text = left ++ (body ++ right) ∧ byteLength left = start ∧
        start + byteLength body = stop := by
  unfold slice?
  split
  · rename_i ordered
    constructor
    · intro found
      obtain ⟨⟨left,rest⟩,first,second⟩ := Option.bind_eq_some_iff.mp found
      obtain ⟨⟨front,right⟩,cut,same⟩ := Option.map_eq_some_iff.mp second
      cases same
      obtain ⟨split,size⟩ := splitAt?_eq_some_iff.mp first
      obtain ⟨inner,width⟩ := splitAt?_eq_some_iff.mp cut
      rw [show rest = front ++ right from inner] at split
      exact ⟨left,right,split,size,by rw [width]; omega⟩
    · intro ⟨left,right,split,size,width⟩
      exact Option.bind_eq_some_iff.mpr ⟨(left,body ++ right),splitAt?_eq_some_iff.mpr ⟨split,size⟩,
        Option.map_eq_some_iff.mpr ⟨(body,right),splitAt?_eq_some_iff.mpr ⟨rfl,by omega⟩,rfl⟩⟩
  · rename_i reversed
    constructor
    · intro found; cases found
    · intro ⟨left,right,split,size,width⟩; omega

-- White space that separates names: the ASCII control spaces and information separators,
-- and the Unicode space, line and paragraph separators. The no-break spaces U+00A0, U+2007
-- and U+202F and the next-line control U+0085 hold a name together, so they are not here.
def spaceRanges : List (Nat × Nat) :=
  [(0x0009,0x000D),(0x001C,0x0020),(0x1680,0x1680),(0x2000,0x2006),(0x2008,0x200A),
   (0x2028,0x2029),(0x205F,0x205F),(0x3000,0x3000)]

def isSpace (c : Char) : Bool :=
  spaceRanges.any fun range => range.1 ≤ c.toNat && c.toNat ≤ range.2

def isSeparator (c : Char) : Bool := c == ',' || isSpace c

@[simp] theorem isSpace_comma : isSpace ',' = false := by decide
@[simp] theorem isSpace_star : isSpace '*' = false := by decide
@[simp] theorem isSeparator_star : isSeparator '*' = false := by decide

end ActionStrings.Text
