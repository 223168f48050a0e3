import ActionStrings.Proofs.Accepted

namespace ActionStrings.Segment
open Text

variable {offset index : Nat} {c : Char} {text first : List Char} {rest parts : List (List Char)}
  {part left right : Segment}

def Stands (offset : Nat) (text : List Char) (part : Segment) : Prop :=
  ∃ front back, text = front ++ (part.text ++ back) ∧ part.offset = offset + byteLength front

def Apart (offset : Nat) (text : List Char) (left right : Segment) : Prop :=
  ∃ front gap back, text = front ++ (left.text ++ (gap ++ (right.text ++ back))) ∧
    left.offset = offset + byteLength front ∧ right.offset = left.stop + byteLength gap ∧ ',' ∈ gap

-- Where something stands does not change with what is written before the text.
theorem Stands.behind {front : List Char} (stands : Stands (offset + byteLength front) text part) :
    Stands offset (front ++ text) part := by
  obtain ⟨before,back,split,placed⟩ := stands
  exact ⟨front ++ before,back,by simp [split],by rw [placed,byteLength_append,Nat.add_assoc]⟩

theorem Apart.behind {front : List Char} (apart : Apart (offset + byteLength front) text left right) :
    Apart offset (front ++ text) left right := by
  obtain ⟨before,gap,back,split,placed,between⟩ := apart
  exact ⟨front ++ before,gap,back,by simp [split],by rw [placed,byteLength_append,Nat.add_assoc],between⟩

theorem Stands.trim (stands : Stands offset text part) : Stands offset text part.trim := by
  obtain ⟨front,back,split,placed⟩ := stands
  obtain ⟨lead,trail,inner,moved,_⟩ := trim_split part
  exact ⟨front ++ lead,trail ++ back,by simp [split,inner],
    by rw [moved,placed,byteLength_append,Nat.add_assoc]⟩

theorem Apart.trim (apart : Apart offset text left right) : Apart offset text left.trim right.trim := by
  obtain ⟨front,gap,back,split,placed,follows,comma⟩ := apart
  obtain ⟨lead,trail,inner,moved,_⟩ := trim_split left
  obtain ⟨lead',trail',inner',moved',_⟩ := trim_split right
  refine ⟨front ++ lead,trail ++ gap ++ lead',trail' ++ back,by simp [split,inner,inner'],?_,?_,by simp [comma]⟩
  · rw [moved,placed,byteLength_append,Nat.add_assoc]
  · rw [moved',follows,stop,stop,moved,inner]
    simp only [byteLength_append]
    omega

theorem Stands.slice (stands : Stands 0 text part) : slice? text part.offset part.stop = some part.text := by
  obtain ⟨front,back,split,placed⟩ := stands
  exact slice?_eq_some_iff.mpr ⟨front,back,split,by simp [placed],rfl⟩

theorem Apart.slice (apart : Apart 0 text left right) :
    left.stop < right.offset ∧ ∃ gap, slice? text left.stop right.offset = some gap ∧ ',' ∈ gap := by
  obtain ⟨front,gap,back,split,placed,follows,comma⟩ := apart
  have wide : byteLength gap ≠ 0 := by
    rw [ne_eq,byteLength_eq_zero]
    exact List.ne_nil_of_mem comma
  refine ⟨by omega,gap,slice?_eq_some_iff.mpr ⟨front ++ left.text,right.text ++ back,?_,?_,follows.symm⟩,comma⟩
  · simp [split]
  · simp [stop,placed]

theorem joined_cons (some : rest ≠ []) :
    [','].intercalate (first :: rest) = (first ++ [',']) ++ [','].intercalate rest := by
  obtain ⟨next,more,rfl⟩ := List.exists_cons_of_ne_nil some
  simp [List.intercalate_cons_cons]

theorem layOut_cons : layOut offset (first :: rest) =
    ⟨offset,first⟩ :: layOut (offset + byteLength (first ++ [','])) rest := by
  rw [layOut,byteLength_append,← Nat.add_assoc]
  rfl

theorem layOut_stands (member : part ∈ layOut offset parts) : Stands offset ([','].intercalate parts) part := by
  induction parts generalizing offset with
  | nil => cases member
  | cons first rest ih =>
    rw [layOut_cons] at member
    rcases List.mem_cons.mp member with rfl | later
    · exact ⟨[],_,intercalate_cons first rest,rfl⟩
    · have some : rest ≠ [] := by
        rintro rfl
        cases later
      rw [joined_cons some]
      exact (ih later).behind

theorem layOut_apart : (layOut offset parts).Pairwise (Apart offset ([','].intercalate parts)) := by
  induction parts generalizing offset with
  | nil => exact .nil
  | cons first rest ih =>
    by_cases some : rest = []
    · subst some
      exact List.pairwise_singleton _ _
    · rw [layOut_cons,joined_cons some,List.pairwise_cons]
      refine ⟨fun right later => ?_,ih.imp fun apart => apart.behind⟩
      obtain ⟨front,back,split,placed⟩ := layOut_stands later
      refine ⟨[],',' :: front,back,by simp [split],rfl,?_,List.mem_cons_self ..⟩
      rw [placed,stop]
      simp [Nat.add_assoc]

theorem layOut_covers (member : (index,c) ∈ positions offset ([','].intercalate parts)) (other : c ≠ ',') :
    ∃ part ∈ layOut offset parts, (index,c) ∈ positions part.offset part.text := by
  induction parts generalizing offset with
  | nil => cases member
  | cons first rest ih =>
    rw [layOut_cons]
    by_cases some : rest = []
    · subst some
      rw [List.intercalate_singleton] at member
      exact ⟨_,List.mem_cons_self ..,member⟩
    · rw [joined_cons some,positions_append,positions_append] at member
      rcases List.mem_append.mp member with inFront | later
      · rcases List.mem_append.mp inFront with inFirst | comma
        · exact ⟨_,List.mem_cons_self ..,inFirst⟩
        · cases List.mem_singleton.mp comma
          exact absurd rfl other
      · obtain ⟨part,found,inside⟩ := ih later
        exact ⟨part,List.mem_cons_of_mem _ found,inside⟩

theorem char_of_mem_positions (member : (index,c) ∈ positions offset text) : c ∈ text := by
  induction text generalizing offset with
  | nil => cases member
  | cons d more ih =>
    rcases List.mem_cons.mp member with same | later
    · cases same
      exact List.mem_cons_self ..
    · exact List.mem_cons_of_mem _ (ih later)

theorem trim_covers (member : (index,c) ∈ positions part.offset part.text) (letter : isSeparator c = false) :
    (index,c) ∈ positions part.trim.offset part.trim.text := by
  have solid : ¬isSpace c = true := fun space => by simp [isSeparator_of_isSpace space] at letter
  obtain ⟨lead,trail,split,placed,leading,trailing⟩ := trim_split part
  rw [split,positions_append,positions_append,← placed] at member
  rcases List.mem_append.mp member with inLead | inside
  · exact absurd (leading c (char_of_mem_positions inLead)) solid
  · rcases List.mem_append.mp inside with inTrim | inTrail
    · exact inTrim
    · exact absurd (trailing c (char_of_mem_positions inTrail)) solid

-- The parts of a text without the spaces around them, but for those of which nothing is left.
def filled (text : List Char) : List Segment :=
  ((ofText text).map trim).filter fun part => part.text ≠ []

theorem filled_slice (member : part ∈ filled text) :
    part.offset < part.stop ∧ slice? text part.offset part.stop = some part.text := by
  obtain ⟨trimmed,nonempty⟩ := List.mem_filter.mp member
  obtain ⟨whole,found,rfl⟩ := List.mem_map.mp trimmed
  have stands := layOut_stands found
  rw [List.intercalate_splitOn] at stands
  have wide : byteLength whole.trim.text ≠ 0 := by simpa using nonempty
  refine ⟨?_,stands.trim.slice⟩
  rw [stop]
  omega

theorem filled_apart (text : List Char) : (filled text).Pairwise (Apart 0 text) := by
  have apart : (ofText text).Pairwise (Apart 0 ([','].intercalate (text.splitOn ','))) := layOut_apart
  rw [List.intercalate_splitOn] at apart
  exact (List.pairwise_map.mpr (apart.imp Apart.trim)).filter _

theorem filled_covers (member : (index,c) ∈ positions 0 text) (letter : isSeparator c = false) :
    ∃ part ∈ filled text, part.offset ≤ index ∧ index < part.stop := by
  have other : c ≠ ',' := by
    rintro rfl
    cases letter
  have joined : [','].intercalate (text.splitOn ',') = text := List.intercalate_splitOn ','
  rw [← joined] at member
  obtain ⟨whole,found,inside⟩ := layOut_covers member other
  have inTrim := trim_covers inside letter
  have nonempty : whole.trim.text ≠ [] := List.ne_nil_of_mem (char_of_mem_positions inTrim)
  exact ⟨whole.trim,List.mem_filter.mpr ⟨List.mem_map_of_mem found,by simpa using nonempty⟩,mem_positions inTrim⟩

end ActionStrings.Segment
