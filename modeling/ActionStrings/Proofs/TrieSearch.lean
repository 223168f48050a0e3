import ActionStrings.Trie

namespace ActionStrings.Trie

variable {keys : Array Char} {key a b : Char} {i j : Nat}

def Ascending (keys : Array Char) : Prop := keys.toList.Pairwise (· < ·)

theorem Ascending.lt (ascending : Ascending keys) (before : i < j) (left : keys[i]? = some a)
    (right : keys[j]? = some b) : a < b := by
  obtain ⟨leftBound,rfl⟩ := Array.getElem?_eq_some_iff.mp left
  obtain ⟨rightBound,rfl⟩ := Array.getElem?_eq_some_iff.mp right
  exact List.pairwise_iff_getElem.mp ascending i j leftBound rightBound before

theorem ascending_of_lt
    (ordered : ∀ (i j : Nat) (a b : Char), i < j → keys[i]? = some a → keys[j]? = some b → a < b) :
    Ascending keys := by
  refine List.pairwise_iff_getElem.mpr ?_
  intro i j left right before
  exact ordered i j _ _ before (Array.getElem?_eq_getElem left) (Array.getElem?_eq_getElem right)

theorem Ascending.index_unique (ascending : Ascending keys) (left : keys[i]? = some a)
    (right : keys[j]? = some a) : i = j := by
  rcases Nat.lt_trichotomy i j with before | same | after
  · exact absurd (ascending.lt before left right) (Char.lt_irrefl a)
  · exact same
  · exact absurd (ascending.lt after right left) (Char.lt_irrefl a)

-- The keys before the index are smaller than the one sought and the others larger.
structure Parts (keys : Array Char) (key : Char) (i : Nat) : Prop where
  below : ∀ j a, j < i → keys[j]? = some a → a < key
  above : ∀ j a, i ≤ j → keys[j]? = some a → key < a

theorem Parts.absent (parts : Parts keys key i) : keys[j]? ≠ some key := by
  intro present
  by_cases before : j < i
  · exact Char.lt_irrefl key (parts.below j key before present)
  · exact Char.lt_irrefl key (parts.above j key (Nat.le_of_not_lt before) present)

theorem searchBetween_parts {lo hi : Nat} {bound : hi ≤ keys.size} (ascending : Ascending keys)
    (below : ∀ j a, j < lo → keys[j]? = some a → a < key)
    (above : ∀ j a, hi ≤ j → keys[j]? = some a → key < a)
    (answer : searchBetween keys key lo hi bound = .vacant i) : Parts keys key i := by
  fun_induction searchBetween keys key lo hi bound with
  | case1 lo hi bound nonempty mid inside same => cases answer
  | case2 lo hi bound nonempty mid inside differs smaller ih =>
    refine ih ?_ above answer
    intro j a before present
    have middle : keys[mid]? = some keys[mid] := Array.getElem?_eq_getElem (by omega)
    rcases Nat.lt_or_eq_of_le (Nat.le_of_lt_succ before) with earlier | rfl
    · exact Char.lt_trans (ascending.lt earlier present middle) smaller
    · cases middle.symm.trans present; exact smaller
  | case3 lo hi bound nonempty mid inside differs larger ih =>
    refine ih below ?_ answer
    intro j a after present
    have middle : keys[mid]? = some keys[mid] := Array.getElem?_eq_getElem (by omega)
    have beyond : key < keys[mid] := by
      have weak := Char.not_lt.mp larger
      exact Char.not_le.mp fun back => differs (Char.le_antisymm back weak)
    rcases Nat.lt_or_eq_of_le after with later | rfl
    · exact Char.lt_trans beyond (ascending.lt later middle present)
    · cases middle.symm.trans present; exact beyond
  | case4 lo hi bound exhausted =>
    cases answer
    exact ⟨below,fun j a after => above j a (by omega)⟩

theorem search_parts (ascending : Ascending keys) (answer : search keys key = .vacant i) :
    Parts keys key i :=
  searchBetween_parts ascending (fun _ _ impossible => absurd impossible (Nat.not_lt_zero _))
    (fun j a after present => by
      have outside := Array.getElem?_eq_none after
      rw [present] at outside; cases outside) answer

theorem search_eq_found_iff (ascending : Ascending keys) :
    search keys key = .found i ↔ keys[i]? = some key := by
  constructor
  · exact search_found
  · intro present
    cases answer : search keys key with
    | found j => rw [ascending.index_unique (search_found answer) present]
    | vacant j => exact absurd present (search_parts ascending answer).absent

theorem getElem?_insertIdxIfInBounds {α : Type} {row : Array α} {x : α} (bound : i ≤ row.size) :
    (row.insertIdxIfInBounds i x)[j]? =
      if j < i then row[j]? else if j = i then some x else row[j - 1]? := by
  simp only [Array.insertIdxIfInBounds,bound,↓reduceDIte,Array.getElem?_insertIdx]
  by_cases here : j = i
  · subst here; simp only [Nat.lt_irrefl,↓reduceIte,bound]
  · simp only [here,↓reduceIte]

theorem mem_insertIdxIfInBounds {α : Type} {row : Array α} {x y : α} (bound : i ≤ row.size) :
    y ∈ row.insertIdxIfInBounds i x ↔ y = x ∨ y ∈ row := by
  rw [Array.insertIdxIfInBounds,dif_pos bound]
  exact Array.mem_insertIdx

theorem mem_modify {α : Type} {row : Array α} {x : α} {change : α → α} (member : x ∈ row.modify i change) :
    x ∈ row ∨ ∃ old ∈ row, change old = x := by
  obtain ⟨j,placed⟩ := Array.getElem?_of_mem member
  rw [Array.getElem?_modify] at placed
  split at placed
  · obtain ⟨old,present,changed⟩ := Option.map_eq_some_iff.mp placed
    exact .inr ⟨old,Array.mem_of_getElem? present,changed⟩
  · exact .inl (Array.mem_of_getElem? placed)

theorem Parts.ascending_insert (parts : Parts keys key i) (ascending : Ascending keys)
    (bound : i ≤ keys.size) : Ascending (keys.insertIdxIfInBounds i key) := by
  refine ascending_of_lt ?_
  intro j k a b before left right
  rw [getElem?_insertIdxIfInBounds bound] at left right
  rcases Nat.lt_trichotomy j i with early | same | late
  · rw [if_pos early] at left
    rcases Nat.lt_trichotomy k i with early' | same' | late'
    · rw [if_pos early'] at right; exact ascending.lt before left right
    · subst same'; simp only [Nat.lt_irrefl,↓reduceIte,Option.some.injEq] at right
      subst right; exact parts.below j a early left
    · rw [if_neg (by omega),if_neg (by omega)] at right
      exact ascending.lt (by omega) left right
  · subst same; simp only [Nat.lt_irrefl,↓reduceIte,Option.some.injEq] at left
    rw [if_neg (by omega),if_neg (by omega)] at right
    subst left; exact parts.above (k - 1) b (by omega) right
  · rw [if_neg (by omega),if_neg (by omega)] at left right
    exact ascending.lt (by omega) left right

end ActionStrings.Trie
