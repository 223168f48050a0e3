namespace ActionStrings

-- A set of positions, kept as the one ascending list that holds them.
structure ActionSet (n : Nat) where
  members : List (Fin n)
  ascending : members.Pairwise (· < ·)
deriving DecidableEq

namespace ActionSet

variable {n : Nat}

instance : Membership (Fin n) (ActionSet n) := ⟨fun set a => a ∈ set.members⟩

def place (a : Fin n) : List (Fin n) → List (Fin n)
  | [] => [a]
  | b :: rest => if a < b then a :: b :: rest else if a = b then b :: rest else b :: place a rest

theorem mem_place {a b : Fin n} {list : List (Fin n)} : b ∈ place a list ↔ b = a ∨ b ∈ list := by
  induction list with
  | nil => simp [place]
  | cons c rest ih =>
    unfold place
    split
    · exact List.mem_cons
    · split
      · rename_i same; subst same; simp
      · simp only [List.mem_cons,ih]; exact or_left_comm

theorem place_ascending {a : Fin n} {list : List (Fin n)} (ascending : list.Pairwise (· < ·)) :
    (place a list).Pairwise (· < ·) := by
  induction list with
  | nil => simp [place]
  | cons c rest ih =>
    obtain ⟨first,later⟩ := List.pairwise_cons.mp ascending
    unfold place
    split
    · rename_i smaller
      refine List.pairwise_cons.mpr ⟨?_,ascending⟩
      intro b member
      rcases List.mem_cons.mp member with rfl | inRest
      · exact smaller
      · exact Fin.lt_trans smaller (first b inRest)
    · split
      · exact ascending
      · refine List.pairwise_cons.mpr ⟨?_,ih later⟩
        intro b member
        rcases mem_place.mp member with rfl | inRest
        · omega
        · exact first b inRest

def empty : ActionSet n := ⟨[],.nil⟩

def all : ActionSet n := ⟨List.finRange n,List.pairwise_lt_finRange n⟩

def insert (a : Fin n) (set : ActionSet n) : ActionSet n :=
  ⟨place a set.members,place_ascending set.ascending⟩

def erase (a : Fin n) (set : ActionSet n) : ActionSet n :=
  ⟨set.members.erase a,set.ascending.erase a⟩

def ofList (list : List (Fin n)) : ActionSet n := list.foldl (fun set a => set.insert a) empty

theorem mem_def {a : Fin n} {set : ActionSet n} : a ∈ set ↔ a ∈ set.members := Iff.rfl

@[simp] theorem not_mem_empty {a : Fin n} : a ∉ (empty : ActionSet n) := List.not_mem_nil

@[simp] theorem mem_all {a : Fin n} : a ∈ (all : ActionSet n) := List.mem_finRange a

@[simp] theorem mem_insert {a b : Fin n} {set : ActionSet n} : b ∈ set.insert a ↔ b = a ∨ b ∈ set :=
  mem_place

theorem mem_insert_self (a : Fin n) (set : ActionSet n) : a ∈ set.insert a := mem_insert.mpr (.inl rfl)

theorem nodup (set : ActionSet n) : set.members.Nodup :=
  set.ascending.imp fun smaller => Fin.ne_of_lt smaller

@[simp] theorem mem_erase {a b : Fin n} {set : ActionSet n} : b ∈ set.erase a ↔ b ≠ a ∧ b ∈ set :=
  set.nodup.mem_erase_iff

@[simp] theorem mem_ofList {a : Fin n} {list : List (Fin n)} : a ∈ ofList list ↔ a ∈ list := by
  have grown (set : ActionSet n) :
      a ∈ list.foldl (fun set b => set.insert b) set ↔ a ∈ set ∨ a ∈ list := by
    induction list generalizing set with
    | nil => simp
    | cons b rest ih =>
      rw [List.foldl_cons,ih,mem_insert,List.mem_cons,or_assoc,or_left_comm]
  rw [ofList,grown]
  simp

theorem ext {left right : ActionSet n} (same : ∀ a, a ∈ left ↔ a ∈ right) : left = right := by
  have equal : left.members = right.members := by
    refine List.Perm.eq_of_pairwise ?_ left.ascending right.ascending ?_
    · intro a b _ _ before after; exact absurd after (Fin.lt_asymm before)
    · exact (List.perm_ext_iff_of_nodup left.nodup right.nodup).mpr same
  cases left; cases right; cases equal; rfl

theorem ofList_members (set : ActionSet n) : ofList set.members = set :=
  ext fun _ => mem_ofList

end ActionSet

end ActionStrings
