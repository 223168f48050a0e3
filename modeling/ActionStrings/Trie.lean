import ActionStrings.Text

namespace ActionStrings

namespace Trie

inductive Slot
  | found (index : Nat)
  | vacant (index : Nat)
deriving DecidableEq

-- Halves the open part of the array; the keys before it are smaller and those after it larger.
def searchBetween (keys : Array Char) (key : Char) (lo hi : Nat) (bound : hi ≤ keys.size) : Slot :=
  if nonempty : lo < hi then
    let mid := lo + (hi - lo) / 2
    have inside : mid < hi := by omega
    if keys[mid] = key then .found mid
    else if keys[mid] < key then searchBetween keys key (mid + 1) hi bound
    else searchBetween keys key lo mid (by omega)
  else .vacant lo
termination_by hi - lo

def search (keys : Array Char) (key : Char) : Slot :=
  searchBetween keys key 0 keys.size (Nat.le_refl _)

theorem searchBetween_found {keys : Array Char} {key : Char} {lo hi i : Nat} {bound : hi ≤ keys.size}
    (answer : searchBetween keys key lo hi bound = .found i) : keys[i]? = some key := by
  fun_induction searchBetween keys key lo hi bound with
  | case1 lo hi bound nonempty mid inside same =>
    obtain rfl := Slot.found.inj answer
    rw [Array.getElem?_eq_getElem (by omega),same]
  | case2 lo hi bound nonempty mid inside differs smaller ih => exact ih answer
  | case3 lo hi bound nonempty mid inside differs larger ih => exact ih answer
  | case4 lo hi bound exhausted => cases answer

theorem searchBetween_vacant {keys : Array Char} {key : Char} {lo hi i : Nat} {bound : hi ≤ keys.size}
    (ordered : lo ≤ hi) (answer : searchBetween keys key lo hi bound = .vacant i) : lo ≤ i ∧ i ≤ hi := by
  fun_induction searchBetween keys key lo hi bound with
  | case1 lo hi bound nonempty mid inside same => cases answer
  | case2 lo hi bound nonempty mid inside differs smaller ih =>
    have := ih (by omega) answer
    omega
  | case3 lo hi bound nonempty mid inside differs larger ih =>
    have := ih (by omega) answer
    omega
  | case4 lo hi bound exhausted => cases answer; omega

-- Neither fact needs the array to be ascending.
theorem search_found {keys : Array Char} {key : Char} {i : Nat} (answer : search keys key = .found i) :
    keys[i]? = some key := searchBetween_found answer

theorem search_vacant {keys : Array Char} {key : Char} {i : Nat} (answer : search keys key = .vacant i) :
    i ≤ keys.size := (searchBetween_vacant (Nat.zero_le _) answer).2

end Trie

-- A finite map from texts. The edge labelled by the selector at an index leads to the child
-- at that index; selectors ascend, so one is found by halving.
structure Trie (α : Type) where
  value : Option α
  selectors : Array Char
  children : Array (Trie α)

namespace Trie

variable {α : Type}

def empty : Trie α := ⟨none,#[],#[]⟩

def insert (node : Trie α) : List Char → α → Trie α
  | [], value => { node with value := some value }
  | c :: rest, value =>
    match search node.selectors c with
    | .found i => { node with children := node.children.modify i fun child => child.insert rest value }
    | .vacant i =>
      { node with
        selectors := node.selectors.insertIdxIfInBounds i c
        children := node.children.insertIdxIfInBounds i (empty.insert rest value) }

-- A key that ends on a node without a value is only the beginning of other keys.
def find? (node : Trie α) : List Char → Option α
  | [] => node.value
  | c :: rest =>
    match search node.selectors c with
    | .found i => node.children[i]?.bind fun child => child.find? rest
    | .vacant _ => none

def lookup (node : Trie α) (source : List Char) (start stop : Nat) : Option α :=
  (Text.slice? source start stop).bind node.find?

theorem lookup_whole (node : Trie α) (source : List Char) :
    node.lookup source 0 (Text.byteLength source) = node.find? source := by
  have whole : Text.slice? source 0 (Text.byteLength source) = some source :=
    Text.slice?_eq_some_iff.mpr ⟨[],[],by simp,rfl,by simp⟩
  simp only [lookup,whole,Option.bind_some]

def nodeCount (node : Trie α) : Nat :=
  node.children.toList.attach.foldr (fun child total => child.1.nodeCount + total) 1
termination_by sizeOf node
decreasing_by
  have smaller := Array.sizeOf_lt_of_mem (Array.mem_toList_iff.mp child.2)
  cases node
  simp only [Trie.mk.sizeOf_spec] at *
  omega

theorem nodeCount_eq (node : Trie α) :
    node.nodeCount = node.children.toList.foldr (fun child total => child.nodeCount + total) 1 := by
  rw [nodeCount]
  exact List.foldr_attach (f := fun child total => nodeCount child + total)

end Trie

end ActionStrings
