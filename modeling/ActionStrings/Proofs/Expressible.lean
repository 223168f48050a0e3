import ActionStrings.Proofs.Rereading
import ActionStrings.Proofs.Tracing
import Mathlib.Data.List.TFAE
import Mathlib.Tactic.TFAE

namespace ActionStrings.Vocabulary
open Text

variable {V : Vocabulary} {a : V.Action} {set : ActionSet V.size} {list : List V.Action} {input : String}

def Spells (V : Vocabulary) (input : String) (set : ActionSet V.size) : Prop :=
  V.parseSet input = .ok set ∧ ∃ details, V.parseDetails input = .ok details ∧ details.wildcard = false

-- The name is a word, and no action of a larger ordinal has taken it.
structure Expressible (a : V.Action) : Prop where
  word : IsWord (V.name a).toList
  unshadowed : ∀ b, V.ordinal a < V.ordinal b → V.name b ≠ V.name a

theorem spells_iff : V.Spells input set ↔ V.understand input = .ok (set,false) := by
  unfold Spells
  rw [V.parseSet_eq_details]
  cases read : V.parseDetails input with
  | error error => simp [Except.map,understand_eq_error read]
  | ok details => simp [Except.map,understand_eq_ok read]

theorem expressible_iff_writable (indexed : V.Indexed) : Expressible a ↔ Writable a := by
  have last : (∀ b, V.ordinal a < V.ordinal b → V.name b ≠ V.name a) ↔
      V.lastNamed? (V.name a) = some a := by
    rw [lastNamed?_eq_some_iff,indexed a]
    constructor
    · intro unshadowed
      refine ⟨rfl,fun b same => Fin.not_lt.mp fun later => ?_⟩
      exact unshadowed b (by rwa [indexed b]) same
    · intro ⟨_,largest⟩ b later same
      rw [indexed b] at later
      exact Fin.not_lt.mpr (largest b same) later
  exact ⟨fun expressible => ⟨expressible.word,last.mp expressible.unshadowed⟩,
    fun writable => ⟨writable.word,last.mpr writable.held⟩⟩

-- Only what a name was found for can have entered, as long as nothing has been starred.
theorem writable_of_understand (understood : V.understand input = .ok (set,false)) : ∀ a ∈ set, Writable a := by
  have kept (said : ActionSet V.size × Bool) (signal : Reading.Signal V.Action)
      (genuine : Reading.Genuine V.nameTrie.find? signal)
      (known : said.2 = false → ∀ a ∈ said.1, Writable a) :
      let next := ((Sink.set V).both (Sink.starred V)).observe said signal
      next.2 = false → ∀ a ∈ next.1, Writable a := by
    intro next plain
    cases signal with
    | blank => exact known plain
    | hit hit =>
      obtain ⟨_,_,_,event⟩ := hit
      cases event with
      | everything => cases plain
      | named b =>
        intro a member
        rcases ActionSet.mem_insert.mp member with rfl | earlier
        · exact writable_of_found genuine.1 genuine.2
        · exact known plain a earlier
  refine Reading.read_keeps (P := fun said : ActionSet V.size × Bool => said.2 = false → ∀ a ∈ said.1, Writable a)
    kept ?_ (Error.settle_eq_ok_iff.mp understood) rfl
  exact fun _ a member => absurd member ActionSet.not_mem_empty

theorem foldl_named (list : List V.Action) (set : ActionSet V.size) :
    list.foldl (fun said a => (Sink.set V).both (Sink.starred V) said (.named a)) (set,false) =
      (list.foldl (fun set a => set.insert a) set,false) := by
  induction list generalizing set with
  | nil => rfl
  | cons a rest ih => exact ih (set.insert a)

theorem understand_canonicalSet (writable : ∀ a ∈ set, Writable a) :
    V.understand (V.canonicalSet set) = .ok (set,false) := by
  rw [understand,canonicalSet_eq_written,read_written writable,foldl_named]
  exact congrArg (Except.ok <| Prod.mk · false) set.ofList_members

theorem spells_tfae (indexed : V.Indexed) (set : ActionSet V.size) :
    List.TFAE [∃ input, V.Spells input set,∀ a ∈ set, Expressible a,V.Spells (V.canonicalSet set) set] := by
  have plain : (∀ a ∈ set, Expressible a) ↔ ∀ a ∈ set, Writable a :=
    forall₂_congr fun _ _ => expressible_iff_writable indexed
  tfae_have 1 → 2 := fun ⟨_,spells⟩ => plain.mpr (writable_of_understand (spells_iff.mp spells))
  tfae_have 2 → 3 := fun expressible => spells_iff.mpr (understand_canonicalSet (plain.mp expressible))
  tfae_have 3 → 1 := fun spells => ⟨_,spells⟩
  tfae_finish

theorem spells_tfae_shadowed :
    let V := ofNames "twice" [("r","Read"),("r","Reread"),("*","Star")]
    let first : ActionSet V.size := ActionSet.empty.insert ⟨0,by decide⟩
    let second : ActionSet V.size := ActionSet.empty.insert ⟨1,by decide⟩
    V.Indexed ∧ V.Spells (V.canonicalSet second) second ∧ ¬ ∃ input, V.Spells input first := by
  intro V first second
  have indexed : V.Indexed := indexed_ofNames _ _
  refine ⟨indexed,?_,?_⟩
  · refine ((spells_tfae indexed second).out 1 2).mp fun a member => ?_
    obtain rfl := (ActionSet.mem_insert.mp member).resolve_right ActionSet.not_mem_empty
    have word : IsWord ['r'] := ⟨by decide,by decide,List.forall_mem_singleton.mpr (by decide)⟩
    have letters : (V.name ⟨1,by decide⟩).toList = ['r'] := by decide
    exact ⟨letters ▸ word,by decide⟩
  · intro spelled
    have expressible : ∀ a ∈ first, Expressible a := ((spells_tfae indexed first).out 0 1).mp spelled
    exact (expressible _ (ActionSet.mem_insert_self _ _)).unshadowed ⟨1,by decide⟩ (by decide) rfl

end ActionStrings.Vocabulary
