import RegisterLisp.Proofs.Store.Quotes
import Mathlib.Data.Finset.Card
import Mathlib.Data.Finset.Dedup

/-!
# Setting parent links

`relink` goes through everything reachable from a cell with a stack and a list of the cells met so
far.  It links every part of a cell that it takes from the stack, also those met before, and puts
each cell on the stack once.  `Linking` is the invariant of its loop: parts of cells that are not on
the stack any more have been met and linked, and links lead to cells that hold what is linked.

In a store whose references lead to its cells the fuel is enough to empty the stack
(`linkAll_of_le`), so that in the end this holds for everything reachable (`linked_relink`).
-/

namespace RegisterLisp
namespace Store

open Relation (TransGen ReflTransGen)

variable {s s' : Store} {stack met : List Nat} {root id i j : Nat}

def IsClosed (s : Store) : Prop :=
  ∀ i j, s.Holds i j → j < s.size

theorem isClosed_iff : s.IsClosed ↔ ∀ i < s.size, ∀ j ∈ (s.shape i).cells, j < s.size :=
  ⟨fun h i _ j hj => h i j hj, fun h i j hij => h i (lt_size_of_holds hij) j hij⟩

instance : Decidable s.IsClosed :=
  decidable_of_iff _ isClosed_iff.symm

theorem SameShapes.holds_iff (h : SameShapes s s') : s'.Holds i j ↔ s.Holds i j := by
  rw [Holds, Holds, h.shape]

/-- Parent links are not references. -/
theorem SameShapes.holds_eq (h : SameShapes s s') : s'.Holds = s.Holds := by
  funext i j
  exact propext h.holds_iff

/-- A store stays closed while links are set. -/
theorem SameShapes.isClosed (h : SameShapes s s') (hclosed : s.IsClosed) : s'.IsClosed := by
  intro i j hij
  rw [h.size]
  exact hclosed i j (h.holds_iff.1 hij)

/-! ## The parts of one cell -/

theorem parent?_setParent_self {p : Option Nat} (h : i < s.size) :
    (s.setParent i p).parent? i = p := by
  simp only [size] at h
  simp only [parent?, setParent, Array.getElem?_modify]
  simp [h]

theorem parent?_setParent_of_ne {p : Option Nat} (h : j ≠ i) :
    (s.setParent i p).parent? j = s.parent? j := by
  simp [parent?, setParent, Array.getElem?_modify, h.symm]

/-- The parts that are linked have been met afterwards; those that are new are on the stack. -/
theorem linkParts_eq (id : Nat) (parts stack met : List Nat) (s : Store) :
    ∃ new, linkParts id parts stack met s =
        (new ++ stack, new ++ met, (linkParts id parts stack met s).2.2) ∧
      new.Nodup ∧ (∀ i ∈ new, i ∈ parts ∧ i ∉ met) ∧ ∀ i ∈ parts, i ∈ new ++ met := by
  induction parts generalizing stack met s with
  | nil => exact ⟨[], rfl, List.nodup_nil, by simp, by simp⟩
  | cons part parts ih =>
      rw [linkParts]
      split
      · rename_i hpart
        -- The part has been met: it is linked again, but not put on the stack.
        obtain ⟨new, heq, hnodup, hnew, hall⟩ := ih stack met (s.setParent part (some id))
        have hmem : part ∈ met := by simpa using hpart
        refine ⟨new, heq, hnodup, fun i hi => ?_, ?_⟩
        · exact ⟨List.mem_cons_of_mem _ (hnew i hi).1, (hnew i hi).2⟩
        · exact List.forall_mem_cons.2 ⟨List.mem_append_right _ hmem, hall⟩
      · rename_i hpart
        obtain ⟨new, heq, hnodup, hnew, hall⟩ :=
          ih (part :: stack) (part :: met) (s.setParent part (some id))
        have hmem : part ∉ met := by simpa using hpart
        refine ⟨new ++ [part], by simpa using heq, ?_, ?_, ?_⟩
        · refine List.nodup_append.2 ⟨hnodup, List.nodup_singleton part, ?_⟩
          rintro i hi j hj rfl
          exact (hnew i hi).2 (by simpa using Or.inl (List.mem_singleton.1 hj))
        · intro i hi
          rcases List.mem_append.1 hi with hi | hi
          · obtain ⟨hi, hmet⟩ := hnew i hi
            exact ⟨List.mem_cons_of_mem _ hi, fun h => hmet (List.mem_cons_of_mem _ h)⟩
          · cases List.mem_singleton.1 hi
            exact ⟨List.mem_cons_self, hmem⟩
        · rw [List.append_assoc]
          exact List.forall_mem_cons.2 ⟨by simp, hall⟩

/-- Parts are linked to the cell that holds them, and no other link changes. -/
theorem parent?_linkParts (id : Nat) (parts stack met : List Nat) (s : Store) (j : Nat)
    (hparts : ∀ i ∈ parts, i < s.size) :
    (linkParts id parts stack met s).2.2.parent? j =
      if j ∈ parts then some id else s.parent? j := by
  induction parts generalizing stack met s with
  | nil => simp [linkParts]
  | cons part parts ih =>
      have hrest : ∀ i ∈ parts, i < (s.setParent part (some id)).size := by
        rw [size_setParent]
        exact fun i hi => hparts i (List.mem_cons_of_mem _ hi)
      have hlinks : ∀ stack met,
          (linkParts id parts stack met (s.setParent part (some id))).2.2.parent? j =
            if j ∈ part :: parts then some id else s.parent? j := by
        intro stack met
        rw [ih stack met _ hrest]
        by_cases hj : j = part
        · subst hj
          rw [parent?_setParent_self (hparts j (by simp))]
          simp
        · simp [hj, parent?_setParent_of_ne hj]
      rw [linkParts]
      split <;> exact hlinks _ _

/-! ## The loop -/

/-- The state of linking everything reachable from `root`. -/
structure Linking (root : Nat) (stack met : List Nat) (s : Store) : Prop where
  isClosed : s.IsClosed
  nodup : met.Nodup
  lt_size : ∀ i ∈ met, i < s.size
  root_mem : root ∈ met
  stack_subset : ∀ i ∈ stack, i ∈ met
  reachable : ∀ i ∈ met, ReflTransGen s.Holds root i
  /-- Links lead to cells that have been met. -/
  holds : ∀ i ∈ met, ∀ p, s.parent? i = some p → p ∈ met ∧ s.Holds p i
  /-- Parts of cells that are not on the stack any more have been met and linked. -/
  complete : ∀ i ∈ met, i ∉ stack → ∀ j, s.Holds i j → j ∈ met ∧ s.parent? j ≠ none

namespace Linking

/-- Before the first step only the root has been met. -/
theorem start (hclosed : s.IsClosed) (hroot : root < s.size) :
    Linking root [root] [root] (s.setParent root none) where
  isClosed := (sameShapes_setParent root none).isClosed hclosed
  nodup := List.nodup_singleton root
  lt_size := by simpa using hroot
  root_mem := List.mem_singleton_self root
  stack_subset _ h := h
  reachable i hi := by
    cases List.mem_singleton.1 hi
    exact .refl
  holds i hi p hp := by
    cases List.mem_singleton.1 hi
    rw [parent?_setParent_self hroot] at hp
    cases hp
  complete i hi hstack := absurd hi hstack

/-- One step: the cell on top of the stack is taken and its parts are linked. -/
theorem step (h : Linking root (id :: stack) met s) :
    ∃ new, linkParts id (s.shape id).cells stack met s =
        (new ++ stack, new ++ met, (linkParts id (s.shape id).cells stack met s).2.2) ∧
      Linking root (new ++ stack) (new ++ met)
        (linkParts id (s.shape id).cells stack met s).2.2 := by
  -- All that is known of the new stack, the new list of cells met and the new links.
  have hid : id ∈ met := h.stack_subset id (by simp)
  have hparts : ∀ i ∈ (s.shape id).cells, i < s.size := fun i hi => h.isClosed id i hi
  have hshapes := sameShapes_linkParts id (s.shape id).cells stack met s
  have hparent := fun j => parent?_linkParts id (s.shape id).cells stack met s j hparts
  obtain ⟨new, heq, hnodup, hnew, hall⟩ := linkParts_eq id (s.shape id).cells stack met s
  generalize (linkParts id (s.shape id).cells stack met s).2.2 = s' at *
  refine ⟨new, heq, hshapes.isClosed h.isClosed, ?_, ?_, ?_, ?_, ?_, ?_, ?_⟩
  · refine List.nodup_append.2 ⟨hnodup, h.nodup, ?_⟩
    rintro i hi _ hj rfl
    exact (hnew i hi).2 hj
  · rw [hshapes.size]
    intro i hi
    rcases List.mem_append.1 hi with hi | hi
    · exact hparts i (hnew i hi).1
    · exact h.lt_size i hi
  · exact List.mem_append_right _ h.root_mem
  · intro i hi
    rcases List.mem_append.1 hi with hi | hi
    · exact List.mem_append_left _ hi
    · exact List.mem_append_right _ (h.stack_subset i (List.mem_cons_of_mem _ hi))
  · rw [hshapes.holds_eq]
    intro i hi
    rcases List.mem_append.1 hi with hi | hi
    · exact (h.reachable id hid).tail (hnew i hi).1
    · exact h.reachable i hi
  · intro i hi p hp
    rw [hshapes.holds_iff]
    rw [hparent] at hp
    split at hp
    · cases hp
      exact ⟨List.mem_append_right _ hid, ‹_›⟩
    · rename_i hpart
      have hi' : i ∈ met := (List.mem_append.1 hi).resolve_left fun hi => hpart (hnew i hi).1
      -- A cell that is no part of `id` keeps the link it had.
      obtain ⟨hp', hholds⟩ := h.holds i hi' p hp
      exact ⟨List.mem_append_right _ hp', hholds⟩
  · intro i hi hstack j hij
    rw [hshapes.holds_iff] at hij
    rw [hparent]
    rw [List.mem_append, not_or] at hstack
    -- The parts of `id` have just been linked; those of other cells were linked before.
    by_cases hne : i = id
    · subst hne
      exact ⟨hall j hij, by simp [show j ∈ (s.shape i).cells from hij]⟩
    · have hi' : i ∈ met := (List.mem_append.1 hi).resolve_left hstack.1
      obtain ⟨hj, hlinked⟩ := h.complete i hi' (by simp [hne, hstack.2]) j hij
      refine ⟨List.mem_append_right _ hj, ?_⟩
      split
      · simp
      · exact hlinked

/-- No more cells are met than there are, which bounds the work. -/
theorem length_met_le (h : Linking root stack met s) : met.length ≤ s.size := by
  have hsubset : met.toFinset ⊆ Finset.range s.size := by
    intro i hi
    exact Finset.mem_range.2 (h.lt_size i (List.mem_toFinset.1 hi))
  have hcard := Finset.card_le_card hsubset
  rwa [List.toFinset_card_of_nodup h.nodup, Finset.card_range] at hcard

end Linking

/-- With fuel for the cells on the stack and those not met yet, the stack is empty in the end, and
more fuel makes no difference. -/
theorem linkAll_of_le {fuel : Nat} (h : Linking root stack met s)
    (hfuel : stack.length + (s.size - met.length) ≤ fuel) :
    (∃ met', Linking root [] met' (linkAll fuel stack met s)) ∧
      ∀ fuel' ≥ fuel, linkAll fuel' stack met s = linkAll fuel stack met s := by
  induction fuel generalizing stack met s with
  | zero =>
      have hstack : stack = [] := List.length_eq_zero_iff.1 (by omega)
      subst hstack
      refine ⟨⟨met, h⟩, fun fuel' _ => ?_⟩
      cases fuel' <;> rfl
  | succ fuel ih =>
      cases stack with
      | nil =>
          refine ⟨⟨met, h⟩, fun fuel' _ => ?_⟩
          cases fuel' <;> rfl
      | cons id stack =>
          obtain ⟨new, heq, hstep⟩ := h.step
          have hsize := (sameShapes_linkParts id (s.shape id).cells stack met s).size
          have hmet := hstep.length_met_le
          -- What is put on the stack has been met, so the measure goes down by the cell taken.
          have hlt : (new ++ stack).length + (s.size - (new ++ met).length) ≤ fuel := by
            simp only [List.length_append, List.length_cons] at hfuel hmet ⊢
            omega
          have hrest := ih hstep (by rwa [hsize])
          refine ⟨?_, fun fuel' hle => ?_⟩
          · rw [linkAll, heq]
            exact hrest.1
          · obtain ⟨fuel', rfl⟩ := Nat.exists_eq_add_of_le' hle
            rw [← Nat.add_assoc, linkAll, linkAll, heq]
            exact hrest.2 (fuel' + fuel) (Nat.le_add_left _ _)

/-! ## The whole -/

/-- The parent links of what is reachable from `root` are right. -/
structure Linked (root : Nat) (s : Store) : Prop where
  /-- What is held by something reachable is linked to a reachable cell that holds it, and knows its
  first place there. -/
  parent : ∀ j, TransGen s.Holds root j →
    ∃ p, s.parent? j = some p ∧ ReflTransGen s.Holds root p ∧ s.Holds p j ∧
      s.position? j = some ((s.shape p).cells.idxOf j)
  /-- If nothing reachable holds the root, it has no link. -/
  root : ¬ TransGen s.Holds root root → s.parent? root = none

/-- A cell has its place among the cells of its parent. -/
theorem position?_of_parent? {p : Nat} (hp : s.parent? j = some p) (h : s.Holds p j) :
    s.position? j = some ((s.shape p).cells.idxOf j) := by
  rw [position?, hp]
  exact List.findIdx?_eq_some_of_exists ⟨j, h, beq_self_eq_true j⟩

/-- With an empty stack all links are set. -/
theorem Linking.linked (h : Linking root [] met s) : Linked root s := by
  have hmem : ∀ i, ReflTransGen s.Holds root i → i ∈ met := by
    intro i hi
    induction hi with
    | refl => exact h.root_mem
    | tail _ hij ih => exact (h.complete _ ih (by simp) _ hij).1
  constructor
  · intro j hj
    obtain ⟨i, hi, hij⟩ := TransGen.tail'_iff.1 hj
    obtain ⟨hj, hlinked⟩ := h.complete i (hmem i hi) (by simp) j hij
    obtain ⟨p, hp⟩ := Option.ne_none_iff_exists'.1 hlinked
    obtain ⟨hmet, hholds⟩ := h.holds j hj p hp
    exact ⟨p, hp, h.reachable p hmet, hholds, position?_of_parent? hp hholds⟩
  · intro hroot
    by_contra hlinked
    obtain ⟨p, hp⟩ := Option.ne_none_iff_exists'.1 hlinked
    obtain ⟨hmet, hholds⟩ := h.holds root h.root_mem p hp
    exact hroot (TransGen.tail' (h.reachable p hmet) hholds)

/-- In a closed store `relink` links everything reachable.  Its fuel does not matter. -/
theorem linked_relink (hclosed : s.IsClosed) (hroot : root < s.size) :
    Linked root (s.relink (.cell root)) ∧
      ∀ fuel ≥ s.size, linkAll fuel [root] [root] (s.setParent root none) =
        s.relink (.cell root) := by
  have hfuel : [root].length + ((s.setParent root none).size - [root].length) ≤ s.size := by
    rw [size_setParent, List.length_singleton]
    omega
  obtain ⟨⟨met, hend⟩, hmore⟩ := linkAll_of_le (.start hclosed hroot) hfuel
  exact ⟨hend.linked, hmore⟩

end Store
end RegisterLisp
