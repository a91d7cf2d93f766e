import RegisterLisp.Store
import Mathlib.Data.List.Forall2
import Mathlib.Logic.Relation
import Mathlib.Order.Interval.Set.Nat

/-!
# The tree of a form in a store

Where following references comes to an end (`Grounded`), a form stands for a tree, however its cells
are shared.  On the way down no cell is met twice, so the number of cells is deep enough to unfold
it: `tree_cell` says that the tree of a cell is made of the trees of its parts.

The comparison of two forms follows references, too, and comes out as that of their trees
(`same_eq`).
-/

namespace RegisterLisp

section Lists

variable {α β : Type} {R : α → β → Prop} {xs : List α} {ys : List β}

theorem map_eq_of_forall₂ {f : α → β} (h : List.Forall₂ R xs ys) (hR : ∀ {x y}, R x y → f x = y) :
    xs.map f = ys := by
  induction h with
  | nil => rfl
  | cons hxy _ ih => rw [List.map_cons, hR hxy, ih]

theorem forall_mem_of_forall₂ {p : α → Prop} (h : List.Forall₂ R xs ys)
    (hR : ∀ {x y}, R x y → p x) : ∀ x ∈ xs, p x := by
  induction h with
  | nil => simp
  | cons hxy _ ih => exact List.forall_mem_cons.2 ⟨hR hxy, ih⟩

end Lists

namespace Shape

variable {ρ σ : Type} {f g : ρ → σ}

theorem map_congr {sh : Shape ρ} (h : ∀ r ∈ sh.parts, f r = g r) : sh.map f = sh.map g := by
  cases sh with
  | list items => exact congrArg Shape.list (List.map_congr_left h)
  | quoted inner => exact congrArg Shape.quoted (h inner (by simp [parts]))
  | func params body => exact congrArg (Shape.func params) (List.map_congr_left h)
  | typeDef name fields ctor methods =>
      have hmethods : ∀ m ∈ methods, (m.1, f m.2) = (m.1, g m.2) := by
        intro m hm
        rw [h m.2 (List.mem_cons_of_mem _ (List.mem_map_of_mem hm))]
      rw [map, map, h ctor (by simp [parts]), List.map_congr_left hmethods]

end Shape

namespace Store

variable {s s' : Store} {r r' : Ref} {i j id : Nat}

/-! ## Changing a store -/

section Changes

variable {sh : Shape Ref}

@[simp]
theorem size_setShape : (s.setShape id sh).size = s.size := by
  simp [size, setShape]

/-- The cell has its new shape. -/
theorem shape_setShape_self (h : id < s.size) : (s.setShape id sh).shape id = sh := by
  simp only [size] at h
  simp only [shape, setShape, Array.getElem?_modify, if_pos, Array.getElem?_eq_getElem h,
    Option.map_some]

/-- The others keep theirs. -/
theorem shape_setShape_of_ne (h : i ≠ id) : (s.setShape id sh).shape i = s.shape i := by
  simp [shape, setShape, Array.getElem?_modify, h.symm]

/-- A new cell comes behind the others. -/
@[simp]
theorem size_alloc : (s.alloc sh).2.size = s.size + 1 := by
  simp [size, alloc]

/-- It has the shape it was made with. -/
theorem shape_alloc_self : (s.alloc sh).2.shape s.size = sh := by
  simp [shape, alloc, size]

/-- The others keep theirs. -/
theorem shape_alloc_of_lt (h : i < s.size) : (s.alloc sh).2.shape i = s.shape i := by
  simp only [size] at h
  simp [shape, alloc, Array.getElem?_push, h.ne]

@[simp]
theorem size_setParent {p : Option Nat} : (s.setParent id p).size = s.size := by
  simp [size, setParent]

/-- Links do not change shapes. -/
@[simp]
theorem shape_setParent {p : Option Nat} : (s.setParent id p).shape i = s.shape i := by
  by_cases h : id = i
  · subst h
    cases hcell : s.cells[id]? <;> simp [shape, setParent, Array.getElem?_modify, hcell]
  · simp [shape, setParent, Array.getElem?_modify, h]

end Changes

/-! ## Following references -/

def Holds (s : Store) (i j : Nat) : Prop :=
  j ∈ (s.shape i).cells

theorem holds_iff : s.Holds i j ↔ .cell j ∈ (s.shape i).parts := by
  constructor
  · intro h
    obtain ⟨r, hr, hcell⟩ := List.mem_filterMap.1 h
    cases r with
    | atom a => cases hcell
    | cell k =>
        cases hcell
        exact hr
  · exact fun h => List.mem_filterMap.2 ⟨.cell j, h, rfl⟩

/-- Following references from here always ends at an atom or a cell without parts. -/
inductive Grounded (s : Store) : Ref → Prop
  | atom (a : Atom) : Grounded s (.atom a)
  | cell {id : Nat} (hid : id < s.size) (hparts : ∀ r ∈ (s.shape id).parts, Grounded s r) :
      Grounded s (.cell id)

namespace Grounded

theorem lt_size (h : s.Grounded (.cell id)) : id < s.size := by
  cases h with
  | cell hid _ => exact hid

/-- The parts of a grounded cell are grounded. -/
theorem part (h : s.Grounded (.cell id)) (hr : r ∈ (s.shape id).parts) : s.Grounded r := by
  cases h with
  | cell _ hparts => exact hparts r hr

/-- So is everything below it. -/
theorem of_transGen (h : s.Grounded (.cell i)) (hij : Relation.TransGen s.Holds i j) :
    s.Grounded (.cell j) := by
  induction hij with
  | single hij => exact h.part (holds_iff.1 hij)
  | tail _ hjk ih => exact ih.part (holds_iff.1 hjk)

/-- A grounded cell does not hold itself, directly or through others. -/
theorem not_transGen_self (h : s.Grounded (.cell i)) : ¬ Relation.TransGen s.Holds i i := by
  generalize hr : Ref.cell i = r at h
  induction h generalizing i with
  | atom a => cases hr
  | @cell id _ hparts ih =>
      cases hr
      intro hcycle
      -- The cycle leads through a part, which then lies on a cycle itself.
      obtain ⟨k, hik, hki⟩ := Relation.TransGen.head'_iff.1 hcycle
      exact ih (.cell k) (holds_iff.1 hik) rfl (Relation.TransGen.tail' hki hik)

end Grounded

/-! ## Heights -/

def below (s : Store) (i : Nat) : Set Nat :=
  {j | Relation.TransGen s.Holds i j}

/-- The number of cells of a form, which is a bound on its depth. -/
noncomputable def height (s : Store) : Ref → Nat
  | .atom _ => 0
  | .cell i => (s.below i).ncard + 1

/-- A cell has fewer cells below it than the one that holds it. -/
theorem ncard_below_lt (hfinite : (s.below i).Finite) (hij : s.Holds i j)
    (hj : ¬ Relation.TransGen s.Holds j j) : (s.below j).ncard < (s.below i).ncard := by
  have hsubset : s.below j ⊆ s.below i := fun k hk => Relation.TransGen.head hij hk
  have hne : s.below j ≠ s.below i := by
    intro heq
    have hself : j ∈ s.below j := heq ▸ Relation.TransGen.single hij
    exact hj hself
  exact Set.ncard_lt_ncard (hsubset.ssubset_of_ne hne) hfinite

theorem exists_eq_succ_of_height_le {n : Nat} (h : s.height (.cell id) ≤ n) : ∃ k, n = k + 1 :=
  Nat.exists_eq_succ_of_ne_zero ((Nat.succ_pos _).trans_le h).ne'

theorem Grounded.below_subset (h : s.Grounded (.cell i)) : s.below i ⊆ Set.Iio s.size :=
  fun _ hj => (h.of_transGen hj).lt_size

/-- There are finitely many cells below a grounded one. -/
theorem Grounded.finite_below (h : s.Grounded (.cell i)) : (s.below i).Finite :=
  (Set.finite_Iio s.size).subset h.below_subset

/-- A form is not deeper than the store is large. -/
theorem height_le_size (h : s.Grounded r) : s.height r ≤ s.size := by
  cases r with
  | atom a => exact Nat.zero_le _
  | cell i =>
      have hne : s.below i ≠ Set.Iio s.size := by
        intro heq
        have hself : i ∈ s.below i := heq ▸ Set.mem_Iio.2 h.lt_size
        exact h.not_transGen_self hself
      have hlt : (s.below i).ncard < (Set.Iio s.size).ncard :=
        Set.ncard_lt_ncard (h.below_subset.ssubset_of_ne hne) (Set.finite_Iio s.size)
      rwa [Set.ncard_Iio_nat] at hlt

/-- A part has fewer cells than the whole. -/
theorem height_part_lt (h : s.Grounded (.cell i)) (hr : r ∈ (s.shape i).parts) :
    s.height r < s.height (.cell i) := by
  cases r with
  | atom a => exact Nat.succ_pos _
  | cell j =>
      have hlt := ncard_below_lt h.finite_below (holds_iff.2 hr) (h.part hr).not_transGen_self
      exact Nat.succ_lt_succ hlt

/-! ## Trees -/

/-- The tree that a form stands for. -/
def tree (s : Store) (r : Ref) : Term :=
  s.unfold s.size r

@[simp]
theorem tree_atom (a : Atom) : s.tree (.atom a) = .atom a := by
  rw [tree, unfold]

/-- Unfolding deeper than a form is high changes nothing. -/
theorem unfold_eq (h : s.Grounded r) :
    ∀ {n m : Nat}, s.height r ≤ n → s.height r ≤ m → s.unfold n r = s.unfold m r := by
  induction h with
  | atom a =>
      intro n m _ _
      rw [unfold, unfold]
  | @cell id hid hparts ih =>
      intro n m hn hm
      have hlt : ∀ r ∈ (s.shape id).parts, s.height r < s.height (.cell id) :=
        fun r hr => height_part_lt (.cell hid hparts) hr
      obtain ⟨n, rfl⟩ := exists_eq_succ_of_height_le hn
      obtain ⟨m, rfl⟩ := exists_eq_succ_of_height_le hm
      rw [unfold, unfold]
      refine congrArg Shape.toTerm (Shape.map_congr fun r hr => ih r hr ?_ ?_)
      · exact Nat.le_of_lt_succ ((hlt r hr).trans_le hn)
      · exact Nat.le_of_lt_succ ((hlt r hr).trans_le hm)

/-- The tree of a cell is made of the trees of its parts. -/
theorem tree_cell (h : s.Grounded (.cell id)) :
    s.tree (.cell id) = ((s.shape id).map s.tree).toTerm := by
  have hle := height_le_size h
  have hdeeper : s.tree (.cell id) = s.unfold (s.size + 1) (.cell id) :=
    unfold_eq h hle (hle.trans (Nat.le_succ _))
  rw [hdeeper, unfold]
  rfl

/-- One layer of a form is one layer of its tree. -/
theorem view_tree (h : s.Grounded r) : (s.tree r).view = (s.view r).map s.tree := by
  cases r with
  | atom a => rw [tree_atom]; rfl
  | cell id =>
      rw [tree_cell h, view]
      cases s.shape id <;> rfl

/-- The tree of a list is made of the trees of its items. -/
theorem tree_of_view {items : List Ref} (h : s.Grounded r)
    (hview : s.view r = .shape (.list items)) : s.tree r = .list (items.map s.tree) := by
  cases r with
  | atom a => cases hview
  | cell id =>
      have hshape : s.shape id = .list items := View.shape.inj hview
      rw [tree_cell h, hshape]
      rfl

/-- Only a list stands for a list. -/
theorem tree_ne_list (h : s.Grounded r) (hview : ∀ items, s.view r ≠ .shape (.list items))
    (ts : List Term) : s.tree r ≠ .list ts := by
  cases r with
  | atom a => simp
  | cell id =>
      rw [tree_cell h]
      cases hshape : s.shape id with
      | list items => exact absurd (congrArg View.shape hshape) (hview items)
      | _ => simp [Shape.map, Shape.toTerm]

/-- Cells that hold only each other keep their trees while their shapes stay. -/
theorem tree_eq_of_shape_eq {P : Nat → Prop} (hsize : ∀ id, P id → id < s'.size)
    (hshape : ∀ id, P id → s'.shape id = s.shape id)
    (hclosed : ∀ i j, P i → s.Holds i j → P j) (h : s.Grounded r)
    (hr : ∀ id, r = .cell id → P id) : s'.Grounded r ∧ s'.tree r = s.tree r := by
  induction h with
  | atom a => exact ⟨.atom a, by rw [tree_atom, tree_atom]⟩
  | @cell id hid hparts ih =>
      have hid' : P id := hr id rfl
      have hpart : ∀ r ∈ (s.shape id).parts, s'.Grounded r ∧ s'.tree r = s.tree r := by
        intro r hr
        refine ih r hr ?_
        rintro j rfl
        exact hclosed id j hid' (holds_iff.2 hr)
      have hground : s'.Grounded (.cell id) := by
        refine .cell (hsize id hid') ?_
        rw [hshape id hid']
        exact fun r hr => (hpart r hr).1
      refine ⟨hground, ?_⟩
      rw [tree_cell hground, tree_cell (.cell hid hparts), hshape id hid']
      exact congrArg Shape.toTerm (Shape.map_congr fun r hr => (hpart r hr).2)

/-! ## Comparing forms -/

/-- Comparing references one by one is comparing their trees. -/
theorem sameAll_map {p : Ref → Ref → Bool} {xs ys : List Ref}
    (h : ∀ x ∈ xs, ∀ y ∈ ys, p x y = (s.tree x).same (s.tree y)) :
    (xs.length == ys.length && (xs.zip ys).all fun (x, y) => p x y) =
      Term.sameAll (xs.map s.tree) (ys.map s.tree) := by
  induction xs generalizing ys with
  | nil => cases ys <;> rfl
  | cons x xs ih =>
      cases ys with
      | nil => rfl
      | cons y ys =>
          have hrest := ih fun x hx y hy =>
            h x (List.mem_cons_of_mem _ hx) y (List.mem_cons_of_mem _ hy)
          rw [List.map_cons, List.map_cons, Term.sameAll, ← hrest, ← h x (by simp) y (by simp)]
          simp [Bool.and_left_comm]

theorem sameMethods_map {p : Ref → Ref → Bool} {xs ys : List (Symbol × Ref)}
    (h : ∀ x ∈ xs, ∀ y ∈ ys, p x.2 y.2 = (s.tree x.2).same (s.tree y.2)) :
    (xs.length == ys.length && (xs.zip ys).all fun (x, y) => x.1 == y.1 && p x.2 y.2) =
      Term.sameMethods (xs.map fun (n, r) => (n, s.tree r))
        (ys.map fun (n, r) => (n, s.tree r)) := by
  induction xs generalizing ys with
  | nil => cases ys <;> rfl
  | cons x xs ih =>
      cases ys with
      | nil => rfl
      | cons y ys =>
          have hrest := ih fun x hx y hy =>
            h x (List.mem_cons_of_mem _ hx) y (List.mem_cons_of_mem _ hy)
          rw [List.map_cons, List.map_cons, Term.sameMethods, ← hrest,
            ← h x (by simp) y (by simp)]
          simp [Bool.and_left_comm]

/-- A comparison that goes as deep as its left side compares the trees. -/
theorem sameTo_eq (h : s.Grounded r) :
    ∀ {r' : Ref} {depth : Nat}, s.Grounded r' → s.height r ≤ depth →
      s.sameTo depth r r' = (s.tree r).same (s.tree r') := by
  induction h with
  | atom a =>
      intro r' depth h' _
      cases r' with
      | atom b => rw [sameTo, tree_atom, tree_atom, Term.same]
      | cell id =>
          rw [tree_atom, tree_cell h']
          cases depth <;> cases s.shape id <;> rfl
  | @cell id hid hparts ih =>
      intro r' depth h' hdepth
      have hid : s.Grounded (.cell id) := .cell hid hparts
      obtain ⟨depth, rfl⟩ := exists_eq_succ_of_height_le hdepth
      -- The parts are less deep, so the depth that is left is enough for them.
      have hpart : ∀ x ∈ (s.shape id).parts, ∀ {y : Ref}, s.Grounded y →
          s.sameTo depth x y = (s.tree x).same (s.tree y) :=
        fun x hx y hy => ih x hx hy (Nat.le_of_lt_succ ((height_part_lt hid hx).trans_le hdepth))
      cases r' with
      | atom b =>
          rw [tree_atom, tree_cell hid]
          cases s.shape id <;> rfl
      | cell id' =>
          have hpart' : ∀ y ∈ (s.shape id').parts, s.Grounded y := fun y hy => h'.part hy
          rw [sameTo, tree_cell hid, tree_cell h']
          cases hshape : s.shape id <;> cases hshape' : s.shape id' <;>
            simp only [hshape, hshape', Shape.parts] at hpart hpart' <;>
            try rfl
          case list.list xs ys =>
            exact sameAll_map fun x hx y hy => hpart x hx (hpart' y hy)
          case quoted.quoted x y =>
            exact hpart x (by simp) (hpart' y (by simp))
          case func.func ps xs qs ys =>
            simp only [Shape.map, Shape.toTerm, Term.same]
            rw [Bool.and_assoc, sameAll_map fun x hx y hy => hpart x hx (hpart' y hy)]
          case typeDef.typeDef n fs c ms n' fs' c' ms' =>
            simp only [Shape.map, Shape.toTerm, Term.same]
            rw [hpart c (by simp) (hpart' c' (by simp)), Bool.and_assoc _ (_ == _),
              sameMethods_map fun x hx y hy =>
                hpart x.2 (List.mem_cons_of_mem _ (List.mem_map_of_mem hx))
                  (hpart' y.2 (List.mem_cons_of_mem _ (List.mem_map_of_mem hy)))]

/-- Forms are compared as their trees are. -/
theorem same_eq (h : s.Grounded r) (h' : s.Grounded r') :
    s.same r r' = (s.tree r).same (s.tree r') :=
  sameTo_eq h h' (((height_le_size h).trans (Nat.le_mul_self _)).trans (Nat.le_succ _))

end Store
end RegisterLisp
