import RegisterLisp.Proofs.Lowering.Pieces
import RegisterLisp.Proofs.Store.Trees
import RegisterLisp.Store.Code

/-!
# Properties of the code of all forms

A property that every piece of code has if its parts have it, the refusal of a wrong number of
operands included, holds of the code of every term, by induction on the term.  It also holds of the
code of every form in a store.  There the induction is on the depth down to which the cells are
followed, so it does not matter whether they are shared or lie on a cycle.

Where following references comes to an end, the code of a form in a store is that of its tree.
-/

namespace RegisterLisp
namespace Lowering
namespace Composed

variable {good : Value → Prop} {P : {α : Type} → Prop → (α → Prop) → LowerM α → Prop}

/-- The code of a list, where the property also holds of a wrong number of operands. -/
theorem anyList (hP : Composed good P)
    (harity : ∀ op n, P True good (throw (.arity op n) : LowerM Value))
    {text : Thunk String} {parts : List Part} (h : ∀ p ∈ parts, p.Meets (P True good)) :
    P True good (Lowering.lowerList text parts) :=
  hP.lowerList h fun _ _ _ op _ _ _ => Or.inr (harity op)

/-! ## Terms -/

mutual

/-- A property of the steps holds of the code of every term, by the structure of the term. -/
theorem term (hP : Composed good P)
    (harity : ∀ op n, P True good (throw (.arity op n) : LowerM Value)) :
    ∀ t : Term, t.part.Meets (P True good)
  | .atom a => hP.ofAtom a
  | .list items => ⟨hP.anyList harity (terms hP harity items), fun _ h => nomatch h⟩
  | .quoted _ => ⟨hP.unsupported _, fun _ h => nomatch h⟩
  | .func params body => by
      have hbody := Part.meets_codes (terms hP harity body)
      refine ⟨hP.localFunction hbody, ?_⟩
      intro f hf
      cases hf
      exact hbody
  | .typeDef name fields ctor methods =>
      ⟨hP.defineType (term hP harity ctor).function
          fun m hm => (memberTerms hP harity methods m hm).function,
        fun _ h => nomatch h⟩

/-- The same for each of several terms. -/
theorem terms (hP : Composed good P)
    (harity : ∀ op n, P True good (throw (.arity op n) : LowerM Value)) :
    ∀ (ts : List Term), ∀ p ∈ Term.parts ts, p.Meets (P True good)
  | [], _, hp => nomatch hp
  | t :: ts, p, hp => by
      rcases List.mem_cons.1 hp with rfl | hp
      · exact term hP harity t
      · exact terms hP harity ts p hp

theorem memberTerms (hP : Composed good P)
    (harity : ∀ op n, P True good (throw (.arity op n) : LowerM Value)) :
    ∀ (ms : List (Symbol × Term)), ∀ m ∈ Term.methodParts ms, m.2.Meets (P True good)
  | [], _, hm => nomatch hm
  | (_, t) :: ms, m, hm => by
      rcases List.mem_cons.1 hm with rfl | hm
      · exact term hP harity t
      · exact memberTerms hP harity ms m hm

end

/-! ## Forms of a store -/

/-- The same for the forms of a store, by the depth down to which they are looked at. -/
theorem cell (hP : Composed good P)
    (harity : ∀ op n, P True good (throw (.arity op n) : LowerM Value)) (s : Store) :
    ∀ (depth : Nat) (r : Ref), (s.part depth r).Meets (P True good) := by
  intro depth
  induction depth with
  | zero =>
      intro r
      cases r with
      | atom a => exact hP.ofAtom a
      | cell id => exact ⟨hP.unsupported _, fun _ h => nomatch h⟩
  | succ depth ih =>
      intro r
      cases r with
      | atom a => exact hP.ofAtom a
      | cell id =>
          -- The parts of a cell are followed one step less.
          have hmap : ∀ (refs : List Ref), ∀ p ∈ refs.map (s.part depth),
              p.Meets (P True good) := by
            intro refs p hp
            obtain ⟨r, _, rfl⟩ := List.mem_map.1 hp
            exact ih r
          constructor
          · change P True good (Lowering.lowerShape _ ((s.shape id).map (s.part depth)))
            cases s.shape id with
            | list items => exact hP.anyList harity (hmap items)
            | quoted inner => exact hP.unsupported _
            | func params body => exact hP.localFunction (Part.meets_codes (hmap body))
            | typeDef name fields ctor methods =>
                refine hP.defineType (ih ctor).function fun m hm => ?_
                obtain ⟨⟨name, r⟩, _, rfl⟩ := List.mem_map.1 hm
                exact (ih r).function
          · -- A function is generated from the same body, whether it gets a name or not.
            intro f hf step hmem
            dsimp only [Store.part] at hf
            split at hf
            · cases hf
              obtain ⟨r, _, rfl⟩ := List.mem_map.1 hmem
              exact (ih r).code
            · cases hf

/-- The same for each of several forms. -/
theorem cells (hP : Composed good P)
    (harity : ∀ op n, P True good (throw (.arity op n) : LowerM Value)) (s : Store) (depth : Nat)
    (refs : List Ref) : ∀ p ∈ refs.map (s.part depth), p.Meets (P True good) := by
  intro p hp
  obtain ⟨r, _, rfl⟩ := List.mem_map.1 hp
  exact hP.cell harity s depth r

end Composed

namespace Closed

variable {P : {α : Type} → LowerM α → Prop}

/-- The variant without a property of results. -/
theorem term (hP : Closed P) (harity : ∀ op n, P (throw (.arity op n) : LowerM Value)) (t : Term) :
    t.part.Has P :=
  hP.composed.term harity t

theorem terms (hP : Closed P) (harity : ∀ op n, P (throw (.arity op n) : LowerM Value))
    (ts : List Term) : ∀ p ∈ Term.parts ts, p.Has P :=
  hP.composed.terms harity ts

theorem cell (hP : Closed P) (harity : ∀ op n, P (throw (.arity op n) : LowerM Value))
    (s : Store) (depth : Nat) (r : Ref) : (s.part depth r).Has P :=
  hP.composed.cell harity s depth r

theorem cells (hP : Closed P) (harity : ∀ op n, P (throw (.arity op n) : LowerM Value))
    (s : Store) (depth : Nat) (refs : List Ref) : ∀ p ∈ refs.map (s.part depth), p.Has P :=
  hP.composed.cells harity s depth refs

end Closed
end Lowering

/-! ## Forms of a store and their trees -/

namespace Lowering

/-- The function that a form is, if it is a function literal. -/
def functionOf? : Shape Part → Option Function
  | .func params body => some ⟨params, body.map Part.code⟩
  | _ => none

/-- A form with a text as a part, from its own parts. -/
def Part.ofShape (text : Thunk String) (layer : Shape Part) : Part where
  atom? := none
  text := text
  code := lowerShape text layer
  function? := functionOf? layer

end Lowering

open Lowering (Part)

/-- Replacing parts twice is replacing them once. -/
theorem Shape.map_map {ρ σ τ : Type} (f : ρ → σ) (g : σ → τ) (layer : Shape ρ) :
    (layer.map f).map g = layer.map (g ∘ f) := by
  cases layer <;> simp [map]

theorem Shape.parts_map {ρ σ : Type} (f : ρ → σ) (layer : Shape ρ) :
    (layer.map f).parts = layer.parts.map f := by
  cases layer <;> simp [map, parts]

namespace Term

/-- The parts of several terms are the parts of each. -/
theorem parts_eq_map (ts : List Term) : parts ts = ts.map part := by
  induction ts with
  | nil => rfl
  | cons t ts ih => rw [parts, ih, List.map_cons]

theorem methodParts_eq_map (ms : List (Symbol × Term)) :
    methodParts ms = ms.map fun (name, t) => (name, t.part) := by
  induction ms with
  | nil => rfl
  | cons m ms ih => rw [methodParts, ih, List.map_cons]

/-- A term is seen by its top layer. -/
theorem part_toTerm (layer : Shape Term) :
    layer.toTerm.part =
      .ofShape (Thunk.mk fun _ => layer.toTerm.render) (layer.map part) := by
  cases layer with
  | list items => rw [Shape.toTerm, part, parts_eq_map]; rfl
  | quoted inner => rw [Shape.toTerm, part]; rfl
  | func params body => rw [Shape.toTerm, part, parts_eq_map]; rfl
  | typeDef name fields ctor methods => rw [Shape.toTerm, part, methodParts_eq_map]; rfl

end Term

namespace Store

variable {s : Store} {r : Ref}

/-- The part of a cell is that of its shape, one level down. -/
theorem part_cell (depth id : Nat) :
    s.part (depth + 1) (.cell id) =
      .ofShape (Thunk.mk fun _ => s.render (.cell id)) ((s.shape id).map (s.part depth)) := by
  rw [part, Part.ofShape]
  cases s.shape id with
  | func params body => simp [Shape.map, Lowering.functionOf?]
  | _ => rfl

/-- Followed as far down as it goes, a form looks like its tree. -/
theorem part_eq (h : s.Grounded r) : ∀ {depth : Nat}, s.height r ≤ depth →
    s.part depth r = (s.tree r).part := by
  induction h with
  | atom a =>
      intro depth _
      rw [tree_atom]
      cases depth <;> rfl
  | @cell id hid hparts ih =>
      intro depth hdepth
      have hcell : s.Grounded (.cell id) := .cell hid hparts
      obtain ⟨depth, rfl⟩ := exists_eq_succ_of_height_le hdepth
      have hlayer : (s.shape id).map (s.part depth) = ((s.shape id).map s.tree).map Term.part := by
        rw [Shape.map_map]
        refine Shape.map_congr fun r hr => ih r hr ?_
        exact Nat.le_of_lt_succ ((height_part_lt hcell hr).trans_le hdepth)
      have htext : s.render (.cell id) = (((s.shape id).map s.tree).toTerm).render := by
        rw [← tree_cell hcell]
        rfl
      rw [part_cell, hlayer, htext, tree_cell hcell, Term.part_toTerm]

/-- The depth that is looked at is enough for a form that ends. -/
theorem height_le_reach (h : s.Grounded r) (room : Option Nat) : s.height r ≤ s.reach room :=
  calc
    s.height r ≤ s.size := height_le_size h
    _ ≤ s.size + 1 := Nat.le_succ _
    _ ≤ s.reach room := Nat.le_mul_of_pos_right _ (Nat.succ_pos _)

/-- The code of a form without cycles is the code of its tree. -/
theorem lower_eq (h : s.Grounded r) : s.lower r = Lowering.lower (s.tree r) := by
  funext state
  rw [lower, part_eq h (height_le_reach h _), Lowering.lower]

/-- For forms that end, lowering a store is lowering the trees in it. -/
theorem lowerProgram_eq {refs : List Ref} (h : ∀ r ∈ refs, s.Grounded r) :
    s.lowerProgram refs = Lowering.lowerProgram (Term.parts (refs.map s.tree)) := by
  funext state
  rw [lowerProgram, parts, Term.parts_eq_map, List.map_map]
  refine congrArg (fun ps => Lowering.lowerProgram ps state) (List.map_congr_left fun r hr => ?_)
  exact part_eq (h r hr) (height_le_reach (h r hr) _)

end Store
end RegisterLisp
