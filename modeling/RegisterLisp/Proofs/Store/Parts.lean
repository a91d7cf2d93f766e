import RegisterLisp.Proofs.Reduction.Naturality
import RegisterLisp.Proofs.Store.Layout
import RegisterLisp.Store.Normal

/-!
# What rules see of parts

Rules see no more of a form than its top layer, the items of its lists and the bodies of its
functions.  So what a rule puts in the place of a list has every property that the items of the list
have and that lists and functions hand on to their parts.

In a store with a layout the parts of forms look the same to rules whether they are taken for
references or for trees.  So a rule declines on both, fails on both with the same error, or puts the
same form in place, and what it puts in place is made of parts that the list held.
-/

namespace RegisterLisp
namespace Store

variable {s : Store} {W : Ref → Prop} {r : Ref}

/-! ## Properties that are handed on -/

/-- All that rules see of references with a property has the property, too. -/
structure HandsOn (s : Store) (W : Ref → Prop) : Prop where
  atom : ∀ a, W (.atom a)
  items : ∀ {r items}, W r → (s.view r).items? = some items → ∀ x ∈ items, W x
  body : ∀ {r params body}, W r → (s.view r).func? = some (params, body) → ∀ x ∈ body, W x

namespace HandsOn

open Classical in
noncomputable def toParts (W : Ref → Prop) (items : List Ref) : List {r // W r} :=
  items.filterMap fun r => if h : W r then some ⟨r, h⟩ else none

/-- Parts with the property are the parts themselves. -/
theorem toParts_val {items : List Ref} (h : ∀ r ∈ items, W r) :
    (toParts W items).map Subtype.val = items := by
  induction items with
  | nil => rfl
  | cons r items ih =>
      have hrest := ih fun r hr => h r (List.mem_cons_of_mem _ hr)
      simp only [toParts, List.filterMap_cons, dif_pos (h r (by simp)), List.map_cons]
      exact congrArg (r :: ·) hrest

/-- One layer of a part.  Rules do not look into quotes and types, so what these hold is not
shown. -/
noncomputable def viewPart (s : Store) (r : {r // W r}) : View {r // W r} :=
  match s.view r.1 with
  | .atom a => .atom a
  | .shape (.list items) => .shape (.list (toParts W items))
  | .shape (.func params body) => .shape (.func params (toParts W body))
  | .shape _ => .shape (.quoted r)

/-- References with the property as parts of forms. -/
noncomputable def access (h : s.HandsOn W) : Access {r // W r} where
  view := viewPart s
  atom a := ⟨.atom a, h.atom a⟩
  same r r' := s.same r.1 r'.1
  render r := s.render r.1

section View

variable (r : {r // W r})

/-- An atom is seen as it is. -/
theorem atom?_viewPart : (viewPart s r).atom? = (s.view r.1).atom? := by
  rw [viewPart]
  cases s.view r.1 with
  | atom a => rfl
  | shape layer => cases layer <;> rfl

/-- So are the items of a list. -/
theorem items?_viewPart : (viewPart s r).items? = (s.view r.1).items?.map (toParts W) := by
  rw [viewPart]
  cases s.view r.1 with
  | atom a => rfl
  | shape layer => cases layer <;> rfl

theorem func?_viewPart :
    (viewPart s r).func? = (s.view r.1).func?.map fun c => (c.1, toParts W c.2) := by
  rw [viewPart]
  cases s.view r.1 with
  | atom a => rfl
  | shape layer => cases layer <;> rfl

end View

/-- Parts look like the references that they are. -/
theorem hom_val (h : s.HandsOn W) : h.access.Hom s.access Subtype.val where
  atom _ := rfl
  atom? r := (atom?_viewPart r).symm
  items? r := by
    simp only [access, Store.access, items?_viewPart]
    cases hitems : (s.view r.1).items? with
    | none => rfl
    | some items => exact congrArg some (toParts_val (h.items r.2 hitems)).symm
  func? r := by
    simp only [access, Store.access, func?_viewPart]
    cases hbody : (s.view r.1).func? with
    | none => rfl
    | some c => exact congrArg (fun body => some (c.1, body)) (toParts_val (h.body r.2 hbody)).symm
  same _ _ := rfl
  render _ := rfl

end HandsOn
end Store

namespace View

variable {ρ σ : Type} (f : ρ → σ) (v : View ρ)

theorem atom?_map : (v.map f).atom? = v.atom? := by
  cases v <;> rfl

theorem items?_map : (v.map f).items? = v.items?.map (List.map f) := by
  cases v with
  | atom a => rfl
  | shape layer => cases layer <;> rfl

theorem func?_map : (v.map f).func? = v.func?.map fun c => (c.1, c.2.map f) := by
  cases v with
  | atom a => rfl
  | shape layer => cases layer <;> rfl

end View

namespace Replacement

variable {ρ σ τ : Type}

def parts : Replacement ρ → List ρ
  | .part r => [r]
  | .list items => items
  | .func f => f.body
  | .typeDef d => d.ctor.body ++ d.methods.flatMap fun m => m.2.body

/-- The parts of a replacement are mapped one by one. -/
theorem parts_map (f : ρ → σ) (new : Replacement ρ) : (new.map f).parts = new.parts.map f := by
  cases new with
  | typeDef d => simp [map, parts, Lambda.map, List.map_flatMap, List.flatMap_map]
  | _ => rfl

theorem map_map (f : ρ → σ) (g : σ → τ) (new : Replacement ρ) :
    (new.map f).map g = new.map (g ∘ f) := by
  cases new <;> simp [map, Lambda.map]

end Replacement

namespace Store

/-- A rule puts only parts of the list and atoms in its place. -/
theorem HandsOn.of_apply {s : Store} {W : Ref → Prop} {items : List Ref} {rule : Rule}
    {new : Replacement Ref} (h : s.HandsOn W) (hitems : ∀ r ∈ items, W r)
    (happly : rule.apply s.access items = .ok (some new)) : ∀ r ∈ new.parts, W r := by
  have hval := rule.apply_map h.hom_val (toParts W items)
  rw [toParts_val hitems, happly] at hval
  obtain ⟨answer, -, hanswer⟩ := Term.map_eq_ok hval.symm
  obtain ⟨new', -, rfl⟩ := Option.map_eq_some_iff.1 hanswer.symm
  rw [Replacement.parts_map]
  intro r hr
  obtain ⟨r', -, rfl⟩ := List.mem_map.1 hr
  exact r'.2

end Store

namespace Layout

open Store.HandsOn (toParts toParts_val)

variable {L : Layout} {s : Store} {n : Nat} {items : List Ref}

/-! ## Layouts -/

/-- In a layout, ranks go down and parts of what is not quoted are not quoted. -/
theorem Valid.handsOn (h : L.Valid s) (n : Nat) : s.HandsOn (L.Under .bare n) where
  atom _ := trivial
  items {r items} hr hitems := by
    cases r with
    | atom a => cases hitems
    | cell id =>
        have hfits := h.fits hr.1
        cases hshape : s.shape id <;> simp only [Store.view, hshape] at hitems <;> cases hitems
        rw [hshape] at hfits
        exact fun x hx => (hfits.bare_part (by simp) hx).mono hr.2.le
  body {r params body} hr hbody := by
    cases r with
    | atom a => cases hbody
    | cell id =>
        have hfits := h.fits hr.1
        cases hshape : s.shape id <;> simp only [Store.view, hshape] at hbody <;> cases hbody
        rw [hshape] at hfits
        exact fun x hx => (hfits.bare_part (by simp) hx).mono hr.2.le

/-- Parts look like their trees. -/
theorem Valid.hom_tree (h : L.Valid s) :
    (h.handsOn n).access.Hom Term.access (s.tree ∘ Subtype.val) where
  atom a := Store.tree_atom a
  atom? r := by
    simp only [Term.access, Function.comp, Store.view_tree (h.grounded r.2), View.atom?_map]
    exact (h.handsOn n).hom_val.atom? r
  items? r := by
    simp only [Term.access, Function.comp, Store.view_tree (h.grounded r.2), View.items?_map]
    have hval : (s.view r.1).items? = _ := (h.handsOn n).hom_val.items? r
    rw [hval, Option.map_map, List.map_comp_map]
  func? r := by
    simp only [Term.access, Function.comp, Store.view_tree (h.grounded r.2), View.func?_map]
    have hval : (s.view r.1).func? = _ := (h.handsOn n).hom_val.func? r
    rw [hval, Option.map_map]
    simp [Function.comp_def]
  same r r' := (Store.same_eq (h.grounded r.2) (h.grounded r'.2)).symm
  render _ := rfl

/-- A rule does to references what it does to their trees. -/
theorem Valid.apply_tree (h : L.Valid s) (hitems : ∀ r ∈ items, L.Under .bare n r) (rule : Rule) :
    rule.apply Term.access (items.map s.tree) =
      (rule.apply s.access items).map (Option.map (Replacement.map s.tree)) := by
  have hval := rule.apply_map (h.handsOn n).hom_val (toParts _ items)
  have htree := rule.apply_map (h.hom_tree (n := n)) (toParts _ items)
  rw [toParts_val hitems] at hval
  rw [← List.map_map, toParts_val hitems] at htree
  rw [htree, hval]
  cases rule.apply (h.handsOn n).access (toParts _ items) with
  | error cause => rfl
  | ok answer => cases answer <;> simp [Except.map, Replacement.map_map]

end Layout
end RegisterLisp
