import RegisterLisp.Proofs.Normalization

/-!
# Terms on the way to normal parts

Where parts of a term are shared, one of them may be normalized while another holder of it has not
been looked at.  `Settles t t'` says that such a step from `t` to `t'` goes unnoticed: what the term
normalizes to stays the same, and a term with normal parts does not change at all.

The constructor and the methods of a type are normalized into their places; `normalizeSlot` is one
of these steps by itself.
-/

namespace RegisterLisp
namespace Term

open Reduction

variable {t t' t'' : Term}

/-! ## Several terms in order -/

/-- Several terms are normalized in order, up to the first failure. -/
theorem normalizeAll_eq_mapM (ts : List Term) : normalizeAll ts = ts.mapM normalize := by
  induction ts with
  | nil => rfl
  | cons t ts ih =>
      rw [normalizeAll_cons, List.mapM_cons, ih]
      rfl

/-- The normal form of a constructor or method, in its place. -/
def normalizeSlot (t : Term) : Except FormError Term :=
  (inPlace t).bind fun t' => (applyRules Rule.all t').map (slot t')

/-- The normal form takes its place unless it is an atom. -/
theorem normalizeSlot_of_ok (h : inPlace t = .ok t') (hrules : applyRules Rule.all t' = .ok t'') :
    normalizeSlot t = .ok (slot t' t'') := by
  simp [normalizeSlot, h, hrules, Except.bind, Except.map]

theorem normalizeSlot_of_error {cause : FormError} (h : normalize t = .error cause) :
    normalizeSlot t = .error cause := by
  rw [normalize] at h
  rw [normalizeSlot]
  cases hplace : inPlace t with
  | error _ => simpa [hplace, Except.bind] using h
  | ok t' =>
      have hrules : applyRules Rule.all t' = .error cause := by
        simpa [hplace, Except.bind] using h
      simp [Except.bind, Except.map, hrules]

/-- Methods are normalized in order, too. -/
theorem normalizeMethods_eq_mapM (ms : List (Symbol × Term)) :
    normalizeMethods ms = ms.mapM fun m => (normalizeSlot m.2).map (m.1, ·) := by
  induction ms with
  | nil => rfl
  | cons m ms ih =>
      rw [normalizeMethods, List.mapM_cons, ← ih, normalizeSlot]
      cases inPlace m.2 with
      | error _ => rfl
      | ok t' =>
          cases hrules : applyRules Rule.all t' with
          | error _ => simp [hrules, bind, Except.bind, Except.map]
          | ok t'' =>
              simp [hrules, bind, Except.bind, Except.map]

/-- In a type the constructor comes before the methods. -/
theorem inPlace_typeDef (name : Symbol) (fields : List Symbol) (ctor : Term)
    (methods : List (Symbol × Term)) :
    inPlace (.typeDef name fields ctor methods) =
      (normalizeSlot ctor).bind fun ctor' =>
        (normalizeMethods methods).map (.typeDef name fields ctor') := by
  rw [inPlace, normalizeSlot]
  cases inPlace ctor with
  | error _ => rfl
  | ok t' =>
      cases hrules : applyRules Rule.all t' with
      | error _ => simp [hrules, bind, Except.bind, Except.map]
      | ok t'' =>
          cases normalizeMethods methods <;>
            simp [hrules, bind, Except.bind, Except.map, pure, Except.pure]

/-! ## Steps that go unnoticed -/

/-- Replacing `t` by `t'` changes nothing about what is normalized to. -/
structure Settles (t t' : Term) : Prop where
  inPlace_eq : inPlace t' = inPlace t
  eq_of_hasNormalParts : t.HasNormalParts → t' = t

namespace Settles

theorem refl (t : Term) : Settles t t :=
  ⟨rfl, fun _ => rfl⟩

/-- Replacements one after the other change nothing, either. -/
theorem trans (h : Settles t t') (h' : Settles t' t'') : Settles t t'' := by
  refine ⟨h'.inPlace_eq.trans h.inPlace_eq, ?_⟩
  intro hparts
  obtain rfl := h.eq_of_hasNormalParts hparts
  exact h'.eq_of_hasNormalParts hparts

/-- A term may be replaced by the one with its parts normalized. -/
theorem of_inPlace (h : inPlace t = .ok t') : Settles t t' := by
  have hparts' : t'.HasNormalParts := hasNormalParts_of_inPlace h
  refine ⟨hparts'.inPlace_eq.trans h.symm, ?_⟩
  intro hparts
  have hok : (.ok t' : Except FormError Term) = .ok t := h.symm.trans hparts.inPlace_eq
  exact Except.ok.inj hok

theorem normalize_eq (h : Settles t t') : normalize t' = normalize t := by
  rw [normalize, normalize, h.inPlace_eq]

theorem normalizeSlot_eq (h : Settles t t') : normalizeSlot t' = normalizeSlot t := by
  rw [normalizeSlot, normalizeSlot, h.inPlace_eq]

/-- Once the parts of a term are normal, it stands in its place as it is. -/
theorem inPlace_eq_ok (h : Settles t t') (hparts : t'.HasNormalParts) : inPlace t = .ok t' :=
  h.inPlace_eq.symm.trans hparts.inPlace_eq

end Settles

section Map

variable {ρ : Type} {f g : ρ → Term}

/-- Items that settle may be replaced in a list. -/
theorem normalizeAll_map_eq {items : List ρ} (h : ∀ r ∈ items, (f r).Settles (g r)) :
    normalizeAll (items.map g) = normalizeAll (items.map f) := by
  induction items with
  | nil => rfl
  | cons r items ih =>
      have hrest := ih fun r hr => h r (List.mem_cons_of_mem _ hr)
      rw [List.map_cons, List.map_cons, normalizeAll_cons, normalizeAll_cons, hrest,
        (h r (by simp)).normalize_eq]

/-- A normal item settles to itself only. -/
theorem map_eq_of_normal {items : List ρ} (h : ∀ r ∈ items, (f r).Settles (g r))
    (hnormal : ∀ t ∈ items.map f, Normal t) : items.map g = items.map f := by
  refine List.map_congr_left fun r hr => (h r hr).eq_of_hasNormalParts ?_
  exact (hnormal _ (List.mem_map_of_mem hr)).hasNormalParts

/-- Methods that settle may be replaced in a type. -/
theorem normalizeMethods_map_eq {methods : List (Symbol × ρ)}
    (h : ∀ m ∈ methods, (f m.2).Settles (g m.2)) :
    normalizeMethods (methods.map fun (s, r) => (s, g r)) =
      normalizeMethods (methods.map fun (s, r) => (s, f r)) := by
  rw [normalizeMethods_eq_mapM, normalizeMethods_eq_mapM]
  induction methods with
  | nil => rfl
  | cons m methods ih =>
      have hrest := ih fun m hm => h m (List.mem_cons_of_mem _ hm)
      rw [List.map_cons, List.map_cons, List.mapM_cons, List.mapM_cons, hrest,
        (h m (by simp)).normalizeSlot_eq]

/-- A form settles where its parts do.  What is quoted has to stay as it is. -/
theorem settles_map {sh : Shape ρ} (h : ∀ r ∈ sh.parts, (f r).Settles (g r))
    (hquoted : ∀ inner, sh = .quoted inner → g inner = f inner) :
    (sh.map f).toTerm.Settles (sh.map g).toTerm := by
  cases sh with
  | list items =>
      refine ⟨?_, fun hparts => congrArg Term.list (map_eq_of_normal h hparts)⟩
      simp only [Shape.map, Shape.toTerm, inPlace]
      exact congrArg (Except.map Term.list) (normalizeAll_map_eq h)
  | quoted inner =>
      simp only [Shape.map, Shape.toTerm, hquoted inner rfl]
      exact Settles.refl _
  | func params body =>
      refine ⟨?_, ?_⟩
      · simp only [Shape.map, Shape.toTerm, inPlace]
        exact congrArg (Except.map (Term.func params)) (normalizeAll_map_eq h)
      · intro hparts
        cases hparts with
        | func hbody => exact congrArg (Term.func params) (map_eq_of_normal h hbody)
  | typeDef name fields ctor methods =>
      -- Members settle in their slots, where an atom may not take their place.
      have hctor : (f ctor).Settles (g ctor) := h ctor (by simp [Shape.parts])
      have hmethods : ∀ m ∈ methods, (f m.2).Settles (g m.2) :=
        fun m hm => h m.2 (List.mem_cons_of_mem _ (List.mem_map_of_mem hm))
      refine ⟨?_, ?_⟩
      · simp only [Shape.map, Shape.toTerm, inPlace_typeDef]
        rw [hctor.normalizeSlot_eq, normalizeMethods_map_eq hmethods]
      · intro hparts
        cases hparts with
        | typeDef hplaced hplaced' =>
            have heq : ∀ m ∈ methods, (m.1, g m.2) = (m.1, f m.2) := by
              intro m hm
              have hm' : Placed (f m.2) := hplaced' _ (List.mem_map_of_mem hm)
              rw [(hmethods m hm).eq_of_hasNormalParts hm'.hasNormalParts]
            simp only [Shape.map, Shape.toTerm]
            rw [hctor.eq_of_hasNormalParts hplaced.hasNormalParts, List.map_congr_left heq]

end Map

/-! ## Rules lead to terms with normal parts -/

theorem Placed.normal_of_mem_body {params : List Symbol} {body : List Term}
    (h : Placed (.func params body)) : ∀ t ∈ body, Normal t := by
  cases h.hasNormalParts with
  | func hbody => exact hbody

/-- Rules are about lists only. -/
theorem applyRules_of_ne_list (rules : List Rule) (h : ∀ items, t ≠ .list items) :
    applyRules rules t = .ok t := by
  cases rules with
  | nil => rfl
  | cons rule rules =>
      cases t with
      | list items => exact absurd rfl (h items)
      | _ => rfl

/-- Whatever a rule puts in the place of a list with normal items has normal parts. -/
theorem hasNormalParts_of_apply {rule : Rule} {items : List Term} {new : Replacement Term}
    (hitems : ∀ t ∈ items, Normal t) (h : rule.apply access items = .ok (some new)) :
    new.toTerm.HasNormalParts := by
  cases rule with
  | nop =>
      obtain ⟨items', rfl, hmem, -⟩ := dropNops_eq_some (Except.ok.inj h)
      exact fun t ht => hitems t (hmem t ht)
  | fold =>
      -- A result of folding is a literal, an operand or a form of such.
      obtain ⟨s, operands, rfl, -, hfolded, -⟩ := reduceOperator_eq_some h
      cases hfolded with
      | atom _ => exact Normal.atom _
      | operand ht => exact (hitems _ (List.mem_cons_of_mem _ ht)).hasNormalParts
      | list hkept _ =>
          intro t ht
          rcases List.mem_cons.1 ht with rfl | ht
          · exact Normal.atom _
          · rcases hkept t ht with ht | ⟨v, rfl, -⟩
            · exact hitems t (List.mem_cons_of_mem _ ht)
            · exact Normal.atom v
  | func =>
      obtain ⟨params, body, rfl, -, head, list, rfl, -⟩ := funcLiteral_eq_some h
      exact Normal.func fun t ht => hitems t (by simp [ht])
  | typeDef =>
      obtain ⟨name, fields, ctorBody, methods, rfl, hctor, hmethods, -⟩ :=
        typeDefinition_eq_some h
      refine (normal_withReceivers (hitems _ hctor) ?_).hasNormalParts
      intro m hm
      obtain ⟨t, ht, hmethod⟩ := hmethods m hm
      exact ⟨t, hitems t ht, hmethod⟩

/-- A part that replaces a list with normal items is normal. -/
theorem normal_of_apply_part {rule : Rule} {items : List Term} (hitems : ∀ t ∈ items, Normal t)
    (h : rule.apply access items = .ok (some (.part t))) : Normal t := by
  cases rule with
  | nop =>
      obtain ⟨items', heq, -⟩ := dropNops_eq_some (Except.ok.inj h)
      cases heq
  | fold =>
      obtain ⟨s, operands, rfl, -, hfolded, -⟩ := reduceOperator_eq_some h
      cases hfolded with
      | atom _ => exact Normal.atom _
      | operand ht => exact hitems _ (List.mem_cons_of_mem _ ht)
  | func =>
      obtain ⟨params, body, heq, -⟩ := funcLiteral_eq_some h
      cases heq
  | typeDef =>
      obtain ⟨name, fields, ctorBody, methods, heq, -⟩ := typeDefinition_eq_some h
      cases heq

end Term
end RegisterLisp
