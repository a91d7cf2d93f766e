import RegisterLisp.Proofs.Store.Layout

/-!
# Terms put into a store

A term that is put into a store gets new cells only, each after those that it holds.  So the numbers
of cells serve as ranks, the zones are where quotes put them, and the tree of the new form is the
term again (`layout_add`).
-/

namespace RegisterLisp
namespace Store

variable {L L' L'' : Layout} {s s' s'' : Store} {z : Zone} {r : Ref} {sh : Shape Ref} {n : Nat}

/-! ## Stores that only grow -/

/-- A layout ranked by the numbers of cells. -/
structure Numbered (L : Layout) (s : Store) : Prop where
  valid : L.Valid s
  rank_eq : ∀ {id z}, L.zone id = some z → L.rank id = 2 * id + 1

/-- New cells have been made, and no cell has been changed. -/
structure Copied (L : Layout) (s : Store) (L' : Layout) (s' : Store) : Prop where
  numbered : Numbered L' s'
  grows : L.Grows L'
  size_le : s.size ≤ s'.size
  shape : ∀ id < s.size, s'.shape id = s.shape id

namespace Copied

theorem refl (h : Numbered L s) : Copied L s L s :=
  ⟨h, .refl L, Nat.le_refl _, fun _ _ => rfl⟩

/-- Copies one after the other. -/
theorem trans (h : Copied L s L' s') (h' : Copied L' s' L'' s'') : Copied L s L'' s'' where
  numbered := h'.numbered
  grows := h.grows.trans h'.grows
  size_le := h.size_le.trans h'.size_le
  shape id hid := (h'.shape id (hid.trans_le h.size_le)).trans (h.shape id hid)

/-- Copying changes no tree that was there. -/
theorem tree_eq (h : Copied L s L' s') (hvalid : L.Valid s) (hr : L.Under z n r) :
    s'.tree r = s.tree r := by
  refine hvalid.tree_eq h.size_le ?_ hr
  intro id hid
  obtain ⟨z, hz⟩ := Option.ne_none_iff_exists'.1 hid
  exact h.shape id (hvalid.lt_size hz)

theorem under (h : Copied L s L' s') (hr : L.Under z (2 * s.size) r) :
    L'.Under z (2 * s'.size) r :=
  (hr.grows h.grows).mono (Nat.mul_le_mul_left 2 h.size_le)

end Copied

/-- A form in a zone of a store stands for a term. -/
structure Stands (z : Zone) (L : Layout) (s : Store) (r : Ref) (t : Term) : Prop where
  under : L.Under z (2 * s.size) r
  tree_eq : s.tree r = t

/-- What stands for a term does so after more has been copied. -/
theorem Stands.copied {t : Term} (h : Stands z L s r t) (hvalid : L.Valid s)
    (hcopied : Copied L s L' s') : Stands z L' s' r t :=
  ⟨hcopied.under h.under, (hcopied.tree_eq hvalid h.under).trans h.tree_eq⟩

/-- A new cell after those that it holds. -/
theorem copied_alloc (h : Numbered L s) (hsh : L.Fits z (2 * s.size + 1) sh) :
    ∃ L', Copied L s L' (s.alloc sh).2 ∧
      Stands z L' (s.alloc sh).2 (s.alloc sh).1 (sh.map s.tree).toTerm := by
  obtain ⟨hevolves, hloose, htree⟩ := Layout.evolves_alloc h.valid (Nat.le_refl _) hsh
  have hadd := hloose.evolves_add hevolves.valid
  refine ⟨L.add z s.size (2 * s.size + 1), ⟨⟨hadd.valid, ?_⟩, hadd.grows, hevolves.size_le,
    fun id hid => shape_alloc_of_lt hid⟩, ⟨Layout.zone_add_self, ?_⟩, htree⟩
  · intro id z' hid
    by_cases hne : id = s.size
    · rw [hne, Layout.rank_add_self]
    · rw [Layout.rank_add_of_ne hne]
      exact h.rank_eq ((Layout.zone_add_of_ne hne).symm.trans hid)
  · rw [Layout.rank_add_self, size_alloc]
    omega

/-! ## One term after the other -/

/-- A shape other than a quote fits above its parts. -/
theorem fits_of_parts (hparts : ∀ r ∈ sh.parts, L.Under z n r)
    (hsh : ∀ inner, sh ≠ .quoted inner) : L.Fits z (n + 1) sh := by
  have hsucc : ∀ r ∈ sh.parts, L.Under z (n + 1) r := fun r hr => (hparts r hr).mono (Nat.le_succ n)
  cases z with
  | quoted => exact hsucc
  | bare =>
      cases sh with
      | list items => exact ⟨Nat.succ_pos n, hparts⟩
      | quoted inner => exact absurd rfl (hsh inner)
      | func params body => exact hsucc
      | typeDef name fields ctor methods =>
          exact ⟨hsucc ctor List.mem_cons_self, fun m hm =>
            hsucc m.2 (List.mem_cons_of_mem _ (List.mem_map_of_mem hm))⟩

/-- What is quoted lies in one zone, whatever zone the quote lies in. -/
theorem fits_quoted {inner : Ref} (h : L.Under .quoted n inner) :
    L.Fits z (n + 1) (.quoted inner) := by
  have hsucc := h.mono (Nat.le_succ n)
  cases z with
  | bare => exact hsucc
  | quoted =>
      intro r hr
      rwa [List.mem_singleton.1 hr]

mutual

/-- A term that is put into a store stands there, in new cells. -/
theorem copied_add : ∀ (t : Term) {L : Layout} {s : Store} (z : Zone), Numbered L s →
    ∃ L', Copied L s L' (s.add t).2 ∧ Stands z L' (s.add t).2 (s.add t).1 t
  | .atom a, L, s, z, h => by
      rw [add]
      exact ⟨L, .refl h, trivial, tree_atom a⟩
  | .list items, L, s, z, h => by
      obtain ⟨L', hcopied, hitems⟩ := copied_addAll items z h
      have hfits : L'.Fits z _ (.list (s.addAll items).1) :=
        fits_of_parts (forall_mem_of_forall₂ hitems Stands.under) (by simp)
      obtain ⟨L'', hcopied', hstands⟩ := copied_alloc hcopied.numbered hfits
      have htree : (Shape.map _ (.list _)).toTerm = .list items :=
        congrArg Term.list (map_eq_of_forall₂ hitems Stands.tree_eq)
      rw [htree] at hstands
      rw [add]
      exact ⟨L'', hcopied.trans hcopied', hstands⟩
  | .quoted inner, L, s, z, h => by
      -- What is quoted lies in the other zone, whatever zone the quote lies in.
      obtain ⟨L', hcopied, hinner⟩ := copied_add inner .quoted h
      obtain ⟨L'', hcopied', hstands⟩ := copied_alloc hcopied.numbered
        (fits_quoted (z := z) hinner.under)
      have htree : (Shape.map _ (.quoted _)).toTerm = .quoted inner :=
        congrArg Term.quoted hinner.tree_eq
      rw [htree] at hstands
      rw [add]
      exact ⟨L'', hcopied.trans hcopied', hstands⟩
  | .func params body, L, s, z, h => by
      obtain ⟨L', hcopied, hbody⟩ := copied_addAll body z h
      have hfits : L'.Fits z _ (.func params (s.addAll body).1) :=
        fits_of_parts (forall_mem_of_forall₂ hbody Stands.under) (by simp)
      obtain ⟨L'', hcopied', hstands⟩ := copied_alloc hcopied.numbered hfits
      have htree : (Shape.map _ (.func params _)).toTerm = .func params body :=
        congrArg (Term.func params) (map_eq_of_forall₂ hbody Stands.tree_eq)
      rw [htree] at hstands
      rw [add]
      exact ⟨L'', hcopied.trans hcopied', hstands⟩
  | .typeDef name fields ctor methods, L, s, z, h => by
      obtain ⟨L', hcopied, hctor⟩ := copied_add ctor z h
      obtain ⟨L₁, hcopied₁, hmethods⟩ := copied_addMethods methods z hcopied.numbered
      -- The constructor was copied before the methods, so it has to be carried over.
      have hctor₁ := hctor.copied hcopied.numbered.valid hcopied₁
      have hparts : ∀ r ∈ (Shape.typeDef name fields (s.add ctor).1
          ((s.add ctor).2.addMethods methods).1).parts,
          L₁.Under z (2 * ((s.add ctor).2.addMethods methods).2.size) r := by
        refine List.forall_mem_cons.2 ⟨hctor₁.under, ?_⟩
        exact List.forall_mem_map.2 (forall_mem_of_forall₂ hmethods fun h => h.2.under)
      obtain ⟨L₂, hcopied₂, hstands⟩ := copied_alloc hcopied₁.numbered
        (fits_of_parts hparts (by simp))
      have htree : (Shape.map ((s.add ctor).2.addMethods methods).2.tree (.typeDef name fields
          (s.add ctor).1 ((s.add ctor).2.addMethods methods).1)).toTerm =
          .typeDef name fields ctor methods := by
        simp only [Shape.map, Shape.toTerm, hctor₁.tree_eq]
        exact congrArg (Term.typeDef name fields ctor)
          (map_eq_of_forall₂ hmethods fun h => Prod.ext h.1 h.2.tree_eq)
      rw [htree] at hstands
      rw [add]
      exact ⟨L₂, (hcopied.trans hcopied₁).trans hcopied₂, hstands⟩

/-- So do several terms. -/
theorem copied_addAll : ∀ (ts : List Term) {L : Layout} {s : Store} (z : Zone), Numbered L s →
    ∃ L', Copied L s L' (s.addAll ts).2 ∧
      List.Forall₂ (Stands z L' (s.addAll ts).2) (s.addAll ts).1 ts
  | [], L, s, z, h => by
      rw [addAll]
      exact ⟨L, .refl h, .nil⟩
  | t :: ts, L, s, z, h => by
      obtain ⟨L', hcopied, hr⟩ := copied_add t z h
      obtain ⟨L'', hcopied', hrs⟩ := copied_addAll ts z hcopied.numbered
      rw [addAll]
      exact ⟨L'', hcopied.trans hcopied', .cons (hr.copied hcopied.numbered.valid hcopied') hrs⟩

theorem copied_addMethods : ∀ (ms : List (Symbol × Term)) {L : Layout} {s : Store} (z : Zone),
    Numbered L s → ∃ L', Copied L s L' (s.addMethods ms).2 ∧
      List.Forall₂ (fun m m' => m.1 = m'.1 ∧ Stands z L' (s.addMethods ms).2 m.2 m'.2)
        (s.addMethods ms).1 ms
  | [], L, s, z, h => by
      rw [addMethods]
      exact ⟨L, .refl h, .nil⟩
  | (name, t) :: ms, L, s, z, h => by
      obtain ⟨L', hcopied, hr⟩ := copied_add t z h
      obtain ⟨L'', hcopied', hrs⟩ := copied_addMethods ms z hcopied.numbered
      rw [addMethods]
      exact ⟨L'', hcopied.trans hcopied',
        .cons ⟨rfl, hr.copied hcopied.numbered.valid hcopied'⟩ hrs⟩

end

/-- The copy of a term in a store of its own has a layout, and the term for its tree. -/
theorem layout_add (t : Term) : ∃ L : Layout, L.Valid (({} : Store).add t).2 ∧
    L.Under .bare (2 * (({} : Store).add t).2.size) (({} : Store).add t).1 ∧
    (({} : Store).add t).2.tree (({} : Store).add t).1 = t := by
  have hempty : Numbered ⟨fun _ => none, fun _ => 0⟩ {} := by
    refine ⟨⟨?_, ?_⟩, ?_⟩ <;>
      · intro id z h
        cases h
  obtain ⟨L, hcopied, hstands⟩ := copied_add t .bare hempty
  exact ⟨L, hcopied.numbered.valid, hstands.under, hstands.tree_eq⟩

end Store
end RegisterLisp
