import RegisterLisp.Proofs.Settling
import RegisterLisp.Proofs.Store.Trees

/-!
# Layouts

Normalizing changes cells in place and makes new ones, and the references between cells change with
them.  What stays is a layout: the cells that matter lie in two zones, on paths without quotes and
inside quotes, and every cell has a rank above those of its parts.

`Evolves` says what may become of a store with a layout.  Quoted cells stay as they are.  The trees
of the others settle, so that nothing that shares a cell notices when it is changed.
-/

namespace RegisterLisp

inductive Zone
  | bare | quoted
  deriving DecidableEq

/-- The zones and ranks of cells.  Cells without a zone do not matter. -/
structure Layout where
  zone : Nat → Option Zone
  rank : Nat → Nat

namespace Layout

variable {L L' L'' : Layout} {s s' s'' : Store} {z : Zone} {r : Ref} {sh : Shape Ref}
  {n m i j id base base' : Nat}

/-! ## Layouts that fit a store -/

/-- A part in a zone, with a rank below `n` if it is a cell. -/
def Under (L : Layout) (z : Zone) (n : Nat) : Ref → Prop
  | .atom _ => True
  | .cell id => L.zone id = some z ∧ L.rank id < n

instance : Decidable (L.Under z n r) :=
  match r with
  | .atom _ => .isTrue trivial
  | .cell id => inferInstanceAs (Decidable (L.zone id = some z ∧ L.rank id < n))

/-- What a cell of rank `n` may hold.  A list leaves one rank free between itself and its items, for
the constructor and the methods of a type that may take its place. -/
def Fits (L : Layout) : Zone → Nat → Shape Ref → Prop
  | .bare, n, .list items => 0 < n ∧ ∀ r ∈ items, L.Under .bare (n - 1) r
  | .bare, n, .quoted inner => L.Under .quoted n inner
  | .bare, n, .func _ body => ∀ r ∈ body, L.Under .bare n r
  | .bare, n, .typeDef _ _ ctor methods =>
      L.Under .bare n ctor ∧ ∀ m ∈ methods, L.Under .bare n m.2
  | .quoted, n, sh => ∀ r ∈ sh.parts, L.Under .quoted n r

structure Valid (L : Layout) (s : Store) : Prop where
  lt_size : ∀ {id z}, L.zone id = some z → id < s.size
  fits : ∀ {id z}, L.zone id = some z → L.Fits z (L.rank id) (s.shape id)

/-- A part may stand below any higher rank. -/
theorem Under.mono (h : L.Under z n r) (hnm : n ≤ m) : L.Under z m r := by
  cases r with
  | atom a => trivial
  | cell id => exact ⟨h.1, h.2.trans_le hnm⟩

theorem not_under_zero : ¬ L.Under z 0 (.cell id) :=
  fun h => Nat.not_lt_zero _ h.2

/-- Parts that are not quoted lie in the zone of the cell that holds them. -/
theorem Fits.bare_part (h : L.Fits .bare n sh) (hsh : ∀ inner, sh ≠ .quoted inner)
    (hr : r ∈ sh.parts) : L.Under .bare n r := by
  cases sh with
  | list items => exact (h.2 r hr).mono (Nat.sub_le n 1)
  | quoted inner => exact absurd rfl (hsh inner)
  | func params body => exact h r hr
  | typeDef name fields ctor methods =>
      rcases List.mem_cons.1 hr with rfl | hr
      · exact h.1
      · obtain ⟨m, hm, rfl⟩ := List.mem_map.1 hr
        exact h.2 m hm

/-- The parts of a cell have lower ranks. -/
theorem Fits.part (h : L.Fits z n sh) (hr : r ∈ sh.parts) : ∃ z', L.Under z' n r := by
  cases z with
  | quoted => exact ⟨.quoted, h r hr⟩
  | bare =>
      cases sh with
      | quoted inner =>
          obtain rfl := List.mem_singleton.1 hr
          exact ⟨.quoted, h⟩
      | _ => exact ⟨.bare, h.bare_part (by simp) hr⟩

/-- References lead to lower ranks. -/
theorem Valid.holds (h : L.Valid s) (hi : L.zone i = some z) (hij : s.Holds i j) :
    ∃ z', L.zone j = some z' ∧ L.rank j < L.rank i :=
  (h.fits hi).part (Store.holds_iff.1 hij)

/-- Ranks go down along references, so these come to an end. -/
theorem Valid.grounded (h : L.Valid s) : ∀ {n : Nat} {z : Zone} {r : Ref}, L.Under z n r →
    s.Grounded r
  | _, _, .atom a, _ => .atom a
  | 0, _, .cell _, hr => absurd hr not_under_zero
  | n + 1, z, .cell id, hr => by
      refine .cell (h.lt_size hr.1) fun r hpart => ?_
      obtain ⟨z', hr'⟩ := (h.fits hr.1).part hpart
      exact h.grounded (hr'.mono (Nat.le_of_lt_succ hr.2))

/-- So do the references of a shape that fits. -/
theorem Fits.grounded (h : L.Fits z n sh) (hvalid : L.Valid s) (hr : r ∈ sh.parts) :
    s.Grounded r := by
  obtain ⟨z', hr'⟩ := h.part hr
  exact hvalid.grounded hr'

/-! ## Growing layouts -/

/-- More cells matter; those that did keep their places. -/
structure Grows (L L' : Layout) : Prop where
  zone : ∀ {id z}, L.zone id = some z → L'.zone id = some z
  rank : ∀ {id z}, L.zone id = some z → L'.rank id = L.rank id

theorem Grows.refl (L : Layout) : L.Grows L :=
  ⟨fun h => h, fun _ => rfl⟩

/-- A layout may grow step by step. -/
theorem Grows.trans (h : L.Grows L') (h' : L'.Grows L'') : L.Grows L'' :=
  ⟨fun hid => h'.zone (h.zone hid), fun hid => (h'.rank (h.zone hid)).trans (h.rank hid)⟩

/-- A part keeps its zone and rank in a larger layout. -/
theorem Under.grows (hr : L.Under z n r) (h : L.Grows L') : L'.Under z n r := by
  cases r with
  | atom a => trivial
  | cell id => exact ⟨h.zone hr.1, (h.rank hr.1).trans_lt hr.2⟩

/-- A cell still fits in a larger layout. -/
theorem Fits.grows (hsh : L.Fits z n sh) (h : L.Grows L') : L'.Fits z n sh := by
  cases z with
  | quoted => exact fun r hr => (hsh r hr).grows h
  | bare =>
      cases sh with
      | list items => exact ⟨hsh.1, fun r hr => (hsh.2 r hr).grows h⟩
      | quoted inner => exact Under.grows hsh h
      | func params body => exact fun r hr => (hsh r hr).grows h
      | typeDef name fields ctor methods =>
          exact ⟨hsh.1.grows h, fun m hm => (hsh.2 m hm).grows h⟩

def add (L : Layout) (z : Zone) (id n : Nat) : Layout where
  zone := Function.update L.zone id (some z)
  rank := Function.update L.rank id n

theorem zone_add_self : (L.add z id n).zone id = some z :=
  Function.update_self ..

theorem rank_add_self : (L.add z id n).rank id = n :=
  Function.update_self ..

theorem zone_add_of_ne (h : i ≠ id) : (L.add z id n).zone i = L.zone i :=
  Function.update_of_ne h ..

theorem rank_add_of_ne (h : i ≠ id) : (L.add z id n).rank i = L.rank i :=
  Function.update_of_ne h ..

/-- A cell that did not matter may be given a place. -/
theorem grows_add (h : L.zone id = none) : L.Grows (L.add z id n) := by
  have hne : ∀ {i z}, L.zone i = some z → i ≠ id := by
    rintro i z hi rfl
    simp [h] at hi
  exact ⟨fun hi => (zone_add_of_ne (hne hi)).trans hi, fun hi => rank_add_of_ne (hne hi)⟩

/-! ## What may become of a store -/

/-- Cells below `base` that do not matter stay as they are, and quoted ones do in any case. -/
structure Evolves (base : Nat) (L : Layout) (s : Store) (L' : Layout) (s' : Store) : Prop where
  valid : L'.Valid s'
  grows : L.Grows L'
  fresh : ∀ id < base, L.zone id = none → L'.zone id = none
  shape : ∀ id < base, L.zone id ≠ some .bare → s'.shape id = s.shape id
  size_le : s.size ≤ s'.size
  settles : ∀ {n r}, L.Under .bare n r → (s.tree r).Settles (s'.tree r)

namespace Evolves

theorem refl (h : L.Valid s) : Evolves base L s L s where
  valid := h
  grows := Grows.refl L
  fresh _ _ h := h
  shape _ _ _ := rfl
  size_le := Nat.le_refl _
  settles _ := Term.Settles.refl _

/-- A cell below `base` that did not lie on a path without quotes does not come to lie on one. -/
theorem zone_ne_bare (h : Evolves base L s L' s') (hid : id < base)
    (hzone : L.zone id ≠ some .bare) : L'.zone id ≠ some .bare := by
  cases hz : L.zone id with
  | none => simp [h.fresh id hid hz]
  | some z => rwa [h.grows.zone hz, ← hz]

/-- Changes one after the other. -/
theorem trans (h : Evolves base L s L' s') (h' : Evolves base L' s' L'' s'') :
    Evolves base L s L'' s'' where
  valid := h'.valid
  grows := h.grows.trans h'.grows
  fresh id hid hzone := h'.fresh id hid (h.fresh id hid hzone)
  shape id hid hzone :=
    (h'.shape id hid (h.zone_ne_bare hid hzone)).trans (h.shape id hid hzone)
  size_le := h.size_le.trans h'.size_le
  settles hr := (h.settles hr).trans (h'.settles (hr.grows h.grows))

theorem of_le (h : Evolves base L s L' s') (hbase : base' ≤ base) : Evolves base' L s L' s' :=
  { h with
    fresh := fun id hid => h.fresh id (hid.trans_le hbase)
    shape := fun id hid => h.shape id (hid.trans_le hbase) }

/-- A form with normal parts stands for the same tree later on. -/
theorem tree_eq (h : Evolves base L s L' s') (hr : L.Under .bare n r)
    (hparts : (s.tree r).HasNormalParts) : s'.tree r = s.tree r :=
  (h.settles hr).eq_of_hasNormalParts hparts

end Evolves

/-! ## Changes that no tree notices -/

/-- Where the cells that matter stay as they are, so do their trees. -/
theorem Valid.tree_eq (h : L.Valid s) (hsize : s.size ≤ s'.size)
    (hshape : ∀ id, L.zone id ≠ none → s'.shape id = s.shape id) (hr : L.Under z n r) :
    s'.tree r = s.tree r := by
  refine (Store.tree_eq_of_shape_eq (P := fun id => L.zone id ≠ none) ?_ hshape ?_
    (h.grounded hr) ?_).2
  · intro id hid
    obtain ⟨z, hz⟩ := Option.ne_none_iff_exists'.1 hid
    exact (h.lt_size hz).trans_le hsize
  · intro i j hi hij
    obtain ⟨z, hz⟩ := Option.ne_none_iff_exists'.1 hi
    obtain ⟨z', hz', -⟩ := h.holds hz hij
    simp [hz']
  · rintro id rfl
    simp [hr.1]

/-- A store whose cells that matter are the same has the same layout. -/
theorem evolves_of_shape_eq (h : L.Valid s) (hsize : s.size ≤ s'.size)
    (hshape : ∀ id, L.zone id ≠ none → s'.shape id = s.shape id)
    (hbase : ∀ id < base, s'.shape id = s.shape id) : Evolves base L s L s' where
  valid :=
    { lt_size := fun hid => (h.lt_size hid).trans_le hsize
      fits := fun {id _} hid => by
        rw [hshape id (by simp [hid])]
        exact h.fits hid }
  grows := Grows.refl L
  fresh _ _ h := h
  shape id hid _ := hbase id hid
  size_le := hsize
  settles hr := by
    rw [h.tree_eq hsize hshape hr]
    exact Term.Settles.refl _

structure Loose (L : Layout) (s : Store) (z : Zone) (base n id : Nat) : Prop where
  zone : L.zone id = none
  base_le : base ≤ id
  lt_size : id < s.size
  fits : L.Fits z n (s.shape id)

namespace Loose

theorem grounded (h : L.Loose s z base n id) (hvalid : L.Valid s) : s.Grounded (.cell id) :=
  .cell h.lt_size fun _ hr => h.fits.grounded hvalid hr

/-- A loose cell stays so while others are worked on. -/
theorem evolves (h : L.Loose s z base n id) (hevolves : Evolves base' L s L' s')
    (hid : id < base') : L'.Loose s' z base n id where
  zone := hevolves.fresh id hid h.zone
  base_le := h.base_le
  lt_size := h.lt_size.trans_le hevolves.size_le
  fits := by
    rw [hevolves.shape id hid (by simp [h.zone])]
    exact h.fits.grows hevolves.grows

/-- A loose cell may be added to the layout. -/
theorem evolves_add (h : L.Loose s z base n id) (hvalid : L.Valid s) :
    Evolves base L s (L.add z id n) s := by
  have hgrows : L.Grows (L.add z id n) := grows_add h.zone
  have hvalid' : (L.add z id n).Valid s := by
    refine ⟨fun {i z'} hi => ?_, fun {i z'} hi => ?_⟩
    · by_cases hne : i = id
      · exact hne ▸ h.lt_size
      · exact hvalid.lt_size ((zone_add_of_ne hne).symm.trans hi)
    · by_cases hne : i = id
      · subst hne
        obtain rfl : z = z' := Option.some.inj (zone_add_self.symm.trans hi)
        rw [rank_add_self]
        exact h.fits.grows hgrows
      · rw [rank_add_of_ne hne]
        exact (hvalid.fits ((zone_add_of_ne hne).symm.trans hi)).grows hgrows
  refine { Evolves.refl hvalid with
    valid := hvalid', grows := hgrows, fresh := fun i hi hzone => ?_ }
  rw [zone_add_of_ne (hi.trans_le h.base_le).ne, hzone]

end Loose

/-- The tree of a loose cell is made of trees that no change to it reaches. -/
theorem Loose.tree_eq (hloose : L.Loose s' z base n id) (h : L.Valid s) (h' : L.Valid s')
    (hsize : s.size ≤ s'.size) (hshape : ∀ id, L.zone id ≠ none → s'.shape id = s.shape id) :
    s'.tree (.cell id) = ((s'.shape id).map s.tree).toTerm := by
  rw [Store.tree_cell (hloose.grounded h')]
  refine congrArg Shape.toTerm (Shape.map_congr fun r hr => ?_)
  obtain ⟨z, hr'⟩ := hloose.fits.part hr
  exact h.tree_eq hsize hshape hr'

theorem zone_size (h : L.Valid s) : L.zone s.size = none := by
  cases hz : L.zone s.size with
  | none => rfl
  | some z => exact absurd (h.lt_size hz) (Nat.lt_irrefl _)

/-- A new cell is loose. -/
theorem evolves_alloc (h : L.Valid s) (hbase : base ≤ s.size) (hsh : L.Fits z n sh) :
    Evolves base L s L (s.alloc sh).2 ∧ L.Loose (s.alloc sh).2 z base n s.size ∧
      (s.alloc sh).2.tree (.cell s.size) = (sh.map s.tree).toTerm := by
  have hsize : s.size ≤ (s.alloc sh).2.size := by simp
  have hshape : ∀ id, L.zone id ≠ none → (s.alloc sh).2.shape id = s.shape id := by
    intro id hid
    obtain ⟨z, hz⟩ := Option.ne_none_iff_exists'.1 hid
    exact Store.shape_alloc_of_lt (h.lt_size hz)
  have hself : (s.alloc sh).2.shape s.size = sh := Store.shape_alloc_self
  have hevolves : Evolves base L s L (s.alloc sh).2 :=
    evolves_of_shape_eq h hsize hshape fun id hid => Store.shape_alloc_of_lt (hid.trans_le hbase)
  have hloose : L.Loose (s.alloc sh).2 z base n s.size :=
    ⟨zone_size h, hbase, by simp, hself.symm ▸ hsh⟩
  have htree := hloose.tree_eq h hevolves.valid hsize hshape
  rw [hself] at htree
  exact ⟨hevolves, hloose, htree⟩

/-- Changing a loose cell changes no tree but its own. -/
theorem Loose.evolves_setShape (hloose : L.Loose s z base n id) (h : L.Valid s)
    (hsh : L.Fits z n sh) :
    Evolves base L s L (s.setShape id sh) ∧ L.Loose (s.setShape id sh) z base n id ∧
      (s.setShape id sh).tree (.cell id) = (sh.map s.tree).toTerm := by
  have hsize : s.size ≤ (s.setShape id sh).size := by simp
  have hshape : ∀ i, L.zone i ≠ none → (s.setShape id sh).shape i = s.shape i := by
    intro i hi
    refine Store.shape_setShape_of_ne ?_
    rintro rfl
    exact hi hloose.zone
  have hself : (s.setShape id sh).shape id = sh := Store.shape_setShape_self hloose.lt_size
  have hevolves : Evolves base L s L (s.setShape id sh) :=
    evolves_of_shape_eq h hsize hshape fun i hi =>
      Store.shape_setShape_of_ne (hi.trans_le hloose.base_le).ne
  have hloose' : L.Loose (s.setShape id sh) z base n id :=
    ⟨hloose.zone, hloose.base_le, by simpa using hloose.lt_size, hself.symm ▸ hsh⟩
  have htree := hloose'.tree_eq h hevolves.valid hsize hshape
  rw [hself] at htree
  exact ⟨hevolves, hloose', htree⟩

/-! ## Normalizing parts in place -/

section SetShape

variable (h : L.Valid s) (hid : L.zone id = some .bare) (hsh : L.Fits .bare (L.rank id) sh)
include h hid hsh

/-- A cell may be given another shape that fits. -/
theorem valid_setShape : L.Valid (s.setShape id sh) where
  lt_size hi := by simpa using h.lt_size hi
  fits {i z} hi := by
    by_cases hne : i = id
    · subst hne
      obtain rfl : .bare = z := Option.some.inj (hid.symm.trans hi)
      rw [Store.shape_setShape_self (h.lt_size hi)]
      exact hsh
    · rw [Store.shape_setShape_of_ne hne]
      exact h.fits hi

/-- What is quoted or lies below the cell keeps its tree. -/
theorem tree_setShape_below (hr : L.Under z (L.rank id) r) :
    (s.setShape id sh).tree r = s.tree r := by
  refine (Store.tree_eq_of_shape_eq
    (P := fun i => ∃ z, L.zone i = some z ∧ L.rank i < L.rank id) ?_ ?_ ?_ (h.grounded hr) ?_).2
  · rintro i ⟨z, hi, -⟩
    simpa using h.lt_size hi
  · rintro i ⟨z, -, hlt⟩
    refine Store.shape_setShape_of_ne ?_
    rintro rfl
    exact Nat.lt_irrefl _ hlt
  · rintro i j ⟨z, hi, hlt⟩ hij
    obtain ⟨z', hj, hji⟩ := h.holds hi hij
    exact ⟨z', hj, hji.trans hlt⟩
  · rintro i rfl
    exact ⟨z, hr⟩

/-- The tree of such a cell is that of its new shape. -/
theorem tree_setShape_self :
    (s.setShape id sh).tree (.cell id) = (sh.map s.tree).toTerm := by
  have hvalid := valid_setShape h hid hsh
  have hself : L.Under .bare (L.rank id + 1) (.cell id) := ⟨hid, Nat.lt_succ_self _⟩
  rw [Store.tree_cell (hvalid.grounded hself), Store.shape_setShape_self (h.lt_size hid)]
  refine congrArg Shape.toTerm (Shape.map_congr fun r hr => ?_)
  obtain ⟨z, hr'⟩ := hsh.part hr
  exact tree_setShape_below h hid hsh hr'

variable (hplace : Term.inPlace (s.tree (.cell id)) = .ok (sh.map s.tree).toTerm)
include hplace

/-- Whatever holds the cell settles with it. -/
theorem settles_setShape : ∀ {n : Nat} {r : Ref}, L.Under .bare n r →
    (s.tree r).Settles ((s.setShape id sh).tree r)
  | _, .atom a, _ => by
      rw [Store.tree_atom, Store.tree_atom]
      exact Term.Settles.refl _
  | 0, .cell _, hr => absurd hr not_under_zero
  | n + 1, .cell i, hr => by
      by_cases hne : i = id
      · subst hne
        rw [tree_setShape_self h hid hsh]
        exact Term.Settles.of_inPlace hplace
      · have hvalid := valid_setShape h hid hsh
        rw [Store.tree_cell (h.grounded hr), Store.tree_cell (hvalid.grounded hr),
          Store.shape_setShape_of_ne hne]
        have hfits : L.Fits .bare (L.rank i) (s.shape i) := h.fits hr.1
        -- Quoted parts lie in a zone of their own, which the cell is not in.
        have hquoted : ∀ {m r}, L.Under .quoted m r → (s.setShape id sh).tree r = s.tree r := by
          intro m r hr
          refine (Store.tree_eq_of_shape_eq (P := fun i => L.zone i = some .quoted) ?_ ?_ ?_
            (h.grounded hr) ?_).2
          · intro i hi
            simpa using h.lt_size hi
          · intro i hi
            refine Store.shape_setShape_of_ne ?_
            rintro rfl
            simp [hid] at hi
          · intro i j hi hij
            exact (h.fits hi _ (Store.holds_iff.1 hij)).1
          · rintro i rfl
            exact hr.1
        cases hshape : s.shape i with
        | quoted inner =>
            rw [hshape] at hfits
            simp only [Shape.map, Shape.toTerm, hquoted hfits]
            exact Term.Settles.refl _
        | _ =>
            rw [hshape] at hfits
            refine Term.settles_map (fun r hpart => ?_) (by simp)
            have hr' := hfits.bare_part (by simp) hpart
            exact settles_setShape (hr'.mono (Nat.le_of_lt_succ hr.2))

/-- The parts of a cell may be replaced by their normal forms. -/
theorem evolves_setShape : Evolves base L s L (s.setShape id sh) where
  valid := valid_setShape h hid hsh
  grows := Grows.refl L
  fresh _ _ h := h
  shape i _ hi := by
    refine Store.shape_setShape_of_ne ?_
    rintro rfl
    exact hi hid
  size_le := by simp
  settles := settles_setShape h hid hsh hplace

end SetShape

end Layout
end RegisterLisp
