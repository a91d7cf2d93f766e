import RegisterLisp.Proofs.Store.Steps

/-!
# Normalizing the parts of a cell

What reduces a single part is assumed to be right (`Sound`).  Then reducing the parts of a cell one
after the other follows normalizing the parts of its tree, although a part may change while another
one is reduced: its tree only settles.

A cell that takes the place of another is not part of the layout until the rules are through with
it.  Before that it may be noted as reduced and still be replaced, but nothing refers to it yet
(`Seat`).
-/

namespace RegisterLisp
namespace Store

open Layout (Evolves)

variable {L L' : Layout} {w w' : Work} {r : Ref} {t : Term} {sh : Shape Ref} {go : Ref → WorkM Ref}
  {base base' n m id : Nat}

/-- Parts of a rank below `n` are reduced to their normal forms, and left behind with normal parts
themselves. -/
def Sound (go : Ref → WorkM Ref) (n : Nat) : Prop :=
  ∀ {L w r m}, m ≤ n → Ready L w n → L.Under .bare m r →
    Simulates w.store.size L w (go r) (Term.normalize (w.store.tree r)) fun L' w' r' t =>
      L'.Under .bare m r' ∧ w'.store.tree r' = t ∧ (w'.store.tree r).HasNormalParts

/-! ## Several parts -/

/-- The items of a list are reduced in order, each to its normal form. -/
theorem Sound.items {items : List Ref} (hgo : Sound go n) (hm : m ≤ n) (hready : Ready L w n)
    (hitems : ∀ r ∈ items, L.Under .bare m r) :
    Simulates w.store.size L w (items.mapM go) (Term.normalizeAll (items.map w.store.tree))
      fun L' w' => List.Forall₂ (Reduced m L' w') := by
  rw [Term.normalizeAll_eq_mapM, List.mapM_map]
  refine .mapM hready.valid hready.known (fun h hr => hr.advances h) ?_
  intro r hr L' w' hadvances
  have hr' : L.Under .bare m r := hitems r hr
  have hgo' := hgo hm (hready.advances hadvances) (hr'.grows hadvances.evolves.grows)
  rw [(hadvances.evolves.settles hr').normalize_eq] at hgo'
  refine hgo'.imp hadvances.evolves.size_le ?_
  rintro L'' w'' r' t hok - ⟨hunder, htree, -⟩
  exact ⟨hunder, htree, (Term.normal_of_normalize hok).hasNormalParts⟩

/-- A cell keeps its place as a constructor or method. -/
theorem slot_tree_cell {t' : Term} (h : w.store.Grounded (.cell id)) :
    Term.slot t' (w.store.tree (.cell id)) = w.store.tree (.cell id) := by
  rw [tree_cell h]
  cases w.store.shape id <;> rfl

/-- A constructor or method stays in its place where it would become an atom. -/
theorem Sound.slot (hgo : Sound go n) (hm : m ≤ n) (hready : Ready L w n)
    (hr : L.Under .bare m r) :
    Simulates w.store.size L w (reduceSlot go r) (Term.normalizeSlot (w.store.tree r))
      (Reduced m) := by
  have hgo' := hgo hm hready hr
  cases hresult : Term.normalize (w.store.tree r) with
  | error cause =>
      rw [hresult] at hgo'
      rw [Term.normalizeSlot_of_error hresult]
      obtain ⟨L', w', hrun, hevolves⟩ := hgo'
      exact ⟨L', w', run_bind_error hrun, hevolves⟩
  | ok t =>
      rw [hresult] at hgo'
      obtain ⟨r', L', w', hrun, hadvances, hunder, rfl, hparts⟩ := hgo'
      -- What is left behind for `r` is the term with its parts normalized.
      have hplace : Term.inPlace (w.store.tree r) = .ok (w'.store.tree r) :=
        (hadvances.evolves.settles hr).inPlace_eq_ok hparts
      have hrules : Term.applyRules Rule.all (w'.store.tree r) = .ok (w'.store.tree r') := by
        rw [Term.normalize, hplace] at hresult
        exact hresult
      rw [Term.normalizeSlot_of_ok hplace hrules]
      cases r' with
      | atom a =>
          -- An atom does not take the place of the member, which stays with its normal parts.
          have hslot : Term.slot (w'.store.tree r) (w'.store.tree (.atom a)) = w'.store.tree r := by
            rw [tree_atom]
            rfl
          rw [hslot]
          exact ⟨r, L', w', run_bind_ok hrun, hadvances, hr.grows hadvances.evolves.grows, rfl,
            hparts⟩
      | cell id =>
          rw [slot_tree_cell (hadvances.evolves.valid.grounded hunder)]
          exact ⟨.cell id, L', w', run_bind_ok hrun, hadvances, hunder, rfl,
            (Term.normal_of_normalize hresult).hasNormalParts⟩

/-- Methods are reduced in order, and keep their places if they become atoms. -/
theorem Sound.methods {methods : List (Symbol × Ref)} (hgo : Sound go n) (hm : m ≤ n)
    (hready : Ready L w n) (hmethods : ∀ x ∈ methods, L.Under .bare m x.2) :
    Simulates w.store.size L w
      (methods.mapM fun (name, r) => do return (name, ← reduceSlot go r))
      (Term.normalizeMethods (methods.map fun (name, r) => (name, w.store.tree r)))
      fun L' w' => List.Forall₂ (ReducedMethod m L' w') := by
  rw [Term.normalizeMethods_eq_mapM, List.mapM_map]
  refine .mapM hready.valid hready.known (fun h hr => hr.advances h) ?_
  intro x hx L' w' hadvances
  have hx' : L.Under .bare m x.2 := hmethods x hx
  have hslot := hgo.slot hm (hready.advances hadvances) (hx'.grows hadvances.evolves.grows)
  rw [(hadvances.evolves.settles hx').normalizeSlot_eq] at hslot
  refine hslot.map hadvances.evolves.size_le ?_
  intro L'' w'' r' t _ hadvances' hr'
  exact .pure hadvances'.evolves.valid hadvances'.known ⟨rfl, hr'⟩

/-! ## The parts of a cell -/

/-- A cell that is worked on: one of the layout with rank `n`, or one that may take its place. -/
inductive Seat (base : Nat) (L : Layout) (w : Work) (n id : Nat) : Prop
  | bare (hzone : L.zone id = some .bare) (hrank : L.rank id = n)
  | loose (hloose : L.Loose w.store .bare base n id)
      (hvisit : w.visit? id = some (.done (.cell id)))

namespace Seat

theorem lt_size (h : Seat base L w n id) (hvalid : L.Valid w.store) : id < w.store.size := by
  cases h with
  | bare hzone _ => exact hvalid.lt_size hzone
  | loose hloose _ => exact hloose.lt_size

/-- The cell holds what a cell of its rank may hold. -/
theorem fits (h : Seat base L w n id) (hvalid : L.Valid w.store) :
    L.Fits .bare n (w.store.shape id) := by
  cases h with
  | bare hzone hrank => exact hrank ▸ hvalid.fits hzone
  | loose hloose _ => exact hloose.fits

theorem grounded (h : Seat base L w n id) (hvalid : L.Valid w.store) :
    w.store.Grounded (.cell id) :=
  .cell (h.lt_size hvalid) fun _ hr => (h.fits hvalid).grounded hvalid hr

/-- The cell is still the one that is worked on after its parts have been reduced. -/
theorem advances (h : Seat base L w n id) (hadvances : Advances base' L w L' w')
    (hid : id < base') : Seat base L' w' n id := by
  cases h with
  | bare hzone hrank =>
      have hgrows := hadvances.evolves.grows
      exact .bare (hgrows.zone hzone) ((hgrows.rank hzone).trans hrank)
  | loose hloose hvisit =>
      refine .loose (hloose.evolves hadvances.evolves hid) ?_
      rw [hadvances.visits id hid (by simp [hloose.zone]), hvisit]

/-- Once its parts have been reduced, a cell takes their normal forms for its parts. -/
theorem simulates_setShape (h : Seat base L w n id) (hvalid : L.Valid w.store)
    (hadvances : Advances w.store.size L w L' w')
    (hplace : Term.inPlace (w.store.tree (.cell id)) = .ok t)
    (hsh : L'.Fits .bare n sh) (htree : (sh.map w'.store.tree).toTerm = t) :
    Simulates base L' w' (update (·.setShape id sh)) (.ok t) fun L' w' _ t =>
      Seat base L' w' n id ∧ w'.store.tree (.cell id) = t := by
  have hseat : Seat base L' w' n id := h.advances hadvances (h.lt_size hvalid)
  have hvalid' : L'.Valid w'.store := hadvances.evolves.valid
  subst htree
  cases hseat with
  | loose hloose hvisit =>
      obtain ⟨hevolves, hloose', htree⟩ := hloose.evolves_setShape hvalid' hsh
      exact ⟨(), L', _, rfl, .of_evolves hadvances.known hevolves fun hzone _ => hzone,
        .loose hloose' hvisit, htree⟩
  | bare hzone hrank =>
      subst hrank
      -- The cell was in the layout before, so that its tree has settled meanwhile.
      have hzone' : L.zone id = some .bare :=
        by_contra fun hne => hadvances.evolves.zone_ne_bare (h.lt_size hvalid) hne hzone
      have hplace' := (hadvances.evolves.settles (under_self hzone')).inPlace_eq.trans hplace
      exact ⟨(), L', _, rfl, .of_evolves hadvances.known
        (Layout.evolves_setShape hvalid' hzone hsh hplace') fun hzone _ => hzone,
        .bare hzone rfl, Layout.tree_setShape_self hvalid' hzone hsh⟩

end Seat

/-- A cell around a single list of parts, such as a list or the body of a lambda. -/
theorem Sound.rebuild {items : List Ref} {build : List Ref → Shape Ref}
    {buildTerm : List Term → Term} {k : Nat} (hgo : Sound go n) (hready : Ready L w n)
    (hbase : base ≤ w.store.size) (hseat : Seat base L w m id) (hk : k ≤ n)
    (hitems : ∀ r ∈ items, L.Under .bare k r)
    (hfits : ∀ {L' : Layout} {items'}, (∀ r ∈ items', L'.Under .bare k r) →
      L'.Fits .bare m (build items'))
    (hbuild : ∀ (tree : Ref → Term) items',
      ((build items').map tree).toTerm = buildTerm (items'.map tree))
    (hplace : Term.inPlace (w.store.tree (.cell id)) =
      (Term.normalizeAll (items.map w.store.tree)).map buildTerm) :
    Simulates base L w (items.mapM go >>= fun items' => update (·.setShape id (build items')))
      (Term.inPlace (w.store.tree (.cell id)))
      fun L' w' _ t => Seat base L' w' m id ∧ w'.store.tree (.cell id) = t := by
  rw [hplace]
  refine (hgo.items hk hready hitems).map hbase ?_
  intro L' w' items' ts hok hadvances hitems'
  refine hseat.simulates_setShape hready.valid hadvances ?_
    (hfits (forall_mem_of_forall₂ hitems' Reduced.under)) ?_
  · rw [hplace, hok]
    rfl
  · rw [hbuild, map_eq_of_forall₂ hitems' Reduced.tree_eq]

/-- The parts of a cell are normalized in place. -/
theorem Sound.parts (hgo : Sound go n) (hready : Ready L w n) (hbase : base ≤ w.store.size)
    (hseat : Seat base L w m id) (hm : m ≤ n) :
    Simulates base L w (reduceParts go (.cell id)) (Term.inPlace (w.store.tree (.cell id)))
      fun L' w' _ t => Seat base L' w' m id ∧ w'.store.tree (.cell id) = t := by
  have hvalid := hready.valid
  have hfits := hseat.fits hvalid
  have hcell := tree_cell (hseat.grounded hvalid)
  cases hshape : w.store.shape id with
  | list items =>
      rw [hshape] at hfits hcell
      have hrun : (reduceParts go (.cell id)).run w =
          (items.mapM go >>= fun items' => update (·.setShape id (.list items'))).run w := by
        rw [reduceParts, run_get_bind, hshape]
      -- The rank that a list leaves free is not used by its items.
      refine .of_run_eq hrun hready.refl (hgo.rebuild hready hbase hseat
        ((Nat.sub_le m 1).trans hm) hfits.2 (fun h => ⟨hfits.1, h⟩) (fun _ _ => rfl) ?_)
      rw [hcell]
      rfl
  | quoted inner =>
      rw [hshape] at hcell
      have hrun : (reduceParts go (.cell id)).run w = (pure () : WorkM Unit).run w := by
        rw [reduceParts, run_get_bind, hshape]
      refine .of_run_eq hrun hready.refl ?_
      rw [hcell]
      exact .pure hvalid hready.known ⟨hseat, hcell⟩
  | func params body =>
      rw [hshape] at hfits hcell
      have hrun : (reduceParts go (.cell id)).run w =
          (body.mapM go >>= fun body' => update (·.setShape id (.func params body'))).run w := by
        rw [reduceParts, run_get_bind, hshape]
      refine .of_run_eq hrun hready.refl
        (hgo.rebuild hready hbase hseat hm hfits (fun h => h) (fun _ _ => rfl) ?_)
      rw [hcell]
      rfl
  | typeDef name fields ctor methods =>
      rw [hshape] at hfits hcell
      have hrun : (reduceParts go (.cell id)).run w =
          (reduceSlot go ctor >>= fun ctor' =>
            (methods.mapM fun (name, r) => do return (name, ← reduceSlot go r)) >>= fun methods' =>
              update (·.setShape id (.typeDef name fields ctor' methods'))).run w := by
        rw [reduceParts, run_get_bind, hshape]
      have hplace : Term.inPlace (w.store.tree (.cell id)) =
          (Term.normalizeSlot (w.store.tree ctor)).bind fun ctor' =>
            (Term.normalizeMethods (methods.map fun (name, r) => (name, w.store.tree r))).map
              (.typeDef name fields ctor') := by
        rw [hcell]
        exact Term.inPlace_typeDef ..
      refine .of_run_eq hrun hready.refl ?_
      rw [hplace]
      -- The constructor comes first, and the methods see the store that it leaves.
      refine (hgo.slot hm hready hfits.1).bind hbase ?_
      intro L' w' ctor' t hok hadvances hctor'
      have hmethods := hgo.methods hm (hready.advances hadvances)
        fun x hx => (hfits.2 x hx).grows hadvances.evolves.grows
      rw [Term.normalizeMethods_map_eq fun x hx => hadvances.evolves.settles (hfits.2 x hx)]
        at hmethods
      refine hmethods.map (hbase.trans hadvances.evolves.size_le) ?_
      intro L'' w'' methods' ts hok' hadvances' hmethods'
      have hadvances'' := hadvances.trans (hadvances'.of_le hadvances.evolves.size_le)
      -- Reducing the methods does not change the constructor again.
      have hctor'' := hctor'.advances hadvances'
      refine hseat.simulates_setShape hvalid hadvances'' ?_
        ⟨hctor''.under, forall_mem_of_forall₂ hmethods' fun h => h.2.under⟩ ?_
      · rw [hplace, hok, hok']
        rfl
      · simp only [Shape.map, Shape.toTerm]
        rw [hctor''.tree_eq, map_eq_of_forall₂ hmethods' fun h => h.tree_eq]

end Store
end RegisterLisp
