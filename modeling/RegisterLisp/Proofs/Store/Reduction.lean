import RegisterLisp.Proofs.Store.InPlace
import RegisterLisp.Proofs.Store.Parts

/-!
# Normalizing in a store follows normalizing trees

Every step of normalizing in a store is matched with one of normalizing trees.  A rule that fires
makes new cells.  The constructor and the methods of a new type are reduced once more, so they enter
the layout at once, one rank below the list that they come from.  The cell that replaces the list
enters it with the rank of the list, when no rule can replace it any more.

`sound_reduce` is the induction on the fuel, which has to be as large as the rank of what is
reduced.
-/

namespace RegisterLisp
namespace Store

open Layout (Evolves)

variable {L L' L'' : Layout} {w w' : Work} {r : Ref} {sh : Shape Ref} {go : Ref → WorkM Ref}
  {base n m id : Nat}

/-! ## New cells -/

section Make

variable (hvalid : L.Valid w.store) (hknown : Known L w) (hbase : base ≤ w.store.size)
  (hsh : L.Fits .bare n sh)
include hvalid hknown hbase hsh

/-- A new cell is loose until something refers to it. -/
theorem simulates_make_loose :
    Simulates base L w (make sh) (.ok (sh.map w.store.tree).toTerm) fun L' w' r t =>
      w'.store.tree r = t ∧ ∃ id, r = .cell id ∧ L'.Loose w'.store .bare base n id := by
  obtain ⟨hevolves, hloose, htree⟩ := Layout.evolves_alloc hvalid hbase hsh
  exact ⟨_, L, _, rfl, .of_evolves hknown hevolves fun hzone _ => hzone, htree, _, rfl, hloose⟩

theorem simulates_make_bare (hnormal : (sh.map w.store.tree).toTerm.HasNormalParts) :
    Simulates base L w (make sh) (.ok (sh.map w.store.tree).toTerm) (Reduced (n + 1)) := by
  obtain ⟨hevolves, hloose, htree⟩ := Layout.evolves_alloc hvalid hbase hsh
  have hadd := hevolves.trans (hloose.evolves_add hevolves.valid)
  refine ⟨_, L.add .bare w.store.size n, _, rfl, .of_evolves hknown hadd ?_,
    ⟨Layout.zone_add_self, ?_⟩, htree, hnormal⟩
  · -- Nothing is known about the new cell.
    intro id v hzone hvisit
    rwa [Layout.zone_add_of_ne (hknown.lt_size hvisit).ne] at hzone
  · rw [Layout.rank_add_self]
    exact Nat.lt_succ_self n

end Make

/-- The cells of the methods of a type. -/
theorem simulates_make_methods {methods : List (Symbol × Lambda Ref)} (hvalid : L.Valid w.store)
    (hknown : Known L w) (hbase : base ≤ w.store.size)
    (hbodies : ∀ m ∈ methods, ∀ r ∈ m.2.body, L.Under .bare n r)
    (hnormal : ∀ m ∈ methods, ∀ t ∈ m.2.body.map w.store.tree, Term.Normal t) :
    Simulates base L w
      (methods.mapM fun (name, f) => do return (name, ← make (.func f.params f.body)))
      (.ok (methods.map fun m => (m.1, Term.func m.2.params (m.2.body.map w.store.tree))))
      fun L' w' => List.Forall₂ (ReducedMethod (n + 1) L' w') := by
  have hpure : (methods.mapM fun m =>
        pure (m.1, Term.func m.2.params (m.2.body.map w.store.tree)) : Except FormError _) =
      .ok (methods.map fun m => (m.1, Term.func m.2.params (m.2.body.map w.store.tree))) :=
    List.mapM_pure
  rw [← hpure]
  refine .mapM hvalid hknown (fun h hm => hm.advances h) ?_
  rintro ⟨name, f⟩ hm L' w' hadvances
  have hevolves := hadvances.evolves
  have htrees : f.body.map w'.store.tree = f.body.map w.store.tree :=
    Term.map_eq_of_normal (fun r hr => hevolves.settles (hbodies _ hm r hr)) (hnormal _ hm)
  have hmake : Simulates base L' w' (make (.func f.params f.body))
      (.ok (.func f.params (f.body.map w'.store.tree))) (Reduced (n + 1)) := by
    refine simulates_make_bare hevolves.valid hadvances.known (hbase.trans hevolves.size_le)
      (fun r hr => (hbodies _ hm r hr).grows hevolves.grows) ?_
    simp only [Shape.map, htrees]
    exact Term.Normal.func (hnormal _ hm)
  rw [htrees] at hmake
  refine hmake.andThen fun hadvances' hr => ?_
  exact .pure hadvances'.evolves.valid hadvances'.known ⟨rfl, hr⟩

/-- The cells of a type: its members have one rank less than the type itself. -/
theorem simulates_install_typeDef {d : TypeDecl Ref} (hvalid : L.Valid w.store)
    (hknown : Known L w) (hbase : base ≤ w.store.size)
    (hparts : ∀ r ∈ (Replacement.typeDef d).parts, L.Under .bare n r)
    (hnormal : ((Replacement.typeDef d).map w.store.tree).toTerm.HasNormalParts) :
    Simulates base L w (install (.typeDef d))
      (.ok ((Replacement.typeDef d).map w.store.tree).toTerm) fun L' w' r t =>
        w'.store.tree r = t ∧ ∃ id, r = .cell id ∧ L'.Loose w'.store .bare base (n + 1) id := by
  have hbody : ∀ r ∈ d.ctor.body, L.Under .bare n r :=
    fun r hr => hparts r (List.mem_append_left _ hr)
  have hbodies : ∀ m ∈ d.methods, ∀ r ∈ m.2.body, L.Under .bare n r :=
    fun m hm r hr => hparts r (List.mem_append_right _ (List.mem_flatMap.2 ⟨m, hm, hr⟩))
  obtain ⟨hctor, hmethods⟩ : (∀ t ∈ d.ctor.body.map w.store.tree, Term.Normal t) ∧
      ∀ m ∈ d.methods, ∀ t ∈ m.2.body.map w.store.tree, Term.Normal t := by
    cases hnormal with
    | typeDef hplaced hplaced' =>
        simp only [List.map_map, List.mem_map] at hplaced'
        exact ⟨hplaced.normal_of_mem_body, fun m hm =>
          (hplaced' _ ⟨m, hm, rfl⟩ : Term.Placed (.func _ _)).normal_of_mem_body⟩
  -- First the cell of the constructor, then those of the methods, then that of the type.
  have hmake : Simulates base L w (make (.func d.ctor.params d.ctor.body)) _ _ :=
    simulates_make_bare hvalid hknown hbase hbody (Term.Normal.func hctor)
  refine hmake.andThen fun {L' w' c} hadvances hc => ?_
  have hevolves := hadvances.evolves
  -- Normal bodies stand for the same trees in the store with the new cell.
  have htrees : ∀ m ∈ d.methods, m.2.body.map w'.store.tree = m.2.body.map w.store.tree :=
    fun m hm => Term.map_eq_of_normal (fun r hr => hevolves.settles (hbodies m hm r hr))
      (hmethods m hm)
  have hmake' := simulates_make_methods hevolves.valid hadvances.known
    (hbase.trans hevolves.size_le) (fun m hm r hr => (hbodies m hm r hr).grows hevolves.grows)
    fun m hm => (htrees m hm).symm ▸ hmethods m hm
  refine hmake'.andThen fun {L'' w'' ms} hadvances' hms => ?_
  have hc' := hc.advances hadvances'
  have hfits : L''.Fits .bare (n + 1) (.typeDef d.name d.fields c ms) :=
    ⟨hc'.under, forall_mem_of_forall₂ hms fun h => h.2.under⟩
  have hmake'' := simulates_make_loose hadvances'.evolves.valid hadvances'.known
    (hbase.trans (hevolves.size_le.trans hadvances'.evolves.size_le)) hfits
  have htree : (Shape.map w''.store.tree (.typeDef d.name d.fields c ms)).toTerm =
      ((Replacement.typeDef d).map w.store.tree).toTerm := by
    simp only [Shape.map, Shape.toTerm, Replacement.map, Replacement.toTerm, hc'.tree_eq,
      map_eq_of_forall₂ hms fun h => h.tree_eq, List.map_map]
    refine congrArg (Term.typeDef d.name d.fields _) (List.map_congr_left fun m hm => ?_)
    exact congrArg (fun body => (m.1, Term.func m.2.params body)) (htrees m hm)
  rw [htree] at hmake''
  exact hmake''

/-- What a rule puts in place is a part of the list, or a new cell. -/
theorem simulates_install {new : Replacement Ref} (hvalid : L.Valid w.store) (hknown : Known L w)
    (hbase : base ≤ w.store.size) (hn : 0 < n)
    (hparts : ∀ r ∈ new.parts, L.Under .bare (n - 1) r)
    (hnormal : (new.map w.store.tree).toTerm.HasNormalParts) :
    Simulates base L w (install new) (.ok (new.map w.store.tree).toTerm) fun L' w' r t =>
      w'.store.tree r = t ∧ (new = .part r ∧ L'.Under .bare n r ∨
        ∃ id, r = .cell id ∧ L'.Loose w'.store .bare base n id) := by
  have hle : n - 1 ≤ n := Nat.sub_le n 1
  have hcell : Simulates base L w (install new) (.ok (new.map w.store.tree).toTerm)
        (fun L' w' r t => w'.store.tree r = t ∧
          ∃ id, r = .cell id ∧ L'.Loose w'.store .bare base n id) ∨
      ∃ r, new = .part r := by
    cases new with
    | part r => exact Or.inr ⟨r, rfl⟩
    | list items =>
        have hfits : L.Fits .bare n (.list items) := ⟨hn, hparts⟩
        exact Or.inl (simulates_make_loose hvalid hknown hbase hfits)
    | func f =>
        have hfits : L.Fits .bare n (.func f.params f.body) := fun r hr => (hparts r hr).mono hle
        exact Or.inl (simulates_make_loose hvalid hknown hbase hfits)
    | typeDef d =>
        have htype := simulates_install_typeDef hvalid hknown hbase hparts hnormal
        rw [Nat.sub_add_cancel hn] at htype
        exact Or.inl htype
  rcases hcell with hcell | ⟨r, rfl⟩
  · exact hcell.imp (Nat.le_refl base) fun _ _ h => ⟨h.1, Or.inr h.2⟩
  · have hr : L.Under .bare n r := (hparts r (by simp [Replacement.parts])).mono hle
    exact .pure hvalid hknown ⟨rfl, Or.inl ⟨rfl, hr⟩⟩

/-! ## Rules -/

/-- What stands in the place of a form of rank `n` while rules are applied. -/
inductive Candidate (base : Nat) (L : Layout) (w : Work) (n : Nat) : Ref → Prop
  | atom (a : Atom) : Candidate base L w n (.atom a)
  | cell {m id : Nat} (hm : m ≤ n) (h : Seat base L w m id) : Candidate base L w n (.cell id)

theorem Candidate.grounded (h : Candidate base L w n r) (hvalid : L.Valid w.store) :
    w.store.Grounded r := by
  cases h with
  | atom a => exact .atom a
  | cell _ hseat => exact hseat.grounded hvalid

/-- The items of a candidate have lower ranks. -/
theorem Candidate.under_items {items : List Ref} (h : Candidate base L w n r)
    (hvalid : L.Valid w.store) (hview : w.store.view r = .shape (.list items)) :
    0 < n ∧ ∀ r ∈ items, L.Under .bare (n - 1) r := by
  cases h with
  | atom a => cases hview
  | @cell m id hm hseat =>
      have hfits := hseat.fits hvalid
      rw [View.shape.inj hview] at hfits
      exact ⟨hfits.1.trans_le hm, fun r hr => (hfits.2 r hr).mono (Nat.sub_le_sub_right hm 1)⟩

/-- The parts of a candidate are reduced in place. -/
theorem Sound.candidate (hgo : Sound go n) (hready : Ready L w n)
    (hbase : base ≤ w.store.size) (hr : Candidate base L w n r) :
    Simulates base L w (reduceParts go r) (Term.inPlace (w.store.tree r)) fun L' w' _ t =>
      Candidate base L' w' n r ∧ w'.store.tree r = t := by
  cases hr with
  | atom a =>
      rw [tree_atom]
      exact .pure hready.valid hready.known ⟨.atom a, tree_atom a⟩
  | cell hm hseat =>
      refine (hgo.parts hready hbase hseat hm).imp (Nat.le_refl base) ?_
      intro L' w' _ t _ _ h
      exact ⟨.cell hm h.1, h.2⟩

/-- The state in which a form that was put in place counts as reduced. -/
def Work.noteReduced (w : Work) : Ref → Work
  | .atom _ => w
  | .cell id => w.note id (.done (.cell id))

@[simp]
theorem store_noteReduced (r : Ref) : (w.noteReduced r).store = w.store := by
  cases r <;> rfl

/-- What applying a rule comes to once the form that it puts in place is there. -/
theorem run_applyRules_of_install {rule : Rule} {items : List Ref}
    {new : Replacement Ref} {r' : Ref} (hview : w.store.view r = .shape (.list items))
    (happly : rule.apply w.store.access items = .ok (some new))
    (hinstall : (install new).run w = some (.ok r', w')) (go : Ref → WorkM Ref) (depth : Nat)
    (rules : List Rule) :
    ∃ log, (applyRules go depth (rule :: rules) r).run w =
      (reduceParts go r' >>= fun _ => applyRules go depth rules r').run
        { w'.noteReduced r' with log } := by
  rw [applyRules, run_get_bind]
  simp only [hview, happly]
  rw [run_bind_ok hinstall]
  cases r' with
  | atom a => exact ⟨_, rfl⟩
  | cell id => exact ⟨_, rfl⟩

/-- A part that was there, or a loose cell, may be noted as reduced and is the next candidate. -/
theorem candidate_noteReduced (hvalid : L.Valid w.store) (hknown : Known L w)
    (h : L.Under .bare n r ∧ Term.Normal (w.store.tree r) ∨
      ∃ id, r = .cell id ∧ L.Loose w.store .bare base n id) (log : List Record) :
    Advances base L w L { w.noteReduced r with log } ∧
      Candidate base L { w.noteReduced r with log } n r := by
  cases r with
  | atom a => exact ⟨(Advances.refl hvalid hknown).withLog log, .atom a⟩
  | cell id =>
      rcases h with ⟨⟨hzone, hrank⟩, hnormal⟩ | ⟨_, hid, hloose⟩
      · have hadvances : Advances base L w L (w.note id (.done (.cell id))) :=
          advances_note hvalid hknown (hvalid.lt_size hzone) (fun _ => hzone) fun _ =>
            ⟨under_self hzone, hnormal.hasNormalParts, hnormal.normalize_eq⟩
        exact ⟨hadvances.withLog log, .cell hrank.le (.bare hzone rfl)⟩
      · cases hid
        have hadvances : Advances base L w L (w.note id (.done (.cell id))) :=
          advances_note hvalid hknown hloose.lt_size
            (fun hlt => absurd hlt hloose.base_le.not_gt)
            fun hzone => by simp [hloose.zone] at hzone
        exact ⟨hadvances.withLog log, .cell (Nat.le_refl n) (.loose hloose Work.visit?_note_self)⟩

/-- A rule that declines, and any rule where there is no list, passes the form on as it is. -/
theorem run_applyRules_of_pass {rule : Rule} (h : ∀ items, w.store.view r = .shape (.list items) →
      rule.apply w.store.access items = .ok none) (go : Ref → WorkM Ref) (depth : Nat)
    (rules : List Rule) :
    (applyRules go depth (rule :: rules) r).run w = (applyRules go depth rules r).run w := by
  rw [applyRules, run_get_bind]
  cases hview : w.store.view r with
  | atom a => simp only [hview]
  | shape layer =>
      cases layer with
      | list items => simp only [hview, h items hview]
      | _ => simp only [hview]

theorem run_applyRules_of_error {rule : Rule} {items : List Ref} {cause : FormError}
    (hview : w.store.view r = .shape (.list items))
    (happly : rule.apply w.store.access items = .error cause) (go : Ref → WorkM Ref) (depth : Nat)
    (rules : List Rule) :
    (applyRules go depth (rule :: rules) r).run w = some (.error cause, w) := by
  rw [applyRules, run_get_bind]
  simp only [hview, happly]
  rfl

/-- What is expected from the rules, of which those that are left do it. -/
def FollowsRules (go : Ref → WorkM Ref) (depth base n : Nat) (rules : List Rule) : Prop :=
  ∀ {L w r}, Ready L w n → base ≤ w.store.size → Candidate base L w n r →
    (w.store.tree r).HasNormalParts →
    Simulates base L w (applyRules go depth rules r) (Term.applyRules rules (w.store.tree r))
      fun L' w' r' t => Candidate base L' w' n r' ∧ w'.store.tree r' = t

/-- A rule that fires: the form that it puts in place is passed on to the other rules. -/
theorem FollowsRules.fire {rule : Rule} {rules : List Rule} {items : List Ref}
    {new : Replacement Ref} {depth : Nat} (hrest : FollowsRules go depth base n rules)
    (hgo : Sound go n) (hready : Ready L w n) (hbase : base ≤ w.store.size)
    (hr : Candidate base L w n r) (hview : w.store.view r = .shape (.list items))
    (hnormal : ∀ t ∈ items.map w.store.tree, Term.Normal t)
    (happly : rule.apply w.store.access items = .ok (some new)) :
    Simulates base L w (applyRules go depth (rule :: rules) r)
      (Term.applyRules rules (new.map w.store.tree).toTerm)
      fun L' w' r' t => Candidate base L' w' n r' ∧ w'.store.tree r' = t := by
  obtain ⟨hn, hitems⟩ := hr.under_items hready.valid hview
  have happly' : rule.apply Term.access (items.map w.store.tree) =
      .ok (some (new.map w.store.tree)) := by
    rw [hready.valid.apply_tree hitems, happly]
    rfl
  have hparts : (new.map w.store.tree).toTerm.HasNormalParts :=
    Term.hasNormalParts_of_apply hnormal happly'
  obtain ⟨r', L', w', hinstall, hadvances, htree, hplace⟩ := simulates_install hready.valid
    hready.known hbase hn ((hready.valid.handsOn (n - 1)).of_apply hitems happly) hparts
  obtain ⟨log, hrun⟩ := run_applyRules_of_install hview happly hinstall go depth rules
  -- A part of the list that replaces it is normal already, and may be noted as reduced.
  have hplace' : L'.Under .bare n r' ∧ Term.Normal (w'.store.tree r') ∨
      ∃ id, r' = .cell id ∧ L'.Loose w'.store .bare base n id := by
    rcases hplace with ⟨rfl, hunder⟩ | hloose
    · refine Or.inl ⟨hunder, ?_⟩
      rw [htree]
      exact Term.normal_of_apply_part hnormal happly'
    · exact Or.inr hloose
  obtain ⟨hadvances', hr'⟩ :=
    candidate_noteReduced hadvances.evolves.valid hadvances.known hplace' log
  have hadvances'' := hadvances.trans hadvances'
  have htree' : (w'.noteReduced r').store.tree r' = (new.map w.store.tree).toTerm := by
    rw [store_noteReduced, htree]
  refine .of_run_eq hrun hadvances'' ?_
  have hreduce := hgo.candidate (hready.advances hadvances'')
    (hbase.trans hadvances''.evolves.size_le) hr'
  simp only [htree', hparts.inPlace_eq] at hreduce
  refine hreduce.andThen ?_
  rintro L₁ w₁ - hadvances₁ ⟨hr₁, htree₁⟩
  have hadvances₂ := hadvances''.trans hadvances₁
  rw [← htree₁]
  exact hrest (hready.advances hadvances₂) (hbase.trans hadvances₂.evolves.size_le) hr₁
    (htree₁.symm ▸ hparts)

/-- Applying rules to a form with reduced parts. -/
theorem Sound.followsRules (hgo : Sound go n) (depth : Nat) (rules : List Rule) :
    FollowsRules go depth base n rules := by
  induction rules with
  | nil =>
      intro L w r hready _ hr _
      exact .pure hready.valid hready.known ⟨hr, rfl⟩
  | cons rule rules ih =>
      intro L w r hready hbase hr hnormal
      have hground := hr.grounded hready.valid
      by_cases hlist : ∃ items, w.store.view r = .shape (.list items)
      · obtain ⟨items, hview⟩ := hlist
        have htree := tree_of_view hground hview
        have hitems := (hr.under_items hready.valid hview).2
        -- A rule does to the references what it does to their trees.
        have happly' := hready.valid.apply_tree hitems rule
        rw [htree] at hnormal
        cases happly : rule.apply w.store.access items with
        | error cause =>
            have hexpected : Term.applyRules (rule :: rules) (w.store.tree r) = .error cause := by
              rw [happly] at happly'
              simp [htree, Term.applyRules, happly', Except.map]
            rw [hexpected]
            exact ⟨L, w, run_applyRules_of_error hview happly .., .refl hready.valid⟩
        | ok answer =>
            rw [happly] at happly'
            cases answer with
            | none =>
                have hpass : ∀ items, w.store.view r = .shape (.list items) →
                    rule.apply w.store.access items = .ok none := by
                  intro items' hview'
                  cases hview.symm.trans hview'
                  exact happly
                refine .of_run_eq (run_applyRules_of_pass hpass ..) hready.refl ?_
                rw [htree, Term.applyRules_none happly', ← htree]
                exact ih hready hbase hr (htree.symm ▸ hnormal)
            | some new =>
                rw [htree, Term.applyRules_some happly']
                exact ih.fire hgo hready hbase hr hview hnormal happly
      · have hne : ∀ items, w.store.view r ≠ .shape (.list items) := not_exists.1 hlist
        -- Anything but a list is passed over by all rules.
        have htree := tree_ne_list hground hne
        refine .of_run_eq (run_applyRules_of_pass (fun items h => absurd h (hne items)) ..)
          hready.refl ?_
        rw [Term.applyRules_of_ne_list _ htree, ← Term.applyRules_of_ne_list rules htree]
        exact ih hready hbase hr hnormal

/-! ## One cell and everything below it -/

/-- When the rules are through with a form, it may enter the layout. -/
theorem Candidate.enters (h : Candidate base L w n r) (hvalid : L.Valid w.store)
    (hknown : Known L w) (hnormal : Term.Normal (w.store.tree r)) :
    ∃ L', Advances base L w L' w ∧ L'.Under .bare (n + 1) r := by
  cases h with
  | atom a => exact ⟨L, .refl hvalid hknown, trivial⟩
  | @cell m id hm hseat =>
      cases hseat with
      | bare hzone hrank =>
          exact ⟨L, .refl hvalid hknown, hzone, hrank ▸ Nat.lt_succ_of_le hm⟩
      | loose hloose hvisit =>
          have hevolves := hloose.evolves_add hvalid
          refine ⟨L.add .bare id m,
            ⟨hevolves, ⟨hknown.lt_size, ?_⟩, fun hp => hp, fun _ _ _ => rfl⟩,
            Layout.zone_add_self, ?_⟩
          · intro i r hzone hdone
            by_cases hi : i = id
            · subst hi
              obtain rfl : .cell i = r := Visit.done.inj (Option.some.inj (hvisit.symm.trans hdone))
              exact ⟨under_self hzone, hnormal.hasNormalParts, hnormal.normalize_eq⟩
            · rw [Layout.zone_add_of_ne hi] at hzone
              exact (hknown.done hzone hdone).evolves hzone hevolves
          · rw [Layout.rank_add_self]
            exact Nat.lt_succ_of_le hm

/-- Taking up a cell: what is below it can be worked on. -/
theorem Ready.notePending (h : Ready L w n) (hzone : L.zone id = some .bare)
    (hrank : L.rank id ≤ n) : Ready L (w.note id .pending) (L.rank id) := by
  refine ⟨h.valid, ⟨?_, ?_⟩, ?_⟩
  · intro i v hv
    rcases Work.visit?_note_eq_some hv with ⟨rfl, -⟩ | hv
    · exact h.valid.lt_size hzone
    · exact h.known.lt_size hv
  · intro i r hzone' hv
    rcases Work.visit?_note_eq_some hv with ⟨-, hv⟩ | hv
    · cases hv
    · exact h.known.done hzone' hv
  · intro i hv
    rcases Work.visit?_note_eq_some hv with ⟨rfl, -⟩ | hv
    · exact ⟨hzone, Nat.le_refl _⟩
    · obtain ⟨hzone', hrank'⟩ := h.pending hv
      exact ⟨hzone', hrank.trans hrank'⟩

/-- A cell that was taken up has been reduced. -/
theorem Advances.close (h : Advances base L (w.note id .pending) L' w')
    (hzone : L.zone id = some .bare) (h' : Advances base L' w' L'' (w'.note id (.done r))) :
    Advances base L w L'' (w'.note id (.done r)) := by
  refine ⟨h.evolves.trans h'.evolves, h'.known, ?_, ?_⟩
  · intro i hp
    by_cases hi : i = id
    · subst hi
      rw [Work.visit?_note_self] at hp
      cases hp
    · have hp' := h.pending (h'.pending hp)
      rwa [Work.visit?_note_of_ne hi] at hp'
  · intro i hi hzone'
    have hne : i ≠ id := by
      rintro rfl
      exact hzone' hzone
    rw [(h.trans h').visits i hi hzone', Work.visit?_note_of_ne hne]

/-- A cell that is taken up is reduced, and left with normal parts. -/
theorem Sound.takeUp (hgo : Sound go (L.rank id)) (hzone : L.zone id = some .bare)
    (hready : Ready L (w.note id .pending) (L.rank id)) (depth : Nat) :
    Simulates w.store.size L (w.note id .pending)
      (reduceParts go (.cell id) >>= fun _ => applyRules go depth Rule.all (.cell id))
      (Term.normalize (w.store.tree (.cell id))) fun L' w' r t =>
        Candidate w.store.size L' w' (L.rank id) r ∧ w'.store.tree r = t ∧
          (w'.store.tree (.cell id)).HasNormalParts := by
  have hseat : Seat w.store.size L (w.note id .pending) (L.rank id) id := .bare hzone rfl
  refine (hgo.parts hready (Nat.le_refl _) hseat (Nat.le_refl _)).bind (Nat.le_refl _) ?_
  rintro L' w' - t hok hadvances ⟨hseat', rfl⟩
  have hparts : (w'.store.tree (.cell id)).HasNormalParts := Term.hasNormalParts_of_inPlace hok
  have hrules := hgo.followsRules depth Rule.all (hready.advances hadvances)
    hadvances.evolves.size_le (.cell (Nat.le_refl _) hseat') hparts
  refine hrules.imp (Nat.le_refl _) ?_
  rintro L'' w'' r t - hadvances' ⟨hr, htree⟩
  have hzone' : L'.zone id = some .bare := hadvances.evolves.grows.zone hzone
  refine ⟨hr, htree, ?_⟩
  rw [hadvances'.evolves.tree_eq (under_self hzone') hparts]
  exact hparts

/-- A cell that nobody has come to yet is taken up, reduced, and noted with what became of it. -/
theorem Sound.unvisited {fuel depth : Nat} (hgo : Sound (reduce fuel (depth + 1)) (L.rank id))
    (hid : L.Under .bare n (.cell id)) (hready : Ready L w n) (hvisit : w.visit? id = none) :
    Simulates w.store.size L w (reduce (fuel + 1) depth (.cell id))
      (Term.normalize (w.store.tree (.cell id))) fun L' w' r t =>
        L'.Under .bare (L.rank id + 1) r ∧ w'.store.tree r = t ∧
          (w'.store.tree (.cell id)).HasNormalParts := by
  -- The cell is noted before its parts are reduced, and noted again with its result.
  have htaken := hgo.takeUp hid.1 (hready.notePending hid.1 hid.2.le) depth
  have hrun : (reduce (fuel + 1) depth (.cell id)).run w =
      ((reduceParts (reduce fuel (depth + 1)) (.cell id) >>= fun _ =>
        applyRules (reduce fuel (depth + 1)) depth Rule.all (.cell id)) >>= fun r =>
          note id (.done r) >>= fun _ => pure r).run (w.note id .pending) := by
    rw [reduce, run_get_bind, hvisit, bind_assoc]
    rfl
  cases hexpected : Term.normalize (w.store.tree (.cell id)) with
  | error cause =>
      rw [hexpected] at htaken
      obtain ⟨L', w', htaken, hevolves⟩ := htaken
      exact ⟨L', w', hrun.trans (run_bind_error htaken), hevolves⟩
  | ok t =>
      rw [hexpected] at htaken
      obtain ⟨r, L', w', htaken, hadvances, hr, rfl, hparts⟩ := htaken
      have hnormal : Term.Normal (w'.store.tree r) := Term.normal_of_normalize hexpected
      obtain ⟨L'', henters, hunder⟩ := hr.enters hadvances.evolves.valid hadvances.known hnormal
      have hevolves := hadvances.evolves.trans henters.evolves
      have hzone : L''.zone id = some .bare := hevolves.grows.zone hid.1
      -- The store has changed, but what the cell is normalized to has not.
      have hanswer : Answers L'' w'.store id r := by
        refine ⟨(hevolves.grows.rank hid.1).symm ▸ hunder, hparts, ?_⟩
        rw [(hadvances.evolves.settles hid).normalize_eq]
        exact hexpected
      have hnote : Advances w.store.size L'' w' L'' (w'.note id (.done r)) :=
        advances_note henters.evolves.valid henters.known (hevolves.valid.lt_size hzone)
          (fun _ => hzone) fun _ => hanswer
      exact ⟨r, L'', w'.note id (.done r), hrun.trans (run_bind_ok htaken),
        hadvances.close hid.1 (henters.trans hnote), hunder, rfl, hparts⟩

/-- Atoms, and cells that have been reduced before, need no work. -/
theorem sound_of_unvisited {fuel depth : Nat}
    (h : ∀ {L w id}, L.Under .bare n (.cell id) → Ready L w n → w.visit? id = none →
      Simulates w.store.size L w (reduce fuel depth (.cell id))
        (Term.normalize (w.store.tree (.cell id))) fun L' w' r t =>
          L'.Under .bare (L.rank id + 1) r ∧ w'.store.tree r = t ∧
            (w'.store.tree (.cell id)).HasNormalParts) :
    Sound (reduce fuel depth) n := by
  intro L w r m hm hready hr
  cases r with
  | atom a =>
      have hatom := tree_atom (s := w.store) a
      rw [reduce, hatom]
      exact .pure hready.valid hready.known ⟨trivial, hatom, hatom.symm ▸ Term.Normal.atom a⟩
  | cell id =>
      cases hvisit : w.visit? id with
      | none =>
          refine (h (hr.mono hm) hready hvisit).imp (Nat.le_refl _) ?_
          rintro L' w' r t - - ⟨hunder, hrest⟩
          exact ⟨hunder.mono hr.2, hrest⟩
      | some v =>
          cases v with
          | pending => exact absurd (hr.2.trans_le hm) (hready.pending hvisit).2.not_gt
          | done r =>
              have hanswer := hready.known.done hr.1 hvisit
              have hrun : (reduce fuel depth (.cell id)).run w = (pure r : WorkM Ref).run w := by
                cases fuel <;> rw [reduce, run_get_bind, hvisit]
              refine .of_run_eq hrun hready.refl ?_
              rw [hanswer.normalize_eq]
              exact .pure hready.valid hready.known
                ⟨hanswer.under.mono hr.2, rfl, hanswer.hasNormalParts⟩

/-- Reducing a form of a store gives its normal form, if the fuel is not below its rank. -/
theorem sound_reduce {fuel : Nat} : ∀ {depth n : Nat}, n ≤ fuel → Sound (reduce fuel depth) n := by
  induction fuel with
  | zero =>
      intro depth n hn
      obtain rfl := Nat.le_zero.1 hn
      exact sound_of_unvisited fun hid => absurd hid Layout.not_under_zero
  | succ fuel ih =>
      intro depth n hn
      refine sound_of_unvisited fun {L w id} hid hready hvisit => ?_
      have hrank : L.rank id ≤ fuel := Nat.le_of_lt_succ (hid.2.trans_le hn)
      have hgo : Sound (reduce fuel (depth + 1)) (L.rank id) := ih hrank
      exact hgo.unvisited hid hready hvisit

end Store
end RegisterLisp
