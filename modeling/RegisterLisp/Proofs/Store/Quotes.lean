import RegisterLisp.Proofs.Store.Sharing

/-!
# What is changed in place

Normalizing a form changes cells in place, and does not go below a quote.  So the cells that it may
change are those that are met on a path without quotes, and cells that it makes itself.  All others
keep their shapes, whether it succeeds or fails, and also where references go round in a cycle.

A cell inside a quote may be met on another path that has no quote.  Such a cell is changed like any
other, and the quoted form with it (`normalize_changes_quoted`).  Where no path leads around the
quotes (`Store.QuotesApart`), quoted forms stay as they are.
-/

namespace RegisterLisp
namespace Store

open Relation (TransGen ReflTransGen)

/-! ## Territories -/

def Within (T : Nat → Prop) : Ref → Prop
  | .atom _ => True
  | .cell id => T id

/-- A shape that does not lead out of a set of cells, unless it is a quote. -/
def Encloses (T : Nat → Prop) (sh : Shape Ref) : Prop :=
  sh.isQuoted = false → ∀ r ∈ sh.parts, Within T r

/-- Work on the store `s` that has changed cells of `T` only, and does not lead out of `T`. -/
structure Confined (T : Nat → Prop) (s : Store) (w : Work) : Prop where
  shape_eq : ∀ {i}, ¬ T i → w.store.shape i = s.shape i
  encloses : ∀ {i}, T i → Encloses T (w.store.shape i)
  of_size_le : ∀ {i}, w.store.size ≤ i → T i
  done : ∀ {id r}, w.visit? id = some (.done r) → Within T r

section Cells

variable {s : Store} {sh : Shape Ref} {id i j : Nat}

instance : Decidable (s.Holds i j) :=
  inferInstanceAs (Decidable (j ∈ (s.shape i).cells))

/-- Only one cell changes. -/
theorem shape_setShape_cases (s : Store) (id : Nat) (sh : Shape Ref) (i : Nat) :
    (s.setShape id sh).shape i = s.shape i ∨ i = id ∧ (s.setShape id sh).shape i = sh := by
  by_cases hi : i = id
  · subst hi
    by_cases hlt : i < s.size
    · exact Or.inr ⟨rfl, shape_setShape_self hlt⟩
    · simp only [size] at hlt
      exact Or.inl (by simp [shape, setShape, hlt])
  · exact Or.inl (shape_setShape_of_ne hi)

theorem shape_alloc_of_ne (h : i ≠ s.size) : (s.alloc sh).2.shape i = s.shape i := by
  simp only [size] at h
  simp [shape, alloc, Array.getElem?_push, h]

end Cells

namespace Confined

variable {T : Nat → Prop} {s : Store} {w : Work} {sh : Shape Ref} {r : Ref} {id : Nat}

/-- A cell that may change is given a shape that does not lead out. -/
theorem setShape (h : Confined T s w) (hid : T id) (hsh : Encloses T sh) :
    Confined T s { w with store := w.store.setShape id sh } where
  shape_eq {i} hi := by
    rcases shape_setShape_cases w.store id sh i with heq | ⟨rfl, -⟩
    · exact heq.trans (h.shape_eq hi)
    · exact absurd hid hi
  encloses {i} hi := by
    rcases shape_setShape_cases w.store id sh i with heq | ⟨-, heq⟩
    · exact heq.symm ▸ h.encloses hi
    · exact heq.symm ▸ hsh
  of_size_le hle := h.of_size_le (by rwa [size_setShape] at hle)
  done := h.done

/-- A new cell lies in the territory. -/
theorem alloc (h : Confined T s w) (hsh : Encloses T sh) :
    Confined T s { w with store := (w.store.alloc sh).2 } where
  shape_eq {i} hi := by
    have hne : i ≠ w.store.size := fun heq => hi (h.of_size_le heq.ge)
    exact (shape_alloc_of_ne hne).trans (h.shape_eq hi)
  encloses {i} hi := by
    by_cases hne : i = w.store.size
    · subst hne
      exact shape_alloc_self (s := w.store) ▸ hsh
    · exact shape_alloc_of_ne hne ▸ h.encloses hi
  of_size_le hle := by
    rw [size_alloc] at hle
    exact h.of_size_le (Nat.le_of_succ_le hle)
  done := h.done

/-- Notes change no cell. -/
theorem note {v : Visit} (h : Confined T s w) (hv : ∀ r, v = .done r → Within T r) :
    Confined T s (w.note id v) where
  shape_eq := h.shape_eq
  encloses := h.encloses
  of_size_le := h.of_size_le
  done hvisit := by
    rcases Work.visit?_note_eq_some hvisit with ⟨-, rfl⟩ | hvisit
    · exact hv _ rfl
    · exact h.done hvisit

/-- Rules see nothing of a reference that leads out of the territory. -/
theorem handsOn (h : Confined T s w) : w.store.HandsOn (Within T) where
  atom _ := trivial
  items {r items} hr hitems := by
    cases r with
    | atom a => cases hitems
    | cell id =>
        have hencloses := h.encloses hr
        cases hshape : w.store.shape id <;> simp only [view, hshape] at hitems <;> cases hitems
        rw [hshape] at hencloses
        exact hencloses rfl
  body {r params body} hr hbody := by
    cases r with
    | atom a => cases hbody
    | cell id =>
        have hencloses := h.encloses hr
        cases hshape : w.store.shape id <;> simp only [view, hshape] at hbody <;> cases hbody
        rw [hshape] at hencloses
        exact hencloses rfl

end Confined

/-! ## Steps that stay in a territory -/

section Steps

variable {α β : Type} (T : Nat → Prop) (s : Store)

/-- Where a step ends, with or without success, its work is confined, and what it returns has a
property. -/
def Ends (Q : α → Prop) : Option (Except FormError α × Work) → Prop
  | none => True
  | some (.ok a, w) => Q a ∧ Confined T s w
  | some (.error _, w) => Confined T s w

/-- A step that keeps work confined. -/
def Stays (Q : α → Prop) (x : WorkM α) : Prop :=
  ∀ w, Confined T s w → Ends T s Q (x.run w)

end Steps

namespace Stays

variable {T : Nat → Prop} {s : Store} {α β : Type} {P Q : α → Prop} {R : β → Prop}
  {go : Ref → WorkM Ref} {sh : Shape Ref} {r : Ref} {id : Nat}

theorem pure {a : α} (ha : Q a) : Stays T s Q (pure a) :=
  fun _ hw => ⟨ha, hw⟩

theorem throw (cause : FormError) : Stays T s Q (throw cause) :=
  fun _ hw => hw

/-- Work stays confined in sequence, also if the first step fails. -/
theorem bind {x : WorkM α} {f : α → WorkM β} (hx : Stays T s Q x)
    (hf : ∀ a, Q a → Stays T s R (f a)) : Stays T s R (x >>= f) := by
  intro w hw
  have hends := hx w hw
  change Ends T s R (Option.bind (x.run w) fun p => ExceptT.bindCont f p.1 p.2)
  rcases hrun : x.run w with _ | ⟨_ | a, w'⟩
  · trivial
  · rw [hrun] at hends
    exact hends
  · rw [hrun] at hends
    exact hf a hends.1 w' hends.2

/-- A step that looks at the state first. -/
theorem get_bind {f : Work → WorkM α} (h : ∀ w, Confined T s w → Stays T s Q (f w)) :
    Stays T s Q (get >>= f) :=
  fun w hw => h w hw w hw

/-- Work stays confined over the items of a list. -/
theorem mapM {f : β → WorkM α} {xs : List β} (h : ∀ x ∈ xs, Stays T s Q (f x)) :
    Stays T s (fun ys => ∀ y ∈ ys, Q y) (xs.mapM f) := by
  induction xs with
  | nil => exact pure (by simp)
  | cons x xs ih =>
      rw [List.mapM_cons]
      refine bind (h x (by simp)) fun y hy => ?_
      refine bind (ih fun x hx => h x (List.mem_cons_of_mem _ hx)) fun ys hys => ?_
      exact pure (List.forall_mem_cons.2 ⟨hy, hys⟩)

theorem note {v : Visit} (hv : ∀ r, v = .done r → Within T r) :
    Stays T s (fun _ => True) (note id v) :=
  fun _ hw => ⟨trivial, hw.note hv⟩

theorem tell (records : List Record) : Stays T s (fun _ => True) (tell records) :=
  fun _ hw => ⟨trivial, hw.shape_eq, hw.encloses, hw.of_size_le, hw.done⟩

/-- The step that changes a cell. -/
theorem setShape (hid : T id) (hsh : Encloses T sh) :
    Stays T s (fun _ => True) (update (·.setShape id sh)) :=
  fun _ hw => ⟨trivial, hw.setShape hid hsh⟩

/-- New cells may be changed, so making one stays confined. -/
theorem make (hsh : Encloses T sh) : Stays T s (Within T) (make sh) :=
  fun _ hw => ⟨hw.of_size_le (Nat.le_refl _), hw.alloc hsh⟩

/-- The members of a type enclose what its constructor and its methods do. -/
theorem encloses_typeDef {name : Symbol} {fields : List Symbol} {ctor : Ref}
    {methods : List (Symbol × Ref)} (hctor : Within T ctor) (hmethods : ∀ m ∈ methods, Within T m.2) :
    Encloses T (.typeDef name fields ctor methods) := by
  intro _ r hr
  rcases List.mem_cons.1 hr with rfl | hr
  · exact hctor
  · obtain ⟨m, hm, rfl⟩ := List.mem_map.1 hr
    exact hmethods m hm

/-- What a rule puts in place is made of parts that it was given. -/
theorem install {new : Replacement Ref} (h : ∀ r ∈ new.parts, Within T r) :
    Stays T s (Within T) (install new) := by
  cases new with
  | part r => exact pure (h r (by simp [Replacement.parts]))
  | list items => exact make fun _ => h
  | func f => exact make fun _ => h
  | typeDef d =>
      have hctor : ∀ r ∈ d.ctor.body, Within T r := fun r hr => h r (List.mem_append_left _ hr)
      have hmethods : ∀ m ∈ d.methods, ∀ r ∈ m.2.body, Within T r :=
        fun m hm r hr => h r (List.mem_append_right _ (List.mem_flatMap.2 ⟨m, hm, hr⟩))
      refine bind (make fun _ => hctor) fun ctor hctor => ?_
      refine bind (mapM (Q := fun m => Within T m.2) fun m hm => ?_) fun methods hmethods => ?_
      · exact bind (make fun _ => hmethods m hm) fun r hr => pure hr
      · exact make (encloses_typeDef hctor hmethods)

/-! ## Reducing -/

/-- A constructor or method is reduced without leading out. -/
theorem reduceSlot (hgo : ∀ r, Within T r → Stays T s (Within T) (go r)) (hr : Within T r) :
    Stays T s (Within T) (reduceSlot go r) := by
  refine bind (hgo r hr) fun result hresult => ?_
  cases result with
  | atom a => exact pure hr
  | cell id => exact pure hresult

/-- The parts of a cell are replaced by parts in the territory.  A quote is left alone. -/
theorem reduceParts (hgo : ∀ r, Within T r → Stays T s (Within T) (go r)) (hr : Within T r) :
    Stays T s (fun _ => True) (reduceParts go r) := by
  cases r with
  | atom a => exact pure trivial
  | cell id =>
      refine get_bind fun w hw => ?_
      have hencloses := hw.encloses hr
      cases hshape : w.store.shape id with
      | list items =>
          rw [hshape] at hencloses
          refine bind (mapM fun x hx => hgo x (hencloses rfl x hx)) fun items hitems => ?_
          exact setShape hr fun _ => hitems
      | quoted inner => exact pure trivial
      | func params body =>
          rw [hshape] at hencloses
          refine bind (mapM fun x hx => hgo x (hencloses rfl x hx)) fun body hbody => ?_
          exact setShape hr fun _ => hbody
      | typeDef name fields ctor methods =>
          rw [hshape] at hencloses
          have hparts := List.forall_mem_cons.1 (hencloses rfl)
          refine bind (reduceSlot hgo hparts.1) fun ctor hctor => ?_
          refine bind (mapM (Q := fun m => Within T m.2) fun m hm => ?_) fun methods hmethods => ?_
          · have hm' : Within T m.2 := hparts.2 _ (List.mem_map_of_mem hm)
            exact bind (reduceSlot hgo hm') fun r hr => pure hr
          · exact setShape hr (encloses_typeDef hctor hmethods)

/-- Rules build from parts of the form, so what they put in place does not lead out. -/
theorem applyRules (hgo : ∀ r, Within T r → Stays T s (Within T) (go r)) (depth : Nat)
    (rules : List Rule) : ∀ {r}, Within T r → Stays T s (Within T) (applyRules go depth rules r) := by
  induction rules with
  | nil => exact fun hr => pure hr
  | cons rule rules ih =>
      intro r hr
      refine get_bind fun w hw => ?_
      dsimp only
      split
      · rename_i items hview
        have hitems : ∀ x ∈ items, Within T x := hw.handsOn.items hr (by rw [hview]; rfl)
        split
        · exact throw _
        · exact ih hr
        · rename_i new happly
          -- The rule sees the items and what can be seen of them, all inside of the territory.
          refine bind (install (hw.handsOn.of_apply hitems happly)) fun result hresult => ?_
          refine get_bind fun _ _ => bind (tell _) fun _ _ => ?_
          have hrest : Stays T s (Within T)
              (Store.reduceParts go result >>= fun _ => Store.applyRules go depth rules result) :=
            bind (reduceParts hgo hresult) fun _ _ => ih hresult
          cases result with
          | atom a => exact hrest
          | cell id => exact bind (note fun r hr => by cases hr; exact hresult) fun _ _ => hrest
      · exact ih hr

/-- Reducing a form changes what it can reach without a quote, and nothing else. -/
theorem reduce (fuel : Nat) :
    ∀ depth {r}, Within T r → Stays T s (Within T) (reduce fuel depth r) := by
  induction fuel using Nat.strong_induction_on with
  | _ fuel ih =>
      intro depth r hr
      cases r with
      | atom a =>
          rw [Store.reduce]
          exact pure trivial
      | cell id =>
          rw [Store.reduce.eq_def]
          refine get_bind fun w hw => ?_
          -- The cell has been reduced before, is being reduced, or is met for the first time.
          split
          · exact pure (hw.done ‹_›)
          · exact pure hr
          · cases fuel with
            | zero => exact fun _ _ => trivial
            | succ fuel =>
                have hgo : ∀ r, Within T r →
                    Stays T s (Within T) (Store.reduce fuel (depth + 1) r) :=
                  fun r hr => ih fuel (Nat.lt_succ_self fuel) (depth + 1) hr
                refine bind (note fun r hr => by cases hr) fun _ _ => ?_
                refine bind (reduceParts hgo hr) fun _ _ => ?_
                refine bind (applyRules hgo depth Rule.all hr) fun result hresult => ?_
                refine bind (note fun r hr => ?_) fun _ _ => pure hresult
                cases hr
                exact hresult

end Stays

/-! ## Normalizing -/

section Normalize

variable {s : Store} {root : Ref} {id : Nat}

def Changeable (s : Store) (root : Ref) (id : Nat) : Prop :=
  s.OutsideQuotes [root] id ∨ s.size ≤ id

/-- At the start nothing has been changed. -/
theorem confined_start (s : Store) (root : Ref) :
    Confined (s.Changeable root) s { store := s } where
  shape_eq _ := rfl
  encloses {i} hi := by
    intro hquoted r hr
    cases r with
    | atom a => trivial
    | cell j =>
        have hij : s.Holds i j := holds_iff.2 hr
        -- There are no cells beyond the size of the store that could hold others.
        have houtside := hi.resolve_right (Nat.not_le.2 (lt_size_of_holds hij))
        exact Or.inl (houtside.step ⟨hij, hquoted⟩)
  of_size_le := Or.inr
  done hvisit := by cases hvisit

/-- Up to parent links, the store afterwards is one in which work was confined. -/
theorem confined_normalize (s : Store) (root : Ref) :
    ∃ w, Confined (s.Changeable root) s w ∧ SameShapes w.store (s.normalize root).store := by
  have hroot : Within (s.Changeable root) root := by
    cases root with
    | atom a => trivial
    | cell id => exact Or.inl ⟨id, List.mem_singleton_self _, .refl⟩
  have hends := Stays.reduce (2 * s.size + 2) 1 hroot _ (confined_start s root)
  unfold normalize
  rcases hrun : (reduce (2 * s.size + 2) 1 root).run { store := s } with _ | ⟨cause | result, w⟩
  · exact ⟨_, confined_start s root, .refl s⟩
  · rw [hrun] at hends
    exact ⟨w, hends, .refl _⟩
  · rw [hrun] at hends
    exact ⟨w, hends.2, sameShapes_relink _ _⟩

/-- A cell that is met only through quotes, or not at all, is still there and keeps its shape. -/
theorem shape_normalize (hid : id < s.size) (houtside : ¬ s.OutsideQuotes [root] id) :
    id < (s.normalize root).store.size ∧ (s.normalize root).store.shape id = s.shape id := by
  obtain ⟨w, hconfined, hshapes⟩ := confined_normalize s root
  have hkept : ¬ s.Changeable root id := fun h => h.elim houtside hid.not_ge
  constructor
  · rw [hshapes.size]
    exact Nat.not_le.1 fun hle => hkept (hconfined.of_size_le hle)
  · rw [hshapes.shape, hconfined.shape_eq hkept]

theorem IsAcyclic.lt_size_of_insideQuotes (h : s.IsAcyclic) (hid : s.InsideQuotes [root] id) :
    id < s.size := by
  obtain ⟨_, _, -, -, -, hbelow⟩ := hid
  obtain ⟨_, -, hholds⟩ := TransGen.tail'_iff.1 hbelow
  exact h.lt_size hholds

end Normalize

/-- Whether normalizing succeeds or fails, it changes no cell that is not met on a path without
quotes, in any store.  So where there are no cycles and no path leads around the quotes, every form
inside a quote keeps its shape and its tree. -/
theorem normalize_keeps_quoted (s : Store) (root : Ref) :
    (∀ id < s.size, ¬ s.OutsideQuotes [root] id →
      (s.normalize root).store.shape id = s.shape id) ∧
    (s.IsAcyclic → s.QuotesApart [root] → ∀ id, s.InsideQuotes [root] id →
      (s.normalize root).store.shape id = s.shape id ∧
        (s.normalize root).store.tree (.cell id) = s.tree (.cell id)) := by
  refine ⟨fun id hid houtside => (shape_normalize hid houtside).2, ?_⟩
  intro hacyclic hquotes id hid
  have hkept : ∀ i, s.InsideQuotes [root] i →
      i < (s.normalize root).store.size ∧ (s.normalize root).store.shape i = s.shape i :=
    fun i hi => shape_normalize (hacyclic.lt_size_of_insideQuotes hi) fun hout => hquotes i ⟨hout, hi⟩
  have hground : s.Grounded (.cell id) :=
    hacyclic.grounded (hacyclic.lt_size_of_insideQuotes hid)
  refine ⟨(hkept id hid).2, ?_⟩
  refine (tree_eq_of_shape_eq (fun i hi => (hkept i hi).1) (fun i hi => (hkept i hi).2)
    (fun i j hi hij => hi.step hij) hground ?_).2
  rintro i hi
  cases hi
  exact hid

/-- A list is normalized around a quoted sum, whose copy outside of the quote is computed. -/
theorem normalize_keeps_quoted_sharedForms :
    (1 < sharedForms.size ∧ ¬ sharedForms.OutsideQuotes [.cell 4] 1 ∧ sharedForms.IsAcyclic ∧
      sharedForms.QuotesApart [.cell 4] ∧ sharedForms.InsideQuotes [.cell 4] 1) ∧
    (sharedForms.normalize (.cell 4)).store.shape 3 ≠ sharedForms.shape 3 ∧
    (sharedForms.normalize (.cell 4)).store.shape 1 = sharedForms.shape 1 ∧
    (sharedForms.normalize (.cell 4)).store.tree (.cell 1) = sharedForms.tree (.cell 1) := by
  have hquotes : sharedForms.QuotesApart [.cell 4] :=
    quotesApart_of_marks [1] (by decide) (by decide)
  have hinside : sharedForms.InsideQuotes [.cell 4] 1 :=
    ⟨4, 2, by decide, .single (by decide), rfl, .single (by decide)⟩
  have houtside : ¬ sharedForms.OutsideQuotes [.cell 4] 1 := fun h => hquotes 1 ⟨h, hinside⟩
  obtain ⟨hkept, hkept'⟩ := normalize_keeps_quoted sharedForms (.cell 4)
  exact ⟨⟨by decide, houtside, isAcyclic_sharedForms, hquotes, hinside⟩, by decide +kernel,
    hkept 1 (by decide) houtside, (hkept' isAcyclic_sharedForms hquotes 1 hinside).2⟩

/-- A list that holds a list with a sum twice: as it is, and inside of a quote. -/
def quotedTwice : Store where
  cells := #[
    ⟨.list [.atom (.symbol ⟨"+"⟩), .atom (.number 1.0), .atom (.number 2.0)], none⟩,
    ⟨.list [.atom (.symbol ⟨"g"⟩), .cell 0], none⟩,
    ⟨.quoted (.cell 1), none⟩,
    ⟨.list [.atom (.symbol ⟨"f"⟩), .cell 1, .cell 2], none⟩]

/-- Sharing lets normalizing reach into a quote: the sum is computed in the quoted list, too. -/
theorem normalize_changes_quoted :
    quotedTwice.IsAcyclic ∧ quotedTwice.Contains (.cell 3) ∧
      quotedTwice.InsideQuotes [.cell 3] 1 ∧ quotedTwice.OutsideQuotes [.cell 3] 1 ∧
      (quotedTwice.normalize (.cell 3)).result = .ok (.cell 3) ∧
      quotedTwice.shape 1 = .list [.atom (.symbol ⟨"g"⟩), .cell 0] ∧
      (quotedTwice.normalize (.cell 3)).store.shape 1 =
        .list [.atom (.symbol ⟨"g"⟩), .atom (.number 3.0)] := by
  have hinside : quotedTwice.InsideQuotes [.cell 3] 1 :=
    ⟨3, 2, by decide, .single (by decide), rfl, .single (by decide)⟩
  have houtside : quotedTwice.OutsideQuotes [.cell 3] 1 :=
    ⟨3, by decide, .single ⟨by decide, rfl⟩⟩
  exact ⟨isAcyclic_of_lt (by decide), by decide, hinside, houtside, by decide +kernel, rfl,
    by decide +kernel⟩

end Store
end RegisterLisp
