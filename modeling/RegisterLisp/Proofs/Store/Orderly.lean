import RegisterLisp.Proofs.Store.Linking

/-!
# Orderly work

While a form is normalized, new cells are made, and cells that are met again must not be taken up
again.  `Work.Orderly` says what keeps this going, in any store, also where references go round in a
cycle.  Every part leads to a cell that was there at the start or has been met.  The only cells that
are made without a note about them are function literals: the constructor and the methods of a type.

A new cell that replaces another is noted before its parts have been reduced, and these may not have
been met.  Until then it is `hidden`, and nothing refers to it.
-/

namespace RegisterLisp
namespace Store

variable {w w' w'' : Work} {r : Ref} {sh : Shape Ref} {v : Visit} {hidden : Nat → Prop}
  {base id i : Nat}

/-! ## Cells that have been met -/

namespace Work

def takenUp (w : Work) : List Nat :=
  (w.visits.filter fun visit => visit.2 = .pending).map Prod.fst

def Met (w : Work) (id : Nat) : Prop :=
  w.visit? id ≠ none

/-- The cells below `base` about which nothing is known. -/
def unmet (base : Nat) (w : Work) : Finset Nat :=
  {id ∈ Finset.range base | w.visit? id = none}

theorem met_note_self : (w.note id v).Met id := by
  rw [Met, visit?_note_self]
  exact Option.some_ne_none v

/-- What is known stays known. -/
theorem Met.note (h : w.Met i) : (w.note id v).Met i := by
  by_cases hi : i = id
  · subst hi
    exact met_note_self
  · rwa [Met, visit?_note_of_ne hi]

/-- A note is about one cell. -/
theorem met_of_note (h : (w.note id v).Met i) : i = id ∨ w.Met i := by
  by_cases hi : i = id
  · exact Or.inl hi
  · rw [Met, visit?_note_of_ne hi] at h
    exact Or.inr h

theorem met_of_mem_takenUp (h : id ∈ w.takenUp) : w.Met id := by
  obtain ⟨visit, hvisit, rfl⟩ := List.mem_map.1 h
  intro hnone
  have hne := List.lookup_eq_none_iff.1 hnone visit (List.mem_filter.1 hvisit).1
  simp at hne

/-- A cell is taken up when work on it begins. -/
theorem takenUp_note_pending : (w.note id .pending).takenUp = id :: w.takenUp := by
  simp [takenUp, note]

/-- And not when it ends. -/
theorem takenUp_note_done : (w.note id (.done r)).takenUp = w.takenUp := by
  simp [takenUp, note]

theorem mem_unmet : id ∈ w.unmet base ↔ id < base ∧ w.visit? id = none := by
  simp [unmet]

/-- Of two states of work the later one knows more and has more cells. -/
structure Extends (w w' : Work) : Prop where
  met : ∀ {id}, w.Met id → w'.Met id
  size_le : w.store.size ≤ w'.store.size

namespace Extends

theorem refl (w : Work) : Extends w w :=
  ⟨fun h => h, Nat.le_refl _⟩

/-- Knowledge grows step by step. -/
theorem trans (h : Extends w w') (h' : Extends w' w'') : Extends w w'' :=
  ⟨fun hid => h'.met (h.met hid), h.size_le.trans h'.size_le⟩

theorem note (w : Work) (id : Nat) (v : Visit) : Extends w (w.note id v) :=
  ⟨Met.note, Nat.le_refl _⟩

theorem withLog (w : Work) (log : List Record) : Extends w { w with log } :=
  ⟨fun h => h, Nat.le_refl _⟩

/-- Nothing becomes unknown again. -/
theorem card_unmet_le (h : Extends w w') : (w'.unmet base).card ≤ (w.unmet base).card := by
  refine Finset.card_le_card fun id hid => ?_
  obtain ⟨hlt, hnone⟩ := mem_unmet.1 hid
  refine mem_unmet.2 ⟨hlt, ?_⟩
  by_contra hmet
  exact h.met hmet hnone

/-- What is enough fuel with some to spare stays so. -/
theorem spare {fuel : Nat} (h : Extends w w') (hfuel : 2 * (w.unmet base).card < fuel) :
    2 * (w'.unmet base).card < fuel :=
  (Nat.mul_le_mul_left 2 h.card_unmet_le).trans_lt hfuel

end Extends

/-- A note about an unknown cell leaves fewer of them, which is what the work is measured by. -/
theorem card_unmet_note_lt (hlt : id < base) (hnone : w.visit? id = none) :
    ((w.note id v).unmet base).card < (w.unmet base).card := by
  refine Finset.card_lt_card ⟨fun i hi => ?_, fun hsubset => ?_⟩
  · obtain ⟨hi, hinone⟩ := mem_unmet.1 hi
    refine mem_unmet.2 ⟨hi, ?_⟩
    by_contra hmet
    exact Met.note hmet hinone
  · exact met_note_self (mem_unmet.1 (hsubset (mem_unmet.2 ⟨hlt, hnone⟩))).2

/-! ## Orderly work -/

/-- A part that may be held by any cell: an atom, or a cell that was there at the start or has been
met, and is not hidden. -/
def Open (base : Nat) (hidden : Nat → Prop) (w : Work) : Ref → Prop
  | .atom _ => True
  | .cell id => ¬ hidden id ∧ (id < base ∨ w.Met id)

/-- An open part stays open. -/
theorem Open.extends (h : w.Open base hidden r) (hext : Extends w w') : w'.Open base hidden r := by
  cases r with
  | atom a => trivial
  | cell id => exact ⟨h.1, h.2.imp_right hext.met⟩

/-- Work on a store that had `base` cells at the start.  Hidden cells have been noted, but not all
of their parts have been reduced. -/
structure Orderly (base : Nat) (hidden : Nat → Prop) (w : Work) : Prop where
  base_le : base ≤ w.store.size
  met_lt : ∀ {i}, w.Met i → i < w.store.size
  hidden_visit : ∀ {i}, hidden i → w.visit? i = some (.done (.cell i))
  parts : ∀ {i}, ¬ hidden i → ∀ r ∈ (w.store.shape i).parts, w.Open base hidden r
  done : ∀ {i r}, ¬ hidden i → w.visit? i = some (.done r) → w.Open base hidden r
  fresh : ∀ {i}, base ≤ i → i < w.store.size → ¬ w.Met i →
    ∃ params body, w.store.shape i = .func params body
  once : w.takenUp.Nodup

namespace Orderly

/-- Open cells are cells of the store. -/
theorem lt_size (h : w.Orderly base hidden) (hr : w.Open base hidden (.cell id)) :
    id < w.store.size :=
  hr.2.elim (fun hlt => hlt.trans_le h.base_le) h.met_lt

theorem withLog (h : w.Orderly base hidden) (log : List Record) :
    ({ w with log } : Work).Orderly base hidden :=
  ⟨h.base_le, h.met_lt, h.hidden_visit, h.parts, h.done, h.fresh, h.once⟩

theorem note (h : w.Orderly base hidden) (hid : ¬ hidden id) (hlt : id < w.store.size)
    (hdone : ∀ r, v = .done r → (w.note id v).Open base hidden r)
    (hpending : v = .pending → w.visit? id = none) : (w.note id v).Orderly base hidden where
  base_le := h.base_le
  met_lt hi := by
    rcases met_of_note hi with rfl | hi
    · exact hlt
    · exact h.met_lt hi
  hidden_visit {i} hi := by
    have hne : i ≠ id := by
      rintro rfl
      exact hid hi
    rw [visit?_note_of_ne hne]
    exact h.hidden_visit hi
  parts hi r hr := (h.parts hi r hr).extends (.note w id _)
  done {i r} hi hvisit := by
    rcases visit?_note_eq_some hvisit with ⟨-, hv⟩ | hvisit
    · exact hdone r hv.symm
    · exact (h.done hi hvisit).extends (.note w id _)
  fresh hi hlt hmet := h.fresh hi hlt fun hmet' => hmet hmet'.note
  once := by
    cases v with
    | pending =>
        rw [takenUp_note_pending]
        exact List.nodup_cons.2 ⟨fun hmem => met_of_mem_takenUp hmem (hpending rfl), h.once⟩
    | done r =>
        rw [takenUp_note_done]
        exact h.once

/-- The parts of a cell that has been met may be replaced by others. -/
theorem setShape (h : w.Orderly base hidden) (hid : w.Met id)
    (hsh : ∀ r ∈ sh.parts, w.Open base hidden r) :
    ({ w with store := w.store.setShape id sh } : Work).Orderly base hidden where
  base_le := by rw [size_setShape]; exact h.base_le
  met_lt hi := by rw [size_setShape]; exact h.met_lt hi
  hidden_visit := h.hidden_visit
  parts {i} hi r hr := by
    rcases shape_setShape_cases w.store id sh i with heq | ⟨-, heq⟩
    · exact h.parts hi r (heq ▸ hr)
    · exact hsh r (heq ▸ hr)
  done := h.done
  fresh {i} hi hlt hmet := by
    have hne : i ≠ id := by
      rintro rfl
      exact hmet hid
    rw [size_setShape] at hlt
    rw [shape_setShape_of_ne hne]
    exact h.fresh hi hlt hmet
  once := h.once

/-- The next cell to be made is not known yet. -/
theorem not_met_size (h : w.Orderly base hidden) : ¬ w.Met w.store.size :=
  fun hmet => Nat.lt_irrefl _ (h.met_lt hmet)

theorem not_hidden_size (h : w.Orderly base hidden) : ¬ hidden w.store.size := by
  intro hhidden
  refine h.not_met_size ?_
  rw [Met, h.hidden_visit hhidden]
  exact Option.some_ne_none _

/-- A new function literal. -/
theorem alloc (h : w.Orderly base hidden) {params : List Symbol} {body : List Ref}
    (hbody : ∀ r ∈ body, w.Open base hidden r) :
    ({ w with store := (w.store.alloc (.func params body)).2 } : Work).Orderly base hidden where
  base_le := by rw [size_alloc]; exact h.base_le.trans (Nat.le_succ _)
  met_lt hi := by rw [size_alloc]; exact (h.met_lt hi).trans (Nat.lt_succ_self _)
  hidden_visit := h.hidden_visit
  parts {i} hi r hr := by
    by_cases hne : i = w.store.size
    · subst hne
      rw [shape_alloc_self] at hr
      exact hbody r hr
    · rw [shape_alloc_of_ne hne] at hr
      exact h.parts hi r hr
  done := h.done
  fresh {i} hi hlt hmet := by
    by_cases hne : i = w.store.size
    · subst hne
      exact ⟨params, body, shape_alloc_self⟩
    · rw [size_alloc] at hlt
      rw [shape_alloc_of_ne hne]
      exact h.fresh hi (Nat.lt_of_le_of_ne (Nat.le_of_lt_succ hlt) hne) hmet
  once := h.once

/-- A new cell that is noted as reduced is hidden until its parts have been reduced. -/
theorem alloc_hidden (h : w.Orderly base hidden) (sh : Shape Ref) (log : List Record) :
    (({ w with store := (w.store.alloc sh).2, log } : Work).note w.store.size
      (.done (.cell w.store.size))).Orderly base fun i => hidden i ∨ i = w.store.size := by
  -- Nothing refers to the new cell.
  have hopen : ∀ {r}, w.Open base hidden r →
      (({ w with store := (w.store.alloc sh).2, log } : Work).note w.store.size
        (.done (.cell w.store.size))).Open base (fun i => hidden i ∨ i = w.store.size) r := by
    intro r hr
    cases r with
    | atom a => trivial
    | cell id =>
        refine ⟨?_, hr.2.imp_right fun hmet => Met.note (show Met _ id from hmet)⟩
        rintro (hid | rfl)
        · exact hr.1 hid
        · exact Nat.lt_irrefl _ (h.lt_size hr)
  exact {
    base_le := by
      change base ≤ (w.store.alloc sh).2.size
      rw [size_alloc]
      exact h.base_le.trans (Nat.le_succ _)
    met_lt := by
      intro i hi
      change i < (w.store.alloc sh).2.size
      rw [size_alloc]
      rcases met_of_note hi with rfl | hi
      · exact Nat.lt_succ_self _
      · exact (h.met_lt (show w.Met i from hi)).trans (Nat.lt_succ_self _)
    hidden_visit := by
      intro i hi
      by_cases hne : i = w.store.size
      · subst hne
        exact visit?_note_self
      · rw [visit?_note_of_ne hne]
        exact h.hidden_visit (hi.resolve_right hne)
    -- Of the parts of hidden cells, the new one among them, nothing is said.
    parts := by
      intro i hi r hr
      rw [not_or] at hi
      change r ∈ ((w.store.alloc sh).2.shape i).parts at hr
      rw [shape_alloc_of_ne hi.2] at hr
      exact hopen (h.parts hi.1 r hr)
    done := by
      intro i r hi hvisit
      rw [not_or] at hi
      rw [visit?_note_of_ne hi.2] at hvisit
      exact hopen (h.done hi.1 hvisit)
    -- The new cell need not be a function literal: it has been noted.
    fresh := by
      intro i hi hlt hmet
      have hne : i ≠ w.store.size := by
        rintro rfl
        exact hmet met_note_self
      change i < (w.store.alloc sh).2.size at hlt
      rw [size_alloc] at hlt
      change ∃ params body, (w.store.alloc sh).2.shape i = .func params body
      rw [shape_alloc_of_ne hne]
      exact h.fresh hi (Nat.lt_of_le_of_ne (Nat.le_of_lt_succ hlt) hne)
        fun hmet' => hmet (Met.note (show Met _ i from hmet'))
    once := by
      rw [takenUp_note_done]
      exact h.once }

/-- Once its parts have been reduced, a cell need not be hidden any more. -/
theorem unhide (h : w.Orderly base fun i => hidden i ∨ i = id)
    (hparts : ∀ r ∈ (w.store.shape id).parts, w.Open base (fun i => hidden i ∨ i = id) r)
    (hid : ¬ hidden id) : w.Orderly base hidden := by
  have hopen : ∀ {r}, w.Open base (fun i => hidden i ∨ i = id) r → w.Open base hidden r := by
    intro r hr
    cases r with
    | atom a => trivial
    | cell i => exact ⟨fun hi => hr.1 (Or.inl hi), hr.2⟩
  have hvisit : w.visit? id = some (.done (.cell id)) := h.hidden_visit (Or.inr rfl)
  refine ⟨h.base_le, h.met_lt, fun hi => h.hidden_visit (Or.inl hi), ?_, ?_, h.fresh, h.once⟩
  · intro i hi r hr
    by_cases hne : i = id
    · exact hopen (hparts r (hne ▸ hr))
    · exact hopen (h.parts (not_or.2 ⟨hi, hne⟩) r hr)
  · intro i r hi hr
    by_cases hne : i = id
    · subst hne
      rw [hvisit] at hr
      cases hr
      refine ⟨hid, Or.inr ?_⟩
      rw [Met, hvisit]
      exact Option.some_ne_none _
    · exact hopen (h.done (not_or.2 ⟨hi, hne⟩) hr)

/-- Rules see nothing but open parts. -/
theorem handsOn (h : w.Orderly base hidden) : w.store.HandsOn (w.Open base hidden) where
  atom _ := trivial
  items {r items} hr hitems := by
    cases r with
    | atom a => cases hitems
    | cell id =>
        have hparts := h.parts hr.1
        cases hshape : w.store.shape id <;> simp only [view, hshape] at hitems <;> cases hitems
        rwa [hshape] at hparts
  body {r params body} hr hbody := by
    cases r with
    | atom a => cases hbody
    | cell id =>
        have hparts := h.parts hr.1
        cases hshape : w.store.shape id <;> simp only [view, hshape] at hbody <;> cases hbody
        rwa [hshape] at hparts

end Orderly
end Work

end Store
end RegisterLisp
