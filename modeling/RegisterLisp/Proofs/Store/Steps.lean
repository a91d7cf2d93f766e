import RegisterLisp.Proofs.Store.Layout
import RegisterLisp.Store.Normal

/-!
# Steps on a store that follow steps on trees

`Simulates` compares a computation on a store with what is expected from the trees of its forms.  It
succeeds where a result is expected, and fails where an error is, with that error.  In either case
the store evolves by its layout.  After a success, what is known about cells is right, too.

Cells that are being worked on have high ranks, and computations only go down, so that they are
never met (`Ready`).
-/

namespace RegisterLisp
namespace Store

open Layout (Evolves Valid)

variable {L L' L'' : Layout} {w w' w'' : Work} {s' : Store} {r : Ref} {t : Term} {v : Visit}
  {base base' n m id : Nat} {α β γ δ : Type}

/-! ## Running one step after another -/

section Run

variable {x : WorkM α} {f : α → WorkM β} {a : α} {cause : FormError}

theorem run_get_bind {f : Work → WorkM α} : (get >>= f).run w = (f w).run w :=
  rfl

/-- A step that succeeds hands its state on. -/
theorem run_bind_ok (h : x.run w = some (.ok a, w')) : (x >>= f).run w = (f a).run w' := by
  change (Option.bind (x.run w) fun p => ExceptT.bindCont f p.1 p.2) = (f a).run w'
  rw [h]
  rfl

/-- A step that fails keeps its state, and the rest is not run. -/
theorem run_bind_error (h : x.run w = some (.error cause, w')) :
    (x >>= f).run w = some (.error cause, w') := by
  change (Option.bind (x.run w) fun p => ExceptT.bindCont f p.1 p.2) = some (.error cause, w')
  rw [h]
  rfl

end Run

namespace Work

def note (w : Work) (id : Nat) (v : Visit) : Work :=
  { w with visits := (id, v) :: w.visits }

theorem visit?_note_self : (w.note id v).visit? id = some v := by
  simp [note, visit?]

theorem visit?_note_of_ne {i : Nat} (h : i ≠ id) : (w.note id v).visit? i = w.visit? i := by
  simp [note, visit?, List.lookup_cons, beq_false_of_ne h]

/-- What is known about a cell is the last note about it. -/
theorem visit?_note_eq_some {i : Nat} {u : Visit} (h : (w.note id v).visit? i = some u) :
    i = id ∧ u = v ∨ w.visit? i = some u := by
  by_cases hi : i = id
  · subst hi
    rw [visit?_note_self] at h
    exact Or.inl ⟨rfl, (Option.some.inj h).symm⟩
  · rw [visit?_note_of_ne hi] at h
    exact Or.inr h

end Work

/-! ## What is known about cells -/

theorem under_self (h : L.zone id = some .bare) : L.Under .bare (L.rank id + 1) (.cell id) :=
  ⟨h, Nat.lt_succ_self _⟩

/-- A cell stands there with normal parts, and `r` stands for its normal form. -/
structure Answers (L : Layout) (s : Store) (id : Nat) (r : Ref) : Prop where
  under : L.Under .bare (L.rank id + 1) r
  hasNormalParts : (s.tree (.cell id)).HasNormalParts
  normalize_eq : Term.normalize (s.tree (.cell id)) = .ok (s.tree r)

/-- An answer stays right while the store changes. -/
theorem Answers.evolves (h : Answers L w.store id r) (hid : L.zone id = some .bare)
    (hevolves : Evolves base L w.store L' s') : Answers L' s' id r := by
  have hcell : s'.tree (.cell id) = w.store.tree (.cell id) :=
    hevolves.tree_eq (under_self hid) h.hasNormalParts
  have hnormal : (w.store.tree r).HasNormalParts :=
    (Term.normal_of_normalize h.normalize_eq).hasNormalParts
  refine ⟨?_, ?_, ?_⟩
  · rw [hevolves.grows.rank hid]
    exact h.under.grows hevolves.grows
  · rw [hcell]
    exact h.hasNormalParts
  · rw [hcell, h.normalize_eq, hevolves.tree_eq h.under hnormal]

/-- What is noted about the cells of the layout is right. -/
structure Known (L : Layout) (w : Work) : Prop where
  lt_size : ∀ {id v}, w.visit? id = some v → id < w.store.size
  done : ∀ {id r}, L.zone id = some .bare → w.visit? id = some (.done r) → Answers L w.store id r

/-- Parts below rank `n` can be worked on. -/
structure Ready (L : Layout) (w : Work) (n : Nat) : Prop where
  valid : L.Valid w.store
  known : Known L w
  pending : ∀ {id}, w.visit? id = some .pending → L.zone id = some .bare ∧ n ≤ L.rank id

/-- A computation has come to an end.  Notes about cells below `base` that do not matter are
kept. -/
structure Advances (base : Nat) (L : Layout) (w : Work) (L' : Layout) (w' : Work) : Prop where
  evolves : Evolves base L w.store L' w'.store
  known : Known L' w'
  pending : ∀ {id}, w'.visit? id = some .pending → w.visit? id = some .pending
  visits : ∀ id < base, L.zone id ≠ some .bare → w'.visit? id = w.visit? id

/-- What is known stays right while the store evolves. -/
theorem Known.evolves (h : Known L w) (hevolves : Evolves base L w.store L' s')
    (hnew : ∀ {id v}, L'.zone id = some .bare → w.visit? id = some v → L.zone id = some .bare) :
    Known L' { w with store := s' } where
  lt_size hvisit := (h.lt_size hvisit).trans_le hevolves.size_le
  done hzone hvisit :=
    (h.done (hnew hzone hvisit) hvisit).evolves (hnew hzone hvisit) hevolves

namespace Advances

theorem refl (hvalid : L.Valid w.store) (hknown : Known L w) : Advances base L w L w :=
  ⟨.refl hvalid, hknown, fun h => h, fun _ _ _ => rfl⟩

/-- Computations one after the other. -/
theorem trans (h : Advances base L w L' w') (h' : Advances base L' w' L'' w'') :
    Advances base L w L'' w'' where
  evolves := h.evolves.trans h'.evolves
  known := h'.known
  pending hp := h.pending (h'.pending hp)
  visits id hid hzone :=
    (h'.visits id hid (h.evolves.zone_ne_bare hid hzone)).trans (h.visits id hid hzone)

theorem of_le (h : Advances base L w L' w') (hbase : base' ≤ base) : Advances base' L w L' w' :=
  { h with
    evolves := h.evolves.of_le hbase
    visits := fun id hid => h.visits id (hid.trans_le hbase) }

/-- The log does not matter. -/
theorem withLog (h : Advances base L w L' w') (log : List Record) :
    Advances base L w L' { w' with log } :=
  ⟨h.evolves, ⟨h.known.lt_size, h.known.done⟩, h.pending, h.visits⟩

/-- A change to the store only. -/
theorem of_evolves (hknown : Known L w) (h : Evolves base L w.store L' s')
    (hnew : ∀ {id v}, L'.zone id = some .bare → w.visit? id = some v → L.zone id = some .bare) :
    Advances base L w L' { w with store := s' } :=
  ⟨h, hknown.evolves h hnew, fun h => h, fun _ _ _ => rfl⟩

end Advances

/-- Work can go on after a computation. -/
theorem Ready.advances (h : Ready L w n) (hadvances : Advances base L w L' w') : Ready L' w' n where
  valid := hadvances.evolves.valid
  known := hadvances.known
  pending hp := by
    obtain ⟨hzone, hrank⟩ := h.pending (hadvances.pending hp)
    have hgrows := hadvances.evolves.grows
    exact ⟨hgrows.zone hzone, (hgrows.rank hzone).symm ▸ hrank⟩

theorem Ready.refl (h : Ready L w n) : Advances base L w L w :=
  .refl h.valid h.known

/-- A cell may be noted as reduced if it does not matter, or if it is. -/
theorem advances_note (hvalid : L.Valid w.store) (hknown : Known L w) (hid : id < w.store.size)
    (hbase : id < base → L.zone id = some .bare)
    (hdone : L.zone id = some .bare → Answers L w.store id r) :
    Advances base L w L (w.note id (.done r)) := by
  refine ⟨.refl hvalid, ⟨?_, ?_⟩, ?_, ?_⟩
  · intro i v h
    rcases Work.visit?_note_eq_some h with ⟨rfl, -⟩ | h
    · exact hid
    · exact hknown.lt_size h
  · intro i r' hzone h
    rcases Work.visit?_note_eq_some h with ⟨rfl, hv⟩ | h
    · cases hv
      exact hdone hzone
    · exact hknown.done hzone h
  · intro i h
    rcases Work.visit?_note_eq_some h with ⟨-, hv⟩ | h
    · cases hv
    · exact h
  · intro i hi hzone
    refine Work.visit?_note_of_ne ?_
    rintro rfl
    exact hzone (hbase hi)

/-! ## Computations that do what is expected -/

/-- A computation leads to the expected result, up to `Q`, or to the expected error. -/
def Simulates (base : Nat) (L : Layout) (w : Work) (x : WorkM α) (expected : Except FormError β)
    (Q : Layout → Work → α → β → Prop) : Prop :=
  match expected with
  | .ok b => ∃ a L' w', x.run w = some (.ok a, w') ∧ Advances base L w L' w' ∧ Q L' w' a b
  | .error cause =>
      ∃ L' w', x.run w = some (.error cause, w') ∧ Evolves base L w.store L' w'.store

namespace Simulates

variable {x : WorkM α} {f : α → WorkM γ} {expected : Except FormError β}
  {g : β → Except FormError δ} {Q Q' : Layout → Work → α → β → Prop}
  {R : Layout → Work → γ → δ → Prop}

/-- Returning the expected result is no work. -/
theorem pure {a : α} {b : β} (hvalid : L.Valid w.store) (hknown : Known L w) (h : Q L w a b) :
    Simulates base L w (Pure.pure a) (.ok b) Q :=
  ⟨a, L, w, rfl, .refl hvalid hknown, h⟩

/-- A computation that comes from another one, after some steps that succeed. -/
theorem of_run_eq {y : WorkM α} (hrun : x.run w = y.run w')
    (hadvances : Advances base L w L' w') (h : Simulates base L' w' y expected Q) :
    Simulates base L w x expected Q := by
  cases expected with
  | error cause =>
      obtain ⟨L'', w'', hy, hevolves⟩ := h
      exact ⟨L'', w'', hrun.trans hy, hadvances.evolves.trans hevolves⟩
  | ok b =>
      obtain ⟨a, L'', w'', hy, hadvances', hQ⟩ := h
      exact ⟨a, L'', w'', hrun.trans hy, hadvances.trans hadvances', hQ⟩

/-- The expectations on a result may be lowered. -/
theorem imp (h : Simulates base L w x expected Q) (hbase : base' ≤ base)
    (himp : ∀ {L' w' a b}, expected = .ok b → Advances base L w L' w' → Q L' w' a b →
      Q' L' w' a b) : Simulates base' L w x expected Q' := by
  cases expected with
  | error cause =>
      obtain ⟨L', w', hx, hevolves⟩ := h
      exact ⟨L', w', hx, hevolves.of_le hbase⟩
  | ok b =>
      obtain ⟨a, L', w', hx, hadvances, hQ⟩ := h
      exact ⟨a, L', w', hx, hadvances.of_le hbase, himp rfl hadvances hQ⟩

/-- A computation that succeeds, and another one. -/
theorem andThen {b : β} {next : Except FormError δ} (h : Simulates base L w x (.ok b) Q)
    (hf : ∀ {L' w' a}, Advances base L w L' w' → Q L' w' a b →
      Simulates base L' w' (f a) next R) :
    Simulates base L w (x >>= f) next R := by
  obtain ⟨a, L', w', hx, hadvances, hQ⟩ := h
  exact of_run_eq (run_bind_ok hx) hadvances (hf hadvances hQ)

/-- One computation after the other.  The first may keep more cells as they are. -/
theorem bind (h : Simulates base' L w x expected Q) (hbase : base ≤ base')
    (hf : ∀ {L' w' a b}, expected = .ok b → Advances base' L w L' w' → Q L' w' a b →
      Simulates base L' w' (f a) (g b) R) :
    Simulates base L w (x >>= f) (expected.bind g) R := by
  cases expected with
  | error cause =>
      obtain ⟨L', w', hx, hevolves⟩ := h
      exact ⟨L', w', run_bind_error hx, hevolves.of_le hbase⟩
  | ok b =>
      obtain ⟨a, L', w', hx, hadvances, hQ⟩ := h
      exact of_run_eq (run_bind_ok hx) (hadvances.of_le hbase) (hf rfl hadvances hQ)

/-- A computation that is followed by one that does not fail. -/
theorem map {p : β → δ} (h : Simulates base' L w x expected Q) (hbase : base ≤ base')
    (hf : ∀ {L' w' a b}, expected = .ok b → Advances base' L w L' w' → Q L' w' a b →
      Simulates base L' w' (f a) (.ok (p b)) R) :
    Simulates base L w (x >>= f) (expected.map p) R := by
  have hbind := h.bind (g := fun b => .ok (p b)) hbase hf
  cases expected <;> exact hbind

/-- Computations one after the other, each of which does what is expected from it in advance. -/
theorem mapM {f : α → WorkM γ} {g : α → Except FormError δ} {xs : List α}
    (hvalid : L.Valid w.store) (hknown : Known L w)
    (hstable : ∀ {L w L' w' c d}, Advances base L w L' w' → R L w c d → R L' w' c d)
    (hstep : ∀ x ∈ xs, ∀ {L' w'}, Advances base L w L' w' →
      Simulates base L' w' (f x) (g x) R) :
    Simulates base L w (xs.mapM f) (xs.mapM g) fun L' w' => List.Forall₂ (R L' w') := by
  induction xs generalizing L w with
  | nil => exact pure hvalid hknown .nil
  | cons x xs ih =>
      rw [List.mapM_cons, List.mapM_cons]
      refine (hstep x (by simp) (.refl hvalid hknown)).bind (Nat.le_refl base) ?_
      intro L' w' c d _ hadvances hR
      have hrest := ih hadvances.evolves.valid hadvances.known
        fun x hx L'' w'' h => hstep x (List.mem_cons_of_mem _ hx) (hadvances.trans h)
      refine hrest.bind (Nat.le_refl base) ?_
      intro L'' w'' cs ds _ hadvances' hRs
      exact pure hadvances'.evolves.valid hadvances'.known (.cons (hstable hadvances' hR) hRs)

end Simulates

/-! ## Results -/

/-- A part that stands for a tree with normal parts, and keeps doing so. -/
structure Reduced (n : Nat) (L : Layout) (w : Work) (r : Ref) (t : Term) : Prop where
  under : L.Under .bare n r
  tree_eq : w.store.tree r = t
  hasNormalParts : t.HasNormalParts

/-- A reduced part stays reduced. -/
theorem Reduced.advances (h : Reduced n L w r t) (hadvances : Advances base L w L' w') :
    Reduced n L' w' r t where
  under := h.under.grows hadvances.evolves.grows
  tree_eq := by
    rw [hadvances.evolves.tree_eq h.under (h.tree_eq.symm ▸ h.hasNormalParts), h.tree_eq]
  hasNormalParts := h.hasNormalParts

def ReducedMethod (n : Nat) (L : Layout) (w : Work) (m : Symbol × Ref) (m' : Symbol × Term) :
    Prop :=
  m.1 = m'.1 ∧ Reduced n L w m.2 m'.2

theorem ReducedMethod.advances {m : Symbol × Ref} {m' : Symbol × Term}
    (h : ReducedMethod n L w m m') (hadvances : Advances base L w L' w') :
    ReducedMethod n L' w' m m' :=
  ⟨h.1, h.2.advances hadvances⟩

theorem ReducedMethod.tree_eq {m : Symbol × Ref} {m' : Symbol × Term}
    (h : ReducedMethod n L w m m') : (m.1, w.store.tree m.2) = m' :=
  Prod.ext h.1 h.2.tree_eq

end Store
end RegisterLisp
