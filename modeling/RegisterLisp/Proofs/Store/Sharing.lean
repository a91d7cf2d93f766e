import RegisterLisp.Proofs.Store.Copies
import RegisterLisp.Proofs.Store.Reduction

/-!
# Sharing is not noticed

In a store without cycles, a form has the normal form of its tree, whatever parts it shares, unless
a part is quoted in one place and not in another.  So normalizing it comes to the same as
normalizing a copy without sharing, and to the same before and after other forms have been
normalized.
-/

namespace RegisterLisp

namespace Shape

variable {ρ : Type}

def isQuoted : Shape ρ → Bool
  | .quoted _ => true
  | _ => false

end Shape

namespace Store

open Layout (Evolves)
open Relation (TransGen ReflTransGen)

variable {L : Layout} {s : Store} {r root : Ref} {roots calls : List Ref} {i j id : Nat}

/-! ## Parent links -/

/-- Two stores that differ in parent links only. -/
structure SameShapes (s s' : Store) : Prop where
  size : s'.size = s.size
  shape : ∀ i, s'.shape i = s.shape i

theorem SameShapes.refl (s : Store) : SameShapes s s :=
  ⟨rfl, fun _ => rfl⟩

theorem SameShapes.trans {s' s'' : Store} (h : SameShapes s s') (h' : SameShapes s' s'') :
    SameShapes s s'' :=
  ⟨h'.size.trans h.size, fun i => (h'.shape i).trans (h.shape i)⟩

theorem sameShapes_setParent (id : Nat) (p : Option Nat) : SameShapes s (s.setParent id p) :=
  ⟨size_setParent, fun _ => shape_setParent⟩

/-- Linking the parts of a cell sets parents only. -/
theorem sameShapes_linkParts (id : Nat) (parts stack met : List Nat) (s : Store) :
    SameShapes s (linkParts id parts stack met s).2.2 := by
  induction parts generalizing stack met s with
  | nil => exact .refl s
  | cons part parts ih =>
      rw [linkParts]
      split <;> exact (sameShapes_setParent part _).trans (ih _ _ _)

/-- So does linking all that is reachable. -/
theorem sameShapes_linkAll (fuel : Nat) (stack met : List Nat) (s : Store) :
    SameShapes s (linkAll fuel stack met s) := by
  induction fuel generalizing stack met s with
  | zero => exact .refl s
  | succ fuel ih =>
      cases stack with
      | nil => exact .refl s
      | cons id stack =>
          rw [linkAll]
          exact (sameShapes_linkParts id _ stack met s).trans (ih _ _ _)

/-- So setting links changes no tree. -/
theorem sameShapes_relink (s : Store) (r : Ref) : SameShapes s (s.relink r) := by
  cases r with
  | atom a => exact .refl s
  | cell id => exact (sameShapes_setParent id none).trans (sameShapes_linkAll _ _ _ _)

/-! ## Normalizing one form -/

/-- The tree that normalizing a form leads to, or the error. -/
def Normalized.outcome (n : Normalized) : Except FormError Term :=
  n.result.map n.store.tree

/-- A form of a store with a layout has the normal form of its tree, and the store evolves. -/
theorem outcome_normalize (h : L.Valid s) (hroot : L.Under .bare (2 * s.size + 2) root) :
    (s.normalize root).outcome = Term.normalize (s.tree root) ∧
      ∃ L', Evolves 0 L s L' (s.normalize root).store := by
  have hready : Ready L { store := s } (2 * s.size + 2) := by
    refine ⟨h, ⟨?_, ?_⟩, ?_⟩
    · intro id v hv
      cases hv
    · intro id r _ hv
      cases hv
    · intro id hv
      cases hv
  -- At the start nothing is noted, and the fuel is enough for every rank of the layout.
  have hsound : Sound (reduce (2 * s.size + 2) 1) (2 * s.size + 2) := sound_reduce (Nat.le_refl _)
  have hreduce := hsound (Nat.le_refl _) hready hroot
  cases hexpected : Term.normalize (s.tree root) with
  | error cause =>
      rw [hexpected] at hreduce
      obtain ⟨L', w', hrun, hevolves⟩ := hreduce
      simp only [normalize, hrun]
      exact ⟨rfl, L', hevolves.of_le (Nat.zero_le _)⟩
  | ok t =>
      rw [hexpected] at hreduce
      obtain ⟨r, L', w', hrun, hadvances, hr, rfl, -⟩ := hreduce
      have hvalid := hadvances.evolves.valid
      -- The links that are set at the end change no tree.
      have hlinks := sameShapes_relink w'.store r
      have hlinked : Evolves 0 L' w'.store L' (w'.store.relink r) :=
        Layout.evolves_of_shape_eq hvalid hlinks.size.ge (fun id _ => hlinks.shape id)
          fun id _ => hlinks.shape id
      have htree : (w'.store.relink r).tree r = w'.store.tree r :=
        hvalid.tree_eq hlinks.size.ge (fun id _ => hlinks.shape id) hr
      simp only [normalize, hrun]
      exact ⟨congrArg Except.ok htree, L', (hadvances.evolves.of_le (Nat.zero_le _)).trans hlinked⟩

/-! ## Stores without cycles -/

/-- References lead to cells of the store, and never back to where they start. -/
structure IsAcyclic (s : Store) : Prop where
  lt_size : ∀ {i j}, s.Holds i j → j < s.size
  irrefl : ∀ i, ¬ TransGen s.Holds i i

def Contains (s : Store) : Ref → Prop
  | .atom _ => True
  | .cell id => id < s.size

instance : Decidable (s.Contains r) :=
  match r with
  | .atom _ => .isTrue trivial
  | .cell id => inferInstanceAs (Decidable (id < s.size))

namespace IsAcyclic

/-- In an acyclic store there are finitely many cells below each. -/
theorem finite_below (h : s.IsAcyclic) (i : Nat) : (s.below i).Finite := by
  refine (Set.finite_Iio s.size).subset ?_
  intro j hij
  obtain ⟨k, -, hkj⟩ := TransGen.tail'_iff.1 hij
  exact h.lt_size hkj

/-- Following references ends. -/
theorem grounded (h : s.IsAcyclic) (hr : s.Contains r) : s.Grounded r := by
  -- By induction on the number of cells below.
  have hcell : ∀ n i, (s.below i).ncard = n → i < s.size → s.Grounded (.cell i) := by
    intro n
    induction n using Nat.strong_induction_on with
    | _ n ih =>
        intro i hn hi
        refine .cell hi fun r hr => ?_
        cases r with
        | atom a => exact .atom a
        | cell j =>
            have hij : s.Holds i j := holds_iff.2 hr
            have hlt := ncard_below_lt (h.finite_below i) hij (h.irrefl j)
            exact ih _ (hn ▸ hlt) j rfl (h.lt_size hij)
  cases r with
  | atom a => exact .atom a
  | cell i => exact hcell _ i rfl hr

end IsAcyclic

/-! ## Quotes on the way down -/

def Opens (s : Store) (i j : Nat) : Prop :=
  s.Holds i j ∧ (s.shape i).isQuoted = false

def OutsideQuotes (s : Store) (roots : List Ref) (j : Nat) : Prop :=
  ∃ i, .cell i ∈ roots ∧ ReflTransGen s.Opens i j

/-- A cell that is met on a path from a root through a quote. -/
def InsideQuotes (s : Store) (roots : List Ref) (j : Nat) : Prop :=
  ∃ i q, .cell i ∈ roots ∧ ReflTransGen s.Holds i q ∧ (s.shape q).isQuoted = true ∧
    TransGen s.Holds q j

/-- No cell is met both with a quote on the way and without one. -/
def QuotesApart (s : Store) (roots : List Ref) : Prop :=
  ∀ j, ¬ (s.OutsideQuotes roots j ∧ s.InsideQuotes roots j)

theorem OutsideQuotes.step (h : s.OutsideQuotes roots i) (hij : s.Opens i j) :
    s.OutsideQuotes roots j := by
  obtain ⟨k, hk, hki⟩ := h
  exact ⟨k, hk, hki.tail hij⟩

/-- What a quote on such a path holds is inside of quotes. -/
theorem OutsideQuotes.quote (h : s.OutsideQuotes roots i) (hi : (s.shape i).isQuoted = true)
    (hij : s.Holds i j) : s.InsideQuotes roots j := by
  obtain ⟨k, hk, hki⟩ := h
  have hle : s.Opens ≤ s.Holds := fun _ _ h => h.1
  exact ⟨k, i, hk, ReflTransGen.mono hle k i hki, hi, .single hij⟩

/-- What is inside of quotes stays so further down. -/
theorem InsideQuotes.step (h : s.InsideQuotes roots i) (hij : s.Holds i j) :
    s.InsideQuotes roots j := by
  obtain ⟨k, q, hk, hkq, hq, hqi⟩ := h
  exact ⟨k, q, hk, hkq, hq, hqi.tail hij⟩

open Classical in
noncomputable def layout (s : Store) (roots : List Ref) : Layout where
  zone id :=
    if s.OutsideQuotes roots id then some .bare
    else if s.InsideQuotes roots id then some .quoted
    else none
  rank id := 2 * s.height (.cell id)

/-- The bare zone is what is met without a quote. -/
theorem zone_layout_bare : (s.layout roots).zone i = some .bare ↔ s.OutsideQuotes roots i := by
  simp only [layout]
  split
  · simp_all
  · split <;> simp_all

/-- The quoted zone is what is met through one, if the two are apart. -/
theorem zone_layout_quoted (h : s.QuotesApart roots) :
    (s.layout roots).zone i = some .quoted ↔ s.InsideQuotes roots i := by
  have hi := h i
  simp only [layout]
  split
  · simp_all
  · split <;> simp_all

theorem zone_layout_lt (hacyclic : s.IsAcyclic) (hroots : ∀ r ∈ roots, s.Contains r)
    (hquotes : s.QuotesApart roots) {z : Zone} (hi : (s.layout roots).zone i = some z) :
    i < s.size := by
  cases z with
  | bare =>
      obtain ⟨k, hk, hki⟩ := zone_layout_bare.1 hi
      rcases hki.cases_tail with rfl | ⟨m, -, hmi⟩
      · exact hroots _ hk
      · exact hacyclic.lt_size hmi.1
  | quoted =>
      obtain ⟨k, q, -, -, -, hqi⟩ := (zone_layout_quoted hquotes).1 hi
      obtain ⟨m, -, hmi⟩ := TransGen.tail'_iff.1 hqi
      exact hacyclic.lt_size hmi

/-- The zone of a part. -/
theorem zone_layout_part (hquotes : s.QuotesApart roots) {z : Zone}
    (hi : (s.layout roots).zone i = some z) (hij : s.Holds i j) :
    (s.layout roots).zone j = some (if (s.shape i).isQuoted then .quoted else z) := by
  cases z with
  | quoted =>
      rw [ite_self, zone_layout_quoted hquotes]
      exact ((zone_layout_quoted hquotes).1 hi).step hij
  | bare =>
      have hi' := zone_layout_bare.1 hi
      split
      · rename_i hquote
        exact (zone_layout_quoted hquotes).2 (hi'.quote hquote hij)
      · rename_i hquote
        exact zone_layout_bare.2 (hi'.step ⟨hij, by simpa using hquote⟩)

/-- The layout of an acyclic store is valid. -/
theorem valid_layout (hacyclic : s.IsAcyclic) (hroots : ∀ r ∈ roots, s.Contains r)
    (hquotes : s.QuotesApart roots) : (s.layout roots).Valid s where
  lt_size hi := zone_layout_lt hacyclic hroots hquotes hi
  fits {i z} hi := by
    have hcontains : s.Contains (.cell i) := zone_layout_lt hacyclic hroots hquotes hi
    -- A part has at least two ranks less than what holds it.
    have hparts : ∀ r ∈ (s.shape i).parts,
        (s.layout roots).Under (if (s.shape i).isQuoted then .quoted else z)
          (2 * s.height (.cell i) - 1) r := by
      intro r hr
      cases r with
      | atom a => trivial
      | cell j =>
          have hheight := height_part_lt (hacyclic.grounded hcontains) hr
          refine ⟨zone_layout_part hquotes hi (holds_iff.2 hr), ?_⟩
          change 2 * s.height (.cell j) < _
          omega
    have hrank : (s.layout roots).rank i = 2 * s.height (.cell i) - 1 + 1 := by
      have hpos : 0 < s.height (.cell i) := Nat.succ_pos _
      change 2 * s.height (.cell i) = _
      omega
    rw [hrank]
    cases hshape : s.shape i with
    | quoted inner =>
        rw [hshape] at hparts
        exact fits_quoted (hparts inner (by simp [Shape.parts]))
    | _ =>
        rw [hshape] at hparts
        exact fits_of_parts hparts (by simp)

/-- The roots lie in the bare zone, with room for their ranks. -/
theorem under_layout (hacyclic : s.IsAcyclic) (hroots : ∀ r ∈ roots, s.Contains r)
    (hr : r ∈ roots) : (s.layout roots).Under .bare (2 * s.size + 2) r := by
  cases r with
  | atom a => trivial
  | cell i =>
      have hheight := height_le_size (hacyclic.grounded (hroots _ hr))
      refine ⟨zone_layout_bare.2 ⟨i, hr, .refl⟩, ?_⟩
      change 2 * s.height (.cell i) < _
      omega

/-- In a store without cycles a form has the normal form of its tree. -/
theorem outcome_of_isAcyclic (hacyclic : s.IsAcyclic) (hroots : ∀ r ∈ roots, s.Contains r)
    (hquotes : s.QuotesApart roots) (hr : r ∈ roots) :
    (s.normalize r).outcome = Term.normalize (s.tree r) :=
  (outcome_normalize (valid_layout hacyclic hroots hquotes)
    (under_layout hacyclic hroots hr)).1

/-! ## Conditions that can be checked -/

theorem lt_size_of_holds (h : s.Holds i j) : i < s.size := by
  by_contra hi
  have hempty : s.shape i = .list [] := by
    simp only [size] at hi
    simp [shape, hi]
  simp [Holds, hempty, Shape.cells, Shape.parts] at h

/-- Where every cell holds only earlier ones there are no cycles. -/
theorem isAcyclic_of_lt (h : ∀ i < s.size, ∀ j ∈ (s.shape i).cells, j < i) : s.IsAcyclic := by
  have hlt : ∀ {i j}, s.Holds i j → j < i := fun hij => h _ (lt_size_of_holds hij) _ hij
  have hdown : ∀ {i j}, TransGen s.Holds i j → j < i := by
    intro i j hij
    induction hij with
    | single hij => exact hlt hij
    | tail _ hjk ih => exact (hlt hjk).trans ih
  exact ⟨fun hij => (hlt hij).trans (lt_size_of_holds hij),
    fun i hcycle => Nat.lt_irrefl i (hdown hcycle)⟩

/-- Quotes are apart where the cells inside them can be marked. -/
theorem quotesApart_of_marks (marked : List Nat) (hroots : ∀ i ∈ marked, .cell i ∉ roots)
    (h : ∀ i < s.size, ∀ j ∈ (s.shape i).cells,
      (j ∈ marked ↔ i ∈ marked ∨ (s.shape i).isQuoted = true)) : s.QuotesApart roots := by
  have hmark : ∀ {i j}, s.Holds i j → (j ∈ marked ↔ i ∈ marked ∨ (s.shape i).isQuoted = true) :=
    fun hij => h _ (lt_size_of_holds hij) _ hij
  have houtside : ∀ {j}, s.OutsideQuotes roots j → j ∉ marked := by
    rintro j ⟨i, hi, hij⟩
    induction hij with
    | refl => exact fun hmarked => hroots i hmarked hi
    | tail _ hjk ih => simp [hmark hjk.1, ih, hjk.2]
  have hinside : ∀ {j}, s.InsideQuotes roots j → j ∈ marked := by
    rintro j ⟨i, q, -, -, hq, hqj⟩
    induction hqj with
    | single hqj => exact (hmark hqj).2 (Or.inr hq)
    | tail _ hjk ih => exact (hmark hjk).2 (Or.inl ih)
  exact fun j hj => houtside hj.1 (hinside hj.2)

/-! ## A form and its copy without sharing -/

/-- The tree of a form in a store of its own, with a cell of its own for every part. -/
def unshared (s : Store) (root : Ref) : Ref × Store :=
  ({} : Store).add (s.tree root)

/-- A copy without sharing stands for the same tree. -/
theorem tree_unshared (s : Store) (root : Ref) :
    (s.unshared root).2.tree (s.unshared root).1 = s.tree root := by
  obtain ⟨L, -, -, htree⟩ := layout_add (s.tree root)
  exact htree

/-- It is normalized as that tree is. -/
theorem outcome_unshared (s : Store) (root : Ref) :
    ((s.unshared root).2.normalize (s.unshared root).1).outcome =
      Term.normalize (s.tree root) := by
  obtain ⟨L, hvalid, hunder, htree⟩ := layout_add (s.tree root)
  have houtcome := (outcome_normalize hvalid (hunder.mono (Nat.le_add_right _ 2))).1
  rwa [htree] at houtcome

/-- Normalizing a form succeeds exactly if normalizing its copy without sharing does.  The two
results stand for one tree, and the two errors are the same; they are those of the tree itself. -/
theorem normalize_eq_unshared (s : Store) (root : Ref) (hacyclic : s.IsAcyclic)
    (hroot : s.Contains root) (hquotes : s.QuotesApart [root]) :
    (s.unshared root).2.tree (s.unshared root).1 = s.tree root ∧
      (s.normalize root).outcome =
        ((s.unshared root).2.normalize (s.unshared root).1).outcome ∧
      (s.normalize root).outcome = Term.normalize (s.tree root) := by
  have hroots : ∀ r ∈ [root], s.Contains r := by simpa using hroot
  have hshared : (s.normalize root).outcome = Term.normalize (s.tree root) :=
    outcome_of_isAcyclic hacyclic hroots hquotes List.mem_cons_self
  exact ⟨tree_unshared s root, hshared.trans (outcome_unshared s root).symm, hshared⟩

def sharedForms : Store where
  cells := #[
    ⟨.list [.atom (.symbol ⟨"+"⟩), .atom (.number 1.0), .atom (.number 2.0)], none⟩,
    ⟨.list [.atom (.symbol ⟨"+"⟩), .atom (.number 1.0), .atom (.number 2.0)], none⟩,
    ⟨.quoted (.cell 1), none⟩,
    ⟨.list [.atom (.symbol ⟨"f"⟩), .cell 0, .cell 2, .cell 0], none⟩,
    ⟨.list [.cell 3, .cell 2, .cell 3], none⟩,
    ⟨.list [.atom (.symbol Symbol.func), .cell 0], none⟩,
    ⟨.list [.cell 3, .cell 5, .cell 0], none⟩]

/-- The sample has no cycle. -/
theorem isAcyclic_sharedForms : sharedForms.IsAcyclic :=
  isAcyclic_of_lt (by decide)

theorem normalize_eq_unshared_forms :
    (sharedForms.IsAcyclic ∧ sharedForms.Contains (.cell 4) ∧
      sharedForms.QuotesApart [.cell 4]) ∧
    (sharedForms.normalize (.cell 4)).outcome.isOk = true ∧
    (sharedForms.normalize (.cell 4)).outcome =
      ((sharedForms.unshared (.cell 4)).2.normalize
        (sharedForms.unshared (.cell 4)).1).outcome := by
  have hcontains : sharedForms.Contains (.cell 4) := by decide
  have hquotes : sharedForms.QuotesApart [.cell 4] :=
    quotesApart_of_marks [1] (by decide) (by decide)
  refine ⟨⟨isAcyclic_sharedForms, hcontains, hquotes⟩, by decide +kernel, ?_⟩
  exact (normalize_eq_unshared sharedForms (.cell 4) isAcyclic_sharedForms hcontains hquotes).2.1

/-! ## One form after the other -/

/-- The outcomes of normalizing forms of a store one after the other. -/
def normalizeEach : Store → List Ref → List (Except FormError Term)
  | _, [] => []
  | s, r :: rs => (s.normalize r).outcome :: normalizeEach (s.normalize r).store rs

/-- Each form has the normal form of its tree at the start. -/
theorem normalizeEach_eq (h : L.Valid s)
    (hcalls : ∀ r ∈ calls, L.Under .bare (2 * s.size + 2) r) :
    normalizeEach s calls = calls.map fun r => Term.normalize (s.tree r) := by
  induction calls generalizing L s with
  | nil => rfl
  | cons first calls ih =>
      obtain ⟨houtcome, L', hevolves⟩ := outcome_normalize h (hcalls first List.mem_cons_self)
      have hrest : ∀ r ∈ calls, L.Under .bare (2 * s.size + 2) r :=
        fun r hr => hcalls r (List.mem_cons_of_mem _ hr)
      have hsize : 2 * s.size + 2 ≤ 2 * (s.normalize first).store.size + 2 := by
        have hle := hevolves.size_le
        omega
      rw [normalizeEach, List.map_cons, houtcome,
        ih hevolves.valid fun r hr => ((hrest r hr).grows hevolves.grows).mono hsize]
      refine congrArg (_ :: ·) (List.map_congr_left fun r hr => ?_)
      exact (hevolves.settles (hrest r hr)).normalize_eq

/-- Calls on forms that share cells, in any order, come to what each of them would come to at the
start, also after calls that have failed. -/
theorem normalizeEach_eq_map (s : Store) (roots calls : List Ref) (hacyclic : s.IsAcyclic)
    (hroots : ∀ r ∈ roots, s.Contains r) (hquotes : s.QuotesApart roots)
    (hcalls : ∀ r ∈ calls, r ∈ roots) :
    normalizeEach s calls = calls.map fun r => (s.normalize r).outcome := by
  rw [normalizeEach_eq (valid_layout hacyclic hroots hquotes) fun r hr =>
    under_layout hacyclic hroots (hcalls r hr)]
  exact List.map_congr_left fun r hr =>
    (outcome_of_isAcyclic hacyclic hroots hquotes (hcalls r hr)).symm

theorem normalizeEach_sharedForms :
    (sharedForms.IsAcyclic ∧ (∀ r ∈ [Ref.cell 4, .cell 6], sharedForms.Contains r) ∧
      sharedForms.QuotesApart [.cell 4, .cell 6]) ∧
    (sharedForms.normalize (.cell 6)).outcome.isOk = false ∧
    normalizeEach sharedForms [.cell 6, .cell 4, .cell 6, .cell 4] =
      [.cell 6, .cell 4, .cell 6, .cell 4].map fun r => (sharedForms.normalize r).outcome := by
  have hcontains : ∀ r ∈ [Ref.cell 4, .cell 6], sharedForms.Contains r := by decide
  have hquotes : sharedForms.QuotesApart [.cell 4, .cell 6] :=
    quotesApart_of_marks [1] (by decide) (by decide)
  refine ⟨⟨isAcyclic_sharedForms, hcontains, hquotes⟩, by decide +kernel, ?_⟩
  exact normalizeEach_eq_map sharedForms [.cell 4, .cell 6] _ isAcyclic_sharedForms hcontains
    hquotes (by decide)

end Store
end RegisterLisp
