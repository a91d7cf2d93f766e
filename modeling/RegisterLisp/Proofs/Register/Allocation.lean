import RegisterLisp.Proofs.Register.Sets
import RegisterLisp.Register.Script
import Mathlib.Data.Fintype.Basic
import Mathlib.Data.Finset.Card
import Mathlib.Data.List.Sort

/-!
# What allocation answers

Allocation looks for free registers from a start up to the end of a region.  There are three
answers, and which of them is given can be told from the free registers as a set
(`RegFile.freeSet`): the start lies outside of the region, there are too few free registers, or the
lowest ones are handed out in ascending order (`Reg.IsLowest`).  A set has at most one list of its
`n` lowest registers, so the answer is determined by that.

Only an allocation that succeeds changes the register file, and then only what is live in the
innermost scope.
-/

namespace RegisterLisp

namespace Reg

instance : Fintype Reg :=
  ⟨⟨all, nodup_all⟩, mem_all⟩

/-! ## The lowest registers of a set -/

abbrev Ascending (rs : List Reg) : Prop :=
  rs.Pairwise fun r q => r.index < q.index

theorem ascending_all : Ascending all :=
  List.pairwise_map.2 (List.pairwise_lt_finRange 256)

theorem Ascending.nodup {rs : List Reg} (h : Ascending rs) : rs.Nodup := by
  refine List.Pairwise.imp ?_ h
  rintro r q hlt rfl
  exact lt_irrefl _ hlt

/-- The list consists of the `n` lowest registers of the set, in ascending order. -/
structure IsLowest (n : Nat) (s : Finset Reg) (rs : List Reg) : Prop where
  length_eq : rs.length = n
  ascending : Ascending rs
  mem : ∀ r ∈ rs, r ∈ s
  lowest : ∀ r ∈ rs, ∀ q ∈ s, q ∉ rs → r.index < q.index

/-- The first of an ascending list are the lowest of the set. -/
theorem isLowest_take {n : Nat} {s : Finset Reg} {rs : List Reg} (h : Ascending rs)
    (hmem : ∀ r, r ∈ rs ↔ r ∈ s) (hn : n ≤ rs.length) : IsLowest n s (rs.take n) where
  length_eq := List.length_take_of_le hn
  ascending := h.take
  mem r hr := (hmem r).1 (List.mem_of_mem_take hr)
  lowest r hr q hq hnot := by
    -- What is not among the first `n` comes after all of them.
    rw [← hmem, ← List.take_append_drop n rs, List.mem_append] at hq
    rw [Ascending, ← List.take_append_drop n rs, List.pairwise_append] at h
    exact h.2.2 r hr q (hq.resolve_left hnot)

namespace IsLowest

variable {n : Nat} {s : Finset Reg} {rs rs' : List Reg}

/-- A set with `n` lowest registers has at least so many. -/
theorem le_card (h : IsLowest n s rs) : n ≤ s.card := by
  have hcard : rs.toFinset.card = n := by
    rw [List.toFinset_card_of_nodup h.ascending.nodup, h.length_eq]
  rw [← hcard]
  exact Finset.card_le_card fun r hr => h.mem r (List.mem_toFinset.1 hr)

/-- Of two lists of lowest registers neither has a register that the other lacks: each of the two
registers that are missing would be lower than the other. -/
theorem subset (h : IsLowest n s rs) (h' : IsLowest n s rs') : rs ⊆ rs' := by
  intro r hr
  by_contra hnot
  have hlength : rs'.toFinset.card = rs.toFinset.card := by
    rw [List.toFinset_card_of_nodup h.ascending.nodup,
      List.toFinset_card_of_nodup h'.ascending.nodup, h.length_eq, h'.length_eq]
  have hother : ∃ q ∈ rs', q ∉ rs := by
    by_contra hall
    push Not at hall
    have hsubset : rs'.toFinset ⊆ rs.toFinset := fun q hq =>
      List.mem_toFinset.2 (hall q (List.mem_toFinset.1 hq))
    have heq := Finset.eq_of_subset_of_card_le hsubset hlength.ge
    exact hnot (List.mem_toFinset.1 (heq ▸ List.mem_toFinset.2 hr))
  obtain ⟨q, hq, hqnot⟩ := hother
  have hlt := h.lowest r hr q (h'.mem q hq) hqnot
  exact lt_asymm hlt (h'.lowest q hq r (h.mem r hr) hnot)

/-- There is one such list. -/
theorem unique (h : IsLowest n s rs) (h' : IsLowest n s rs') : rs = rs' := by
  have hperm : rs.Perm rs' :=
    (List.perm_ext_iff_of_nodup h.ascending.nodup h'.ascending.nodup).2 fun r =>
      ⟨fun hr => h.subset h' hr, fun hr => h'.subset h hr⟩
  refine hperm.eq_of_pairwise ?_ h.ascending h'.ascending
  intro r q _ _ hlt hgt
  exact absurd hgt (lt_asymm hlt)

end IsLowest
end Reg

namespace RegFile

variable {f f' : RegFile} {n : Nat} {start : Option Nat} {region : Region} {low high : Nat}

/-! ## Free registers -/

def freeSet (f : RegFile) (low high : Nat) : Finset Reg :=
  Finset.univ.filter fun r => low ≤ r.index.val ∧ r.index.val < high ∧ r ∉ f.live

theorem ascending_free (f : RegFile) (low high : Nat) : Reg.Ascending (f.free low high) :=
  Reg.ascending_all.filter _

theorem mem_free_iff_mem_freeSet (r : Reg) : r ∈ f.free low high ↔ r ∈ f.freeSet low high := by
  simp [mem_free, freeSet]

/-- As many registers are free as the set has elements. -/
theorem length_free (f : RegFile) (low high : Nat) :
    (f.free low high).length = (f.freeSet low high).card := by
  rw [← List.toFinset_card_of_nodup (ascending_free f low high).nodup]
  congr 1
  ext r
  rw [List.mem_toFinset, mem_free_iff_mem_freeSet]

/-! ## The three answers -/

/-- What handing out the `n` lowest registers of a set makes of a register file. -/
structure Allots (f : RegFile) (n : Nat) (s : Finset Reg) (rs : List Reg) (f' : RegFile) :
    Prop where
  lowest : Reg.IsLowest n s rs
  live : ∀ r, r ∈ f'.live ↔ r ∈ f.live ∨ r ∈ rs
  saved : f'.saved = f.saved

/-- What is handed out is determined by the set and the number. -/
theorem Allots.unique {s : Finset Reg} {rs rs' : List Reg} {f₁ f₂ : RegFile}
    (h₁ : Allots f n s rs f₁) (h₂ : Allots f n s rs' f₂) : rs = rs' ∧ f₁ = f₂ := by
  obtain rfl := h₁.lowest.unique h₂.lowest
  have hlive : f₁.live = f₂.live :=
    RegSet.eq_of_mem_iff fun r => (h₁.live r).trans (h₂.live r).symm
  have hsaved : f₁.saved = f₂.saved := h₁.saved.trans h₂.saved.symm
  cases f₁
  cases f₂
  simp_all

/-- The answers to an allocation that starts at `low` in a region that ends at `high`. -/
inductive Answers (f : RegFile) (n low high : Nat) : Except AllocError (List Reg) × RegFile → Prop
  | badStart (h : low < 4 ∨ high ≤ low) : Answers f n low high (.error (.badStart low high), f)
  | exhausted (hstart : 4 ≤ low ∧ low < high) (h : (f.freeSet low high).card < n) :
      Answers f n low high (.error (.exhausted n (f.freeSet low high).card), f)
  | allotted {rs : List Reg} {f' : RegFile} (hstart : 4 ≤ low ∧ low < high)
      (h : Allots f n (f.freeSet low high) rs f') : Answers f n low high (.ok rs, f')

/-- Allocation gives the answer that its checks call for, in their order. -/
theorem answers_allocate (f : RegFile) (n : Nat) (start : Option Nat) (region : Region) :
    Answers f n (start.getD region.first) region.limit (f.allocate n start region) := by
  unfold allocate
  dsimp only
  split
  · rename_i hbad
    exact .badStart hbad
  · rename_i hbad
    have hstart : 4 ≤ start.getD region.first ∧ start.getD region.first < region.limit := by
      simpa [Reg.firstArgument] using hbad
    rw [List.length_take, length_free]
    split
    · -- If fewer are found than asked for, all that are free have been found.
      rename_i hfew
      have hcard : (f.freeSet (start.getD region.first) region.limit).card < n := by omega
      rw [min_eq_right hcard.le]
      exact .exhausted hstart hcard
    · rename_i hfew
      refine .allotted hstart ⟨?_, ?_, rfl⟩
      · refine Reg.isLowest_take (ascending_free _ _ _) mem_free_iff_mem_freeSet ?_
        rw [length_free]
        omega
      · intro r
        rw [RegSet.mem_foldl_insert, or_comm]

/-- A bad start is told from all other answers. -/
theorem Answers.eq_badStart_iff {result : Except AllocError (List Reg) × RegFile}
    (h : Answers f n low high result) (a b : Nat) (f' : RegFile) :
    result = (.error (.badStart a b), f') ↔
      (low < 4 ∨ high ≤ low) ∧ a = low ∧ b = high ∧ f' = f := by
  cases h with
  | badStart hbad => simp [hbad, eq_comm, and_assoc]
  | exhausted hstart _ =>
      simp only [Prod.mk.injEq, Except.error.injEq, reduceCtorEq, false_and, false_iff]
      omega
  | allotted hstart _ =>
      simp only [Prod.mk.injEq, reduceCtorEq, false_and, false_iff]
      omega

/-- So is a region without enough free registers. -/
theorem Answers.eq_exhausted_iff {result : Except AllocError (List Reg) × RegFile}
    (h : Answers f n low high result) (a b : Nat) (f' : RegFile) :
    result = (.error (.exhausted a b), f') ↔
      (4 ≤ low ∧ low < high) ∧ (f.freeSet low high).card < n ∧
        a = n ∧ b = (f.freeSet low high).card ∧ f' = f := by
  cases h with
  | badStart hbad =>
      simp only [Prod.mk.injEq, Except.error.injEq, reduceCtorEq, false_and, false_iff]
      omega
  | exhausted hstart hfew => simp [hstart, hfew, eq_comm, and_assoc]
  | allotted hstart hallots =>
      have hcard := hallots.lowest.le_card
      simp only [Prod.mk.injEq, reduceCtorEq, false_and, false_iff]
      omega

/-- And a success, with what is handed out. -/
theorem Answers.eq_ok_iff {result : Except AllocError (List Reg) × RegFile}
    (h : Answers f n low high result) (rs : List Reg) (f' : RegFile) :
    result = (.ok rs, f') ↔
      (4 ≤ low ∧ low < high) ∧ Allots f n (f.freeSet low high) rs f' := by
  cases h with
  | badStart hbad =>
      simp only [Prod.mk.injEq, reduceCtorEq, false_and, false_iff, not_and]
      omega
  | exhausted hstart hfew =>
      simp only [Prod.mk.injEq, reduceCtorEq, false_and, false_iff, not_and]
      intro _ hallots
      exact absurd hallots.lowest.le_card (Nat.not_le.2 hfew)
  | allotted hstart hallots =>
      constructor
      · intro heq
        cases heq
        exact ⟨hstart, hallots⟩
      · rintro ⟨-, hallots'⟩
        obtain ⟨rfl, rfl⟩ := hallots.unique hallots'
        rfl

/-- There is an answer with registers exactly if the start is good and enough are free. -/
theorem Answers.exists_ok_iff {result : Except AllocError (List Reg) × RegFile}
    (h : Answers f n low high result) :
    (∃ rs f', result = (.ok rs, f')) ↔
      (4 ≤ low ∧ low < high) ∧ n ≤ (f.freeSet low high).card := by
  cases h with
  | badStart hbad =>
      simp only [Prod.mk.injEq, reduceCtorEq, false_and, exists_false, false_iff]
      omega
  | exhausted hstart hfew =>
      simp only [Prod.mk.injEq, reduceCtorEq, false_and, exists_false, false_iff]
      omega
  | allotted hstart hallots => simp [hstart, hallots.lowest.le_card]

/-- As a step on the register file, an allocation that fails changes nothing, and one that succeeds
keeps what was live before the scopes that are open. -/
theorem run_allocate (f : RegFile) (n : Nat) (start : Option Nat) (region : Region) :
    (∀ cause f', f.allocate n start region = (.error cause, f') ↔
        (RegAction.allocate n start region).run f = (.error (.alloc cause), f')) ∧
      (∀ rs f', f.allocate n start region = (.ok rs, f') ↔
        (RegAction.allocate n start region).run f = (.ok (.registers rs), f')) ∧
      ((RegAction.allocate n start region).run f).2.saved = f.saved := by
  rw [RegAction.run]
  rcases hallocate : f.allocate n start region with ⟨cause | handed, after⟩
  · simp [allocate_eq_error hallocate]
  · simp [(allocate_eq_ok hallocate).1]

/-- Allocation fails exactly if its start lies outside of the region, or if there are too few free
registers, of which it tells how many there are; and then it changes nothing.  Otherwise it hands
out the lowest free registers and makes live exactly these. -/
theorem allocate_exact_and_atomic (f : RegFile) (n : Nat) (start : Option Nat) (region : Region) :
    let low := start.getD (if region = .volatile then 32 else 4)
    let high := if region = .volatile then 256 else 32
    (∀ a b f', f.allocate n start region = (.error (.badStart a b), f') ↔
        (low < 4 ∨ high ≤ low) ∧ a = low ∧ b = high ∧ f' = f) ∧
      (∀ a b f', f.allocate n start region = (.error (.exhausted a b), f') ↔
        (4 ≤ low ∧ low < high) ∧ (f.freeSet low high).card < n ∧
          a = n ∧ b = (f.freeSet low high).card ∧ f' = f) ∧
      ((∃ rs f', f.allocate n start region = (.ok rs, f')) ↔
        (4 ≤ low ∧ low < high) ∧ n ≤ (f.freeSet low high).card) ∧
      (∀ rs f', f.allocate n start region = (.ok rs, f') ↔
        (4 ≤ low ∧ low < high) ∧ Allots f n (f.freeSet low high) rs f') ∧
      (∀ cause f', f.allocate n start region = (.error cause, f') ↔
        (RegAction.allocate n start region).run f = (.error (.alloc cause), f')) ∧
      (∀ rs f', f.allocate n start region = (.ok rs, f') ↔
        (RegAction.allocate n start region).run f = (.ok (.registers rs), f')) ∧
      ((RegAction.allocate n start region).run f).2.saved = f.saved := by
  intro low high
  have hanswers : Answers f n low high (f.allocate n start region) := by
    have h := answers_allocate f n start region
    cases region <;> exact h
  exact ⟨hanswers.eq_badStart_iff, hanswers.eq_exhausted_iff, hanswers.exists_ok_iff,
    hanswers.eq_ok_iff, run_allocate f n start region⟩

end RegFile
end RegisterLisp
