import RegisterLisp.Proofs.Register.Sets
import Mathlib.Order.Interval.Finset.Nat

/-!
# Sets of registers as finite sets

A set of registers stands for a finite set of indices below 256, and every operation on it does what
the operation of that name does to finite sets (`RegSet.Models`).

The 256 bits of a set are four words of 64 bits: register `i` is bit `i % 64` of word `i / 64`, and
the operations work on one word, or on each of the words by itself (`RegSet.SpreadOver`).
-/

namespace RegisterLisp

namespace Reg

def word (r : Reg) : Fin 4 :=
  ⟨r.index.val / 64, Nat.div_lt_of_lt_mul r.index.isLt⟩

/-- The word with the bit of a register. -/
def mask (r : Reg) : UInt64 :=
  .ofBitVec (BitVec.twoPow 64 (r.index.val % 64))

/-- Registers are told apart by their indices. -/
theorem index_injective {r q : Reg} (h : r.index.val = q.index.val) : r = q := by
  cases r
  cases q
  exact congrArg Reg.mk (Fin.ext h)

/-- The registers are listed in ascending order. -/
theorem pairwise_all : all.Pairwise fun r q => r.index.val < q.index.val := by
  rw [all, List.pairwise_map]
  exact List.pairwise_lt_finRange 256

end Reg

namespace RegSet

variable {s t : RegSet} {r q : Reg} {i : ℕ}

/-! ## Indices -/

/-- The indices of the registers in a set. -/
def indices (s : RegSet) : Finset ℕ :=
  (Finset.range 256).filter fun i => s.bits.getLsbD i = true

theorem mem_iff_getLsbD : r ∈ s ↔ s.bits.getLsbD r.index.val = true :=
  Iff.rfl

/-- A set has the indices of its registers. -/
theorem mem_indices : i ∈ s.indices ↔ ∃ r ∈ s, r.index.val = i := by
  rw [indices, Finset.mem_filter, Finset.mem_range]
  constructor
  · rintro ⟨hi, hbit⟩
    exact ⟨⟨⟨i, hi⟩⟩, mem_iff_getLsbD.2 hbit, rfl⟩
  · rintro ⟨r, hr, rfl⟩
    exact ⟨r.index.isLt, mem_iff_getLsbD.1 hr⟩

@[simp]
theorem index_mem_indices : r.index.val ∈ s.indices ↔ r ∈ s := by
  rw [mem_indices]
  constructor
  · rintro ⟨q, hq, heq⟩
    rwa [← Reg.index_injective heq]
  · exact fun hr => ⟨r, hr, rfl⟩

/-- There are no other indices. -/
theorem lt_of_mem_indices (h : i ∈ s.indices) : i < 256 := by
  obtain ⟨r, -, rfl⟩ := mem_indices.1 h
  exact r.index.isLt

/-- Sets of indices are compared register by register. -/
theorem indices_eq_iff {I : Finset ℕ} :
    s.indices = I ↔ (∀ i ∈ I, i < 256) ∧ ∀ r : Reg, r ∈ s ↔ r.index.val ∈ I := by
  constructor
  · rintro rfl
    exact ⟨fun i => lt_of_mem_indices, fun r => index_mem_indices.symm⟩
  · rintro ⟨hbound, hmem⟩
    ext i
    rw [mem_indices]
    constructor
    · rintro ⟨r, hr, rfl⟩
      exact (hmem r).1 hr
    · intro hi
      exact ⟨⟨⟨i, hbound i hi⟩⟩, (hmem _).2 hi, rfl⟩

/-- What it takes for operations on sets of registers to be those on finite sets of indices. -/
structure Models (indices : RegSet → Finset ℕ) : Prop where
  subset_range : ∀ s, indices s ⊆ Finset.range 256
  exists_of_subset : ∀ I, I ⊆ Finset.range 256 → ∃ s, indices s = I
  contains : ∀ s r, s.contains r = true ↔ r.index.val ∈ indices s
  insert : ∀ s r, indices (s.insert r) = Insert.insert r.index.val (indices s)
  union : ∀ s t, indices (s.union t) = indices s ∪ indices t
  inter : ∀ s t, indices (s.inter t) = indices s ∩ indices t
  range : ∀ start stop, indices (range start stop) = Finset.Ico start (min stop 256)
  arguments : ∀ n, indices (arguments n) = Finset.Ico 4 (min (4 + n) 256)
  ofList : ∀ rs, indices (ofList rs) = (rs.map fun r => r.index.val).toFinset
  eq_iff : ∀ s t, s = t ↔ indices s = indices t
  isEmpty : ∀ s, s.isEmpty = true ↔ indices s = ∅
  mem_toList : ∀ s r, r ∈ s.toList ↔ r.index.val ∈ indices s
  ascending : ∀ s : RegSet, s.toList.Pairwise fun r q => r.index.val < q.index.val
  ofList_toList : ∀ s, RegSet.ofList s.toList = s

/-- Sets are told apart by the indices in them. -/
theorem indices_eq_indices_iff : s.indices = t.indices ↔ s = t := by
  refine ⟨fun h => eq_of_mem_iff fun r => ?_, fun h => by rw [h]⟩
  rw [← index_mem_indices, h, index_mem_indices]

theorem isEmpty_iff : s.isEmpty = true ↔ s = empty := by
  rw [isEmpty, beq_iff_eq]

/-- A range is an interval of indices, cut off at the last register. -/
theorem indices_range (start stop : ℕ) :
    (range start stop).indices = Finset.Ico start (min stop 256) := by
  refine indices_eq_iff.2 ⟨?_, ?_⟩
  · intro i hi
    exact lt_of_lt_of_le (Finset.mem_Ico.1 hi).2 (min_le_right _ _)
  · intro r
    have hlt := r.index.isLt
    rw [mem_range, Finset.mem_Ico, lt_min_iff]
    tauto

/-- Operations on sets of registers are those on finite sets of indices. -/
theorem models_indices : Models indices where
  subset_range s i hi := Finset.mem_range.2 (lt_of_mem_indices hi)
  exists_of_subset I hI := by
    refine ⟨RegSet.ofList (Reg.all.filter fun r => r.index.val ∈ I), indices_eq_iff.2 ⟨?_, ?_⟩⟩
    · exact fun i hi => Finset.mem_range.1 (hI hi)
    · intro r
      simp [Reg.mem_all]
  -- For each operation: no index beyond the last, and the same registers.
  contains s r := index_mem_indices.symm
  insert s r := by
    refine indices_eq_iff.2 ⟨?_, ?_⟩
    · intro i hi
      rcases Finset.mem_insert.1 hi with rfl | hi
      · exact r.index.isLt
      · exact lt_of_mem_indices hi
    · intro q
      rw [mem_insert, Finset.mem_insert, index_mem_indices]
      exact or_congr_left ⟨fun h => by rw [h], Reg.index_injective⟩
  union s t := by
    refine indices_eq_iff.2 ⟨?_, ?_⟩
    · intro i hi
      exact (Finset.mem_union.1 hi).elim lt_of_mem_indices lt_of_mem_indices
    · intro r
      rw [mem_union, Finset.mem_union, index_mem_indices, index_mem_indices]
  inter s t := by
    refine indices_eq_iff.2 ⟨?_, ?_⟩
    · intro i hi
      exact lt_of_mem_indices (Finset.mem_inter.1 hi).1
    · intro r
      rw [mem_inter, Finset.mem_inter, index_mem_indices, index_mem_indices]
  range := indices_range
  arguments n := indices_range 4 (4 + n)
  ofList rs := by
    refine indices_eq_iff.2 ⟨?_, ?_⟩
    · intro i hi
      obtain ⟨r, -, rfl⟩ := List.mem_map.1 (List.mem_toFinset.1 hi)
      exact r.index.isLt
    · intro r
      rw [mem_ofList, List.mem_toFinset, List.mem_map]
      constructor
      · exact fun hr => ⟨r, hr, rfl⟩
      · rintro ⟨q, hq, heq⟩
        rwa [← Reg.index_injective heq]
  eq_iff s t := indices_eq_indices_iff.symm
  isEmpty s := by
    have hempty : empty.indices = ∅ :=
      indices_eq_iff.2 ⟨by simp, fun r => by simp⟩
    rw [isEmpty_iff, ← indices_eq_indices_iff, hempty]
  mem_toList s r := by rw [mem_toList, index_mem_indices]
  ascending s := Reg.pairwise_all.filter _
  ofList_toList := ofList_toList

/-! ## Words -/

def word (s : RegSet) (w : Fin 4) : UInt64 :=
  .ofBitVec (s.bits.extractLsb' (64 * w.val) 64)

/-- The set with the given words. -/
def ofWords (words : Fin 4 → UInt64) : RegSet :=
  ofList (Reg.all.filter fun r => (words r.word).toBitVec.getLsbD (r.index.val % 64))

/-- How the bits of a set are spread over words. -/
structure SpreadOver (words : RegSet → Fin 4 → UInt64) : Prop where
  bijective : Function.Bijective words
  contains : ∀ s r, s.contains r = (words s r.word &&& r.mask != 0)
  insert : ∀ s r,
    words (s.insert r) = Function.update (words s) r.word (words s r.word ||| r.mask)
  union : ∀ s t w, words (s.union t) w = words s w ||| words t w
  inter : ∀ s t w, words (s.inter t) w = words s w &&& words t w

/-- Each word holds 64 of the bits. -/
theorem getLsbD_word (s : RegSet) (w : Fin 4) (i : ℕ) :
    (s.word w).toBitVec.getLsbD i = (decide (i < 64) && s.bits.getLsbD (64 * w.val + i)) := by
  rw [word, BitVec.getLsbD_extractLsb']

/-- A register is one bit of its word. -/
theorem mem_iff_word : r ∈ s ↔ (s.word r.word).toBitVec.getLsbD (r.index.val % 64) = true := by
  have hbit : r.index.val % 64 < 64 := Nat.mod_lt _ (by decide)
  have hindex : 64 * r.word.val + r.index.val % 64 = r.index.val := Nat.div_add_mod _ _
  rw [mem_iff_getLsbD, getLsbD_word, hindex, decide_eq_true hbit, Bool.true_and]

/-- A word is known from the registers that are kept in it. -/
theorem word_eq_iff {w : Fin 4} {x : UInt64} :
    s.word w = x ↔
      ∀ r : Reg, r.word = w → (r ∈ s ↔ x.toBitVec.getLsbD (r.index.val % 64) = true) := by
  constructor
  · rintro rfl r rfl
    exact mem_iff_word
  · intro h
    refine UInt64.toBitVec_inj.1 (BitVec.eq_of_getLsbD_eq fun i hi => ?_)
    -- Bit `i` of the word belongs to the register `64 * w + i`.
    have hlt : 64 * w.val + i < 256 := by omega
    have hword : Reg.word ⟨⟨64 * w.val + i, hlt⟩⟩ = w := by
      apply Fin.ext
      change (64 * w.val + i) / 64 = w.val
      omega
    have hi' : (64 * w.val + i) % 64 = i := by omega
    have hbit := mem_iff_word.symm.trans (h _ hword)
    rw [hword] at hbit
    dsimp only at hbit
    rw [hi'] at hbit
    exact Bool.eq_iff_iff.2 hbit

/-- Four words make up a set. -/
theorem word_injective : Function.Injective word := by
  intro s t h
  refine eq_of_mem_iff fun r => ?_
  rw [mem_iff_word, h, mem_iff_word]

/-- Any four words do. -/
theorem word_ofWords (words : Fin 4 → UInt64) : (ofWords words).word = words := by
  funext w
  refine word_eq_iff.2 fun r hr => ?_
  rw [ofWords, mem_ofList, List.mem_filter, hr]
  simp [Reg.mem_all]

/-- In its word, the mask of a register has the bit of that register only. -/
theorem getLsbD_mask (hword : q.word = r.word) :
    r.mask.toBitVec.getLsbD (q.index.val % 64) = true ↔ q = r := by
  have hbit : r.index.val % 64 < 64 := Nat.mod_lt _ (by decide)
  have hword' : q.index.val / 64 = r.index.val / 64 := congrArg Fin.val hword
  rw [Reg.mask, BitVec.getLsbD_twoPow]
  simp only [hbit, decide_true, Bool.true_and, decide_eq_true_eq]
  constructor
  · intro h
    apply Reg.index_injective
    omega
  · rintro rfl
    rfl

/-- The bit of a register is tested by its mask. -/
theorem and_mask_bne_zero (x : UInt64) (r : Reg) :
    (x &&& r.mask != 0) = x.toBitVec.getLsbD (r.index.val % 64) := by
  have hbit : r.index.val % 64 < 64 := Nat.mod_lt _ (by decide)
  have hzero : BitVec.twoPow 64 (r.index.val % 64) ≠ 0#64 := by
    intro h
    have hget := congrArg (fun b => b.getLsbD (r.index.val % 64)) h
    simp [hbit] at hget
  rw [Bool.eq_iff_iff, bne_iff_ne, ne_eq, ← UInt64.toBitVec_inj, UInt64.toBitVec_and, Reg.mask,
    BitVec.and_twoPow]
  cases x.toBitVec.getLsbD (r.index.val % 64) with
  | true => simpa using hzero
  | false => simp

/-- Registers are kept as bits of words, and the operations are those of words. -/
theorem spreadOver_word : SpreadOver word where
  bijective := ⟨word_injective, fun words => ⟨ofWords words, word_ofWords words⟩⟩
  contains s r := by
    rw [and_mask_bne_zero, Bool.eq_iff_iff]
    exact mem_iff_word
  insert s r := by
    funext w
    refine word_eq_iff.2 fun q hq => ?_
    by_cases hw : w = r.word
    · subst hw
      rw [Function.update_self, UInt64.toBitVec_or, BitVec.getLsbD_or, Bool.or_eq_true,
        getLsbD_mask hq, ← hq, ← mem_iff_word, mem_insert, or_comm]
    · -- A register of another word is not the one that was inserted.
      have hne : q ≠ r := by
        rintro rfl
        exact hw hq.symm
      rw [Function.update_of_ne hw, ← hq, ← mem_iff_word, mem_insert, or_iff_right hne]
  union s t w := by
    refine word_eq_iff.2 fun r hr => ?_
    rw [UInt64.toBitVec_or, BitVec.getLsbD_or, Bool.or_eq_true, ← hr, ← mem_iff_word,
      ← mem_iff_word, mem_union]
  inter s t w := by
    refine word_eq_iff.2 fun r hr => ?_
    rw [UInt64.toBitVec_and, BitVec.getLsbD_and, Bool.and_eq_true, ← hr, ← mem_iff_word,
      ← mem_iff_word, mem_inter]

/-- A set of registers is a finite set of indices below 256, kept in four words of 64 bits. -/
theorem registers_form_finite_sets : Models indices ∧ SpreadOver word :=
  ⟨models_indices, spreadOver_word⟩

end RegSet
end RegisterLisp
