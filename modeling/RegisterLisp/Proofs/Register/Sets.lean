import RegisterLisp.Register.File
import Mathlib.Data.List.Nodup
import Mathlib.Data.List.FinRange

/-!
# Sets of registers and what is handed out of them

Membership in a set of registers after every operation on sets, and what a reservation does to the
live set:

* temporaries are handed out from the free registers from r32 on, each once;
* the registers of arguments are r4, r5, … in order, whether they are free or not;
* giving a reservation back restores the register file it was made in.
-/

namespace RegisterLisp

/-! ## Registers -/

namespace Reg

theorem mem_all (r : Reg) : r ∈ all :=
  List.mem_map.2 ⟨r.index, List.mem_finRange r.index, rfl⟩

/-- The machine has 256 registers. -/
theorem length_all : all.length = 256 := by
  simp [all]

theorem nodup_all : all.Nodup := by
  refine List.Nodup.map ?_ (List.nodup_finRange 256)
  intro i j h
  exact congrArg index h

end Reg

/-! ## Membership -/

namespace RegSet

variable {s t : RegSet} {r q : Reg}

theorem mem_def : r ∈ s ↔ s.contains r = true :=
  Iff.rfl

instance (r : Reg) (s : RegSet) : Decidable (r ∈ s) :=
  inferInstanceAs (Decidable (s.contains r = true))

@[simp]
theorem not_mem_empty : r ∉ empty := by
  simp [mem_def, contains, empty]

/-- Inserting adds one register. -/
@[simp]
theorem mem_insert : q ∈ s.insert r ↔ q = r ∨ q ∈ s := by
  have hbit : (BitVec.twoPow 256 r.index.val).getLsbD q.index.val = decide (q = r) := by
    rw [BitVec.getLsbD_twoPow]
    have hlt := r.index.isLt
    have hiff : r.index.val = q.index.val ↔ q = r := by
      constructor
      · intro h
        cases q
        cases r
        simp_all [Fin.ext_iff]
      · intro h
        rw [h]
    simp [hlt, hiff]
  change (s.bits ||| BitVec.twoPow 256 r.index.val).getLsbD q.index.val = true ↔
    q = r ∨ s.bits.getLsbD q.index.val = true
  rw [BitVec.getLsbD_or, hbit]
  simp [or_comm]

/-- The union has the registers of both. -/
@[simp]
theorem mem_union : r ∈ s.union t ↔ r ∈ s ∨ r ∈ t := by
  simp [mem_def, contains, union]

/-- The intersection has those in both. -/
@[simp]
theorem mem_inter : r ∈ s.inter t ↔ r ∈ s ∧ r ∈ t := by
  simp [mem_def, contains, inter]

theorem mem_foldl_insert (rs : List Reg) :
    ∀ {s : RegSet}, r ∈ rs.foldl insert s ↔ r ∈ rs ∨ r ∈ s := by
  induction rs with
  | nil =>
      intro s
      simp
  | cons q rs ih =>
      intro s
      simp only [List.foldl_cons, ih, mem_insert, List.mem_cons]
      tauto

@[simp]
theorem mem_ofList {rs : List Reg} : r ∈ ofList rs ↔ r ∈ rs := by
  simp [ofList, mem_foldl_insert]

/-- The list of a set has the registers in it. -/
@[simp]
theorem mem_toList : r ∈ s.toList ↔ r ∈ s := by
  simp [toList, Reg.mem_all, mem_def]

theorem nodup_toList (s : RegSet) : s.toList.Nodup :=
  Reg.nodup_all.filter _

/-- A range has the registers with these numbers. -/
theorem mem_range {start stop : Nat} :
    r ∈ range start stop ↔ start ≤ r.index.val ∧ r.index.val < stop := by
  simp [range, Reg.mem_all]

/-- Arguments start at r4. -/
theorem mem_arguments {n : Nat} :
    r ∈ arguments n ↔ 4 ≤ r.index.val ∧ r.index.val < 4 + n := by
  simp [arguments, mem_range, Reg.firstArgument]

/-- A call may change arguments and temporaries. -/
theorem mem_callerSaved :
    r ∈ callerSaved ↔ (4 ≤ r.index.val ∧ r.index.val < 12) ∨ 32 ≤ r.index.val := by
  have hlt := r.index.isLt
  simp only [callerSaved, mem_union, mem_arguments, mem_range, Reg.argumentCount,
    Reg.firstTemporary]
  omega

/-- Sets with the same registers are equal. -/
theorem eq_of_mem_iff (h : ∀ r, r ∈ s ↔ r ∈ t) : s = t := by
  have hbits : s.bits = t.bits := by
    apply BitVec.eq_of_getLsbD_eq
    intro i hi
    have hr := h ⟨⟨i, hi⟩⟩
    simp only [mem_def, contains, BitVec.getLsb_eq_getElem] at hr
    rw [BitVec.getLsbD_eq_getElem hi, BitVec.getLsbD_eq_getElem hi]
    exact Bool.eq_iff_iff.2 hr
  cases s
  cases t
  exact congrArg RegSet.mk hbits

theorem ofList_toList (s : RegSet) : ofList s.toList = s :=
  eq_of_mem_iff fun _ => mem_ofList.trans mem_toList

/-- A set that is not saved around a call holds no register at all. -/
theorem not_mem_of_isEmpty (h : s.isEmpty = true) : r ∉ s := by
  have hs : s = empty := by simpa [isEmpty] using h
  rw [hs]
  exact not_mem_empty

end RegSet

/-! ## Reservations -/

namespace RegFile

/-- What handing out `regs` makes of a register file; giving them back leads to the old one. -/
structure Hands (f : RegFile) (regs : List Reg) (f' : RegFile) : Prop where
  restore_eq : f'.restore = f
  mem_live : ∀ r, r ∈ f'.live ↔ r ∈ regs ∨ r ∈ f.live

/-- A register is free if it is in range and not live. -/
theorem mem_free {f : RegFile} {low high : Nat} {r : Reg} :
    r ∈ f.free low high ↔ low ≤ r.index.val ∧ r.index.val < high ∧ r ∉ f.live := by
  simp [free, Reg.mem_all, RegSet.mem_def, and_assoc]

/-- The registers that are handed out are as many as asked for, each once, and were free. -/
theorem allocate_eq_ok {f f' : RegFile} {n : Nat} {start : Option Nat} {region : Region}
    {regs : List Reg} (h : f.allocate n start region = (.ok regs, f')) :
    f'.saved = f.saved ∧ (∀ r, r ∈ f'.live ↔ r ∈ regs ∨ r ∈ f.live) ∧
      regs.length = n ∧ regs.Nodup ∧
        ∀ r ∈ regs, start.getD region.first ≤ r.index.val ∧ r ∉ f.live := by
  unfold allocate at h
  dsimp only at h
  split at h
  · cases h
  · split at h
    · cases h
    · rename_i hlength
      cases h
      refine ⟨rfl, fun r => RegSet.mem_foldl_insert _, ?_, ?_, ?_⟩
      · exact le_antisymm (List.length_take_le n _) (Nat.le_of_not_lt hlength)
      · exact (Reg.nodup_all.filter _).sublist (List.take_sublist _ _)
      · intro r hr
        have hfree := mem_free.1 (List.mem_of_mem_take hr)
        exact ⟨hfree.1, hfree.2.2⟩

/-- An allocation that fails leaves the register file as it was. -/
theorem allocate_eq_error {f f' : RegFile} {n : Nat} {start : Option Nat} {region : Region}
    {cause : AllocError} (h : f.allocate n start region = (.error cause, f')) : f' = f := by
  unfold allocate at h
  dsimp only at h
  split at h
  · cases h
    rfl
  · split at h
    · cases h
      rfl
    · cases h

/-- So does a reservation. -/
theorem reserve_eq_error {f f' : RegFile} {request : Reservation} {cause : AllocError}
    (h : f.reserve request = (.error cause, f')) : f' = f := by
  cases request with
  | count n start region => exact allocate_eq_error h
  | set registers => cases h

/-- A reservation does not touch what was live before the scopes around it. -/
theorem reserve_saved {f f' : RegFile} {request : Reservation} {regs : List Reg}
    (h : f.reserve request = (.ok regs, f')) : f'.saved = f.saved := by
  cases request with
  | count n start region => exact (allocate_eq_ok h).1
  | set registers =>
      cases h
      rfl

/-- Whatever is reserved in a new scope is given back at its end. -/
theorem restore_of_reserve {f f' : RegFile} {request : Reservation} {regs : List Reg}
    (h : f.save.reserve request = (.ok regs, f')) : f'.restore = f := by
  have hsaved : f'.saved = f.live :: f.saved := reserve_saved h
  unfold restore
  rw [hsaved]

/-- A scope in which nothing could be reserved is left with the register file around it. -/
theorem restore_of_reserve_error {f f' : RegFile} {request : Reservation} {cause : AllocError}
    (h : f.save.reserve request = (.error cause, f')) : f'.restore = f := by
  rw [reserve_eq_error h]
  rfl

/-- Temporaries are free registers from r32 on, each handed out once. -/
theorem reserve_temporaries {f f' : RegFile} {n : Nat} {regs : List Reg}
    (h : f.save.reserve (.temporaries n) = (.ok regs, f')) :
    Hands f regs f' ∧ regs.length = n ∧ regs.Nodup ∧
      ∀ r ∈ regs, r ∉ f.live ∧ 32 ≤ r.index.val := by
  have hallocate : f.save.allocate n none .volatile = (.ok regs, f') := h
  obtain ⟨-, hlive, hlength, hnodup, hfree⟩ := allocate_eq_ok hallocate
  refine ⟨⟨restore_of_reserve h, hlive⟩, hlength, hnodup, ?_⟩
  intro r hr
  exact (hfree r hr).symm

/-- The registers of arguments are reserved whether they are free or not. -/
theorem reserve_arguments {f f' : RegFile} {n : Nat} {request : Reservation} {regs : List Reg}
    (hn : Reservation.arguments n = .ok request) (h : f.save.reserve request = (.ok regs, f')) :
    Hands f regs f' ∧ n ≤ 8 ∧ regs = (RegSet.arguments n).toList := by
  unfold Reservation.arguments at hn
  split at hn
  · cases hn
  · rename_i hle
    cases hn
    cases h
    refine ⟨⟨rfl, ?_⟩, Nat.le_of_not_lt hle, rfl⟩
    intro r
    simp [save, or_comm]

end RegFile

namespace RegSet

/-- The argument registers in order are r4, r5, …. -/
theorem toList_arguments {n : Nat} (h : n ≤ 8) :
    (arguments n).toList = (Reg.all.drop 4).take n := by
  have hall : ∀ k, k ≤ 8 → (arguments k).toList = (Reg.all.drop 4).take k := by
    decide +kernel
  exact hall n h

/-- Up to eight arguments have a register each. -/
theorem length_toList_arguments {n : Nat} (h : n ≤ 8) : (arguments n).toList.length = n := by
  rw [toList_arguments h, List.length_take, List.length_drop, Reg.length_all]
  omega

end RegSet
end RegisterLisp
