import RegisterLisp.Proofs.Lowering.Needs

/-!
# Temporaries are used like a stack

Temporaries are handed out in order and given back in the reverse order.  So at every point the live
ones are the first `k` of them (`Packed k`), and how many more a form needs can be told in advance
(`Term.need`).  The log has a record for every scope of registers, which says what was reserved at
which depth; `Stacked` says that the records of a run are those of such a use.

`Costs` is the metered property behind this: a step leaves the registers as it found them, fails for
want of temporaries only if it needs more than are left, and does not succeed if it does.
-/

namespace RegisterLisp

/-! ## Packed temporaries -/

namespace Reg

/-- Registers are listed by their numbers. -/
theorem index_getElem_all {i : Nat} (h : i < all.length) : all[i].index.val = i := by
  simp [all]

/-- The registers from `m` on, in order. -/
theorem filter_le_all (m : Nat) : (all.filter fun r => m ≤ r.index.val) = all.drop m := by
  conv_lhs => rw [← List.take_append_drop m all]
  rw [List.filter_append]
  have hlow : (all.take m).filter (fun r => m ≤ r.index.val) = [] := by
    refine List.filter_eq_nil_iff.2 fun r hr => ?_
    obtain ⟨i, hi, rfl⟩ := List.mem_take_iff_getElem.1 hr
    rw [index_getElem_all]
    simp only [decide_eq_true_eq]
    omega
  have hhigh : (all.drop m).filter (fun r => m ≤ r.index.val) = all.drop m := by
    refine List.filter_eq_self.2 fun r hr => ?_
    obtain ⟨i, hi, rfl⟩ := List.mem_drop_iff_getElem.1 hr
    rw [index_getElem_all]
    simp
  rw [hlow, hhigh, List.nil_append]

def temporaries (k n : Nat) : List Reg :=
  (all.drop (firstTemporary + k)).take n

/-- Temporaries are numbered from 32 on. -/
theorem mem_temporaries {k n : Nat} {r : Reg} :
    r ∈ temporaries k n ↔ 32 + k ≤ r.index.val ∧ r.index.val < 32 + k + n := by
  have hlt := r.index.isLt
  rw [temporaries, List.mem_take_iff_getElem]
  constructor
  · rintro ⟨i, hi, rfl⟩
    rw [List.getElem_drop, index_getElem_all, firstTemporary]
    omega
  · rintro ⟨hle, hlt'⟩
    refine ⟨r.index.val - (32 + k), ?_, ?_⟩
    · rw [List.length_drop, length_all, firstTemporary]
      omega
    · have hindex : ∀ q : Reg, q.index.val = r.index.val → q = r :=
        fun q hq => congrArg Reg.mk (Fin.ext hq)
      refine hindex _ ?_
      rw [List.getElem_drop, index_getElem_all, firstTemporary]
      omega

/-- As many are handed out as are asked for, if there are so many left. -/
theorem length_temporaries {k n : Nat} (h : k + n ≤ 224) : (temporaries k n).length = n := by
  rw [temporaries, List.length_take, List.length_drop, length_all, firstTemporary]
  omega

end Reg

/-- The live temporaries are the first `k` of them. -/
structure Packed (k : Nat) (live : RegSet) : Prop where
  le : k ≤ 224
  mem_iff : ∀ r : Reg, 32 ≤ r.index.val → (r ∈ live ↔ r.index.val < 32 + k)

/-- The region of temporaries is not left at its start. -/
theorem RegFile.allocate_volatile (f : RegFile) (n : Nat) :
    f.allocate n none .volatile =
      if ((f.free 32 256).take n).length < n then
        (.error (.exhausted n ((f.free 32 256).take n).length), f)
      else
        (.ok ((f.free 32 256).take n),
          { f with live := ((f.free 32 256).take n).foldl RegSet.insert f.live }) := by
  rw [allocate]
  exact if_neg (by decide)

namespace Packed

variable {k n : Nat} {f : RegFile} {live : RegSet}

/-- Behind packed temporaries everything is free. -/
theorem free_eq (h : Packed k f.live) : f.free 32 256 = Reg.all.drop (32 + k) := by
  rw [RegFile.free, ← Reg.filter_le_all]
  refine List.filter_congr fun r _ => Bool.eq_iff_iff.2 ?_
  have hlt := r.index.isLt
  have hmem := h.mem_iff r
  rw [RegSet.mem_def] at hmem
  -- Whether a register is live is a Boolean, and its place is compared with `32 + k`.
  cases hlive : f.live.contains r <;>
    simp only [hlive, Bool.and_eq_true, decide_eq_true_eq, Bool.false_eq_true, false_iff, true_iff,
      Bool.not_false, Bool.not_true, and_true, and_false] at hmem ⊢ <;> omega

/-- Temporaries are handed out in order, and there are 224 of them. -/
theorem reserve_eq (h : Packed k f.live) (n : Nat) :
    f.save.reserve (.temporaries n) =
      if k + n ≤ 224 then
        (.ok (Reg.temporaries k n),
          { live := (Reg.temporaries k n).foldl RegSet.insert f.live, saved := f.live :: f.saved })
      else (.error (.exhausted n (224 - k)), f.save) := by
  have hfree : (f.save.free 32 256).take n = Reg.temporaries k n := by
    have hsave : Packed k f.save.live := h
    rw [hsave.free_eq]
    rfl
  have hlength : (Reg.temporaries k n).length = min n (224 - k) := by
    rw [Reg.temporaries, List.length_take, List.length_drop, Reg.length_all, Reg.firstTemporary]
    omega
  change f.save.allocate n none .volatile = _
  rw [RegFile.allocate_volatile, hfree, hlength]
  -- The request is refused exactly if fewer than `n` are left.
  by_cases hn : k + n ≤ 224
  · rw [if_pos hn, if_neg (by omega)]
    rfl
  · have hle := h.le
    rw [if_neg hn, if_pos (by omega), Nat.min_eq_right (by omega)]

/-- Handing out the next temporaries keeps them packed. -/
theorem temporaries (h : Packed k live) (hn : k + n ≤ 224) :
    Packed (k + n) ((Reg.temporaries k n).foldl RegSet.insert live) where
  le := hn
  mem_iff r hr := by
    rw [RegSet.mem_foldl_insert, Reg.mem_temporaries, h.mem_iff r hr]
    omega

/-- The registers of arguments are no temporaries. -/
theorem arguments (h : Packed k live) (hn : n ≤ 8) : Packed k (live.union (RegSet.arguments n)) where
  le := h.le
  mem_iff r hr := by
    rw [RegSet.mem_union, RegSet.mem_arguments, h.mem_iff r hr]
    omega

theorem start : Packed 0 ({} : RegFile).live where
  le := Nat.zero_le _
  mem_iff r hr := by
    change r ∈ RegSet.reserved ↔ _
    rw [RegSet.reserved, RegSet.mem_range, Reg.firstArgument]
    omega

end Packed

namespace Lowering

open Steps

/-! ## The record of scopes -/

def scopesOf (records : List Record) : List Record :=
  records.filter fun r => r.origin = .registers

/-- What the log says about reservations that are made one inside the other and one after the other,
from a point on where `depth` scopes are open and the first `k` temporaries are live.  A scope of
temporaries takes the next ones, one of arguments the first argument registers; when it is closed,
the first `k` temporaries are live again. -/
inductive Stacked : Nat → Nat → List Record → Prop
  | nil {depth k : Nat} : Stacked depth k []
  | temporaries {depth k n : Nat} {inner rest : List Record} (hn : k + n ≤ 224)
      (hinner : Stacked (depth + 1) (k + n) inner) (hrest : Stacked depth k rest) :
      Stacked depth k (scopeRecord (depth + 1) (Reg.temporaries k n) :: (inner ++ rest))
  | arguments {depth k n : Nat} {inner rest : List Record} (hn : n ≤ 8)
      (hinner : Stacked (depth + 1) k inner) (hrest : Stacked depth k rest) :
      Stacked depth k (scopeRecord (depth + 1) (RegSet.arguments n).toList :: (inner ++ rest))

/-- Two pieces of a log that begin at one level are one. -/
theorem Stacked.append {depth k : Nat} {first second : List Record} (h : Stacked depth k first)
    (h' : Stacked depth k second) : Stacked depth k (first ++ second) := by
  induction h with
  | nil => exact h'
  | temporaries hn hinner _ _ ih =>
      rw [List.cons_append, List.append_assoc]
      exact .temporaries hn hinner (ih h')
  | arguments hn hinner _ _ ih =>
      rw [List.cons_append, List.append_assoc]
      exact .arguments hn hinner (ih h')

/-! ## Steps with what they cost -/

variable {α β : Type} {sees : Symbol → Bool} {k n m : Nat} {Q : α → Prop} {s s' : Lowering}

/-- What becomes of a step that needs `n` temporaries in a state in which the first `k` are live. -/
structure Outcome (k n : Nat) (Q : α → Prop) (s : Lowering) (out : Except LowerError α × Lowering) :
    Prop where
  restores : Restores s out.2
  log : ∃ new, out.2.log = new ++ s.log ∧ Stacked s.registers.depth k (scopesOf new.reverse)
  /-- With enough temporaries left, they are not exhausted. -/
  enough : k + n ≤ 224 →
    ∀ requested available, out.1 ≠ .error (.registers (.exhausted requested available))
  /-- With fewer temporaries left, there is no success. -/
  scarce : 224 < k + n → ∀ a, out.1 ≠ .ok a
  value : ∀ a, out.1 = .ok a → Q a

/-- A step that needs `n` temporaries, no more and no less. -/
def Costs (sees : Symbol → Bool) (n : Nat) (Q : α → Prop) (x : LowerM α) : Prop :=
  ∀ s k, Packed k s.registers.live → s.scopes.Shows (fun _ => True) sees → Outcome k n Q s (x s)

namespace Outcome

/-- A step that reserves nothing and fails, if at all, for another reason. -/
theorem of_idle {out : Except LowerError α × Lowering} (hk : k ≤ 224)
    (hrestores : Restores s out.2) (hlog : out.2.log = s.log)
    (hfail : ∀ requested available, out.1 ≠ .error (.registers (.exhausted requested available)))
    (hvalue : ∀ a, out.1 = .ok a → Q a) : Outcome k 0 Q s out where
  restores := hrestores
  log := ⟨[], hlog, .nil⟩
  enough _ := hfail
  scarce h := absurd h (Nat.not_lt.2 hk)
  value := hvalue

/-- A scope of registers is closed: the records of what happened in it stand after its own. -/
theorem close {out : Except LowerError α × Lowering} {regs : List Reg} {k' : Nat}
    (hout : Outcome k' m Q s' out) (hsaved : s'.registers.saved = s.registers.live :: s.registers.saved)
    (hlog : s'.log = scopeRecord (s.registers.depth + 1) regs :: s.log)
    (hstacked : ∀ {inner}, Stacked (s.registers.depth + 1) k' inner →
      Stacked s.registers.depth k (scopeRecord (s.registers.depth + 1) regs :: (inner ++ []))) :
    ∃ new, out.2.log = new ++ s.log ∧ Stacked s.registers.depth k (scopesOf new.reverse) := by
  have hdepth : s'.registers.depth = s.registers.depth + 1 := by
    rw [RegFile.depth, hsaved]
    rfl
  obtain ⟨new, hnew, hinner⟩ := hout.log
  rw [hdepth] at hinner
  refine ⟨new ++ [scopeRecord (s.registers.depth + 1) regs], ?_, ?_⟩
  · rw [hnew, hlog, List.append_assoc, List.singleton_append]
  · have hscopes : scopesOf (new ++ [scopeRecord (s.registers.depth + 1) regs]).reverse =
        scopeRecord (s.registers.depth + 1) regs :: (scopesOf new.reverse ++ []) := by
      simp [scopesOf, scopeRecord]
    rw [hscopes]
    exact hstacked hinner

end Outcome

namespace Costs

theorem pure {a : α} (ha : Q a) : Costs sees 0 Q (pure a : LowerM α) := by
  intro s k hk _
  refine .of_idle hk.le (.refl _) rfl (fun _ _ h => by cases h) ?_
  rintro _ ⟨⟩
  exact ha

theorem imp {R : α → Prop} {x : LowerM α} (hx : Costs sees n Q x) (himp : ∀ a, Q a → R a) :
    Costs sees n R x :=
  fun s k hk hs => { hx s k hk hs with value := fun a ha => himp a ((hx s k hk hs).value a ha) }

/-- Two steps in sequence cost what the more expensive one costs. -/
theorem bind {R : β → Prop} {x : LowerM α} {f : α → LowerM β} (hx : Costs sees n Q x)
    (hf : ∀ a, Q a → Costs sees m R (f a)) : Costs sees (max n m) R (x >>= f) := by
  intro s k hk hs
  have hout := hx s k hk hs
  rw [bind_apply]
  rcases hrun : x s with ⟨_ | a, s'⟩
  · -- The second step is not begun, and the first had enough if both have.
    rename_i cause
    rw [hrun] at hout
    refine { hout with enough := ?_, scarce := ?_, value := ?_ }
    · intro hle requested available h
      refine hout.enough (by omega) requested available ?_
      cases h
      rfl
    · rintro _ _ ⟨⟩
    · rintro _ ⟨⟩
  · rw [hrun] at hout
    have hk' : Packed k s'.registers.live := by rw [hout.restores.registers]; exact hk
    have hout' := hf a (hout.value a rfl) s' k hk' (hout.restores.shows hs)
    obtain ⟨new, hlog, hstacked⟩ := hout.log
    obtain ⟨new', hlog', hstacked'⟩ := hout'.log
    refine ⟨hout.restores.trans hout'.restores, ⟨new' ++ new, ?_, ?_⟩, ?_, ?_, hout'.value⟩
    · rw [hlog', hlog, List.append_assoc]
    · rw [hout.restores.registers] at hstacked'
      rw [List.reverse_append, scopesOf, List.filter_append]
      exact hstacked.append hstacked'
    · intro hle
      exact hout'.enough (by omega)
    · -- The one of the two that needs more does not succeed.
      intro hlt
      by_cases hm : 224 < k + m
      · exact hout'.scarce hm
      · exact absurd rfl (hout.scarce (by omega) a)

/-- Two steps that need nothing. -/
theorem andThen {R : β → Prop} {x : LowerM α} {f : α → LowerM β} (hx : Costs sees 0 Q x)
    (hf : ∀ a, Q a → Costs sees 0 R (f a)) : Costs sees 0 R (x >>= f) :=
  bind hx hf

/-- A step that fails for another reason may claim any cost. -/
theorem fail {cause : LowerError}
    (hcause : ∀ requested available, cause ≠ .registers (.exhausted requested available)) :
    Costs sees n Q (throw cause : LowerM α) := by
  intro s k _ _
  refine ⟨.refl s, ⟨[], rfl, .nil⟩, ?_, ?_, ?_⟩
  · intro _ requested available h
    exact hcause requested available (Except.error.inj h)
  · rintro _ _ ⟨⟩
  · rintro _ ⟨⟩

theorem live {f : RegSet → LowerM α} (hf : ∀ live, Costs sees n Q (f live)) :
    Costs sees n Q (get >>= fun s => f s.registers.live) :=
  fun s k hk hs => hf s.registers.live s k hk hs

/-- Looking a symbol up costs nothing; whether it is found in a register is known. -/
theorem lookup (name : Symbol) :
    Costs sees 0 (Value.Fits (fun _ => True) (sees name)) (lookup name) := by
  intro s k hk hs
  rw [lookup_apply]
  cases hvalue : s.scopes.lookup name false with
  | none => exact fail (by simp) s k hk hs
  | some v => exact pure (hs.fits_of_lookup hvalue) s k hk hs

/-- Writing fails only because of the sink. -/
theorem writing (step : Listing.WriteM α) : Costs sees 0 (fun _ => True) (writing step) := by
  intro s k hk _
  rw [Lowering.writing]
  split
  · exact .of_idle hk.le ⟨rfl, rfl, rfl⟩ rfl (fun _ _ h => by cases h) fun _ _ => trivial
  · exact .of_idle hk.le ⟨rfl, rfl, rfl⟩ rfl (fun _ _ h => by cases h) fun _ _ => trivial

/-- A record that is not about registers does not show in the log of reservations. -/
theorem tell {r : Record} (h : r.origin ≠ .registers) : Costs sees 0 (fun _ => True) (tell r) := by
  intro s k hk _
  have hnone : Stacked s.registers.depth k (scopesOf [r].reverse) := by
    rw [show scopesOf [r].reverse = [] by simp [scopesOf, h]]
    exact .nil
  refine ⟨⟨rfl, rfl, rfl⟩, ⟨[r], rfl, hnone⟩, ?_, ?_, fun _ _ => trivial⟩
  · intro _ _ _ h
    cases h
  · exact fun hlt => absurd hlt hk.le.not_gt

theorem bindGlobal (name : Symbol) (label : Label) :
    Costs sees 0 (fun _ => True) (bindGlobal name label) :=
  fun _ _ hk _ => .of_idle hk.le ⟨rfl, rfl, rfl⟩ rfl (fun _ _ h => by cases h) fun _ _ => trivial

/-! ### Scopes of registers -/

/-- Temporaries are taken from the next one on, or there are too few of them. -/
theorem withTemporaries {body : List Reg → LowerM α}
    (hbody : ∀ regs, regs.length = n → (∀ r ∈ regs, 32 ≤ r.index.val) →
      Costs sees m Q (body regs)) :
    Costs sees (n + m) Q (withRegisters (.temporaries n) body) := by
  intro s k hk hs
  have hreserve := hk.reserve_eq n
  by_cases hn : k + n ≤ 224
  · -- In the scope the first `k + n` are live.
    rw [if_pos hn] at hreserve
    rw [withRegisters_of_ok hreserve rfl]
    have hregs : ∀ r ∈ Reg.temporaries k n, 32 ≤ r.index.val :=
      fun r hr => (Nat.le_add_right 32 k).trans (Reg.mem_temporaries.1 hr).1
    have hout := hbody _ (Reg.length_temporaries hn) hregs { s with
      registers := { live := (Reg.temporaries k n).foldl RegSet.insert s.registers.live
                     saved := s.registers.live :: s.registers.saved }
      log := scopeRecord (s.registers.depth + 1) (Reg.temporaries k n) :: s.log } (k + n)
      (hk.temporaries hn) hs
    have hlog := hout.close rfl rfl fun hinner => .temporaries hn hinner .nil
    refine ⟨hout.restores.giveBack rfl rfl, hlog, ?_, ?_, hout.value⟩
    · exact fun hle => hout.enough (by omega)
    · exact fun hlt => hout.scarce (by omega)
  · rw [if_neg hn] at hreserve
    rw [withRegisters_of_error hreserve]
    refine ⟨.refl s, ⟨[], rfl, .nil⟩, fun hle => absurd hle (by omega), ?_, ?_⟩
    · rintro _ _ ⟨⟩
    · rintro _ ⟨⟩

/-- The registers of arguments are no temporaries, so they cost nothing. -/
theorem withArguments {body : List Reg → LowerM α}
    (hbody : ∀ regs, Costs sees m Q (body regs)) : Costs sees m Q (withArguments n body) := by
  intro s k hk hs
  rw [withArguments_apply]
  by_cases hn : n ≤ 8
  · rw [if_pos hn]
    have hout := hbody (RegSet.arguments n).toList (reserving n s) k (hk.arguments hn) hs
    have hlog := hout.close rfl rfl fun hinner => .arguments hn hinner .nil
    exact ⟨hout.restores.giveBack rfl rfl, hlog, hout.enough, hout.scarce, hout.value⟩
  · rw [if_neg hn]
    exact fail (by simp) s k hk hs

/-- A function sees its parameters only, and inherits the live registers around it. -/
theorem inFunction {params : List Symbol} {body : LowerM α}
    (hbody : Costs params.contains n Q body) :
    Costs sees n Q (insideFunction (Lowering.withArguments params.length fun args =>
      bindParams params args >>= fun _ => body)) := by
  intro s k hk hs
  rw [inFunction_apply]
  by_cases hn : params.length ≤ 8
  · rw [if_pos hn]
    have hout := hbody (entered params s) k (hk.arguments hn)
      (Scopes.shows_bindAll (RegSet.length_toList_arguments hn) fun _ _ => trivial)
    have hlog := hout.close rfl rfl fun hinner => .arguments hn hinner .nil
    exact ⟨hout.restores.leave, hlog, hout.enough, hout.scarce, hout.value⟩
  · rw [if_neg hn]
    exact fail (by simp) s k hk hs

/-! ### Calls -/

theorem placeArguments : ∀ regs temps : List Reg,
    Costs sees 0 (fun _ => True) (placeArguments regs temps)
  | [], _ => pure trivial
  | _ :: _, [] => pure trivial
  | _ :: regs, _ :: temps => andThen (writing _) fun _ _ => placeArguments regs temps

theorem transfer (opcode : Opcode) (saved : RegSet) :
    Costs sees 0 (fun _ => True) (transfer opcode saved) := by
  rw [Lowering.transfer]
  split
  · exact pure trivial
  · exact writing _

/-- The call itself takes arguments from temporaries that are already held. -/
theorem invoke (saved : RegSet) (target : Operand) (temps : List Reg) (count : Nat) :
    Costs sees 0 (Value.Fits (fun _ => True) true) (invoke saved target temps count) := by
  rw [invoke_eq]
  have hcall : Costs sees 0 (fun _ => True) (Lowering.withArguments count fun regs =>
      Lowering.placeArguments regs temps >>= fun _ => emit .call [target]) :=
    withArguments fun regs => andThen (placeArguments regs temps) fun _ _ => writing _
  refine andThen (transfer _ _) fun _ _ => andThen hcall fun _ _ => ?_
  exact andThen (transfer _ _) fun _ _ => pure ⟨rfl, trivial⟩

/-- Costs are of the metered kind, so all of lowering has them. -/
theorem metered : Metered (fun _ => True) RegSet.empty (@Costs) where
  result := trivial
  temporary _ := trivial
  pure := pure
  imp := imp
  bind := bind
  fail := fail
  live hf := live fun live => hf live fun _ hr => absurd hr RegSet.not_mem_empty
  lookup := lookup
  emit _ := writing _
  defineLabel _ := writing _
  newLabel _ := writing _
  comment _ := writing _
  tell := tell
  bindGlobal := bindGlobal
  withTemporaries := withTemporaries
  invoke _ := invoke _ _ _ _
  inFunction := inFunction

end Costs

/-! ## Runs -/

/-- Every request leaves the registers as they were, and its records stand after those before. -/
theorem stacked_answer (requests : List Request) {s : Lowering} (hk : Packed k s.registers.live)
    (hs : s.scopes.Shows (fun _ => True) sees) :
    Restores s (Request.answer requests s) ∧
      ∃ new, (Request.answer requests s).log = new ++ s.log ∧
        Stacked s.registers.depth k (scopesOf new.reverse) := by
  refine Request.answer_invariant (C := fun s' => Restores s s' ∧ ∃ new, s'.log = new ++ s.log ∧
    Stacked s.registers.depth k (scopesOf new.reverse)) requests ⟨.refl s, [], rfl, .nil⟩ ?_
  -- Each request starts where the first one did, as far as registers and bindings go.
  rintro request s' ⟨hrestores, new, hlog, hstacked⟩
  obtain ⟨n, x, hx, hcosts⟩ := Costs.metered.request sees request s'
  have hk' : Packed k s'.registers.live := by rw [hrestores.registers]; exact hk
  have hout := hcosts s' k hk' (hrestores.shows hs)
  rw [← hx] at hout
  obtain ⟨new', hlog', hstacked'⟩ := hout.log
  refine ⟨hrestores.trans hout.restores, new' ++ new, ?_, ?_⟩
  · rw [List.append_assoc, ← hlog]
    exact hlog'
  · rw [hrestores.registers] at hstacked'
    rw [List.reverse_append, scopesOf, List.filter_append]
    exact hstacked.append hstacked'

end Lowering

def Value.isRegister : Value → Bool
  | .register _ => true
  | .label _ => false

/-- Where a value fits is where it is left. -/
theorem Value.Fits.isRegister_eq {usable : Reg → Prop} {b : Bool} {v : Value} (h : v.Fits usable b) :
    v.isRegister = b := by
  cases v with
  | register r => exact h.1.symm
  | label l => exact Eq.symm h

namespace Lowering

/-- What can be told in advance of generating the code of `t` in a state in which the first `k`
temporaries are live. -/
structure Predicted (t : Term) (k : Nat) (s : Lowering) (out : Except LowerError Value × Lowering) :
    Prop where
  registers : out.2.registers = s.registers
  log : ∃ new, out.2.log = new ++ s.log ∧ Stacked s.registers.depth k (scopesOf new.reverse)
  enough : k + t.need s.scopes.seesRegister ≤ 224 →
    ∀ requested available, out.1 ≠ .error (.registers (.exhausted requested available))
  scarce : 224 < k + t.need s.scopes.seesRegister → ∀ v, out.1 ≠ .ok v
  isRegister : ∀ v, out.1 = .ok v → v.isRegister = t.leavesRegister s.scopes.seesRegister

/-- The code of a term costs what the term says. -/
theorem predicted_of_follows {t : Term} {p : Part} (h : p.Follows (fun _ => True) @Costs t)
    (hk : Packed k s.registers.live) : Predicted t k s (p.code s) := by
  have hout := h.code s.scopes.seesRegister s k hk (s.scopes.shows_seesRegister fun _ _ _ => trivial)
  exact ⟨hout.restores.registers, hout.log, hout.enough, hout.scarce, fun v hv =>
    (hout.value v hv).isRegister_eq⟩

structure Part.AgreesPacked (p q : Part) : Prop where
  atom? : p.atom? = q.atom?
  function? : p.function? = q.function?
  code : ∀ s k, Packed k s.registers.live → p.code s = q.code s

/-- The part is the term as lowering sees it, but where temporaries are not packed its code and that
of the parts in it may do anything. -/
inductive Part.PackedAs : Term → Part → Prop
  | atom {a : Atom} {p : Part} (hp : p.AgreesPacked (.ofAtom a)) : PackedAs (.atom a) p
  | layer {text : Thunk String} {layer : Shape (Term × Part)} {p : Part}
      (hparts : ∀ x ∈ layer.parts, PackedAs x.1 x.2)
      (hp : p.AgreesPacked (.ofShape text (layer.map Prod.snd))) :
      PackedAs (layer.map Prod.fst).toTerm p

theorem Part.AgreesPacked.refl (p : Part) : p.AgreesPacked p :=
  ⟨rfl, rfl, fun _ _ _ => rfl⟩

/-- The part of a term is that term where temporaries are packed. -/
theorem Part.packedAs_part (t : Term) : t.part.PackedAs t := by
  induction t using Term.layerInduction with
  | atom a => exact .atom (.refl _)
  | layer sh ih =>
      have hparts : ∀ x ∈ (sh.map fun t => (t, t.part)).parts, x.2.PackedAs x.1 := by
        rw [Shape.parts_map]
        exact List.forall_mem_map.2 ih
      have h := PackedAs.layer hparts (.refl (.ofShape (Thunk.mk fun _ => sh.toTerm.render) _))
      rw [Shape.map_map, Shape.map_map] at h
      rw [Term.part_toTerm]
      rwa [show sh.map (Prod.fst ∘ fun t => (t, t.part)) = sh from Shape.map_id sh] at h

/-- A part that does the same where temporaries are packed costs the same. -/
theorem Part.AgreesPacked.follows {t : Term} {p q : Part} (hp : p.AgreesPacked q)
    (hq : q.Follows (fun _ => True) @Costs t) : p.Follows (fun _ => True) @Costs t where
  atom? := hp.atom?.trans hq.atom?
  code sees s k hk hs := by
    rw [hp.code s k hk]
    exact hq.code sees s k hk hs
  function f hf := hq.function f (hp.function? ▸ hf)

/-- What a step costs says nothing of states in which temporaries are not packed, and these do not
come up. -/
theorem Part.PackedAs.follows {t : Term} {p : Part} (h : p.PackedAs t) :
    p.Follows (fun _ => True) @Costs t := by
  induction h with
  | atom hp => exact hp.follows (Costs.metered.ofAtom _)
  | layer _ hp ih => exact hp.follows (Costs.metered.ofShape _ ih)

/-- In every run of a new generator, whatever is asked for and whether it fails or not, temporaries
are reserved and given back like a stack, and in the end none is live.

Wherever the code of a form is begun, with the first `k` temporaries live, it is not stopped for want
of temporaries if `k` and what it needs are no more than there are, and it does not succeed if they
are more.  The code of the forms in it is begun in such states only: what is predicted holds whatever
their code would do in others. -/
theorem temporaries_stacked_and_predicted :
    (∀ (requests : List Request) (room : Option Nat),
      (Request.answer requests { listing := { room } }).registers = {} ∧
        Stacked 0 0 (scopesOf (Request.answer requests { listing := { room } }).log.reverse)) ∧
    (∀ (t : Term) (s : Lowering) (k : Nat), Packed k s.registers.live →
      Predicted t k s (lower t s) ∧
        ∀ p : Part, p.PackedAs t → Predicted t k s (p.code s)) ∧
    (∀ (store : Store) (r : Ref), store.Grounded r → ∀ (s : Lowering) (k : Nat),
      Packed k s.registers.live → Predicted (store.tree r) k s (store.lower r s)) ∧
    ∀ (store : Store) (r : Ref) (s : Lowering) (k : Nat), Packed k s.registers.live →
      Predicted (store.unfold (store.reach s.listing.room) r) k s (store.lower r s) := by
  have hterm : ∀ (t : Term) (s : Lowering) (k : Nat), Packed k s.registers.live →
      Predicted t k s (lower t s) :=
    fun t s k hk => predicted_of_follows (Part.packedAs_part t).follows hk
  refine ⟨?_, fun t s k hk => ⟨hterm t s k hk, fun p hp => predicted_of_follows hp.follows hk⟩,
    ?_, ?_⟩
  · intro requests room
    obtain ⟨hrestores, new, hlog, hstacked⟩ := stacked_answer requests
      (s := { listing := { room } }) Packed.start (Scopes.shows_seesRegister fun _ _ _ => trivial)
    rw [List.append_nil] at hlog
    rw [hlog]
    exact ⟨hrestores.registers, hstacked⟩
  · intro store r hr s k hk
    rw [Store.lower_eq hr]
    exact hterm _ s k hk
  · intro store r s k hk
    exact predicted_of_follows (Costs.metered.ofRef store _ r) hk

def nestedSums : Nat → Term
  | 0 => .atom (.number 1.0)
  | n + 1 => .list [.atom (.symbol ⟨"+"⟩), .atom (.number 1.0), nestedSums n]

/-- Each sum in a sum holds on to one more temporary. -/
theorem need_nestedSums (sees : Symbol → Bool) (n : Nat) :
    (nestedSums (n + 1)).need sees = n + 1 := by
  -- Only the innermost sum has two literals as operands.
  have hsum : ∀ t : Term, (Term.list [.atom (.symbol ⟨"+"⟩), .atom (.number 1.0), t]).need sees =
      1 + if t.view.isLiteral then 0 else t.need sees := by
    intro t
    simp only [Term.need, Term.needList, Term.needOperands]
    rw [if_neg (by decide), if_neg (by decide), if_pos (by decide)]
    simp [Term.view, View.isLiteral, Atom.isLiteral]
  induction n with
  | zero => exact hsum _
  | succ n ih =>
      rw [nestedSums, hsum, ih]
      exact Nat.add_comm _ _

/-- As many sums in sums as there are temporaries can be generated, but no more. -/
theorem temporaries_predicted_nestedSums :
    Packed 0 ({} : Lowering).registers.live ∧
      (∀ requested available, (lower (nestedSums 224) {}).1 ≠
        .error (.registers (.exhausted requested available))) ∧
      ∀ v, (lower (nestedSums 225) {}).1 ≠ .ok v := by
  have hpredicted := temporaries_stacked_and_predicted.2.1
  refine ⟨Packed.start, ?_, ?_⟩
  · refine (hpredicted (nestedSums 224) {} 0 Packed.start).1.enough ?_
    rw [need_nestedSums]
  · refine (hpredicted (nestedSums 225) {} 0 Packed.start).1.scarce ?_
    rw [need_nestedSums]
    decide

end Lowering
end RegisterLisp
