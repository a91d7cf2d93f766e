import RegisterLisp.Lowering
import RegisterLisp.Proofs.Register.Sets

/-!
# Running steps

Steps of writing and of lowering may fail and keep what they have done.  This module says what the
pieces they are made of do when they are run from a state.
-/

namespace RegisterLisp

/-! ## Steps that may fail and keep their state -/

namespace Steps

variable {σ ε α β : Type}

theorem throw_apply (e : ε) (s : σ) : (throw e : ExceptT ε (StateM σ) α) s = (.error e, s) :=
  rfl

theorem get_apply (s : σ) : (get : ExceptT ε (StateM σ) σ) s = (.ok s, s) :=
  rfl

theorem set_apply (s t : σ) : (set t : ExceptT ε (StateM σ) PUnit) s = (.ok ⟨⟩, t) :=
  rfl

/-- Two steps in sequence: a failure of the first keeps the state that it has left. -/
theorem bind_apply (x : ExceptT ε (StateM σ) α) (f : α → ExceptT ε (StateM σ) β) (s : σ) :
    (x >>= f) s =
      match x s with
      | (.ok a, s') => f a s'
      | (.error e, s') => (.error e, s') := by
  change (match x s with | (a, s) => ExceptT.bindCont f a s) = _
  rcases x s with ⟨r, s'⟩
  cases r <;> rfl

/-- A sequence of two steps succeeds exactly if both do. -/
theorem bind_eq_ok {x : ExceptT ε (StateM σ) α} {f : α → ExceptT ε (StateM σ) β} {s s' : σ}
    {b : β} :
    (x >>= f) s = (.ok b, s') ↔ ∃ a s₁, x s = (.ok a, s₁) ∧ f a s₁ = (.ok b, s') := by
  rw [bind_apply]
  rcases x s with ⟨r, s₁⟩
  cases r with
  | ok a =>
      constructor
      · intro h
        exact ⟨a, s₁, rfl, h⟩
      · rintro ⟨a', s₁', h, hf⟩
        cases h
        exact hf
  | error e =>
      constructor
      · intro h
        cases h
      · rintro ⟨a', s₁', h, -⟩
        cases h

/-- A step whose outcome is known, with the state that it leaves. -/
theorem eq_ok_of_fst {x : ExceptT ε (StateM σ) α} {s : σ} {a : α} (h : (x s).1 = .ok a) :
    x s = (.ok a, (x s).2) :=
  Prod.ext h rfl

/-! ### What every state passed on the way keeps -/

/-- Whatever a step does, and whether it succeeds or not, `R` relates the states around it. -/
def Keeps (R : σ → σ → Prop) (x : ExceptT ε (StateM σ) α) : Prop :=
  ∀ s, R s (x s).2

namespace Keeps

variable {R : σ → σ → Prop}

theorem pure (hrefl : ∀ s, R s s) (a : α) : Keeps R (pure a : ExceptT ε (StateM σ) α) :=
  fun s => hrefl s

theorem throw (hrefl : ∀ s, R s s) (e : ε) : Keeps R (throw e : ExceptT ε (StateM σ) α) :=
  fun s => hrefl s

theorem get (hrefl : ∀ s, R s s) : Keeps R (get : ExceptT ε (StateM σ) σ) :=
  fun s => hrefl s

/-- A relation that is transitive is kept by steps in sequence. -/
theorem bind (htrans : ∀ s t u, R s t → R t u → R s u) {x : ExceptT ε (StateM σ) α}
    {f : α → ExceptT ε (StateM σ) β} (hx : Keeps R x) (hf : ∀ a, Keeps R (f a)) :
    Keeps R (x >>= f) := by
  intro s
  have hs := hx s
  rw [bind_apply]
  rcases hxs : x s with ⟨r, s'⟩
  rw [hxs] at hs
  cases r with
  | ok a => exact htrans s s' _ hs (hf a s')
  | error e => exact hs

/-- And so by a loop. -/
theorem forM (hrefl : ∀ s, R s s) (htrans : ∀ s t u, R s t → R t u → R s u) {γ : Type}
    {f : γ → ExceptT ε (StateM σ) PUnit} :
    ∀ {xs : List γ}, (∀ x ∈ xs, Keeps R (f x)) → Keeps R (xs.forM f)
  | [], _ => Keeps.pure hrefl _
  | x :: xs, h => by
      have hx : Keeps R (f x) := h x (by simp)
      have hxs : Keeps R (xs.forM f) := forM hrefl htrans fun y hy => h y (by simp [hy])
      exact Keeps.bind htrans hx fun _ => hxs

end Keeps
end Steps

/-! ## Writing -/

namespace Listing

open Steps

/-- A line that does not fit is cut, and the step fails. -/
theorem writeLine_apply (line : Line) (l : Listing) :
    writeLine line l =
      match l.room with
      | none => (.ok (), { l with lines := line :: l.lines })
      | some room =>
          if line.render.toUTF8.toList.length ≤ room then
            (.ok (), { l with
              lines := line :: l.lines, room := some (room - line.render.toUTF8.toList.length) })
          else
            (.error .full, { l with
              fragment := l.fragment ++ line.render.toUTF8.toList.take room, room := some 0 }) := by
  unfold writeLine
  rw [bind_apply, get_apply]
  dsimp only
  cases hroom : l.room with
  | none => simp [set_apply]
  | some room =>
      dsimp only
      split
      · simp [set_apply]
      · simp [bind_apply, set_apply, throw_apply]

/-- A statement is written at the current indentation. -/
theorem write_apply (s : Statement) (l : Listing) : write s l = writeLine ⟨l.indent, s⟩ l := by
  unfold write
  rw [bind_apply, get_apply]

/-- A line that was written stands after all lines before it. -/
theorem write_eq_ok {s : Statement} {l l' : Listing} {u : Unit} (h : write s l = (.ok u, l')) :
    l'.lines = ⟨l.indent, s⟩ :: l.lines ∧ l'.indent = l.indent ∧ l'.nextLabel = l.nextLabel := by
  rw [write_apply, writeLine_apply] at h
  split at h
  · cases h
    exact ⟨rfl, rfl, rfl⟩
  · split at h
    · cases h
      exact ⟨rfl, rfl, rfl⟩
    · cases h

end Listing

namespace Lowering

/-! ## Scopes of registers -/

section Scopes

variable {α : Type} {request : Reservation} {body : List Reg → LowerM α} {s : Lowering}
  {file : RegFile}

/-- A scope that could be opened is left after the step, however that ended. -/
theorem withRegisters_of_ok {regs : List Reg} {result : Except LowerError α} {t : Lowering}
    (h : s.registers.save.reserve request = (.ok regs, file))
    (hbody : body regs { s with registers := file, log := scopeRecord file.depth regs :: s.log } =
      (result, t)) :
    withRegisters request body s = (result, { t with registers := t.registers.restore }) := by
  simp only [withRegisters, inScope, h, hbody]

/-- If the registers are refused, opening the scope and leaving it cancel out. -/
theorem withRegisters_of_error {cause : AllocError}
    (h : s.registers.save.reserve request = (.error cause, file)) :
    withRegisters request body s = (.error (.registers cause), s) := by
  have hleft : file.restore = s.registers := RegFile.restore_of_reserve_error h
  simp only [withRegisters, inScope, h, hleft]

end Scopes

/-! ## Operator forms -/

/-- What folding accepts of an operator that lowering takes for a unary one. -/
theorem arity_of_isUnary {op : Operator} (h : op.isUnary = true) : op.arity = .exactlyOne := by
  cases op <;> first | rfl | cases h

theorem arity_of_isBinary {op : Operator} (h : op.isBinary = true) : op.arity = .exactlyTwo := by
  cases op <;> first | rfl | cases h

theorem arity_of_other {op : Operator} (hand : op ≠ .and) (hor : op ≠ .or)
    (hunary : op.isUnary = false) (hbinary : op.isBinary = false) : op.arity = .atLeastOne := by
  simp [Operator.arity, hand, hor, hunary, hbinary]

/-- The code of an operator form by the operator and its operands.  What is refused is refused
because the operator does not have that many operands. -/
inductive OperatorCode : Operator → List (LowerM Source) → LowerM Value → Prop
  | conjunction (operands : List (LowerM Source)) :
      OperatorCode .and operands (conjunction operands)
  | disjunction (operands : List (LowerM Source)) :
      OperatorCode .or operands (disjunction operands)
  | negation (operand : LowerM Source) : OperatorCode .sub [operand] (unary .negate operand)
  | unary {op : Operator} (hunary : op.isUnary = true) (operand : LowerM Source) :
      OperatorCode op [operand] (unary (.applyUnary op) operand)
  | combination {op : Operator} {first : LowerM Source} {rest : List (LowerM Source)}
      (hand : op ≠ .and) (hor : op ≠ .or) (hunary : op.isUnary = false)
      (hsub : op = .sub → rest ≠ []) (hadmits : op.arity.admits (rest.length + 1) = true) :
      OperatorCode op (first :: rest) (combineAll op first rest)
  | refusal {op : Operator} {operands : List (LowerM Source)}
      (hrefused : op.arity.admits operands.length = false) :
      OperatorCode op operands (throw (.arity op ⟨op.arity, operands.length⟩))

/-- Operators that combine their operands need a first one. -/
theorem operatorCode_accumulate {op : Operator} {operands : List (LowerM Source)}
    (hand : op ≠ .and) (hor : op ≠ .or) (hunary : op.isUnary = false)
    (hsub : ∀ operand, op = .sub → operands ≠ [operand])
    (hbinary : op.isBinary = true → operands.length = 2) :
    OperatorCode op operands (accumulate op operands) := by
  cases operands with
  | nil =>
      have harity : op.arity = .atLeastOne :=
        arity_of_other hand hor hunary (Bool.eq_false_iff.2 fun h => absurd (hbinary h) (by simp))
      have hrefusal := @OperatorCode.refusal op [] (by rw [harity]; rfl)
      rw [harity] at hrefusal
      exact hrefusal
  | cons first rest =>
      refine OperatorCode.combination hand hor hunary ?_ ?_
      · rintro hop rfl
        exact hsub first hop rfl
      · cases hkind : op.isBinary with
        | true =>
            have hlength : rest.length + 1 = 2 := hbinary hkind
            rw [arity_of_isBinary hkind, hlength]
            rfl
        | false =>
            rw [arity_of_other hand hor hunary hkind]
            simp [Arity.admits]

/-- The code generator goes through the operators in an order of its own, and accepts the numbers
of operands that `Operator.arity` admits. -/
theorem operatorCode_applyOperator (op : Operator) (operands : List (LowerM Source)) :
    OperatorCode op operands (applyOperator op operands) := by
  -- The cases of the ladder, in its order.
  unfold applyOperator
  split
  · exact .conjunction _
  · exact .disjunction _
  · exact .negation _
  · rename_i hand hor hsub
    split
    · rename_i hunary
      have harity := arity_of_isUnary hunary
      split
      · exact .unary hunary _
      · rename_i hone
        rw [← harity]
        refine .refusal ?_
        rw [harity, Arity.admits, beq_eq_false_iff_ne, Ne, List.length_eq_one_iff]
        rintro ⟨operand, heq⟩
        exact hone operand heq
    · rename_i hunary
      split
      · rename_i hbinary
        obtain ⟨hbinary, hlength⟩ : op.isBinary = true ∧ operands.length ≠ 2 := by
          simpa using hbinary
        have harity := arity_of_isBinary hbinary
        rw [← harity]
        refine .refusal ?_
        simp [harity, Arity.admits, hlength]
      · rename_i hbinary
        refine operatorCode_accumulate hand hor (Bool.not_eq_true _ ▸ hunary) hsub ?_
        simpa using hbinary

/-- A number of operands that folding does not accept is refused here, too. -/
theorem applyOperator_of_refused {op : Operator} {operands : List (LowerM Source)}
    (h : op.arity.admits operands.length = false) :
    applyOperator op operands = throw (.arity op ⟨op.arity, operands.length⟩) := by
  have hcode := operatorCode_applyOperator op operands
  generalize applyOperator op operands = code at hcode ⊢
  cases hcode with
  | conjunction _ => cases h
  | disjunction _ => cases h
  | negation _ => cases h
  | unary hunary _ =>
      rw [arity_of_isUnary hunary] at h
      cases h
  | combination _ _ _ _ hadmits =>
      rw [List.length_cons, hadmits] at h
      cases h
  | refusal _ => rfl

/-! ## Calls as sequences -/

/-- Pushes or pops a set of registers, unless it is empty. -/
def transfer (opcode : Opcode) (saved : RegSet) : LowerM Unit :=
  if saved.isEmpty then return () else emit opcode [.registers saved]

/-- The call itself as a sequence of five steps. -/
theorem invoke_eq (saved : RegSet) (target : Operand) (temps : List Reg) (count : Nat) :
    invoke saved target temps count =
      transfer .push saved >>= fun _ =>
        (withArguments count fun regs =>
          placeArguments regs temps >>= fun _ => emit .call [target]) >>= fun _ =>
        transfer .pop saved >>= fun _ => return .register Reg.result := by
  unfold invoke transfer
  cases saved.isEmpty <;> rfl

/-- Code for a call once the value of the callee is known. -/
def callValue (saved : RegSet) (args : List (LowerM Source)) : Value → LowerM Value
  | .label l =>
      withRegisters (.temporaries args.length) fun temps =>
        passArguments args temps >>= fun _ => invoke saved (.label l) temps args.length
  | .register r =>
      withRegisters (.temporaries (args.length + 1)) fun temps =>
        match temps with
        | target :: temps =>
            putInto target (.value (.register r)) >>= fun _ =>
              passArguments args temps >>= fun _ =>
                invoke saved (.register target) temps args.length
        | [] => throw (.registers (.exhausted 1 0))

/-- A call up to the value of its callee, which decides the rest. -/
theorem call_eq (callee : LowerM Value) (args : List (LowerM Source)) :
    call callee args =
      if Reg.argumentCount < args.length then
        throw (.registers (.tooManyArguments args.length))
      else
        get >>= fun s =>
          callee >>= callValue (s.registers.live.inter RegSet.callerSaved) args := by
  unfold call
  split
  · rfl
  · funext s
    simp only [Steps.bind_apply, Steps.get_apply]
    rcases callee s with ⟨r, s'⟩
    rcases r with e | (r | l)
    · rfl
    · rfl
    · rfl

end Lowering
end RegisterLisp
