import RegisterLisp.Proofs.Lowering.Steps
import RegisterLisp.Proofs.Register.Sets

/-!
# Steps with the temporaries they need

`Lowering.Metered usable kept P` is for properties `P sees n Q x` of a step `x` that needs `n`
temporaries at one time, with something to say about what the step returns, `Q`.  Here `sees` tells
which symbols stand for registers.  It decides whether the callee of a call comes in a register, and
then takes a temporary of its own.

All registers that such steps name are `usable`, and those that they change are temporaries, except
in a call.  So a call is asked for as a whole.  Registers that are `kept` live all the time are saved
around it if it may change them.

Steps that run one after the other need as much as the one that needs most, and what is reserved
around a step is added to its need.  No more and no less: the need is exact, and so a property of
this kind can be that a step fails if there are fewer temporaries.
-/

namespace RegisterLisp

def Value.Fits (usable : Reg → Prop) (inRegister : Bool) : Value → Prop
  | .register r => inRegister = true ∧ usable r
  | .label _ => inRegister = false

def Opcode.changesFirst : Opcode → Bool
  | .load | .move | .apply _ | .applyConstant _ | .applyUnary _ | .negate => true
  | _ => false

/-- Instructions that stand outside of the lines of a call. -/
def Opcode.isOutsideCalls : Opcode → Bool
  | .push | .pop | .call | .named _ => false
  | _ => true

namespace Lowering

def Source.Fits (usable : Reg → Prop) : Source → Prop
  | .constant _ => True
  | .value v => ∃ inRegister, v.Fits usable inRegister

/-- An instruction outside of calls: it names usable registers and changes only temporaries. -/
structure PlainUse (usable : Reg → Prop) (opcode : Opcode) (operands : List Operand) : Prop where
  outside : opcode.isOutsideCalls = true
  names : ∀ r, .register r ∈ operands → usable r
  single : ∀ set, .registers set ∉ operands
  changes : opcode.changesFirst = true → ∀ r rest, operands = .register r :: rest → 32 ≤ r.index.val

/-- A call of a label or from a temporary, with arguments in temporaries.  Of what it may change, all
that is kept is saved around it. -/
structure CallUse (kept saved : RegSet) (target : Operand) (temps : List Reg) : Prop where
  savesOnly : ∀ r ∈ saved, r ∈ RegSet.callerSaved
  saves : ∀ r ∈ kept, r ∈ RegSet.callerSaved → r ∈ saved
  calls : (∃ l, target = .label l) ∨ ∃ r, target = .register r ∧ 32 ≤ r.index.val
  passes : ∀ r ∈ temps, 32 ≤ r.index.val
  count : temps.length ≤ 8

/-- The property holds of the primitive steps of lowering with the temporaries that they need, and
of steps that are put together from steps it holds of. -/
structure Metered (usable : Reg → Prop) (kept : RegSet)
    (P : {α : Type} → (Symbol → Bool) → Nat → (α → Prop) → LowerM α → Prop) : Prop where
  result : usable Reg.result
  temporary {r : Reg} (h : 32 ≤ r.index.val) : usable r
  pure {α : Type} {sees : Symbol → Bool} {Q : α → Prop} {a : α} (ha : Q a) :
    P sees 0 Q (pure a : LowerM α)
  imp {α : Type} {sees : Symbol → Bool} {n : Nat} {Q R : α → Prop} {x : LowerM α}
    (hx : P sees n Q x) (himp : ∀ a, Q a → R a) : P sees n R x
  bind {α β : Type} {sees : Symbol → Bool} {n m : Nat} {Q : α → Prop} {R : β → Prop} {x : LowerM α}
    {f : α → LowerM β} (hx : P sees n Q x) (hf : ∀ a, Q a → P sees m R (f a)) :
    P sees (max n m) R (x >>= f)
  /-- Where a step fails for another reason, it does not matter what it would need. -/
  fail {α : Type} {sees : Symbol → Bool} {n : Nat} {Q : α → Prop} {cause : LowerError}
    (hcause : ∀ requested available, cause ≠ .registers (.exhausted requested available)) :
    P sees n Q (throw cause : LowerM α)
  live {α : Type} {sees : Symbol → Bool} {n : Nat} {Q : α → Prop} {f : RegSet → LowerM α}
    (hf : ∀ live, (∀ r ∈ kept, r ∈ live) → P sees n Q (f live)) :
    P sees n Q (get >>= fun s => f s.registers.live)
  lookup {sees : Symbol → Bool} (name : Symbol) :
    P sees 0 (Value.Fits usable (sees name)) (lookup name)
  emit {sees : Symbol → Bool} {opcode : Opcode} {operands : List Operand}
    (h : PlainUse usable opcode operands) : P sees 0 (fun _ => True) (emit opcode operands)
  defineLabel {sees : Symbol → Bool} (l : Label) : P sees 0 (fun _ => True) (defineLabel l)
  newLabel {sees : Symbol → Bool} (stem : String) : P sees 0 (fun _ => True) (newLabel stem)
  comment {sees : Symbol → Bool} (text : String) : P sees 0 (fun _ => True) (comment text)
  tell {sees : Symbol → Bool} {r : Record} (h : r.origin ≠ .registers) :
    P sees 0 (fun _ => True) (tell r)
  bindGlobal {sees : Symbol → Bool} (name : Symbol) (label : Label) :
    P sees 0 (fun _ => True) (bindGlobal name label)
  withTemporaries {α : Type} {sees : Symbol → Bool} {n m : Nat} {Q : α → Prop}
    {body : List Reg → LowerM α}
    (hbody : ∀ regs, regs.length = n → (∀ r ∈ regs, 32 ≤ r.index.val) → P sees m Q (body regs)) :
    P sees (n + m) Q (withRegisters (.temporaries n) body)
  invoke {sees : Symbol → Bool} {saved : RegSet} {target : Operand} {temps : List Reg}
    (h : CallUse kept saved target temps) :
    P sees 0 (Value.Fits usable true) (invoke saved target temps temps.length)
  inFunction {α : Type} {sees : Symbol → Bool} {n : Nat} {Q : α → Prop} {params : List Symbol}
    {body : LowerM α} (hbody : P params.contains n Q body) :
    P sees n Q (insideFunction (withArguments params.length fun args =>
      bindParams params args >>= fun _ => body))

namespace Metered

variable {usable : Reg → Prop} {kept : RegSet}
  {P : {α : Type} → (Symbol → Bool) → Nat → (α → Prop) → LowerM α → Prop}
  {sees : Symbol → Bool} {n m : Nat} {needs : List Nat} {α β : Type}
  {Q : α → Prop} {R : β → Prop}

/-- A step that needs nothing, and another one. -/
theorem before (hP : Metered usable kept P) {x : LowerM α} {f : α → LowerM β} (hx : P sees 0 Q x)
    (hf : ∀ a, Q a → P sees m R (f a)) : P sees m R (x >>= f) := by
  have h := hP.bind hx hf
  rwa [Nat.zero_max] at h

/-- A step followed by one that needs nothing. -/
theorem after (hP : Metered usable kept P) {x : LowerM α} {f : α → LowerM β} (hx : P sees n Q x)
    (hf : ∀ a, Q a → P sees 0 R (f a)) : P sees n R (x >>= f) := by
  have h := hP.bind hx hf
  rwa [Nat.max_zero] at h

theorem unsupported (hP : Metered usable kept P) (text : Thunk String) :
    P sees n Q (unsupported text) := by
  have hcause : ∀ requested available,
      LowerError.unsupported text.get ≠ .registers (.exhausted requested available) := by simp
  exact hP.fail hcause

/-- A temporary around a step is one more that is needed. -/
theorem withTemporary (hP : Metered usable kept P) {body : Reg → LowerM α}
    (hbody : ∀ out, 32 ≤ out.index.val → P sees m Q (body out)) :
    P sees (1 + m) Q (withTemporary body) := by
  refine hP.withTemporaries fun regs hlength hregs => ?_
  obtain ⟨out, rfl⟩ := List.length_eq_one_iff.1 hlength
  exact hbody out (hregs out (by simp))

/-- Steps one after the other need as much as the one that needs most. -/
theorem forM (hP : Metered usable kept P) {γ : Type} {f : γ → LowerM PUnit} {xs : List γ}
    (h : List.Forall₂ (fun x n => P sees n (fun _ => True) (f x)) xs needs) :
    P sees (needs.foldr max 0) (fun _ => True) (xs.forM f) := by
  induction h with
  | nil => exact hP.pure trivial
  | cons hx _ ih => exact hP.bind hx fun _ _ => ih

/-! ### Operands and operators -/

/-- An instruction that changes a temporary, or looks at one. -/
theorem plainUse (hP : Metered usable kept P) {opcode : Opcode} {out : Reg} {operands : List Operand}
    (hout : 32 ≤ out.index.val) (hopcode : opcode.isOutsideCalls = true)
    (hnames : ∀ r, .register r ∈ operands → usable r) (hsingle : ∀ set, .registers set ∉ operands) :
    PlainUse usable opcode (.register out :: operands) where
  outside := hopcode
  names r hr := by
    rcases List.mem_cons.1 hr with h | h
    · cases h
      exact hP.temporary hout
    · exact hnames r h
  single set hset := by
    rcases List.mem_cons.1 hset with h | h
    · cases h
    · exact hsingle set h
  changes _ r rest h := by
    cases h
    exact hout

/-- What a part provides is moved or loaded by one instruction, which needs no temporary. -/
theorem putInto (hP : Metered usable kept P) {out : Reg} {source : Source} (hout : 32 ≤ out.index.val)
    (h : source.Fits usable) : P sees 0 (fun _ => True) (putInto out source) := by
  rcases source with i | (r | l)
  · exact hP.emit (hP.plainUse hout rfl (by simp) (by simp))
  · change P sees 0 (fun _ => True) (if r = out then _ else _)
    split
    · exact hP.pure trivial
    · obtain ⟨_, -, hr⟩ := h
      exact hP.emit (hP.plainUse hout rfl (by simpa using hr) (by simp))
  · exact hP.emit (hP.plainUse hout rfl (by simp) (by simp))

/-- A constant takes the temporary that it is left in. -/
theorem load (hP : Metered usable kept P) (i : Immediate) :
    P sees 1 (Value.Fits usable true) (load i) := by
  refine hP.withTemporary (m := 0) fun out hout => ?_
  refine hP.before (hP.emit (hP.plainUse hout rfl (by simp) (by simp))) fun _ _ => ?_
  exact hP.pure ⟨rfl, hP.temporary hout⟩

/-- The temporary for the result is held while the operand is generated. -/
theorem unary (hP : Metered usable kept P) {opcode : Opcode} {operand : LowerM Source}
    (hopcode : opcode.isOutsideCalls = true)
    (h : P sees n (Source.Fits usable) operand) :
    P sees (1 + n) (Value.Fits usable true) (unary opcode operand) := by
  refine hP.withTemporary fun out hout => hP.after h fun source hsource => ?_
  refine hP.before (hP.putInto hout hsource) fun _ _ => ?_
  refine hP.before (hP.emit (hP.plainUse hout hopcode (by simp) (by simp))) fun _ _ => ?_
  exact hP.pure ⟨rfl, hP.temporary hout⟩

/-- Combining with one more operand needs what the operand needs. -/
theorem combineOne (hP : Metered usable kept P) {op : Operator} {out : Reg} {operand : LowerM Source}
    (hout : 32 ≤ out.index.val) (h : P sees n (Source.Fits usable) operand) :
    P sees n (fun _ => True) (combineOne op out operand) := by
  refine hP.after h fun source hsource => ?_
  rcases source with i | (r | l)
  · exact hP.emit (hP.plainUse hout rfl (by simp) (by simp))
  · obtain ⟨_, -, hr⟩ := hsource
    exact hP.emit (hP.plainUse hout rfl (by simpa using hr) (by simp))
  · exact hP.fail (by simp)

/-- The operands are generated one after the other, so the largest need counts. -/
theorem combineAll (hP : Metered usable kept P) {op : Operator} {first : LowerM Source}
    {rest : List (LowerM Source)} (hfirst : P sees n (Source.Fits usable) first)
    (hrest : List.Forall₂ (fun x n => P sees n (Source.Fits usable) x) rest needs) :
    P sees (1 + max n (needs.foldr max 0)) (Value.Fits usable true) (combineAll op first rest) := by
  refine hP.withTemporary fun out hout => hP.bind hfirst fun source hsource => ?_
  refine hP.before (hP.putInto hout hsource) fun _ _ => ?_
  refine hP.after (hP.forM (hrest.imp fun _ _ h => hP.combineOne hout h)) fun _ _ => ?_
  exact hP.pure ⟨rfl, hP.temporary hout⟩

/-- An operand of `and` is moved into the register of the result. -/
theorem conjunct (hP : Metered usable kept P) {out : Reg} {failure : Label} {operand : LowerM Source}
    (hout : 32 ≤ out.index.val) (h : P sees n (Source.Fits usable) operand) :
    P sees n (fun _ => True) (conjunct out failure operand) := by
  refine hP.after h fun source hsource => hP.before (hP.putInto hout hsource) fun _ _ => ?_
  rcases source with i | (r | l)
  · exact hP.emit (hP.plainUse hout rfl (by simp) (by simp))
  · exact hP.emit (hP.plainUse hout rfl (by simp) (by simp))
  · exact hP.pure trivial

theorem jump (hP : Metered usable kept P) (l : Label) :
    P sees 0 (fun _ => True) (Lowering.emit .jump [.label l]) :=
  hP.emit ⟨rfl, by simp, by simp, fun _ _ _ h => by cases h⟩

/-- An operand of `or` is moved into the register of the result. -/
theorem disjunct (hP : Metered usable kept P) {out : Reg} {success : Label} {operand : LowerM Source}
    (hout : 32 ≤ out.index.val) (h : P sees n (Source.Fits usable) operand) :
    P sees n (fun _ => True) (disjunct out success operand) := by
  refine hP.after h fun source hsource => hP.before (hP.putInto hout hsource) fun _ _ => ?_
  rcases source with i | (r | l)
  · exact hP.emit (hP.plainUse hout rfl (by simp) (by simp))
  · exact hP.emit (hP.plainUse hout rfl (by simp) (by simp))
  · exact hP.jump _

/-- The zero of a failure goes into the same register. -/
theorem shortCircuitEnd (hP : Metered usable kept P) {out : Reg} (hout : 32 ≤ out.index.val)
    (failure success : Label) :
    P sees 0 (Value.Fits usable true) (shortCircuitEnd out failure success) := by
  refine hP.before (hP.defineLabel _) fun _ _ => ?_
  refine hP.before (hP.emit (hP.plainUse hout rfl (by simp) (by simp))) fun _ _ => ?_
  refine hP.before (hP.defineLabel _) fun _ _ => ?_
  exact hP.pure ⟨rfl, hP.temporary hout⟩

/-- A whole `and` needs one temporary more than its operands. -/
theorem conjunction (hP : Metered usable kept P) {operands : List (LowerM Source)}
    (h : List.Forall₂ (fun x n => P sees n (Source.Fits usable) x) operands needs) :
    P sees (1 + needs.foldr max 0) (Value.Fits usable true) (conjunction operands) := by
  unfold Lowering.conjunction
  split
  · rename_i hempty
    cases h with
    | nil => exact hP.load _
    | cons => cases hempty
  · refine hP.withTemporary fun out hout => ?_
    refine hP.before (hP.newLabel _) fun failure _ => hP.before (hP.newLabel _) fun success _ => ?_
    refine hP.after (hP.forM (h.imp fun _ _ h => hP.conjunct hout h)) fun _ _ => ?_
    exact hP.before (hP.jump _) fun _ _ => hP.shortCircuitEnd hout failure success

/-- So does a whole `or`. -/
theorem disjunction (hP : Metered usable kept P) {operands : List (LowerM Source)}
    (h : List.Forall₂ (fun x n => P sees n (Source.Fits usable) x) operands needs) :
    P sees (1 + needs.foldr max 0) (Value.Fits usable true) (disjunction operands) := by
  unfold Lowering.disjunction
  split
  · rename_i hempty
    cases h with
    | nil => exact hP.load _
    | cons => cases hempty
  · refine hP.withTemporary fun out hout => ?_
    refine hP.before (hP.newLabel _) fun failure _ => hP.before (hP.newLabel _) fun success _ => ?_
    refine hP.after (hP.forM (h.imp fun _ _ h => hP.disjunct hout h)) fun _ _ => ?_
    exact hP.shortCircuitEnd hout failure success

/-- Every operator form needs one temporary more than the operand that needs most. -/
theorem applyOperator (hP : Metered usable kept P) {op : Operator} {operands : List (LowerM Source)}
    (h : List.Forall₂ (fun x n => P sees n (Source.Fits usable) x) operands needs) :
    P sees (1 + needs.foldr max 0) (Value.Fits usable true) (applyOperator op operands) := by
  have hone : ∀ {operand opcode}, operands = [operand] →
      opcode.isOutsideCalls = true →
      P sees (1 + needs.foldr max 0) (Value.Fits usable true) (Lowering.unary opcode operand) := by
    rintro operand opcode rfl hopcode
    obtain ⟨n, _, hoperand, hrest, rfl⟩ := List.forall₂_cons_left_iff.1 h
    cases hrest
    rw [List.foldr_cons, List.foldr_nil, Nat.max_zero]
    exact hP.unary hopcode hoperand
  have hcode := operatorCode_applyOperator op operands
  generalize Lowering.applyOperator op operands = code at hcode ⊢
  cases hcode with
  | conjunction _ => exact hP.conjunction h
  | disjunction _ => exact hP.disjunction h
  | negation _ => exact hone rfl rfl
  | unary _ _ => exact hone rfl rfl
  | combination _ _ _ _ _ =>
      cases h with
      | cons hfirst hrest => exact hP.combineAll hfirst hrest
  | refusal _ => exact hP.fail (by simp)

/-! ### Calls -/

/-- The arguments are generated one after the other, each into its own temporary. -/
theorem passArguments (hP : Metered usable kept P) {args : List (LowerM Source)} {temps : List Reg}
    (h : List.Forall₂ (fun x n => P sees n (Source.Fits usable) x) args needs)
    (hlength : temps.length = args.length) (htemps : ∀ r ∈ temps, 32 ≤ r.index.val) :
    P sees (needs.foldr max 0) (fun _ => True) (passArguments args temps) := by
  induction h generalizing temps with
  | nil =>
      rw [Lowering.passArguments]
      · exact hP.pure trivial
      · simp
  | cons harg _ ih =>
      cases temps with
      | nil => cases hlength
      | cons temp temps =>
          obtain ⟨htemp, htemps⟩ := List.forall_mem_cons.1 htemps
          refine hP.bind harg fun source hsource => ?_
          refine hP.before (hP.putInto htemp hsource) fun _ _ => ?_
          exact ih (Nat.succ.inj hlength) htemps

/-- The callee takes a temporary of its own if it comes in a register. -/
theorem callValue (hP : Metered usable kept P) {saved : RegSet} {args : List (LowerM Source)}
    {v : Value} {inRegister : Bool} (hv : v.Fits usable inRegister)
    (hsaved : ∀ r ∈ saved, r ∈ RegSet.callerSaved)
    (hkept : ∀ r ∈ kept, r ∈ RegSet.callerSaved → r ∈ saved) (hcount : args.length ≤ 8)
    (hargs : List.Forall₂ (fun x n => P sees n (Source.Fits usable) x) args needs) :
    P sees (inRegister.toNat + args.length + needs.foldr max 0) (Value.Fits usable true)
      (callValue saved args v) := by
  -- The arguments are generated into temporaries first, and passed when all are there.
  have hpass : ∀ {target : Operand} {temps : List Reg}, temps.length = args.length →
      (∀ r ∈ temps, 32 ≤ r.index.val) →
      ((∃ l, target = .label l) ∨ ∃ r, target = .register r ∧ 32 ≤ r.index.val) →
      P sees (needs.foldr max 0) (Value.Fits usable true)
        (Lowering.passArguments args temps >>= fun _ =>
          Lowering.invoke saved target temps args.length) := by
    intro target temps hlength htemps htarget
    refine hP.after (hP.passArguments hargs hlength htemps) fun _ _ => ?_
    rw [← hlength]
    exact hP.invoke ⟨hsaved, hkept, htarget, htemps, hlength ▸ hcount⟩
  cases v with
  | label l =>
      cases hv
      rw [Lowering.callValue, Bool.toNat_false, Nat.zero_add]
      refine hP.withTemporaries fun temps hlength htemps => ?_
      exact hpass hlength htemps (Or.inl ⟨l, rfl⟩)
  | register r =>
      obtain ⟨rfl, hr⟩ := hv
      rw [Lowering.callValue, Bool.toNat_true, Nat.add_comm 1 args.length]
      refine hP.withTemporaries fun temps hlength htemps => ?_
      cases temps with
      | nil => cases hlength
      | cons target temps =>
          obtain ⟨htarget, htemps⟩ := List.forall_mem_cons.1 htemps
          refine hP.before (hP.putInto htarget ⟨true, rfl, hr⟩) fun _ _ => ?_
          exact hpass (Nat.succ.inj hlength) htemps (Or.inr ⟨target, rfl, htarget⟩)

/-- A callee in a register takes a temporary, and so does every argument while the others are
generated. -/
theorem call (hP : Metered usable kept P) {callee : LowerM Value} {args : List (LowerM Source)}
    {inRegister : Bool} (hcallee : P sees n (Value.Fits usable inRegister) callee)
    (hargs : List.Forall₂ (fun x n => P sees n (Source.Fits usable) x) args needs) :
    P sees (max n (inRegister.toNat + args.length + needs.foldr max 0)) (Value.Fits usable true)
      (call callee args) := by
  rw [call_eq]
  split
  · exact hP.fail (by simp)
  · rename_i hcount
    refine hP.live
      (f := fun live => callee >>= Lowering.callValue (live.inter RegSet.callerSaved) args) ?_
    intro live hlive
    refine hP.bind hcallee fun v hv => ?_
    refine hP.callValue hv (fun r hr => (RegSet.mem_inter.1 hr).2) ?_ (Nat.le_of_not_lt hcount) hargs
    exact fun r hr hcaller => RegSet.mem_inter.2 ⟨hlive r hr, hcaller⟩

/-! ### Functions -/

/-- The value of the last step is returned, or that of the last call if there is none. -/
theorem inSequence (hP : Metered usable kept P) {steps : List (LowerM Value)} {value : Value}
    (h : List.Forall₂ (fun x n => P sees n (fun v => ∃ b, Value.Fits usable b v) x) steps needs)
    (hvalue : ∃ b, value.Fits usable b) :
    P sees (needs.foldr max 0) (fun v => ∃ b, v.Fits usable b) (inSequence value steps) := by
  induction h generalizing value with
  | nil => exact hP.pure hvalue
  | cons hstep _ ih => exact hP.bind hstep fun v hv => ih hv

/-- A return names the register of its value and needs nothing. -/
theorem ret (hP : Metered usable kept P) {v : Value} (hv : ∃ b, v.Fits usable b) :
    P sees 0 (fun _ => True) (Lowering.emit .ret [Operand.ofValue v]) := by
  refine hP.emit ⟨rfl, ?_, ?_, ?_⟩
  · intro r hr
    cases v with
    | register r' =>
        cases List.mem_singleton.1 hr
        obtain ⟨_, -, hr⟩ := hv
        exact hr
    | label l => cases List.mem_singleton.1 hr
  · intro set hset
    cases v <;> cases List.mem_singleton.1 hset
  · intro h
    cases h

/-- A body needs what the form in it needs that needs most. -/
theorem functionBody (hP : Metered usable kept P) {f : Function} (text : String)
    (h : List.Forall₂ (fun x n => P f.params.contains n (fun v => ∃ b, Value.Fits usable b v) x)
      f.body needs) :
    P f.params.contains (needs.foldr max 0) (fun _ => True)
      (Lowering.inSequence (.register Reg.result) f.body >>= fun result =>
        Lowering.emit .ret [Operand.ofValue result] >>= fun _ => Lowering.comment text) := by
  refine hP.after (hP.inSequence h ⟨true, rfl, hP.result⟩) fun v hv => ?_
  exact hP.before (hP.ret hv) fun _ _ => hP.comment _

/-- The need of a function does not depend on the scopes around it: its body sees its parameters
only. -/
theorem functionAt (hP : Metered usable kept P) {label : Label} {f : Function}
    (h : List.Forall₂ (fun x n => P f.params.contains n (fun v => ∃ b, Value.Fits usable b v) x)
      f.body needs) :
    P sees (needs.foldr max 0) (fun _ => True) (functionAt label f) := by
  refine hP.before (hP.defineLabel _) fun _ _ => hP.before (hP.tell (by simp)) fun _ _ => ?_
  exact hP.inFunction (hP.functionBody _ h)

/-- A function literal is jumped over, and its value is its label. -/
theorem localFunction (hP : Metered usable kept P) {f : Function}
    (h : List.Forall₂ (fun x n => P f.params.contains n (fun v => ∃ b, Value.Fits usable b v) x)
      f.body needs) :
    P sees (needs.foldr max 0) (Value.Fits usable false) (localFunction f) := by
  refine hP.before (hP.newLabel _) fun label _ => hP.before (hP.newLabel _) fun skip _ => ?_
  refine hP.before (hP.jump _) fun _ _ => hP.after (hP.functionAt h) fun _ _ => ?_
  exact hP.before (hP.defineLabel _) fun _ _ => hP.pure rfl

end Metered

end Lowering

/-! ## What symbols stand for -/

namespace Scopes

variable {usable : Reg → Prop} {sees : Symbol → Bool} {s s' : Scopes} {name : Symbol}

def localValue? (s : Scopes) (name : Symbol) : Option Value :=
  local? name false s.outermost s.inner

/-- Which symbols stand for registers is what `sees` tells, and these registers are usable. -/
structure Shows (usable : Reg → Prop) (sees : Symbol → Bool) (s : Scopes) : Prop where
  iff : ∀ name, sees name = true ↔ ∃ r, s.localValue? name = some (.register r)
  usable : ∀ name r, s.localValue? name = some (.register r) → usable r

/-- Globals make no difference. -/
theorem Shows.of_eq (h : s.Shows usable sees) (hinner : s'.inner = s.inner)
    (houtermost : s'.outermost = s.outermost) : s'.Shows usable sees := by
  have hlocal : s'.localValue? = s.localValue? := by
    funext name
    rw [localValue?, localValue?, hinner, houtermost]
  exact ⟨by rw [hlocal]; exact h.iff, by rw [hlocal]; exact h.usable⟩

/-- What a symbol stands for is in a usable register exactly if `sees` tells so. -/
theorem Shows.fits_of_lookup (h : s.Shows usable sees) {v : Value}
    (hv : s.lookup name false = some v) : v.Fits usable (sees name) := by
  have hlookup : s.lookup name false = (s.localValue? name).or ((s.global? name).map .label) := by
    rw [lookup, localValue?]
    cases local? name false s.outermost s.inner <;> rfl
  cases v with
  | register r =>
      have hr : s.localValue? name = some (.register r) := by
        rw [hlookup, Option.or_eq_some_iff] at hv
        rcases hv with hv | ⟨-, hv⟩
        · exact hv
        · simp at hv
      exact ⟨(h.iff name).2 ⟨r, hr⟩, h.usable name r hr⟩
  | label l =>
      refine Bool.eq_false_iff.2 fun hsees => ?_
      obtain ⟨r, hr⟩ := (h.iff name).1 hsees
      rw [hlookup, hr] at hv
      cases hv

def seesRegister (s : Scopes) (name : Symbol) : Bool :=
  match s.lookup name false with
  | some (.register _) => true
  | _ => false

/-- Scopes tell by themselves which symbols stand for registers. -/
theorem shows_seesRegister
    (husable : ∀ name r, s.localValue? name = some (.register r) → usable r) :
    s.Shows usable s.seesRegister where
  iff name := by
    rw [seesRegister, lookup, localValue?]
    rcases local? name false s.outermost s.inner with _ | (r | l)
    · cases s.global? name <;> simp
    · simp
    · simp
  usable := husable

def bindAll : List Symbol → List Reg → Scopes → Scopes
  | p :: params, r :: regs, s => bindAll params regs (s.bind p (.register r))
  | _, _, s => s

/-- Behind a boundary only the innermost bindings are seen. -/
theorem localValue?_boundary {bindings : Bindings Value} {rest : List Scope}
    (h : s.inner = ⟨bindings, true⟩ :: rest) : s.localValue? name = bindings.lookup name := by
  rw [localValue?, h, local?]
  cases bindings.lookup name <;> rfl

/-- Symbols are bound in the innermost scope, the last one first. -/
theorem inner_bindAll {bindings : Bindings Value} {rest : List Scope} (params : List Symbol)
    (regs : List Reg) (h : s.inner = ⟨bindings, true⟩ :: rest) :
    (bindAll params regs s).inner =
        ⟨((params.zip regs).map fun x => (x.1, .register x.2)).reverse ++ bindings, true⟩ :: rest ∧
      (bindAll params regs s).outermost = s.outermost := by
  induction params generalizing regs s bindings with
  | nil => exact ⟨h, rfl⟩
  | cons p params ih =>
      cases regs with
      | nil => exact ⟨h, rfl⟩
      | cons r regs =>
          have hbind : (s.bind p (.register r)).inner =
              ⟨(p, .register r) :: bindings, true⟩ :: rest := by rw [bind, h]
          have houtermost : (s.bind p (.register r)).outermost = s.outermost := by rw [bind, h]
          obtain ⟨hinner, hsame⟩ := ih regs hbind
          refine ⟨?_, hsame.trans houtermost⟩
          rw [bindAll, hinner]
          simp

/-- In a function that has just been entered, what is seen is a parameter and its register. -/
theorem mem_zip_of_localValue? {params : List Symbol} {regs : List Reg} {v : Value}
    (h : (bindAll params regs (s.enter true)).localValue? name = some v) :
    ∃ r, v = .register r ∧ (name, r) ∈ params.zip regs := by
  have hinner := (inner_bindAll (s := s.enter true) params regs rfl).1
  rw [List.append_nil] at hinner
  rw [localValue?_boundary hinner, List.lookup_eq_some_iff] at h
  obtain ⟨before, after, heq, -⟩ := h
  have hmem : (name, v) ∈ ((params.zip regs).map fun x => (x.1, Value.register x.2)).reverse := by
    rw [heq]
    simp
  obtain ⟨⟨p, r⟩, hpair, heq⟩ := List.mem_map.1 (List.mem_reverse.1 hmem)
  cases heq
  exact ⟨r, rfl, hpair⟩

/-- Every parameter is seen there. -/
theorem exists_localValue?_bindAll {params : List Symbol} {regs : List Reg}
    (hlength : regs.length = params.length) (hname : name ∈ params) :
    ∃ r, (bindAll params regs (s.enter true)).localValue? name = some (.register r) ∧
      (name, r) ∈ params.zip regs := by
  have hinner := (inner_bindAll (s := s.enter true) params regs rfl).1
  rw [List.append_nil] at hinner
  cases hv : (bindAll params regs (s.enter true)).localValue? name with
  | none =>
      rw [localValue?_boundary hinner, List.lookup_eq_none_iff] at hv
      rw [← List.map_fst_zip hlength.ge] at hname
      obtain ⟨⟨p, r⟩, hpair, rfl⟩ := List.mem_map.1 hname
      have hne := hv (p, .register r) (by simpa using hpair)
      simp at hne
  | some v =>
      obtain ⟨r, rfl, hpair⟩ := mem_zip_of_localValue? hv
      exact ⟨r, rfl, hpair⟩

/-- So exactly the parameters stand for registers. -/
theorem shows_bindAll {params : List Symbol} {regs : List Reg}
    (hlength : regs.length = params.length) (hregs : ∀ r ∈ regs, usable r) :
    (bindAll params regs (s.enter true)).Shows usable params.contains := by
  constructor
  · intro name
    rw [List.contains_iff_mem]
    constructor
    · intro hname
      obtain ⟨r, hr, -⟩ := exists_localValue?_bindAll hlength hname
      exact ⟨r, hr⟩
    · rintro ⟨r, hr⟩
      obtain ⟨r, -, hpair⟩ := mem_zip_of_localValue? hr
      exact (List.of_mem_zip hpair).1
  · intro name r hr
    obtain ⟨r, ⟨⟩, hpair⟩ := mem_zip_of_localValue? hr
    exact hregs _ (List.of_mem_zip hpair).2

end Scopes

namespace Lowering

/-- A symbol that stands for nothing cannot be looked up. -/
theorem lookup_apply (name : Symbol) (s : Lowering) :
    lookup name s = ((s.scopes.lookup name false).elim (.error (.unbound name)) .ok, s) := by
  rw [lookup, Steps.bind_apply, Steps.get_apply]
  dsimp only
  cases s.scopes.lookup name false <;> rfl

/-- Binding parameters never fails and changes the scopes only. -/
theorem bindParams_apply (params : List Symbol) (regs : List Reg) (s : Lowering) :
    bindParams params regs s = (.ok (), { s with scopes := s.scopes.bindAll params regs }) := by
  induction params generalizing regs s with
  | nil => cases regs <;> rfl
  | cons p params ih =>
      cases regs with
      | nil => rfl
      | cons r regs => exact ih regs _

def reserving (n : Nat) (s : Lowering) : Lowering :=
  { s with
    registers :=
      { live := s.registers.live.union (RegSet.arguments n)
        saved := s.registers.live :: s.registers.saved }
    log := scopeRecord (s.registers.depth + 1) (RegSet.arguments n).toList :: s.log }

/-- The registers of up to eight arguments can always be reserved. -/
theorem withArguments_apply {α : Type} (n : Nat) (body : List Reg → LowerM α) (s : Lowering) :
    withArguments n body s =
      if n ≤ 8 then
        let out := body (RegSet.arguments n).toList (reserving n s)
        (out.1, { out.2 with registers := out.2.registers.restore })
      else (.error (.registers (.tooManyArguments n)), s) := by
  rw [withArguments, Reservation.arguments]
  by_cases hle : n ≤ 8
  · have hargs : ¬ Reg.argumentCount < n := Nat.not_lt.2 hle
    rw [if_neg hargs, if_pos hle]
    rfl
  · have hargs : Reg.argumentCount < n := Nat.not_le.1 hle
    rw [if_pos hargs, if_neg hle]
    rfl

/-- The state in which the body of a function is generated. -/
def entered (params : List Symbol) (s : Lowering) : Lowering :=
  { reserving params.length s with
    scopes := (s.scopes.enter true).bindAll params (RegSet.arguments params.length).toList
    listing := s.listing.increaseIndent }

/-- The state after a function, from the state at the end of its body. -/
def left (s : Lowering) : Lowering :=
  { s with
    scopes := s.scopes.leave
    registers := s.registers.restore
    listing := s.listing.decreaseIndent }

/-- Registers and local bindings are as they were. -/
structure Restores (s s' : Lowering) : Prop where
  registers : s'.registers = s.registers
  inner : s'.scopes.inner = s.scopes.inner
  outermost : s'.scopes.outermost = s.scopes.outermost

namespace Restores

variable {s s₁ s₂ : Lowering}

theorem refl (s : Lowering) : Restores s s :=
  ⟨rfl, rfl, rfl⟩

theorem trans (h : Restores s s₁) (h' : Restores s₁ s₂) : Restores s s₂ :=
  ⟨h'.registers.trans h.registers, h'.inner.trans h.inner, h'.outermost.trans h.outermost⟩

/-- Where local bindings are as before, the same symbols stand for registers. -/
theorem shows {usable : Reg → Prop} {sees : Symbol → Bool} (h : Restores s s₁)
    (hs : s.scopes.Shows usable sees) : s₁.scopes.Shows usable sees :=
  hs.of_eq h.inner h.outermost

/-- A reservation is given back. -/
theorem giveBack (h : Restores s₁ s₂) (hscopes : s₁.scopes = s.scopes)
    (hrestore : s₁.registers.restore = s.registers) :
    Restores s { s₂ with registers := s₂.registers.restore } where
  registers := by
    change s₂.registers.restore = _
    rw [h.registers, hrestore]
  inner := hscopes ▸ h.inner
  outermost := hscopes ▸ h.outermost

/-- A function is left. -/
theorem leave {params : List Symbol} (h : Restores (entered params s) s₂) :
    Restores s (left s₂) := by
  obtain ⟨hinner, houtermost⟩ := Scopes.inner_bindAll (s := s.scopes.enter true) params
    (RegSet.arguments params.length).toList rfl
  refine ⟨?_, ?_, h.outermost.trans houtermost⟩
  · change s₂.registers.restore = _
    rw [h.registers]
    rfl
  · change s₂.scopes.inner.tail = _
    rw [h.inner]
    change List.tail (Scopes.bindAll params _ (s.scopes.enter true)).inner = _
    rw [hinner]
    rfl

end Restores

/-- What comes before and after the body of a function. -/
theorem inFunction_apply {α : Type} (params : List Symbol) (body : LowerM α) (s : Lowering) :
    insideFunction (withArguments params.length fun args =>
        bindParams params args >>= fun _ => body) s =
      if params.length ≤ 8 then ((body (entered params s)).1, left (body (entered params s)).2)
      else (.error (.registers (.tooManyArguments params.length)), s) := by
  rw [insideFunction, withArguments_apply]
  by_cases hle : params.length ≤ 8
  · rw [if_pos hle, if_pos hle]
    dsimp only
    rw [Steps.bind_apply, bindParams_apply]
    rfl
  · rw [if_neg hle, if_neg hle]
    rfl

end Lowering
end RegisterLisp
