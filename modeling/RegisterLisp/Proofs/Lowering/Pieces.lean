import RegisterLisp.Proofs.Lowering.Steps

/-!
# Properties of all code

The code of a form is generated by a step that is put together from a few primitive steps and from
the steps of its parts.  So a property of steps holds of all code if it holds of some steps and is
handed on where steps are put together.  There are two ways to say what is needed.

- `Lowering.Composed good P` is for properties `P A Q x` of a step `x` under an assumption `A`, with
  something to say about what the step returns, `Q`.  The values of parts are `good`.  Which code a
  property holds of may depend on the form as a whole: `and`, `or` and the forms that introduce
  functions are asked for as they are, since they bring labels and jumps with them.  `Straight` and
  `Branching` ask for less and are enough for code without them.
- `Lowering.Closed P` is for properties that hold of every primitive step.

One exception is made: an operator form is refused if it has the wrong number of operands, so the
property has to hold of this failure or the number has to be right.
-/

namespace RegisterLisp

def Opcode.isPlain : Opcode → Bool
  | .jump | .jumpIfZero | .jumpIfNonzero | .ret => false
  | _ => true

namespace Lowering

def Source.Good (good : Value → Prop) : Source → Prop
  | .constant _ => True
  | .value v => good v

structure Part.Meets (C : LowerM Value → Prop) (p : Part) : Prop where
  code : C p.code
  function : ∀ f, p.function? = some f → ∀ step ∈ f.body, C step

/-- The code of every part meets the condition. -/
theorem Part.meets_codes {C : LowerM Value → Prop} {parts : List Part}
    (h : ∀ p ∈ parts, p.Meets C) : ∀ step ∈ parts.map Part.code, C step := by
  intro step hmem
  obtain ⟨p, hp, rfl⟩ := List.mem_map.1 hmem
  exact (h p hp).code

/-! ## Straight code -/

/-- The property holds of the primitive steps that write straight code, and of steps that are put
together from steps it holds of. -/
structure Straight (good : Value → Prop)
    (P : {α : Type} → Prop → (α → Prop) → LowerM α → Prop) : Prop where
  register (r : Reg) : good (.register r)
  imp {α : Type} {A A' : Prop} {Q : α → Prop} {x : LowerM α} (himp : A' → A)
    (hx : P A Q x) : P A' Q x
  pure {α : Type} {A : Prop} {Q : α → Prop} {a : α} (ha : A → Q a) :
    P A Q (pure a : LowerM α)
  bind {α β : Type} {A : Prop} {Q : α → Prop} {R : β → Prop} {x : LowerM α}
    {f : α → LowerM β} (hx : P A Q x) (hf : ∀ a, P (A ∧ Q a) R (f a)) : P A R (x >>= f)
  live {α : Type} {A : Prop} {Q : α → Prop} {f : RegSet → LowerM α}
    (hf : ∀ live, P A Q (f live)) : P A Q (get >>= fun s => f s.registers.live)
  lookup {A : Prop} (name : Symbol) : P A good (lookup name)
  unsupported {α : Type} {A : Prop} {Q : α → Prop} (text : Thunk String) :
    P A Q (unsupported text)
  refused {α : Type} {A : Prop} {Q : α → Prop} (cause : AllocError) :
    P A Q (throw (.registers cause))
  emit {A : Prop} {opcode : Opcode} {operands : List Operand} (hopcode : opcode.isPlain = true)
    (hoperands : A → ∀ l, .label l ∈ operands → good (.label l)) :
    P A (fun _ => True) (emit opcode operands)
  withRegisters {α : Type} {A : Prop} {Q : α → Prop} {request : Reservation}
    {body : List Reg → LowerM α} (hbody : ∀ regs, P A Q (body regs)) :
    P A Q (withRegisters request body)

namespace Straight

variable {good : Value → Prop} {P : {α : Type} → Prop → (α → Prop) → LowerM α → Prop}
  {A : Prop} {α : Type} {Q : α → Prop}

/-- What holds without an assumption. -/
theorem anyhow (hP : Straight good P) {x : LowerM α} (h : P True Q x) : P A Q x :=
  hP.imp (fun _ => trivial) h

/-- A temporary is a reservation. -/
theorem withTemporary (hP : Straight good P) {body : Reg → LowerM α}
    (hbody : ∀ out, P A Q (body out)) : P A Q (withTemporary body) := by
  refine hP.withRegisters fun regs => ?_
  cases regs with
  | nil => exact hP.refused _
  | cons out _ => exact hbody out

/-- So are the registers of arguments. -/
theorem withArguments (hP : Straight good P) {n : Nat} {body : List Reg → LowerM α}
    (hbody : ∀ regs, P A Q (body regs)) : P A Q (withArguments n body) := by
  unfold Lowering.withArguments
  cases Reservation.arguments n with
  | error cause => exact hP.refused cause
  | ok request => exact hP.withRegisters hbody

/-- A loop is a sequence of its rounds. -/
theorem forM (hP : Straight good P) {γ : Type} {f : γ → LowerM PUnit} :
    ∀ {xs : List γ}, (∀ x ∈ xs, P A (fun _ => True) (f x)) → P A (fun _ => True) (xs.forM f)
  | [], _ => hP.pure fun _ => trivial
  | x :: xs, h => by
      have hx : P A (fun _ => True) (f x) := h x (by simp)
      have hxs : P A (fun _ => True) (xs.forM f) := hP.forM fun y hy => h y (by simp [hy])
      exact hP.bind hx fun _ => hP.imp And.left hxs

/-! ### Operands and operators -/

/-- The instruction that puts a value in its place is straight code. -/
theorem putInto (hP : Straight good P) (out : Reg) {source : Source}
    (h : A → source.Good good) : P A (fun _ => True) (putInto out source) := by
  rcases source with i | (r | l)
  · exact hP.emit rfl (by simp)
  · change P A (fun _ => True) (if r = out then _ else _)
    split
    · exact hP.pure fun _ => trivial
    · exact hP.emit rfl (by simp)
  · refine hP.emit rfl fun hA l' hl' => ?_
    obtain rfl : l' = l := by simpa using hl'
    exact h hA

theorem load (hP : Straight good P) (i : Immediate) : P A good (load i) := by
  refine hP.withTemporary fun out => ?_
  exact hP.bind (hP.emit rfl (by simp)) fun _ => hP.pure fun _ => hP.register out

/-- An atom is loaded or looked up. -/
theorem lowerAtom (hP : Straight good P) (a : Atom) : P A good (lowerAtom a) := by
  cases a with
  | number x => exact hP.load _
  | string s => exact hP.load _
  | bool b => exact hP.load _
  | symbol name => exact hP.lookup name

/-- One operand, then one instruction. -/
theorem unary (hP : Straight good P) {opcode : Opcode} {operand : LowerM Source}
    (hopcode : opcode.isPlain = true) (h : P A (Source.Good good) operand) :
    P A good (unary opcode operand) := by
  refine hP.withTemporary fun out => hP.bind h fun source => ?_
  refine hP.bind (hP.putInto out And.right) fun _ => ?_
  exact hP.bind (hP.emit hopcode (by simp)) fun _ => hP.pure fun _ => hP.register out

/-- One operand, then one instruction on the register of the result. -/
theorem combineOne (hP : Straight good P) {op : Operator} {out : Reg} {operand : LowerM Source}
    (h : P A (Source.Good good) operand) :
    P A (fun _ => True) (combineOne op out operand) := by
  refine hP.bind h fun source => ?_
  rcases source with i | (r | l)
  · exact hP.emit rfl (by simp)
  · exact hP.emit rfl (by simp)
  · exact hP.unsupported (Thunk.mk fun _ => "(" ++ op.name ++ " ... " ++ l.text ++ ")")

/-- The first operand is put into the result, and the others are combined with it. -/
theorem combineAll (hP : Straight good P) {op : Operator} {first : LowerM Source}
    {rest : List (LowerM Source)} (hfirst : P A (Source.Good good) first)
    (hrest : ∀ operand ∈ rest, P A (Source.Good good) operand) :
    P A good (combineAll op first rest) := by
  refine hP.withTemporary fun out => hP.bind hfirst fun source => ?_
  refine hP.bind (hP.putInto out And.right) fun _ => ?_
  refine hP.bind (hP.forM fun operand hmem => ?_) fun _ => hP.pure fun _ => hP.register out
  exact hP.combineOne (hP.imp (fun h => h.1.1) (hrest operand hmem))

/-! ### Calls -/

/-- Arguments are operands, one after the other. -/
theorem passArguments (hP : Straight good P) :
    ∀ {args : List (LowerM Source)} {temps : List Reg},
      (∀ arg ∈ args, P A (Source.Good good) arg) →
        P A (fun _ => True) (passArguments args temps)
  | [], _, _ => hP.pure fun _ => trivial
  | _ :: _, [], _ => hP.pure fun _ => trivial
  | arg :: args, temp :: temps, h => by
      refine hP.bind (h arg (by simp)) fun source => ?_
      refine hP.bind (hP.putInto temp And.right) fun _ => ?_
      refine hP.imp (fun h => h.1.1) ?_
      exact hP.passArguments fun arg' hmem => h arg' (by simp [hmem])

/-- Moving arguments into place is straight code. -/
theorem placeArguments (hP : Straight good P) :
    ∀ regs temps : List Reg, P A (fun _ => True) (placeArguments regs temps)
  | [], _ => hP.pure fun _ => trivial
  | _ :: _, [] => hP.pure fun _ => trivial
  | _ :: regs, _ :: temps =>
      hP.bind (hP.emit rfl (by simp)) fun _ => hP.imp And.left (hP.placeArguments regs temps)

/-- So is saving registers and getting them back. -/
theorem transfer (hP : Straight good P) {opcode : Opcode} (hopcode : opcode.isPlain = true)
    (saved : RegSet) : P A (fun _ => True) (transfer opcode saved) := by
  unfold Lowering.transfer
  split
  · exact hP.pure fun _ => trivial
  · exact hP.emit hopcode (by simp)

/-- A call is straight code, too: it comes back to the next line. -/
theorem invoke (hP : Straight good P) (saved : RegSet) {target : Operand} (temps : List Reg)
    (count : Nat) (htarget : A → ∀ l, target = .label l → good (.label l)) :
    P A good (invoke saved target temps count) := by
  rw [invoke_eq]
  refine hP.bind (hP.transfer rfl _) fun _ => ?_
  refine hP.bind (Q := fun _ => True) (hP.withArguments fun regs => ?_) fun _ => ?_
  · refine hP.bind (hP.placeArguments regs temps) fun _ => hP.emit rfl fun hA l hl => ?_
    exact htarget hA.1.1 l (List.mem_singleton.1 hl).symm
  · exact hP.bind (hP.transfer rfl _) fun _ => hP.pure fun _ => hP.register _

/-- The callee is known here; if it is in a register it is kept in a temporary. -/
theorem callValue (hP : Straight good P) {saved : RegSet} {args : List (LowerM Source)} (v : Value)
    (hv : A → good v) (hargs : ∀ arg ∈ args, P A (Source.Good good) arg) :
    P A good (callValue saved args v) := by
  cases v with
  | label l =>
      rw [Lowering.callValue]
      refine hP.withRegisters fun temps => hP.bind (hP.passArguments hargs) fun _ => ?_
      refine hP.invoke _ _ _ fun hA l' hl' => ?_
      cases hl'
      exact hv hA.1
  | register r =>
      rw [Lowering.callValue]
      refine hP.withRegisters fun temps => ?_
      cases temps with
      | nil => exact hP.refused _
      | cons target temps =>
          refine hP.bind (hP.putInto _ fun _ => hP.register r) fun _ => ?_
          refine hP.bind (hP.imp And.left (hP.passArguments hargs)) fun _ => ?_
          exact hP.invoke _ _ _ fun _ l hl => by cases hl

/-- A call is made of its callee, its arguments and the call itself. -/
theorem call (hP : Straight good P) {callee : LowerM Value} {args : List (LowerM Source)}
    (hcallee : P A good callee) (hargs : ∀ arg ∈ args, P A (Source.Good good) arg) :
    P A good (call callee args) := by
  rw [call_eq]
  split
  · exact hP.refused _
  · refine hP.live
      (f := fun live => callee >>= Lowering.callValue (live.inter RegSet.callerSaved) args) ?_
    refine fun live => hP.bind hcallee fun v => hP.callValue v And.right fun arg hmem => ?_
    exact hP.imp And.left (hargs arg hmem)

theorem ofAtom (hP : Straight good P) (a : Atom) : (Part.ofAtom a).Meets (P A good) :=
  ⟨hP.lowerAtom a, fun _ h => nomatch h⟩

/-- A part as an operand is its constant or its code. -/
theorem source (hP : Straight good P) {p : Part} (h : P A good p.code) :
    P A (Source.Good good) p.source := by
  unfold Part.source
  split
  · exact hP.pure fun _ => trivial
  · exact hP.bind h fun _ => hP.pure And.right

end Straight

/-! ## Branching code -/

/-- The property holds of straight code and, if it holds of the operands, of the forms that jump
over some of them. -/
structure Branching (good : Value → Prop)
    (P : {α : Type} → Prop → (α → Prop) → LowerM α → Prop) : Prop extends Straight good P where
  conjunction {operands : List (LowerM Source)}
    (h : ∀ operand ∈ operands, P True (Source.Good good) operand) :
    P True good (conjunction operands)
  disjunction {operands : List (LowerM Source)}
    (h : ∀ operand ∈ operands, P True (Source.Good good) operand) :
    P True good (disjunction operands)

namespace Branching

variable {good : Value → Prop} {P : {α : Type} → Prop → (α → Prop) → LowerM α → Prop}

/-- Nothing has to be known about the refusal if the number of operands is accepted. -/
theorem applyOperator (hP : Branching good P) {op : Operator} {operands : List (LowerM Source)}
    (h : ∀ operand ∈ operands, P True (Source.Good good) operand)
    (harity : op.arity.admits operands.length = true ∨
      ∀ n, P True good (throw (.arity op n) : LowerM Value)) :
    P True good (applyOperator op operands) := by
  have hcode := operatorCode_applyOperator op operands
  generalize Lowering.applyOperator op operands = code at hcode ⊢
  cases hcode with
  | conjunction _ => exact hP.conjunction h
  | disjunction _ => exact hP.disjunction h
  | negation _ => exact hP.unary rfl (h _ (by simp))
  | unary _ _ => exact hP.unary rfl (h _ (by simp))
  | combination _ _ _ _ _ =>
      exact hP.combineAll (h _ (by simp)) fun operand hmem => h operand (by simp [hmem])
  | refusal hrefused =>
      rcases harity with hadmits | hthrow
      · rw [hadmits] at hrefused
        cases hrefused
      · exact hthrow _

/-- The code of a list.  Only a list headed by an operator looks at the number of its items, and
definitions are asked for as they are. -/
theorem lowerList (hP : Branching good P) {text : Thunk String} {parts : List Part}
    (h : ∀ p ∈ parts, P True good p.code)
    (hdefine : ∀ head args, parts = head :: args → head.symbol? = some Symbol.define →
      P True good (lowerDefine text args))
    (harity : ∀ head args s op, parts = head :: args → head.symbol? = some s →
      Operator.ofSymbol? s = some op → op.arity.admits args.length = true ∨
        ∀ n, P True good (throw (.arity op n) : LowerM Value)) :
    P True good (lowerList text parts) := by
  cases parts with
  | nil => exact hP.unsupported _
  | cons head args =>
      have hhead : P True good head.code := h head (by simp)
      have hsources : ∀ operand ∈ args.map Part.source, P True (Source.Good good) operand := by
        intro operand hmem
        obtain ⟨p, hp, rfl⟩ := List.mem_map.1 hmem
        exact hP.source (h p (by simp [hp]))
      rw [Lowering.lowerList]
      cases hsymbol : head.symbol? with
      | none =>
          dsimp only
          split
          · exact hP.unsupported _
          · exact hP.call hhead hsources
      | some s =>
          dsimp only
          split
          · exact hP.pure fun _ => hP.register _
          · split
            · rename_i hs
              exact hdefine head args rfl (hs ▸ hsymbol)
            · split
              · rename_i op hop
                refine hP.applyOperator hsources ?_
                rw [List.length_map]
                exact harity head args s op rfl hsymbol hop
              · exact hP.call hhead hsources

end Branching

/-! ## Composed code -/

/-- The property holds of branching code, and of the forms that bring definitions with them if it
holds of their parts. -/
structure Composed (good : Value → Prop)
    (P : {α : Type} → Prop → (α → Prop) → LowerM α → Prop) : Prop extends Branching good P where
  comment (text : String) : P True (fun _ => True) (comment text)
  localFunction {f : Function} (h : ∀ step ∈ f.body, P True good step) :
    P True good (localFunction f)
  define {name : Symbol} {f : Function} (h : ∀ step ∈ f.body, P True good step) :
    P True good (define name f)
  defineType {name : Symbol} {ctor : Part} {methods : List (Symbol × Part)}
    (hctor : ∀ f, ctor.function? = some f → ∀ step ∈ f.body, P True good step)
    (hmethods : ∀ m ∈ methods, ∀ f, m.2.function? = some f →
      ∀ step ∈ f.body, P True good step) :
    P True good (defineType name ctor methods)

namespace Composed

variable {good : Value → Prop} {P : {α : Type} → Prop → (α → Prop) → LowerM α → Prop}

/-- A definition is a literal under a global label. -/
theorem lowerDefine (hP : Composed good P) {text : Thunk String} {parts : List Part}
    (h : ∀ p ∈ parts, p.Meets (P True good)) : P True good (lowerDefine text parts) := by
  unfold Lowering.lowerDefine
  split
  · rename_i name body
    split
    · rename_i s f _ hf
      exact hP.define ((h body (by simp)).function f hf)
    · exact hP.unsupported _
  · exact hP.unsupported _

/-- A list with the forms that define something, which branching code leaves out. -/
theorem lowerList (hP : Composed good P) {text : Thunk String} {parts : List Part}
    (h : ∀ p ∈ parts, p.Meets (P True good))
    (harity : ∀ head args s op, parts = head :: args → head.symbol? = some s →
      Operator.ofSymbol? s = some op → op.arity.admits args.length = true ∨
        ∀ n, P True good (throw (.arity op n) : LowerM Value)) :
    P True good (lowerList text parts) := by
  refine hP.toBranching.lowerList (fun p hp => (h p hp).code) ?_ harity
  rintro head args rfl -
  exact hP.lowerDefine fun p hp => h p (by simp [hp])

/-- A program is its forms with comments between them. -/
theorem lowerProgram (hP : Composed good P) :
    ∀ {parts : List Part}, (∀ p ∈ parts, p.Meets (P True good)) →
      P True (fun _ => True) (lowerProgram parts)
  | [], _ => hP.pure fun _ => trivial
  | p :: parts, h => by
      refine hP.bind (hP.comment _) fun _ => ?_
      refine hP.bind (hP.anyhow (h p (by simp)).code) fun _ => ?_
      exact hP.anyhow (hP.lowerProgram fun q hq => h q (by simp [hq]))

end Composed

/-! ## Properties of every primitive step -/

/-- The property holds of steps that are run one after the other if it holds of each of them. -/
structure Sequential (P : {α : Type} → LowerM α → Prop) : Prop where
  pure {α : Type} (a : α) : P (pure a : LowerM α)
  bind {α β : Type} {x : LowerM α} {f : α → LowerM β} (hx : P x) (hf : ∀ a, P (f a)) :
    P (x >>= f)

/-- The property holds of the primitive steps of lowering, and of steps that are put together from
steps it holds of. -/
structure Closed (P : {α : Type} → LowerM α → Prop) : Prop extends Sequential P where
  live {α : Type} {f : RegSet → LowerM α} (hf : ∀ live, P (f live)) :
    P (get >>= fun s => f s.registers.live)
  lookup (name : Symbol) : P (lookup name)
  unsupported {α : Type} (text : Thunk String) : P (unsupported text : LowerM α)
  refused {α : Type} (cause : AllocError) : P (throw (.registers cause) : LowerM α)
  emit (opcode : Opcode) (operands : List Operand) : P (emit opcode operands)
  defineLabel (l : Label) : P (defineLabel l)
  newLabel (stem : String) : P (newLabel stem)
  comment (text : String) : P (comment text)
  bindGlobal (name : Symbol) (label : Label) : P (bindGlobal name label)
  withRegisters {α : Type} {request : Reservation} {body : List Reg → LowerM α}
    (hbody : ∀ regs, P (body regs)) : P (withRegisters request body)
  functionAt {label : Label} {f : Function} (h : ∀ step ∈ f.body, P step) :
    P (functionAt label f)

namespace Sequential

variable {P : {α : Type} → LowerM α → Prop}

theorem forM (hP : Sequential P) {γ : Type} {f : γ → LowerM PUnit} :
    ∀ {xs : List γ}, (∀ x ∈ xs, P (f x)) → P (xs.forM f)
  | [], _ => hP.pure _
  | x :: xs, h => by
      have hx : P (f x) := h x (by simp)
      have hxs : P (xs.forM f) := hP.forM fun y hy => h y (by simp [hy])
      exact hP.bind hx fun _ => hxs

/-- Steps in sequence have a property if each has. -/
theorem inSequence (hP : Sequential P) :
    ∀ {steps : List (LowerM Value)} {value : Value}, (∀ step ∈ steps, P step) →
      P (inSequence value steps)
  | [], _, _ => hP.pure _
  | step :: steps, _, h => by
      refine hP.bind (h step (by simp)) fun _ => ?_
      exact hP.inSequence fun step' hmem => h step' (by simp [hmem])

end Sequential

/-- The property holds of the code of a part, and of the steps of its body if it is a function
literal. -/
abbrev Part.Has (P : {α : Type} → LowerM α → Prop) (p : Part) : Prop :=
  p.Meets (@P Value)

namespace Closed

variable {P : {α : Type} → LowerM α → Prop}

/-- Of straight code nothing else is asked for, neither before nor after it. -/
theorem straight (hP : Closed P) : Straight (fun _ => True) (fun _ _ x => P x) where
  register _ := trivial
  imp _ hx := hx
  pure _ := hP.pure _
  bind hx hf := hP.bind hx hf
  live hf := hP.live hf
  lookup name := hP.lookup name
  unsupported text := hP.unsupported text
  refused cause := hP.refused cause
  emit _ _ := hP.emit _ _
  withRegisters hbody := hP.withRegisters hbody

/-! ### Short-circuit forms -/

theorem conjunct (hP : Closed P) {out : Reg} {failure : Label} {operand : LowerM Source}
    (h : P operand) : P (conjunct out failure operand) := by
  refine hP.bind h fun source => ?_
  refine hP.bind (hP.straight.putInto (A := False) out False.elim) fun _ => ?_
  rcases source with i | (r | l)
  · exact hP.emit _ _
  · exact hP.emit _ _
  · exact hP.pure _

theorem disjunct (hP : Closed P) {out : Reg} {success : Label} {operand : LowerM Source}
    (h : P operand) : P (disjunct out success operand) := by
  refine hP.bind h fun source => ?_
  refine hP.bind (hP.straight.putInto (A := False) out False.elim) fun _ => ?_
  rcases source with i | (r | l)
  · exact hP.emit _ _
  · exact hP.emit _ _
  · exact hP.emit _ _

theorem shortCircuitEnd (hP : Closed P) (out : Reg) (failure success : Label) :
    P (shortCircuitEnd out failure success) := by
  refine hP.bind (hP.defineLabel _) fun _ => hP.bind (hP.emit _ _) fun _ => ?_
  exact hP.bind (hP.defineLabel _) fun _ => hP.pure _

/-- For properties without results, `and` is a sequence of steps. -/
theorem conjunction (hP : Closed P) {operands : List (LowerM Source)}
    (h : ∀ operand ∈ operands, P operand) : P (conjunction operands) := by
  unfold Lowering.conjunction
  split
  · exact hP.straight.load (A := True) _
  · refine hP.straight.withTemporary (A := True) (Q := fun _ => True) fun out => ?_
    refine hP.bind (hP.newLabel _) fun failure => hP.bind (hP.newLabel _) fun success => ?_
    refine hP.bind (hP.forM fun operand hmem => hP.conjunct (h operand hmem)) fun _ => ?_
    exact hP.bind (hP.emit _ _) fun _ => hP.shortCircuitEnd out failure success

/-- So is `or`. -/
theorem disjunction (hP : Closed P) {operands : List (LowerM Source)}
    (h : ∀ operand ∈ operands, P operand) : P (disjunction operands) := by
  unfold Lowering.disjunction
  split
  · exact hP.straight.load (A := True) _
  · refine hP.straight.withTemporary (A := True) (Q := fun _ => True) fun out => ?_
    refine hP.bind (hP.newLabel _) fun failure => hP.bind (hP.newLabel _) fun success => ?_
    refine hP.bind (hP.forM fun operand hmem => hP.disjunct (h operand hmem)) fun _ => ?_
    exact hP.shortCircuitEnd out failure success

/-! ### Functions and definitions -/

/-- So is the code of a literal. -/
theorem localFunction (hP : Closed P) {f : Function} (h : ∀ step ∈ f.body, P step) :
    P (localFunction f) := by
  refine hP.bind (hP.newLabel _) fun label => hP.bind (hP.newLabel _) fun skip => ?_
  refine hP.bind (hP.emit _ _) fun _ => hP.bind (hP.functionAt h) fun _ => ?_
  exact hP.bind (hP.defineLabel _) fun _ => hP.pure _

theorem define (hP : Closed P) {name : Symbol} {f : Function} (h : ∀ step ∈ f.body, P step) :
    P (define name f) := by
  refine hP.bind (hP.bindGlobal _ _) fun _ => ?_
  exact hP.bind (hP.functionAt h) fun _ => hP.pure _

/-- Of a constructor or method only the body is looked at. -/
theorem member (hP : Closed P) {label : Label} {p : Part}
    (h : ∀ f, p.function? = some f → ∀ step ∈ f.body, P step) : P (member label p) := by
  unfold Lowering.member
  split
  · rename_i f hf
    exact hP.functionAt (h f hf)
  · exact hP.unsupported _

/-- For such properties a type is a sequence of its members. -/
theorem defineType (hP : Closed P) {name : Symbol} {ctor : Part} {methods : List (Symbol × Part)}
    (hctor : ∀ f, ctor.function? = some f → ∀ step ∈ f.body, P step)
    (hmethods : ∀ m ∈ methods, ∀ f, m.2.function? = some f → ∀ step ∈ f.body, P step) :
    P (defineType name ctor methods) := by
  refine hP.bind (hP.bindGlobal _ _) fun _ => ?_
  refine hP.bind (hP.forM fun m _ => hP.bindGlobal _ _) fun _ => ?_
  refine hP.bind (hP.member hctor) fun _ => ?_
  exact hP.bind (hP.forM fun m hm => hP.member (hmethods m hm)) fun _ => hP.pure _

/-- A property without results is one of the general kind, which trivially holds of all results. -/
theorem composed (hP : Closed P) : Composed (fun _ => True) (fun _ _ x => P x) where
  toStraight := hP.straight
  comment text := hP.comment text
  conjunction h := hP.conjunction h
  disjunction h := hP.disjunction h
  localFunction h := hP.localFunction h
  define h := hP.define h
  defineType hctor hmethods := hP.defineType hctor hmethods

/-! ### Forms -/

theorem ofAtom (hP : Closed P) (a : Atom) : (Part.ofAtom a).Has P :=
  hP.straight.ofAtom (A := True) a

theorem source (hP : Closed P) {p : Part} (h : p.Has P) : P p.source :=
  hP.straight.source (A := True) h.code

/-- The general lemma for lists, for such a property. -/
theorem lowerList (hP : Closed P) {text : Thunk String} {parts : List Part}
    (h : ∀ p ∈ parts, p.Has P)
    (harity : ∀ head args s op, parts = head :: args → head.symbol? = some s →
      Operator.ofSymbol? s = some op →
        op.arity.admits args.length = true ∨ ∀ n, P (throw (.arity op n) : LowerM Value)) :
    P (lowerList text parts) :=
  hP.composed.lowerList h harity

theorem lowerProgram (hP : Closed P) {parts : List Part} (h : ∀ p ∈ parts, p.Has P) :
    P (lowerProgram parts) :=
  hP.composed.lowerProgram h

end Closed
end Lowering
end RegisterLisp
