import RegisterLisp.Proofs.Lowering.Emission
import RegisterLisp.Proofs.Machine

/-!
# Evaluation of expressions

The value of an expression and the calls made on the way, from left to right.  A symbol stands for
the register or the label that it is bound to, and `and` and `or` leave off as soon as their value
is known.  A definition inside a function literal is seen by what follows the literal, so scopes are
passed on from operand to operand.

The value of a function literal is the address of any label at which the code of the function
stands; see `FunctionCode`.  What that code computes is `Lowering.function_code_computes_body`.
-/

namespace RegisterLisp

/-! ## Expressions -/

namespace Term

mutual

/-- Atoms, function literals, and operator forms and calls with expressions as their items. -/
def isExpression : Term → Bool
  | .atom _ => true
  | .func _ _ => true
  | .list items =>
      !isHeadedBy Symbol.nop items && !isHeadedBy Symbol.define items && areExpressions items
  | .quoted _ => false
  | .typeDef _ _ _ _ => false

def areExpressions : List Term → Bool
  | [] => true
  | t :: ts => isExpression t && areExpressions ts

end

/-- A term that heads a call: neither a literal nor a symbol with a meaning of its own. -/
def IsCallee (t : Term) : Prop :=
  t.view.isLiteral = false ∧
    ∀ s, t.view.symbol? = some s →
      s ≠ Symbol.nop ∧ s ≠ Symbol.define ∧ Operator.ofSymbol? s = none

end Term

/-! ## Values -/

variable {W : Type}

def Value.word (M : Machine W) (regs : Reg → W) : Value → W
  | .register r => regs r
  | .label l => M.address l

namespace Machine

def apply (M : Machine W) (op : Operator) : List W → Option W
  | [] => none
  | [w] =>
      if op = .sub then some (M.negate w) else if op.isUnary then some (M.unary op w) else some w
  | w :: ws => some (ws.foldl (M.binary op) w)

structure Call (W : Type) where
  callee : W
  arguments : List W

/-- At label `l` of `code` stands the code of a function, generated in these scopes. -/
def FunctionCode (code : List Line) (scopes : Scopes) (l : Label) (params : List Symbol)
    (body : List Term) : Prop :=
  ∃ i block s s', place? code l = some i ∧ block <+: code.drop i ∧ s.scopes = scopes ∧
    Lowering.functionAt l ⟨params, (Term.parts body).map Lowering.Part.code⟩ s = (.ok (), s') ∧
    s'.listing.lines = block.reverse ++ s.listing.lines

mutual

/-- `Evaluates M regs code scopes calls t w calls'`: with variables in `regs`, the value of `t` is
`w`, and the calls made are `calls` before it and `calls'` after it. -/
inductive Evaluates (M : Machine W) (regs : Reg → W) (code : List Line) :
    Scopes → List (Call W) → Term → W → List (Call W) → Prop
  | literal {scopes calls a i} (h : Immediate.ofAtom? a = some i) :
      Evaluates M regs code scopes calls (.atom a) (M.constant i) calls
  | symbol {scopes calls name v} (h : scopes.lookup name false = some v) :
      Evaluates M regs code scopes calls (.atom (.symbol name)) (v.word M regs) calls
  | func {scopes calls params body l} (h : FunctionCode code scopes l params body) :
      Evaluates M regs code scopes calls (.func params body) (M.address l) calls
  | operator {scopes calls calls' s op ts ws w} (hs : Operator.ofSymbol? s = some op)
      (hand : op ≠ .and) (hor : op ≠ .or) (harity : op.arity.admits ts.length = true)
      (hts : EvaluatesAll M regs code scopes calls ts ws calls') (hw : M.apply op ws = some w) :
      Evaluates M regs code scopes calls (.list (.atom (.symbol s) :: ts)) w calls'
  | and {scopes calls calls' s ts w} (hs : Operator.ofSymbol? s = some .and)
      (hts : EvaluatesAnd M regs code scopes calls (M.constant (.ofBool true)) ts w calls') :
      Evaluates M regs code scopes calls (.list (.atom (.symbol s) :: ts)) w calls'
  | or {scopes calls calls' s ts w} (hs : Operator.ofSymbol? s = some .or)
      (hts : EvaluatesOr M regs code scopes calls ts w calls') :
      Evaluates M regs code scopes calls (.list (.atom (.symbol s) :: ts)) w calls'
  | call {scopes calls calls₁ calls' callee f args ws} (hcallee : callee.IsCallee)
      (hf : Evaluates M regs code scopes calls callee f calls₁)
      (hargs : EvaluatesAll M regs code (scopes.declare callee.declared) calls₁ args ws calls') :
      Evaluates M regs code scopes calls (.list (callee :: args)) (M.result calls'.length)
        (calls' ++ [⟨f, ws⟩])

inductive EvaluatesAll (M : Machine W) (regs : Reg → W) (code : List Line) :
    Scopes → List (Call W) → List Term → List W → List (Call W) → Prop
  | nil {scopes calls} : EvaluatesAll M regs code scopes calls [] [] calls
  | cons {scopes calls calls₁ calls' t ts w ws} (ht : Evaluates M regs code scopes calls t w calls₁)
      (hts : EvaluatesAll M regs code (scopes.declare t.declared) calls₁ ts ws calls') :
      EvaluatesAll M regs code scopes calls (t :: ts) (w :: ws) calls'

/-- The value of `and`: the value of the last operand, or zero behind the first that is zero.  The
word before the operands is the value if there are none. -/
inductive EvaluatesAnd (M : Machine W) (regs : Reg → W) (code : List Line) :
    Scopes → List (Call W) → W → List Term → W → List (Call W) → Prop
  | nil {scopes calls w} : EvaluatesAnd M regs code scopes calls w [] w calls
  | stop {scopes calls calls' w v t ts} (ht : Evaluates M regs code scopes calls t v calls')
      (hv : M.isZero v = true) :
      EvaluatesAnd M regs code scopes calls w (t :: ts) (M.constant (.number 0.0)) calls'
  | next {scopes calls calls₁ calls' w v w' t ts}
      (ht : Evaluates M regs code scopes calls t v calls₁) (hv : M.isZero v = false)
      (hts : EvaluatesAnd M regs code (scopes.declare t.declared) calls₁ v ts w' calls') :
      EvaluatesAnd M regs code scopes calls w (t :: ts) w' calls'

/-- The value of `or`: the value of the first operand that is not zero, or zero. -/
inductive EvaluatesOr (M : Machine W) (regs : Reg → W) (code : List Line) :
    Scopes → List (Call W) → List Term → W → List (Call W) → Prop
  | nil {scopes calls} :
      EvaluatesOr M regs code scopes calls [] (M.constant (.number 0.0)) calls
  | stop {scopes calls calls' v t ts} (ht : Evaluates M regs code scopes calls t v calls')
      (hv : M.isZero v = false) : EvaluatesOr M regs code scopes calls (t :: ts) v calls'
  | next {scopes calls calls₁ calls' v w t ts}
      (ht : Evaluates M regs code scopes calls t v calls₁) (hv : M.isZero v = true)
      (hts : EvaluatesOr M regs code (scopes.declare t.declared) calls₁ ts w calls') :
      EvaluatesOr M regs code scopes calls (t :: ts) w calls'

end

/-! ## Calls of the machine and calls of the evaluation -/

/-- The machine called the callee, with the arguments in r4, r5, …. -/
structure Invocation.Passes (inv : Invocation W) (call : Call W) : Prop where
  target : inv.target = call.callee
  arguments : (RegSet.arguments call.arguments.length).toList.map inv.regs = call.arguments

/-- The machine made these calls, in this order. -/
def Matches (invs : List (Invocation W)) (calls : List (Call W)) : Prop :=
  List.Forall₂ Invocation.Passes invs calls

namespace Matches

variable {invs : List (Invocation W)} {calls : List (Call W)}

/-- As many calls were made as evaluation says. -/
theorem length_eq (h : Matches invs calls) : invs.length = calls.length :=
  List.Forall₂.length_eq h

/-- One more call on both sides. -/
theorem snoc {inv : Invocation W} {call : Call W} (h : Matches invs calls)
    (hcall : inv.Passes call) : Matches (invs ++ [inv]) (calls ++ [call]) :=
  List.rel_append h (List.Forall₂.cons hcall List.Forall₂.nil)

end Matches
end Machine
end RegisterLisp
