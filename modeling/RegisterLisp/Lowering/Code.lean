import RegisterLisp.Lowering.State
import RegisterLisp.Shape

/-!
# Pieces of code

The code of compound forms, put together from the code of their parts.  A part is given as a step
that generates its code when it is run; so nothing here looks at terms or stores, and no more of a
form is looked at than is needed.

A value left in a temporary is used at once: the temporary is free again when the step that left it
there has ended.
-/

namespace RegisterLisp
namespace Lowering

/-- What a part provides: a constant, or the value that its code leaves. -/
inductive Source
  | constant (i : Immediate)
  | value (v : Value)

/-- Puts what a part provides into a register. -/
def putInto (out : Reg) : Source → LowerM Unit
  | .constant i => emit .load [.register out, .immediate i]
  | .value (.label l) => emit .load [.register out, .label l]
  | .value (.register r) =>
      if r = out then return () else emit .move [.register out, .register r]

def load (i : Immediate) : LowerM Value :=
  withTemporary fun out => do
    emit .load [.register out, .immediate i]
    return .register out

def lookup (name : Symbol) : LowerM Value := do
  match (← get).scopes.lookup name false with
  | some value => return value
  | none => throw (.unbound name)

def lowerAtom : Atom → LowerM Value
  | .symbol name => lookup name
  | .number x => load (.number x)
  | .bool b => load (.ofBool b)
  | .string s => load (.string s)

/-! ## Operators -/

def unary (opcode : Opcode) (operand : LowerM Source) : LowerM Value :=
  withTemporary fun out => do
    putInto out (← operand)
    emit opcode [.register out]
    return .register out

/-- Code that combines a register with one more operand. -/
def combineOne (op : Operator) (out : Reg) (operand : LowerM Source) : LowerM Unit := do
  match ← operand with
  | .constant i => emit (.applyConstant op) [.register out, .immediate i]
  | .value (.register r) => emit (.apply op) [.register out, .register r]
  | .value (.label l) => throw (.unsupported ("(" ++ op.name ++ " ... " ++ l.text ++ ")"))

def combineAll (op : Operator) (first : LowerM Source) (rest : List (LowerM Source)) :
    LowerM Value :=
  withTemporary fun out => do
    putInto out (← first)
    rest.forM (combineOne op out)
    return .register out

/-- Code for an operator that takes any number of operands but none. -/
def accumulate (op : Operator) : List (LowerM Source) → LowerM Value
  | [] => throw (.arity op ⟨.atLeastOne, 0⟩)
  | first :: rest => combineAll op first rest

/-- Code for one operand of `and`: leaves for `failure` if it is zero.  A label is never zero. -/
def conjunct (out : Reg) (failure : Label) (operand : LowerM Source) : LowerM Unit := do
  let source ← operand
  putInto out source
  match source with
  | .value (.label _) => return ()
  | _ => emit .jumpIfZero [.register out, .label failure]

/-- Code for one operand of `or`: leaves for `success` unless it is zero. -/
def disjunct (out : Reg) (success : Label) (operand : LowerM Source) : LowerM Unit := do
  let source ← operand
  putInto out source
  match source with
  | .value (.label _) => emit .jump [.label success]
  | _ => emit .jumpIfNonzero [.register out, .label success]

/-- The end of the code for `and` and `or`: the failure leaves a zero. -/
def shortCircuitEnd (out : Reg) (failure success : Label) : LowerM Value := do
  defineLabel failure
  emit .load [.register out, .immediate (.number 0.0)]
  defineLabel success
  return .register out

def conjunction (operands : List (LowerM Source)) : LowerM Value :=
  if operands.isEmpty then load (.ofBool true)
  else
    withTemporary fun out => do
      let failure ← newLabel "failure"
      let success ← newLabel "success"
      operands.forM (conjunct out failure)
      emit .jump [.label success]
      shortCircuitEnd out failure success

def disjunction (operands : List (LowerM Source)) : LowerM Value :=
  if operands.isEmpty then load (.ofBool false)
  else
    withTemporary fun out => do
      let failure ← newLabel "failure"
      let success ← newLabel "success"
      operands.forM (disjunct out success)
      shortCircuitEnd out failure success

/-- Code for an operator form.  The number of operands is checked here once more: the form need not
have gone through folding. -/
def applyOperator (op : Operator) (operands : List (LowerM Source)) : LowerM Value :=
  match op, operands with
  | .and, _ => conjunction operands
  | .or, _ => disjunction operands
  | .sub, [operand] => unary .negate operand
  | _, _ =>
      if op.isUnary then
        match operands with
        | [operand] => unary (.applyUnary op) operand
        | _ => throw (.arity op ⟨.exactlyOne, operands.length⟩)
      else if op.isBinary && operands.length != 2 then
        throw (.arity op ⟨.exactlyTwo, operands.length⟩)
      else accumulate op operands

/-! ## Calls -/

def passArguments : List (LowerM Source) → List Reg → LowerM Unit
  | arg :: args, temp :: temps => do
      putInto temp (← arg)
      passArguments args temps
  | _, _ => return ()

/-- Code that moves arguments from temporaries to argument registers. -/
def placeArguments : List Reg → List Reg → LowerM Unit
  | r :: rs, temp :: temps => do
      emit .move [.register r, .register temp]
      placeArguments rs temps
  | _, _ => return ()

/-- Code for the call itself, around which the given registers are saved. -/
def invoke (saved : RegSet) (target : Operand) (temps : List Reg) (count : Nat) :
    LowerM Value := do
  if !saved.isEmpty then emit .push [.registers saved]
  withArguments count fun regs => do
    placeArguments regs temps
    emit .call [target]
  if !saved.isEmpty then emit .pop [.registers saved]
  return .register Reg.result

def call (callee : LowerM Value) (args : List (LowerM Source)) : LowerM Value := do
  if Reg.argumentCount < args.length then throw (.registers (.tooManyArguments args.length))
  -- The registers in use that the call may change.
  let saved := (← get).registers.live.inter RegSet.callerSaved
  match ← callee with
  | .label l =>
      withRegisters (.temporaries args.length) fun temps => do
        passArguments args temps
        invoke saved (.label l) temps args.length
  | .register r =>
      -- `r` may be an argument register, which is filled before the call is made.
      withRegisters (.temporaries (args.length + 1)) fun temps =>
        match temps with
        | target :: temps => do
            putInto target (.value (.register r))
            passArguments args temps
            invoke saved (.register target) temps args.length
        | [] => throw (.registers (.exhausted 1 0))

/-! ## Functions -/

/-- The parameters of a function literal and the code of its body. -/
structure Function where
  params : List Symbol
  body : List (LowerM Value)

def bindParams : List Symbol → List Reg → LowerM Unit
  | p :: ps, r :: rs => do
      bind p (.register r)
      bindParams ps rs
  | _, _ => return ()

/-- Runs steps in order and returns the value of the last, or `value` if there are none. -/
def inSequence (value : Value) : List (LowerM Value) → LowerM Value
  | [] => return value
  | step :: steps => do inSequence (← step) steps

def functionAt (label : Label) (f : Function) : LowerM Unit := do
  defineLabel label
  tell ⟨.info, .lowering, Thunk.mk fun _ =>
    "generating function " ++ label.text ++ "/" ++ toString f.params.length⟩
  insideFunction (withArguments f.params.length fun args => do
    bindParams f.params args
    let result ← inSequence (.register Reg.result) f.body
    emit .ret [Operand.ofValue result]
    comment ("end of function " ++ label.text))

def globalFunction (label : Label) (f : Function) : LowerM Value := do
  functionAt label f
  return .label label

/-- Code of a function literal inside other code, which jumps over it. -/
def localFunction (f : Function) : LowerM Value := do
  let label ← newLabel "anonfunc"
  let skip ← newLabel "skip"
  emit .jump [.label skip]
  functionAt label f
  defineLabel skip
  return .label label

/-! ## Parts of forms -/

/-- What lowering knows of a part of a form. -/
structure Part where
  /-- The atom that the part is. -/
  atom? : Option Atom
  text : Thunk String
  /-- Generates the code of the part. -/
  code : LowerM Value
  /-- The function that the part is, if it is a function literal. -/
  function? : Option Function

def unsupported {α : Type} (text : Thunk String) : LowerM α := fun s =>
  (.error (.unsupported text.get), s)

namespace Part

def ofAtom (a : Atom) : Part where
  atom? := some a
  text := Thunk.mk fun _ => a.render
  code := lowerAtom a
  function? := none

def symbol? (p : Part) : Option Symbol :=
  p.atom?.bind Atom.symbol?

def isLiteral (p : Part) : Bool :=
  p.atom?.any Atom.isLiteral

/-- A part as an operand: a literal, or else the value that its code leaves. -/
def source (p : Part) : LowerM Source :=
  match p.atom?.bind Immediate.ofAtom? with
  | some i => return .constant i
  | none => do return .value (← p.code)

end Part

/-! ## Definitions -/

/-- Code of a global function.  It is bound before its body is generated, so that it can call
itself. -/
def define (name : Symbol) (f : Function) : LowerM Value := do
  let label := Label.ofGlobal name.name
  bindGlobal name label
  globalFunction label f

def member (label : Label) (p : Part) : LowerM Unit :=
  match p.function? with
  | some f => functionAt label f
  | none => unsupported p.text

def methodLabel (type name : Symbol) : Label :=
  Label.ofGlobal (Symbol.method type name).name

def lowerDefine (text : Thunk String) : List Part → LowerM Value
  | [name, body] =>
      match name.symbol?, body.function? with
      | some name, some f => define name f
      | _, _ => unsupported text
  | _ => unsupported text

/-- Code of a type definition.  All its names are bound before any code is generated. -/
def defineType (name : Symbol) (ctor : Part) (methods : List (Symbol × Part)) :
    LowerM Value := do
  let label := Label.ofGlobal name.name
  bindGlobal name label
  methods.forM fun (m, _) => bindGlobal (Symbol.method name m) (methodLabel name m)
  member label ctor
  methods.forM fun (m, code) => member (methodLabel name m) code
  return .label label

/-! ## Forms -/

/-- Code of a list: a nop, a definition, an operator form or a call, by its head. -/
def lowerList (text : Thunk String) : List Part → LowerM Value
  | [] => unsupported text
  | head :: args =>
      match head.symbol? with
      | some s =>
          if s = Symbol.nop then return .register Reg.result
          else if s = Symbol.define then lowerDefine text args
          else
            match Operator.ofSymbol? s with
            | some op => applyOperator op (args.map Part.source)
            | none => call head.code (args.map Part.source)
      | none =>
          if head.isLiteral then unsupported text
          else call head.code (args.map Part.source)

/-- Code of a form from its parts.  Quoted forms have no code. -/
def lowerShape (text : Thunk String) : Shape Part → LowerM Value
  | .list parts => lowerList text parts
  | .quoted _ => unsupported text
  | .func params body => localFunction ⟨params, body.map Part.code⟩
  | .typeDef name _ ctor methods => defineType name ctor methods

/-- Generates the code of the forms of a program, each after a comment with its text. -/
def lowerProgram : List Part → LowerM Unit
  | [] => return ()
  | p :: ps => do
      comment p.text.get
      let _ ← p.code
      lowerProgram ps

end Lowering
end RegisterLisp
