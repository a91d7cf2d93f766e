import RegisterLisp.Atom
import RegisterLisp.Operator
import RegisterLisp.Scopes

/-!
# Lines of assembly

Instructions, label definitions and comments as data, and their text.
-/

namespace RegisterLisp

/-- A constant written into an instruction. -/
inductive Immediate
  | number (value : Float)
  | string (text : String)
  deriving DecidableEq

namespace Immediate

def render : Immediate → String
  | .number x => Number.immediate x
  | .string s => Text.quote s

def ofBool (b : Bool) : Immediate :=
  .number (if b then 1.0 else 0.0)

/-- The constant that a literal denotes. -/
def ofAtom? : Atom → Option Immediate
  | .number x => some (.number x)
  | .bool b => some (ofBool b)
  | .string s => some (.string s)
  | .symbol _ => none

end Immediate

inductive Operand
  | immediate (value : Immediate)
  | register (r : Reg)
  | registers (set : RegSet)
  | label (l : Label)
  deriving DecidableEq

namespace Operand

def render : Operand → String
  | .immediate i => i.render
  | .register r => r.name
  | .registers set => set.render
  | .label l => l.text

def ofValue : Value → Operand
  | .register r => .register r
  | .label l => .label l

end Operand

/-- An instruction of the machine. -/
inductive Opcode
  /-- Sets a register to a constant or a label. -/
  | load
  /-- Sets a register to another one. -/
  | move
  /-- Sets a register to itself combined with another one. -/
  | apply (op : Operator)
  /-- Sets a register to itself combined with a constant. -/
  | applyConstant (op : Operator)
  /-- Replaces a register by the operator's value at it. -/
  | applyUnary (op : Operator)
  /-- Changes the sign of a register. -/
  | negate
  | jump
  | jumpIfZero
  | jumpIfNonzero
  | push
  | pop
  | call
  | ret
  /-- Any other instruction, by its name. -/
  | named (name : String)
  deriving DecidableEq

namespace Opcode

/-- The name of an operator among the instructions. -/
def stem : Operator → String
  | .add => "add"
  | .sub => "sub"
  | .mul => "mul"
  | .div => "div"
  | .rem => "mod"
  | .and => "logand"
  | .or => "logor"
  | .not => "lognot"
  | .bitAnd => "and"
  | .bitOr => "or"
  | .bitXor => "xor"
  | .bitNot => "not"
  | .shift => "shift"
  | .gt => "gt"
  | .ge => "gte"
  | .lt => "lt"
  | .le => "lte"
  | .eq => "eq"
  | .ne => "ne"

def name : Opcode → String
  | .load => "load"
  | .move => "mov"
  | .apply op => "f" ++ stem op
  | .applyConstant op => "f" ++ stem op ++ "i"
  | .applyUnary op => stem op
  | .negate => "fneg"
  | .jump => "jmpl"
  | .jumpIfZero => "jezl"
  | .jumpIfNonzero => "jnzl"
  | .push => "push"
  | .pop => "pop"
  | .call => "call"
  | .ret => "return"
  | .named name => name

end Opcode

/-- What a line of assembly says. -/
inductive Statement
  | instruction (opcode : Opcode) (operands : List Operand)
  | label (l : Label)
  /-- A comment up to the end of the line. -/
  | comment (text : String)
  /-- The first line of a comment over several lines. -/
  | commentStart
  /-- A line inside a comment over several lines. -/
  | commentLine (text : String)
  /-- The last line of a comment over several lines. -/
  | commentEnd
  /-- Any other text. -/
  | raw (text : String)
  deriving DecidableEq

namespace Statement

def render : Statement → String
  | .instruction opcode operands =>
      " ".intercalate (opcode.name :: operands.map Operand.render)
  | .label l => l.text ++ ":"
  | .comment text => "// " ++ text
  | .commentStart => "/*"
  | .commentLine text => text
  | .commentEnd => "*/"
  | .raw text => text

end Statement

structure Line where
  indent : Nat
  statement : Statement
  deriving DecidableEq

namespace Line

def indentWidth : Nat := 8

/-- The text of a line with its line feed. -/
def render (l : Line) : String :=
  String.ofList (List.replicate (l.indent * indentWidth) ' ') ++ l.statement.render ++ "\n"

end Line
end RegisterLisp
