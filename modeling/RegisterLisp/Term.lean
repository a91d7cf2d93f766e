import RegisterLisp.Atom

/-!
# Terms

A term is a program form as a plain tree.  The reader produces atoms, lists and quotes; function
literals and type definitions appear when a list headed by `func` or `def-type` has been
recognized.  `Term.render` is the text of a term.
-/

namespace RegisterLisp

/-- A form of a program. -/
inductive Term
  | atom (value : Atom)
  | list (items : List Term)
  | quoted (inner : Term)
  | func (params : List Symbol) (body : List Term)
  /-- A type with its constructor and its named methods. -/
  | typeDef (name : Symbol) (fields : List Symbol) (ctor : Term) (methods : List (Symbol × Term))

namespace Term

instance : Inhabited Term := ⟨.list []⟩

def symbol (s : Symbol) : Term := .atom (.symbol s)

/-! ## Equality

Two terms are the same tree if their numbers have the same bits. -/

mutual

def decEq : (t u : Term) → Decidable (t = u)
  | .atom a, .atom b => decidable_of_iff (a = b) (by simp)
  | .list xs, .list ys =>
      have := decEqAll xs ys
      decidable_of_iff (xs = ys) (by simp)
  | .quoted x, .quoted y =>
      have := decEq x y
      decidable_of_iff (x = y) (by simp)
  | .func ps xs, .func qs ys =>
      have := decEqAll xs ys
      decidable_of_iff (ps = qs ∧ xs = ys) (by simp)
  | .typeDef n fs c ms, .typeDef n' fs' c' ms' =>
      have := decEq c c'
      have := decEqMethods ms ms'
      decidable_of_iff (n = n' ∧ fs = fs' ∧ c = c' ∧ ms = ms') (by simp)
  | .atom _, .list _ | .atom _, .quoted _ | .atom _, .func _ _ | .atom _, .typeDef _ _ _ _
  | .list _, .atom _ | .list _, .quoted _ | .list _, .func _ _ | .list _, .typeDef _ _ _ _
  | .quoted _, .atom _ | .quoted _, .list _ | .quoted _, .func _ _ | .quoted _, .typeDef _ _ _ _
  | .func _ _, .atom _ | .func _ _, .list _ | .func _ _, .quoted _
  | .func _ _, .typeDef _ _ _ _
  | .typeDef _ _ _ _, .atom _ | .typeDef _ _ _ _, .list _ | .typeDef _ _ _ _, .quoted _
  | .typeDef _ _ _ _, .func _ _ => .isFalse (by simp)

def decEqAll : (ts us : List Term) → Decidable (ts = us)
  | [], [] => .isTrue rfl
  | [], _ :: _ | _ :: _, [] => .isFalse (by simp)
  | t :: ts, u :: us =>
      have := decEq t u
      have := decEqAll ts us
      decidable_of_iff (t = u ∧ ts = us) (by simp)

def decEqMethods : (ms ns : List (Symbol × Term)) → Decidable (ms = ns)
  | [], [] => .isTrue rfl
  | [], _ :: _ | _ :: _, [] => .isFalse (by simp)
  | (s, t) :: ms, (s', u) :: ns =>
      have := decEq t u
      have := decEqMethods ms ns
      decidable_of_iff ((s = s' ∧ t = u) ∧ ms = ns) (by simp)

end

instance : DecidableEq Term := decEq

/-! ## Equality as programs see it -/

mutual

/-- Structural equality with numbers compared as numbers. -/
def same : Term → Term → Bool
  | .atom a, .atom b => a.same b
  | .list xs, .list ys => sameAll xs ys
  | .quoted x, .quoted y => same x y
  | .func ps xs, .func qs ys => ps == qs && sameAll xs ys
  | .typeDef n fs c ms, .typeDef n' fs' c' ms' =>
      n == n' && fs == fs' && same c c' && sameMethods ms ms'
  | _, _ => false

def sameAll : List Term → List Term → Bool
  | [], [] => true
  | x :: xs, y :: ys => same x y && sameAll xs ys
  | _, _ => false

/-- Equal names and equal code, in order. -/
def sameMethods : List (Symbol × Term) → List (Symbol × Term) → Bool
  | [], [] => true
  | (s, x) :: xs, (t, y) :: ys => s == t && same x y && sameMethods xs ys
  | _, _ => false

end

/-! ## Text -/

/-- Texts with a space between each two. -/
def spaced (texts : List String) : String :=
  " ".intercalate texts

mutual

def render : Term → String
  | .atom a => a.render
  | .list items => "(" ++ spaced (renderAll items) ++ ")"
  | .quoted inner => "'" ++ render inner
  | .func params body =>
      "(" ++ spaced (Symbol.func.name :: ("(" ++ spaced (params.map Symbol.name) ++ ")") ::
        renderAll body) ++ ")"
  | .typeDef name fields ctor methods =>
      "(" ++ spaced (Symbol.defType.name :: name.name ::
        ("(" ++ spaced (fields.map Symbol.name) ++ ")") :: render ctor ::
        renderMethods methods) ++ ")"

def renderAll : List Term → List String
  | [] => []
  | t :: ts => render t :: renderAll ts

/-- Each method as a pair of its name and its code. -/
def renderMethods : List (Symbol × Term) → List String
  | [] => []
  | (name, code) :: rest => ("(" ++ name.name ++ " " ++ render code ++ ")") :: renderMethods rest

end

end Term
end RegisterLisp
