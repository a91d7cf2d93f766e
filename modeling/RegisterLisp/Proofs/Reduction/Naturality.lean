import RegisterLisp.Reduction.Rules
import Mathlib.Data.List.Basic

/-!
# Rules do not depend on what parts are

A rule knows about parts only what an `Access` tells it.  So a map between two kinds of parts that
agrees with both of them commutes with every rule: applying the rule to the mapped items gives the
mapped replacement, or the same error.

What lies inside a quote or a type definition is not seen by the rules, so a map need not preserve
it.
-/

namespace RegisterLisp

variable {ρ σ : Type}

/-! ## Mapping the parts of a replacement -/

namespace Lambda

def map (f : ρ → σ) (l : Lambda ρ) : Lambda σ :=
  ⟨l.params, l.body.map f⟩

end Lambda

namespace Replacement

/-- Replaces the parts. -/
def map (f : ρ → σ) : Replacement ρ → Replacement σ
  | .part r => .part (f r)
  | .list items => .list (items.map f)
  | .func l => .func (l.map f)
  | .typeDef d =>
      .typeDef ⟨d.name, d.fields, d.ctor.map f, d.methods.map fun m => (m.1, m.2.map f)⟩

end Replacement

/-! ## Maps that agree with two ways of looking at parts -/

namespace Access

/-- A map of parts that keeps all that rules see. -/
structure Hom (a : Access ρ) (b : Access σ) (f : ρ → σ) : Prop where
  atom : ∀ v, f (a.atom v) = b.atom v
  atom? : ∀ r, (b.view (f r)).atom? = (a.view r).atom?
  items? : ∀ r, (b.view (f r)).items? = (a.view r).items?.map (List.map f)
  func? : ∀ r, (b.view (f r)).func? = (a.view r).func?.map fun c => (c.1, c.2.map f)
  same : ∀ r r', b.same (f r) (f r') = a.same r r'
  render : ∀ r, b.render (f r) = a.render r

end Access

namespace Access.Hom

variable {a : Access ρ} {b : Access σ} {f : ρ → σ} {items : List ρ} (h : Hom a b f)
include h

/-- A number is seen through the map. -/
theorem number? (r : ρ) : b.number? (f r) = a.number? r := by
  rw [Access.number?, View.number?, h.atom?, ← View.number?, ← Access.number?]

/-- So is a symbol. -/
theorem symbol? (r : ρ) : b.symbol? (f r) = a.symbol? r := by
  rw [Access.symbol?, View.symbol?, h.atom?, ← View.symbol?, ← Access.symbol?]

theorem head? (items : List ρ) : b.head? (items.map f) = a.head? items := by
  cases items with
  | nil => rfl
  | cons r items => exact h.symbol? r

/-- Parts that are equal stay equal, and unequal ones unequal. -/
theorem sameAll (xs ys : List ρ) : b.sameAll (xs.map f) (ys.map f) = a.sameAll xs ys := by
  simp [Access.sameAll, List.zip_map, List.all_map, Function.comp_def, h.same]

theorem renderList (items : List ρ) : b.renderList (items.map f) = a.renderList items := by
  simp [Access.renderList, Function.comp_def, h.render]

end Access.Hom

namespace Reduction

open Access

variable {a : Access ρ} {b : Access σ} {f : ρ → σ} {items : List ρ}

/-! ## Definitions -/

/-- A nop is one before the map and after it. -/
theorem isNop_map (h : Hom a b f) (r : ρ) : isNop b (f r) = isNop a r := by
  rw [isNop, isNop, h.items?]
  cases (a.view r).items? with
  | none => rfl
  | some items =>
      dsimp only [Option.map_some]
      rw [h.head?]

/-- The nops to drop are the same. -/
theorem dropNops_map (h : Hom a b f) (items : List ρ) :
    dropNops b (items.map f) = (dropNops a items).map (Replacement.map f) := by
  have hany : (items.map f).any (isNop b) = items.any (isNop a) := by
    simp [List.any_map, Function.comp_def, isNop_map h]
  have hfilter : ((items.map f).filter fun r => !isNop b r) =
      (items.filter fun r => !isNop a r).map f := by
    simp [List.filter_map, Function.comp_def, isNop_map h]
  unfold dropNops
  rw [h.head?, hany, hfilter]
  split
  · rfl
  · split <;> rfl

/-- So are the names of a parameter list. -/
theorem names?_map (h : Hom a b f) (r : ρ) : names? b (f r) = names? a r := by
  rw [names?, names?, h.items?]
  cases (a.view r).items? with
  | none => rfl
  | some items =>
      rw [Option.map_some, Option.bind_some, Option.bind_some]
      induction items with
      | nil => rfl
      | cons r items ih => rw [List.map_cons, List.mapM_cons, List.mapM_cons, h.symbol?, ih]

theorem malformed_map (h : Hom a b f) (items : List ρ) (reason : String) :
    malformed b (items.map f) reason = malformed a items reason := by
  rw [malformed, malformed, h.renderList]

/-- A function literal is recognized from the mapped parts, with the same errors. -/
theorem funcLiteral_map (h : Hom a b f) (items : List ρ) :
    funcLiteral b (items.map f) =
      (funcLiteral a items).map (Option.map (Replacement.map f)) := by
  unfold funcLiteral
  rw [h.head?]
  split
  · rfl
  · match items with
    | [] => simp [Except.map, ← malformed_map h]
    | [r] => simp [Except.map, ← malformed_map h]
    | r :: params :: body =>
        have herror := malformed_map h (r :: params :: body)
        simp only [List.map_cons] at herror ⊢
        rw [names?_map h]
        cases hparams : names? a params with
        | none => simp [Except.map, herror]
        | some names =>
            cases hrepeated : Symbol.repeated? [] names with
            | none => simp [Except.map, hrepeated, Replacement.map, Lambda.map]
            | some s => simp [Except.map, hrepeated, herror]

/-- So is a method. -/
theorem method?_map (h : Hom a b f) (r : ρ) :
    method? b (f r) = (method? a r).map fun m => (m.1, m.2.map f) := by
  unfold method?
  rw [h.items?]
  match (a.view r).items? with
  | none => rfl
  | some [] => rfl
  | some [_] => rfl
  | some [name, code] =>
      simp only [Option.map_some, List.map_cons, List.map_nil]
      rw [h.symbol?, h.func?]
      cases a.symbol? name with
      | none => rfl
      | some s => cases (a.view code).func? <;> rfl
  | some (_ :: _ :: _ :: _) => rfl

/-- So are all methods. -/
theorem methods_map (h : Hom a b f) (rs : List ρ) :
    (rs.map f).mapM (method? b) =
      (rs.mapM (method? a)).map (List.map fun m => (m.1, m.2.map f)) := by
  induction rs with
  | nil => rfl
  | cons r rs ih =>
      rw [List.map_cons, List.mapM_cons, List.mapM_cons, method?_map h, ih]
      cases method? a r with
      | none => rfl
      | some m => cases rs.mapM (method? a) <;> rfl

/-- The faults of a type are found in the same order. -/
theorem typeDefFault?_map (h : Hom a b f) (items : List ρ) (name : Symbol)
    (methods : List (Symbol × Lambda ρ)) :
    typeDefFault? b (items.map f) name (methods.map fun m => (m.1, m.2.map f)) =
      typeDefFault? a items name methods := by
  have hfind : ((methods.map fun m => (m.1, m.2.map f)).find? fun m =>
      m.2.params.contains Symbol.this) =
      (methods.find? fun m => m.2.params.contains Symbol.this).map fun m => (m.1, m.2.map f) := by
    rw [List.find?_map]
    rfl
  have hnames : (methods.map fun m => (m.1, m.2.map f)).map Prod.fst = methods.map Prod.fst := by
    simp
  unfold typeDefFault?
  rw [hfind, hnames]
  cases methods.find? fun m => m.2.params.contains Symbol.this with
  | none => rfl
  | some m => exact congrArg some (malformed_map h items _)

theorem withReceivers_map (name : Symbol) (fields : List Symbol) (ctorBody : ρ)
    (methods : List (Symbol × Lambda ρ)) :
    .typeDef (withReceivers name fields (f ctorBody) (methods.map fun m => (m.1, m.2.map f))) =
      (Replacement.typeDef (withReceivers name fields ctorBody methods)).map f := by
  simp [Replacement.map, withReceivers, Lambda.map]

/-- A type is recognized from the mapped parts. -/
theorem typeDefinition_map (h : Hom a b f) (items : List ρ) :
    typeDefinition b (items.map f) =
      (typeDefinition a items).map (Option.map (Replacement.map f)) := by
  unfold typeDefinition
  rw [h.head?]
  split
  · rfl
  · match items with
    | [] | [_] | [_, _] | [_, _, _] => simp [Except.map, ← malformed_map h]
    | r :: name :: fields :: ctorBody :: methods =>
        have herror := malformed_map h (r :: name :: fields :: ctorBody :: methods)
        have hfault := typeDefFault?_map h (r :: name :: fields :: ctorBody :: methods)
        simp only [List.map_cons] at herror hfault ⊢
        rw [h.symbol?, names?_map h, methods_map h]
        cases a.symbol? name with
        | none => simp [Except.map, herror]
        | some type =>
            cases names? a fields with
            | none => simp [Except.map, herror]
            | some names =>
                cases hrepeated : Symbol.repeated? [] names with
                | some s => simp [Except.map, hrepeated, herror]
                | none =>
                    cases methods.mapM (method? a) with
                    | none => simp [Except.map, hrepeated, herror]
                    | some found =>
                        cases hfound : typeDefFault? a (r :: name :: fields :: ctorBody :: methods)
                            type found with
                        | some fault => simp [Except.map, hrepeated, hfault, hfound]
                        | none =>
                            simp [Except.map, hrepeated, hfault, hfound, withReceivers_map]

/-! ## Operators -/

/-- A form is built again from the mapped operands. -/
theorem rebuild_map (h : Hom a b f) (head : ρ) (operands : List ρ) (empty : Atom) :
    rebuild b (f head) (operands.map f) empty =
      (rebuild a head operands empty).map f := by
  match operands with
  | [] => exact congrArg Replacement.part (h.atom empty).symm
  | [_] => rfl
  | _ :: _ :: _ => rfl

theorem isLiteral_map (h : Hom a b f) (r : ρ) :
    (b.view (f r)).isLiteral = (a.view r).isLiteral := by
  have hatom := h.atom? r
  cases ha : a.view r <;> cases hb : b.view (f r) <;> simp_all [View.atom?, View.isLiteral]

/-- Literals are seen through the map. -/
theorem leadingLiterals_map (h : Hom a b f) (operands : List ρ) :
    leadingLiterals b (operands.map f) = leadingLiterals a operands := by
  unfold leadingLiterals
  induction operands with
  | nil => rfl
  | cons r operands ih =>
      simp only [List.map_cons, List.takeWhile_cons, isLiteral_map h]
      split
      · rw [List.filterMap_cons, List.filterMap_cons, h.atom?, ih]
      · rfl

theorem isBool_eq (a : Access ρ) (value : Bool) (r : ρ) :
    isBool a value r = ((a.view r).atom? == some (.bool value)) := by
  unfold isBool
  cases a.view r with
  | atom v => cases v <;> simp [View.atom?]
  | shape layer => rfl

/-- A boolean is seen through the map. -/
theorem isBool_map (h : Hom a b f) (value : Bool) (r : ρ) :
    isBool b value (f r) = isBool a value r := by
  rw [isBool_eq, isBool_eq, h.atom?]

theorem filter_isBool_map (h : Hom a b f) (value : Bool) (operands : List ρ) :
    ((operands.map f).filter fun r => !isBool b value r) =
      (operands.filter fun r => !isBool a value r).map f := by
  simp [List.filter_map, Function.comp_def, isBool_map h]

/-- An `and` is folded the same way. -/
theorem reduceAnd_map (h : Hom a b f) (head : ρ) (operands : List ρ) :
    reduceAnd b (f head) (operands.map f) = (reduceAnd a head operands).map f := by
  unfold reduceAnd
  rw [leadingLiterals_map h, filter_isBool_map h, rebuild_map h]
  split
  · exact congrArg Replacement.part (h.atom _).symm
  · rfl

theorem reduceOr_map (h : Hom a b f) (head : ρ) (operands : List ρ) :
    reduceOr b (f head) (operands.map f) = (reduceOr a head operands).map f := by
  unfold reduceOr
  rw [leadingLiterals_map h, filter_isBool_map h, rebuild_map h]
  split
  · exact congrArg Replacement.part (h.atom _).symm
  · rfl

/-- Literals are merged to the same number. -/
theorem mergeLiterals_map (h : Hom a b f) (g : Float → Float → Float) (head : ρ)
    (operands : List ρ) :
    mergeLiterals b g (f head) (operands.map f) =
      (mergeLiterals a g head operands).map (Replacement.map f) := by
  have hnumbers : (operands.map f).filterMap b.number? = operands.filterMap a.number? := by
    simp [List.filterMap_map, h.number?]
  have hothers : ((operands.map f).filter fun r => (b.number? r).isNone) =
      (operands.filter fun r => (a.number? r).isNone).map f := by
    simp [List.filter_map, Function.comp_def, h.number?]
  unfold mergeLiterals
  rw [hnumbers, hothers]
  split
  · rw [Option.map_some, ← rebuild_map h, List.map_append, List.map_singleton, h.atom]
  · rfl

/-- As many leading numbers are found. -/
theorem leadingNumbers_map (h : Hom a b f) (operands : List ρ) :
    leadingNumbers b (operands.map f) = leadingNumbers a operands := by
  induction operands with
  | nil => rfl
  | cons r operands ih =>
      rw [List.map_cons, leadingNumbers, leadingNumbers, h.number?, ih]

/-- And they are merged up to the same place. -/
theorem mergeLeading_map (h : Hom a b f) (g : Float → Float → Float) (stop : Float → Bool)
    (head : ρ) (operands : List ρ) :
    mergeLeading b g stop (f head) (operands.map f) =
      (mergeLeading a g stop head operands).map (Replacement.map f) := by
  unfold mergeLeading
  rw [leadingNumbers_map h]
  split
  · rfl
  · split
    · rfl
    · rw [Option.map_some, ← rebuild_map h, List.map_cons, h.atom, List.map_drop]

/-- An operator on one literal has the same value. -/
theorem unary_map (h : Hom a b f) (op : Operator) (r : ρ) :
    (((b.view (f r)).atom?.bind (unaryValue? op)).map fun v => .part (b.atom v)) =
      (((a.view r).atom?.bind (unaryValue? op)).map fun v => .part (a.atom v)).map
        (Replacement.map f) := by
  rw [h.atom?, Option.map_map]
  simp [Function.comp_def, Replacement.map, h.atom]

theorem binary_map (h : Hom a b f) (op : Operator) (r r' : ρ) :
    ((b.number? (f r)).bind fun x => (b.number? (f r')).bind fun y =>
      (binaryValue? op x y).map fun v => .part (b.atom (.number v))) =
      ((a.number? r).bind fun x => (a.number? r').bind fun y =>
        (binaryValue? op x y).map fun v => .part (a.atom (.number v))).map
          (Replacement.map f) := by
  rw [h.number?, h.number?]
  cases a.number? r with
  | none => rfl
  | some x =>
      cases a.number? r' with
      | none => rfl
      | some y =>
          simp only [Option.bind_some, Option.map_map]
          simp [Function.comp_def, Replacement.map, h.atom]

/-- Every operator is simplified the same way. -/
theorem simplified?_map (h : Hom a b f) (op : Operator) (head : ρ) (operands : List ρ) :
    simplified? b op (f head) (operands.map f) =
      (simplified? a op head operands).map (Replacement.map f) := by
  cases op with
  | and => exact congrArg some (reduceAnd_map h head operands)
  | or => exact congrArg some (reduceOr_map h head operands)
  | add | mul | bitAnd | bitOr | bitXor => exact mergeLiterals_map h _ head operands
  | div => exact mergeLeading_map h _ _ head operands
  | sub =>
      match operands with
      | [] => rfl
      | [r] => exact unary_map h .sub r
      | r :: r' :: rest => exact mergeLeading_map h _ _ head (r :: r' :: rest)
  | not =>
      match operands with
      | [] => rfl
      | [r] => exact unary_map h .not r
      | _ :: _ :: _ => rfl
  | bitNot =>
      match operands with
      | [] => rfl
      | [r] => exact unary_map h .bitNot r
      | _ :: _ :: _ => rfl
  | shift =>
      match operands with
      | [] | [_] => rfl
      | [r, r'] => exact binary_map h .shift r r'
      | _ :: _ :: _ :: _ => rfl
  | rem =>
      match operands with
      | [] | [_] => rfl
      | [r, r'] => exact binary_map h .rem r r'
      | _ :: _ :: _ :: _ => rfl
  | _ => rfl

theorem isUnchanged_part (a : Access ρ) (items : List ρ) (r : ρ) :
    isUnchanged a items (.part r) =
      (a.view r).items?.any fun others => a.sameAll others items := by
  rw [isUnchanged]
  cases a.view r with
  | atom v => rfl
  | shape layer => cases layer <;> rfl

/-- Whether a result is dropped as unchanged does not depend on the map. -/
theorem isUnchanged_map (h : Hom a b f) (items : List ρ) (new : Replacement ρ) :
    isUnchanged b (items.map f) (new.map f) = isUnchanged a items new := by
  cases new with
  | part r =>
      rw [Replacement.map, isUnchanged_part, isUnchanged_part, h.items?]
      cases (a.view r).items? with
      | none => rfl
      | some others => exact h.sameAll others items
  | list others => exact h.sameAll others items
  | func l => rfl
  | typeDef d => rfl

theorem filter_isUnchanged_map (h : Hom a b f) (items : List ρ) (new : Option (Replacement ρ)) :
    (new.map (Replacement.map f)).filter (fun r => !isUnchanged b (items.map f) r) =
      (new.filter fun r => !isUnchanged a items r).map (Replacement.map f) := by
  cases new with
  | none => rfl
  | some r =>
      rw [Option.map_some, Option.filter_some, Option.filter_some, isUnchanged_map h]
      split <;> rfl

/-- Folding commutes with the map. -/
theorem reduceOperator_map (h : Hom a b f) (items : List ρ) :
    reduceOperator b (items.map f) =
      (reduceOperator a items).map (Option.map (Replacement.map f)) := by
  cases items with
  | nil => rfl
  | cons head operands =>
      rw [List.map_cons, reduceOperator, reduceOperator, h.symbol?]
      cases (a.symbol? head).bind Operator.ofSymbol? with
      | none => rfl
      | some op =>
          have hfilter :=
            filter_isUnchanged_map h (head :: operands) (simplified? a op head operands)
          rw [← simplified?_map h, List.map_cons] at hfilter
          -- With operands, or without a unit, the number of operands is checked.
          have hadmitted : (if op.arity.admits (operands.map f).length then
                .ok ((simplified? b op (f head) (operands.map f)).filter fun r =>
                  !isUnchanged b (f head :: operands.map f) r)
              else .error (FormError.arity op (operands.map f).length)) =
              Except.map (Option.map (Replacement.map f)) (if op.arity.admits operands.length then
                .ok ((simplified? a op head operands).filter fun r =>
                  !isUnchanged a (head :: operands) r)
              else .error (FormError.arity op operands.length)) := by
            rw [List.length_map, hfilter]
            split <;> rfl
          dsimp only
          cases operands with
          | nil =>
              cases op.unit? with
              | some unit =>
                  exact congrArg (fun r => Except.ok (some (Replacement.part r))) (h.atom _).symm
              | none => exact hadmitted
          | cons r operands => exact hadmitted

end Reduction

namespace Rule

/-- So does every rule, which is why trees and stores reduce alike. -/
theorem apply_map {a : Access ρ} {b : Access σ} {f : ρ → σ} (h : a.Hom b f) (items : List ρ)
    (rule : Rule) :
    rule.apply b (items.map f) = (rule.apply a items).map (Option.map (Replacement.map f)) := by
  cases rule with
  | nop => exact congrArg Except.ok (Reduction.dropNops_map h items)
  | fold => exact Reduction.reduceOperator_map h items
  | func => exact Reduction.funcLiteral_map h items
  | typeDef => exact Reduction.typeDefinition_map h items

end Rule
end RegisterLisp
