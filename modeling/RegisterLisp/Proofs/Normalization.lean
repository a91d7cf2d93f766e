import RegisterLisp.Proofs.Reduction.Folding
import RegisterLisp.Term.Normal

/-!
# Normal forms

The rules are applied to a list once, in a fixed order, and an earlier rule never sees what a later
one made of the list.  All the same they leave nothing to do: `Normal` describes the terms that no
rule changes anywhere, `normal_of_normalize` says that normalizing leads to such a term, and
`Normal.normalize_eq` that such a term is its own normal form.

A constructor or a method is an exception.  It stays as it is where its normal form would be an
atom, so `Placed` allows a list there that the rules still turn into an atom.
-/

namespace RegisterLisp
namespace Term

open Reduction

variable {items items' : List Term} {t r : Term}

/-! ## The predicate -/

/-- No rule changes the list. -/
structure Irreducible (items : List Term) : Prop where
  nop : dropNops access items = none
  fold : FoldStable items
  func : funcLiteral access items = .ok none
  typeDef : typeDefinition access items = .ok none

mutual

/-- A term that no rule changes anywhere; what is quoted does not matter. -/
inductive Normal : Term → Prop
  | atom (a : Atom) : Normal (.atom a)
  | quoted (t : Term) : Normal (.quoted t)
  | list {items : List Term} (hitems : ∀ t ∈ items, Normal t) (h : Irreducible items) :
      Normal (.list items)
  | func {params : List Symbol} {body : List Term} (hbody : ∀ t ∈ body, Normal t) :
      Normal (.func params body)
  | typeDef {name : Symbol} {fields : List Symbol} {ctor : Term} {methods : List (Symbol × Term)}
      (hctor : Placed ctor) (hmethods : ∀ m ∈ methods, Placed m.2) :
      Normal (.typeDef name fields ctor methods)

/-- What may stand as a constructor or method of a type in normal form. -/
inductive Placed : Term → Prop
  | normal {t : Term} (h : Normal t) : Placed t
  | kept {items : List Term} {a : Atom} (hitems : ∀ t ∈ items, Normal t)
      (h : applyRules Rule.all (.list items) = .ok (.atom a)) : Placed (.list items)

end

def HasNormalParts : Term → Prop
  | .list items => ∀ t ∈ items, Normal t
  | t => Normal t

/-! ## Applying one rule -/

section Rules

variable {rule : Rule} {rules : List Rule}

/-- A rule that does not apply is passed over. -/
theorem applyRules_none (h : rule.apply access items = .ok none) :
    applyRules (rule :: rules) (.list items) = applyRules rules (.list items) := by
  simp [applyRules, h]

/-- A rule that applies hands its result to the rules behind it. -/
theorem applyRules_some {new : Replacement Term} (h : rule.apply access items = .ok (some new)) :
    applyRules (rule :: rules) (.list items) = applyRules rules new.toTerm := by
  simp [applyRules, h]

/-- Where the rules succeed, the first of them declined or fired. -/
theorem applyRules_cons (h : applyRules (rule :: rules) (.list items) = .ok r) :
    rule.apply access items = .ok none ∧ applyRules rules (.list items) = .ok r ∨
      ∃ new, rule.apply access items = .ok (some new) ∧ applyRules rules new.toTerm = .ok r := by
  cases happly : rule.apply access items with
  | error cause => simp [applyRules, happly] at h
  | ok answer =>
      cases answer with
      | none => exact Or.inl ⟨rfl, (applyRules_none happly).symm.trans h⟩
      | some new => exact Or.inr ⟨new, rfl, (applyRules_some happly).symm.trans h⟩

/-- Folding is passed over where it would change nothing. -/
theorem applyRules_fold (h : FoldStable items) :
    applyRules (.fold :: rules) (.list items) = applyRules rules (.list items) := by
  rcases h with h | h
  · have hnone : Rule.fold.apply access items = .ok none := h
    exact applyRules_none hnone
  · have hsame : Rule.fold.apply access items = .ok (some (.list items)) := h
    exact applyRules_some hsame

end Rules

namespace Irreducible

theorem applyRules_tail (h : Irreducible items) :
    applyRules [.func, .typeDef] (.list items) = .ok (.list items) := by
  calc applyRules [.func, .typeDef] (.list items)
      = applyRules [.typeDef] (.list items) := applyRules_none h.func
    _ = applyRules [] (.list items) := applyRules_none h.typeDef
    _ = .ok (.list items) := rfl

/-- No rule changes an irreducible list. -/
theorem applyRules_all (h : Irreducible items) :
    applyRules Rule.all (.list items) = .ok (.list items) := by
  have hnop : Rule.nop.apply access items = .ok none := congrArg Except.ok h.nop
  calc applyRules Rule.all (.list items)
      = applyRules [.fold, .func, .typeDef] (.list items) := applyRules_none hnop
    _ = applyRules [.func, .typeDef] (.list items) := applyRules_fold h.fold
    _ = .ok (.list items) := h.applyRules_tail

end Irreducible

/-! ## What the rules make of a list with normal items -/

/-- Removing nops leaves a list without nops. -/
theorem dropNops_eq_some {new : Replacement Term} (h : dropNops access items = some new) :
    ∃ items', new = .list items' ∧ (∀ t ∈ items', t ∈ items) ∧ dropNops access items' = none := by
  unfold dropNops at h
  split at h
  · cases h
  · split at h
    · cases h
      refine ⟨_, rfl, fun t ht => (List.mem_filter.1 ht).1, ?_⟩
      -- A new head does not matter: what is left holds no nop.
      have hany : (items.filter fun t => !isNop access t).any (isNop access) = false := by
        rw [List.any_eq_false]
        intro t ht
        simpa using (List.mem_filter.1 ht).2
      unfold dropNops
      split
      · rfl
      · rw [hany]
        rfl
    · cases h

theorem head?_symbol (s : Symbol) (operands : List Term) :
    access.head? (.atom (.symbol s) :: operands) = some s :=
  rfl

/-- An operator is no keyword. -/
theorem not_keyword {s : Symbol} (h : (Operator.ofSymbol? s).isSome = true) :
    s ≠ Symbol.nop ∧ s ≠ Symbol.func ∧ s ≠ Symbol.defType := by
  refine ⟨?_, ?_, ?_⟩ <;> rintro rfl <;> revert h <;> decide

/-- A form with an operator at its head is not a nop. -/
theorem isNop_operator {s : Symbol} {operands : List Term}
    (hs : (Operator.ofSymbol? s).isSome = true) :
    isNop access (.list (.atom (.symbol s) :: operands)) = false := by
  have hitems : (access.view (.list (.atom (.symbol s) :: operands))).items?
      = some (.atom (.symbol s) :: operands) := rfl
  simp [isNop, hitems, head?_symbol, (not_keyword hs).1]

/-- Nothing is dropped from an operator form without nops. -/
theorem dropNops_operator {s : Symbol} {operands : List Term}
    (hs : (Operator.ofSymbol? s).isSome = true) (h : ∀ t ∈ operands, isNop access t = false) :
    dropNops access (.atom (.symbol s) :: operands) = none := by
  rcases not_keyword hs with ⟨hnop, -, htype⟩
  have hany : (Term.atom (.symbol s) :: operands).any (isNop access) = false := by
    rw [List.any_eq_false]
    intro t ht
    rcases List.mem_cons.1 ht with rfl | ht
    · exact Bool.false_ne_true
    · simp [h t ht]
  simp [dropNops, head?_symbol, hnop, htype, hany]

/-- A form with an operator at its head is not a function literal. -/
theorem funcLiteral_operator {s : Symbol} {operands : List Term}
    (hs : (Operator.ofSymbol? s).isSome = true) :
    funcLiteral access (.atom (.symbol s) :: operands) = .ok none := by
  simp [funcLiteral, head?_symbol, (not_keyword hs).2.1]

/-- Nor is it a type definition. -/
theorem typeDefinition_operator {s : Symbol} {operands : List Term}
    (hs : (Operator.ofSymbol? s).isSome = true) :
    typeDefinition access (.atom (.symbol s) :: operands) = .ok none := by
  simp [typeDefinition, head?_symbol, (not_keyword hs).2.2]

/-- A form with an operator that folding leaves behind is irreducible. -/
theorem irreducible_of_folded {s : Symbol} {operands kept : List Term}
    (hs : (Operator.ofSymbol? s).isSome = true)
    (hnops : dropNops access (.atom (.symbol s) :: operands) = none)
    (hkept : ∀ t ∈ kept, t ∈ operands ∨ ∃ v : Atom, t = .atom v ∧ v.isLiteral = true)
    (hfold : FoldStable (.atom (.symbol s) :: kept)) :
    Irreducible (.atom (.symbol s) :: kept) := by
  rcases not_keyword hs with ⟨hnop, -, htype⟩
  -- Nops are removed unless the head is a keyword, so there were none among the operands.
  have hoperands : ∀ t ∈ operands, isNop access t = false := by
    intro t ht
    by_contra hne
    have hany : (Term.atom (.symbol s) :: operands).any (isNop access) = true :=
      List.any_eq_true.2 ⟨t, List.mem_cons_of_mem _ ht, by simpa using hne⟩
    simp [dropNops, head?_symbol, hnop, htype, hany] at hnops
  refine ⟨dropNops_operator hs ?_, hfold, funcLiteral_operator hs, typeDefinition_operator hs⟩
  intro t ht
  rcases hkept t ht with ht | ⟨v, rfl, -⟩
  · exact hoperands t ht
  · rfl

/-- What a function literal was recognized from. -/
theorem funcLiteral_eq_some {new : Replacement Term}
    (h : funcLiteral access items = .ok (some new)) :
    ∃ params body, new = .func ⟨params, body⟩ ∧ Symbol.repeated? [] params = none ∧
      ∃ head list, items = head :: list :: body ∧ names? access list = some params := by
  unfold funcLiteral at h
  split at h
  · cases h
  · split at h
    · split at h
      · cases h
      · rename_i hnames
        split at h
        · cases h
        · rename_i hrepeated
          cases h
          exact ⟨_, _, rfl, hrepeated, _, _, rfl, hnames⟩
    · cases h

/-- A method in source form is a list that holds the function. -/
theorem method?_eq_some {s : Symbol} {f : Lambda Term} (h : method? access t = some (s, f)) :
    ∃ name, t = .list [name, .func f.params f.body] := by
  unfold method? at h
  split at h
  · rename_i name code hitems
    rcases Option.bind_eq_some_iff.1 h with ⟨s', -, hfunc⟩
    rcases Option.map_eq_some_iff.1 hfunc with ⟨⟨params, body⟩, hcode, heq⟩
    cases heq
    refine ⟨name, ?_⟩
    cases t <;> cases hitems
    cases code <;> cases hcode
    rfl
  · cases h

/-- Each method that is found stands somewhere among the terms looked at. -/
theorem method?_of_mapM {ts : List Term} {methods : List (Symbol × Lambda Term)}
    (h : ts.mapM (method? access) = some methods) :
    ∀ m ∈ methods, ∃ t ∈ ts, method? access t = some m := by
  induction ts generalizing methods with
  | nil =>
      cases h
      simp
  | cons t ts ih =>
      simp only [List.mapM_cons, Option.bind_eq_bind, Option.bind_eq_some_iff] at h
      rcases h with ⟨m, hm, rest, hrest, hmethods⟩
      cases hmethods
      intro m' hm'
      rcases List.mem_cons.1 hm' with rfl | hm'
      · exact ⟨t, List.mem_cons_self, hm⟩
      · rcases ih hrest m' hm' with ⟨t', ht', hmethod⟩
        exact ⟨t', List.mem_cons_of_mem _ ht', hmethod⟩

/-- What a type definition was recognized from. -/
theorem typeDefinition_eq_some {new : Replacement Term}
    (h : typeDefinition access items = .ok (some new)) :
    ∃ name fields ctorBody methods, new = .typeDef (withReceivers name fields ctorBody methods) ∧
      ctorBody ∈ items ∧ (∀ m ∈ methods, ∃ t ∈ items, method? access t = some m) ∧
      Symbol.repeated? [] fields = none ∧ typeDefFault? access items name methods = none := by
  unfold typeDefinition at h
  split at h
  · cases h
  · split at h
    · split at h
      · cases h
      · split at h
        · cases h
        · split at h
          · cases h
          · rename_i hrepeated
            split at h
            · cases h
            · rename_i methods hmethods
              split at h
              · cases h
              · rename_i hfault
                cases h
                refine ⟨_, _, _, methods, rfl, by simp, ?_, hrepeated, hfault⟩
                intro m hm
                rcases method?_of_mapM hmethods m hm with ⟨t, ht, hmethod⟩
                exact ⟨t, by simp [ht], hmethod⟩
    · cases h

/-- Methods of a list with normal items are normal, also with their receiver in place. -/
theorem normal_of_method {s : Symbol} {f : Lambda Term} {params : List Symbol} (ht : Normal t)
    (h : method? access t = some (s, f)) : Normal (.func params f.body) := by
  rcases method?_eq_some h with ⟨name, rfl⟩
  cases ht with
  | list hitems _ =>
      have hfunc : Normal (.func f.params f.body) := hitems _ (by simp)
      cases hfunc with
      | func hbody => exact Normal.func hbody

/-- A type whose parts were normal is normal. -/
theorem normal_withReceivers {name : Symbol} {fields : List Symbol} {ctorBody : Term}
    {methods : List (Symbol × Lambda Term)} (hctor : Normal ctorBody)
    (hmethods : ∀ m ∈ methods, ∃ t, Normal t ∧ method? access t = some m) :
    Normal (Replacement.typeDef (withReceivers name fields ctorBody methods)).toTerm := by
  have hbody : ∀ t ∈ [ctorBody], Normal t := by simpa using hctor
  refine Normal.typeDef (Placed.normal (Normal.func hbody)) ?_
  intro m hm
  simp only [withReceivers, List.map_map, List.mem_map] at hm
  rcases hm with ⟨⟨s, f⟩, hmem, rfl⟩
  rcases hmethods _ hmem with ⟨t, ht, hmethod⟩
  have hfunc : Normal (.func (Symbol.this :: f.params) f.body) := normal_of_method ht hmethod
  exact Placed.normal hfunc

theorem Normal.applyRules_tail (h : Normal t) : applyRules [.func, .typeDef] t = .ok t := by
  cases h with
  | list _ h => exact h.applyRules_tail
  | _ => rfl

/-- Whatever folding makes of a list with normal items is normal. -/
theorem normal_of_reduceOperator {new : Replacement Term} (hitems : ∀ t ∈ items, Normal t)
    (hnops : dropNops access items = none) (h : reduceOperator access items = .ok (some new)) :
    Normal new.toTerm := by
  rcases reduceOperator_eq_some h with ⟨s, operands, rfl, hs, hfolded, hstable⟩
  cases hfolded with
  | atom _ => exact Normal.atom _
  | operand ht => exact hitems _ (List.mem_cons_of_mem _ ht)
  | list hkept hlength =>
      refine Normal.list ?_ (irreducible_of_folded hs hnops hkept (hstable _ rfl))
      intro t ht
      rcases List.mem_cons.1 ht with rfl | ht
      · exact Normal.atom _
      · rcases hkept t ht with ht | ⟨v, rfl, -⟩
        · exact hitems t (List.mem_cons_of_mem _ ht)
        · exact Normal.atom v

/-- What the rules may put in the place of a list: it is built from items of the list and from
literals. -/
inductive Reduced (items : List Term) : Term → Prop
  | literal {v : Atom} (h : v.isLiteral = true) : Reduced items (.atom v)
  | item {t : Term} (h : t ∈ items) : Reduced items t
  | list {kept : List Term}
      (hkept : ∀ t ∈ kept, t ∈ items ∨ ∃ v : Atom, t = .atom v ∧ v.isLiteral = true)
      (h : Irreducible kept) : Reduced items (.list kept)
  | func {kept : List Term} {f : Lambda Term} (hkept : ∀ t ∈ kept, t ∈ items)
      (hnops : dropNops access kept = none)
      (h : funcLiteral access kept = .ok (some (.func f))) : Reduced items (.func f.params f.body)
  | typeDef {kept : List Term} {d : TypeDecl Term} (hkept : ∀ t ∈ kept, t ∈ items)
      (h : typeDefinition access kept = .ok (some (.typeDef d))) :
      Reduced items (Replacement.typeDef d).toTerm

/-- What is left of the rules after folding. -/
theorem reduced_of_definitions {kept : List Term} (hkept : ∀ t ∈ kept, t ∈ items)
    (hnops : dropNops access kept = none) (hfold : FoldStable kept)
    (h : applyRules [.func, .typeDef] (.list kept) = .ok r) : Reduced items r := by
  rcases applyRules_cons h with ⟨hfunc, h⟩ | ⟨new, hfunc, h⟩
  · rcases applyRules_cons h with ⟨htype, h⟩ | ⟨new, htype, h⟩
    · cases h
      exact Reduced.list (fun t ht => Or.inl (hkept t ht)) ⟨hnops, hfold, hfunc, htype⟩
    · cases h
      obtain ⟨name, fields, ctorBody, methods, rfl, -⟩ := typeDefinition_eq_some htype
      exact Reduced.typeDef hkept htype
  · -- A function literal is no list, so the last rule does not apply to it.
    obtain ⟨params, body, rfl, -⟩ := funcLiteral_eq_some hfunc
    rw [Replacement.toTerm, applyRules_func] at h
    cases h
    exact Reduced.func hkept hnops hfunc

/-- Folding and the rules behind it leave something that is built from the items. -/
theorem reduced_of_folding {kept : List Term} (hitems : ∀ t ∈ items, Normal t)
    (hkept : ∀ t ∈ kept, t ∈ items) (hnops : dropNops access kept = none)
    (h : applyRules [.fold, .func, .typeDef] (.list kept) = .ok r) : Reduced items r := by
  rcases applyRules_cons h with ⟨hfold, htail⟩ | ⟨new, hfold, htail⟩
  · exact reduced_of_definitions hkept hnops (Or.inl hfold) htail
  · -- The rules after folding decline.
    have hnew : Normal new.toTerm :=
      normal_of_reduceOperator (fun t ht => hitems t (hkept t ht)) hnops hfold
    rw [hnew.applyRules_tail] at htail
    cases htail
    obtain ⟨s, operands, rfl, -, hfolded, -⟩ := reduceOperator_eq_some hfold
    cases hfolded with
    | atom hv => exact Reduced.literal hv
    | operand ht => exact Reduced.item (hkept _ (List.mem_cons_of_mem _ ht))
    | list hleft _ =>
        cases hnew with
        | list _ hirreducible =>
            refine Reduced.list ?_ hirreducible
            intro t ht
            rcases List.mem_cons.1 ht with rfl | ht
            · exact Or.inl (hkept _ List.mem_cons_self)
            · exact (hleft t ht).imp_left fun ht => hkept t (List.mem_cons_of_mem _ ht)

/-- So do all the rules together. -/
theorem reduced_of_applyRules (hitems : ∀ t ∈ items, Normal t)
    (h : applyRules Rule.all (.list items) = .ok r) : Reduced items r := by
  rcases applyRules_cons h with ⟨hnops, h⟩ | ⟨new, hnops, h⟩
  · exact reduced_of_folding hitems (fun _ ht => ht) (Except.ok.inj hnops) h
  · -- The list without nops is passed on to the rules that follow, with a new head perhaps.
    obtain ⟨items', rfl, hmem, hnops'⟩ := dropNops_eq_some (Except.ok.inj hnops)
    exact reduced_of_folding hitems hmem hnops' h

/-- What is built from normal items is normal, which is why one pass over the rules is enough. -/
theorem Reduced.normal (hitems : ∀ t ∈ items, Normal t) (h : Reduced items r) : Normal r := by
  cases h with
  | literal _ => exact Normal.atom _
  | item ht => exact hitems r ht
  | list hkept h =>
      refine Normal.list ?_ h
      intro t ht
      rcases hkept t ht with ht | ⟨v, rfl, -⟩
      · exact hitems t ht
      · exact Normal.atom v
  | func hkept _ h =>
      obtain ⟨params, body, heq, -, head, list, rfl, -⟩ := funcLiteral_eq_some h
      cases heq
      exact Normal.func fun t ht => hitems t (hkept t (by simp [ht]))
  | typeDef hkept h =>
      obtain ⟨name, fields, ctorBody, methods, heq, hctor, hm, -⟩ := typeDefinition_eq_some h
      cases heq
      refine normal_withReceivers (hitems _ (hkept _ hctor)) ?_
      intro m hmem
      obtain ⟨t, ht, hmethod⟩ := hm m hmem
      exact ⟨t, hitems t (hkept t ht), hmethod⟩

/-- The rules lead from a term with normal parts to a normal term. -/
theorem normal_of_applyRules (hparts : t.HasNormalParts) (h : applyRules Rule.all t = .ok r) :
    Normal r := by
  cases t with
  | list items => exact (reduced_of_applyRules hparts h).normal hparts
  | _ =>
      cases h
      exact hparts

/-! ## Normalizing leads to a normal term -/

/-- The parts of a normal term are normal. -/
theorem Normal.hasNormalParts (h : Normal t) : t.HasNormalParts := by
  cases h with
  | list hitems _ => exact hitems
  | atom a => exact Normal.atom a
  | quoted t => exact Normal.quoted t
  | func hbody => exact Normal.func hbody
  | typeDef hctor hmethods => exact Normal.typeDef hctor hmethods

theorem Placed.hasNormalParts (h : Placed t) : t.HasNormalParts := by
  cases h with
  | normal h => exact h.hasNormalParts
  | kept hitems _ => exact hitems

/-- What goes into the place of a constructor or method may stand there. -/
theorem placed_slot (hparts : t.HasNormalParts) (h : applyRules Rule.all t = .ok r) :
    Placed (slot t r) := by
  have hnormal : Normal r := normal_of_applyRules hparts h
  cases r with
  | atom a =>
      -- The term is kept: it is a list, or no rule was applied to it and it is that atom.
      cases t with
      | list items => exact Placed.kept hparts h
      | _ => exact Placed.normal hparts
  | _ => exact Placed.normal hnormal

/-- Two steps that succeed one after the other. -/
theorem bind_eq_ok {α β : Type} {x : Except FormError α} {f : α → Except FormError β} {b : β}
    (h : x >>= f = .ok b) : ∃ a, x = .ok a ∧ f a = .ok b := by
  cases x with
  | error cause => cases h
  | ok a => exact ⟨a, rfl, h⟩

theorem map_eq_ok {α β : Type} {x : Except FormError α} {f : α → β} {b : β}
    (h : x.map f = .ok b) : ∃ a, x = .ok a ∧ b = f a := by
  cases x with
  | error cause => cases h
  | ok a => exact ⟨a, rfl, (Except.ok.inj h).symm⟩

/-- Several terms are normalized one after the other. -/
theorem normalizeAll_cons {ts : List Term} :
    normalizeAll (t :: ts) = (normalize t).bind fun t' => (normalizeAll ts).map (t' :: ·) := by
  rw [normalizeAll, normalize]
  cases inPlace t with
  | error _ => rfl
  | ok t' =>
      cases hrules : applyRules Rule.all t' with
      | error _ => simp [hrules, bind, Except.bind]
      | ok _ => cases normalizeAll ts <;> simp [hrules, bind, Except.bind, Except.map, pure,
          Except.pure]

/-- Several terms are normalized one after the other, up to a failure. -/
theorem normalizeAll_cons_eq_ok {ts us : List Term} :
    normalizeAll (t :: ts) = .ok us ↔
      ∃ t' ts', normalize t = .ok t' ∧ normalizeAll ts = .ok ts' ∧ us = t' :: ts' := by
  rw [normalizeAll_cons]
  constructor
  · intro h
    rcases bind_eq_ok h with ⟨t', ht, h⟩
    rcases map_eq_ok h with ⟨ts', hts, hus⟩
    exact ⟨t', ts', ht, hts, hus⟩
  · rintro ⟨t', ts', ht, hts, rfl⟩
    rw [ht, hts]
    rfl

mutual

/-- Normalizing in place leaves a term with normal parts. -/
theorem hasNormalParts_of_inPlace : ∀ {t t' : Term}, inPlace t = .ok t' → t'.HasNormalParts
  | .atom a, t', h => by
      cases h
      exact Normal.atom a
  | .quoted inner, t', h => by
      cases h
      exact Normal.quoted inner
  | .list items, t', h => by
      rcases map_eq_ok h with ⟨items', hitems, rfl⟩
      exact normal_of_normalizeAll hitems
  | .func params body, t', h => by
      rcases map_eq_ok h with ⟨body', hbody, rfl⟩
      exact Normal.func (normal_of_normalizeAll hbody)
  | .typeDef name fields ctor methods, t', h => by
      rw [inPlace] at h
      rcases bind_eq_ok h with ⟨ctor', hctor, h⟩
      rcases bind_eq_ok h with ⟨ctor'', hrules, h⟩
      rcases bind_eq_ok h with ⟨methods', hmethods, h⟩
      cases h
      exact Normal.typeDef (placed_slot (hasNormalParts_of_inPlace hctor) hrules)
        (placed_of_normalizeMethods hmethods)

/-- Every one of several results is normal. -/
theorem normal_of_normalizeAll :
    ∀ {ts ts' : List Term}, normalizeAll ts = .ok ts' → ∀ t ∈ ts', Normal t
  | [], ts', h => by
      cases h
      simp
  | t :: ts, ts', h => by
      rw [normalizeAll] at h
      rcases bind_eq_ok h with ⟨t', ht, h⟩
      rcases bind_eq_ok h with ⟨t'', hrules, h⟩
      rcases bind_eq_ok h with ⟨rest, hrest, h⟩
      cases h
      intro u hu
      rcases List.mem_cons.1 hu with rfl | hu
      · exact normal_of_applyRules (hasNormalParts_of_inPlace ht) hrules
      · exact normal_of_normalizeAll hrest u hu

/-- The results for methods may stand in a type. -/
theorem placed_of_normalizeMethods :
    ∀ {ms ms' : List (Symbol × Term)}, normalizeMethods ms = .ok ms' → ∀ m ∈ ms', Placed m.2
  | [], ms', h => by
      cases h
      simp
  | (name, t) :: ms, ms', h => by
      rw [normalizeMethods] at h
      rcases bind_eq_ok h with ⟨t', ht, h⟩
      rcases bind_eq_ok h with ⟨t'', hrules, h⟩
      rcases bind_eq_ok h with ⟨rest, hrest, h⟩
      cases h
      intro m hm
      rcases List.mem_cons.1 hm with rfl | hm
      · exact placed_slot (hasNormalParts_of_inPlace ht) hrules
      · exact placed_of_normalizeMethods hrest m hm

end

/-- What normalizing returns is normal. -/
theorem normal_of_normalize (h : normalize t = .ok r) : Normal r := by
  rcases bind_eq_ok h with ⟨t', ht, hrules⟩
  exact normal_of_applyRules (hasNormalParts_of_inPlace ht) hrules

/-! ## Operator forms -/

section Operators

variable {s : Symbol} {operands operands' : List Term}

/-- What folding makes of a list. -/
def afterFolding (items : List Term) : Except FormError Term :=
  (reduceOperator access items).map fun new => (new.map Replacement.toTerm).getD (.list items)

theorem afterFolding_of_none {op : Operator} (hs : Operator.ofSymbol? s = some op)
    (hne : operands ≠ [] ∨ op.unit? = none) (hadmits : op.arity.admits operands.length = true)
    (h : simplified? access op (.atom (.symbol s)) operands = none) :
    afterFolding (.atom (.symbol s) :: operands) = .ok (.list (.atom (.symbol s) :: operands)) := by
  rw [afterFolding, reduceOperator_cons hs hne, if_pos hadmits, h]
  rfl

theorem afterFolding_of_some {op : Operator} {new : Replacement Term}
    (hs : Operator.ofSymbol? s = some op) (hne : operands ≠ [] ∨ op.unit? = none)
    (hadmits : op.arity.admits operands.length = true)
    (h : simplified? access op (.atom (.symbol s)) operands = some new) :
    afterFolding (.atom (.symbol s) :: operands) =
      .ok (if isUnchanged access (.atom (.symbol s) :: operands) new then
        .list (.atom (.symbol s) :: operands) else new.toTerm) := by
  rw [afterFolding, reduceOperator_cons hs hne, if_pos hadmits, h]
  cases hunchanged : isUnchanged access (.atom (.symbol s) :: operands) new with
  | true =>
      rw [Option.filter_some_neg (by simp [hunchanged])]
      rfl
  | false =>
      rw [Option.filter_some_pos (by simp [hunchanged])]
      rfl

/-- Of the rules only folding has an effect on an operator form without nops. -/
theorem applyRules_operator (hs : (Operator.ofSymbol? s).isSome = true)
    (hnormal : ∀ t ∈ operands, Normal t) (hnops : ∀ t ∈ operands, isNop access t = false) :
    applyRules Rule.all (.list (.atom (.symbol s) :: operands)) =
      afterFolding (.atom (.symbol s) :: operands) := by
  have hdrop := dropNops_operator hs hnops
  have hnone : Rule.nop.apply access (.atom (.symbol s) :: operands) = .ok none :=
    congrArg Except.ok hdrop
  rw [Rule.all, applyRules_none hnone, afterFolding]
  cases hfold : reduceOperator access (.atom (.symbol s) :: operands) with
  | error cause => simp [applyRules, Rule.apply, hfold, Except.map]
  | ok answer =>
      cases answer with
      | none =>
          calc applyRules [.fold, .func, .typeDef] (.list (.atom (.symbol s) :: operands))
              = applyRules [.func, .typeDef] (.list (.atom (.symbol s) :: operands)) :=
                applyRules_none hfold
            _ = applyRules [.typeDef] (.list (.atom (.symbol s) :: operands)) :=
                applyRules_none (funcLiteral_operator hs)
            _ = applyRules [] (.list (.atom (.symbol s) :: operands)) :=
                applyRules_none (typeDefinition_operator hs)
      | some new =>
          have hitems : ∀ t ∈ Term.atom (.symbol s) :: operands, Normal t := by
            simpa using ⟨Normal.atom _, hnormal⟩
          have hnew : Normal new.toTerm := normal_of_reduceOperator hitems hdrop hfold
          calc applyRules [.fold, .func, .typeDef] (.list (.atom (.symbol s) :: operands))
              = applyRules [.func, .typeDef] new.toTerm := applyRules_some hfold
            _ = .ok new.toTerm := hnew.applyRules_tail

/-- For a form with an operator, normalizing is normalizing the operands and then folding. -/
theorem normalize_operator (hs : (Operator.ofSymbol? s).isSome = true)
    (h : normalizeAll operands = .ok operands')
    (hnops : ∀ t ∈ operands', isNop access t = false) :
    normalize (.list (.atom (.symbol s) :: operands)) =
      afterFolding (.atom (.symbol s) :: operands') := by
  have hitems : inPlace (.list (.atom (.symbol s) :: operands))
      = .ok (.list (.atom (.symbol s) :: operands')) := by
    rw [inPlace, normalizeAll, h]
    rfl
  rw [normalize, hitems]
  exact applyRules_operator hs (normal_of_normalizeAll h) hnops

end Operators

/-! ## A normal term is its own normal form -/

theorem Normal.applyRules_all (h : Normal t) : applyRules Rule.all t = .ok t := by
  cases h with
  | list _ h => exact h.applyRules_all
  | _ => rfl

/-- What stands as a constructor or method stays there. -/
theorem Placed.slot_eq (h : Placed t) :
    ∃ r, applyRules Rule.all t = .ok r ∧ slot t r = t := by
  cases h with
  | normal h =>
      refine ⟨t, h.applyRules_all, ?_⟩
      cases t <;> rfl
  | kept _ h => exact ⟨_, h, rfl⟩

mutual

/-- Normal parts stay as they are. -/
theorem HasNormalParts.inPlace_eq : ∀ {t : Term}, t.HasNormalParts → inPlace t = .ok t
  | .atom _, _ => rfl
  | .quoted _, _ => rfl
  | .list items, h => by
      rw [inPlace, normalizeAll_eq h]
      rfl
  | .func params body, h => by
      cases h with
      | func hbody =>
          rw [inPlace, normalizeAll_eq hbody]
          rfl
  | .typeDef name fields ctor methods, h => by
      cases h with
      | typeDef hctor hmethods =>
          rcases hctor.slot_eq with ⟨r, hrules, hslot⟩
          simp only [inPlace, hctor.hasNormalParts.inPlace_eq, hrules,
            normalizeMethods_eq hmethods, bind, Except.bind, pure, Except.pure, hslot]

theorem normalizeAll_eq : ∀ {ts : List Term}, (∀ t ∈ ts, Normal t) → normalizeAll ts = .ok ts
  | [], _ => rfl
  | t :: ts, h => by
      have ht : Normal t := h t (by simp)
      have hrest := normalizeAll_eq fun u hu => h u (List.mem_cons_of_mem t hu)
      simp only [normalizeAll, ht.hasNormalParts.inPlace_eq, ht.applyRules_all, hrest, bind,
        Except.bind, pure, Except.pure]

theorem normalizeMethods_eq :
    ∀ {ms : List (Symbol × Term)}, (∀ m ∈ ms, Placed m.2) → normalizeMethods ms = .ok ms
  | [], _ => rfl
  | (name, t) :: ms, h => by
      have ht : Placed t := h (name, t) (by simp)
      have hrest := normalizeMethods_eq fun m hm => h m (List.mem_cons_of_mem (name, t) hm)
      rcases ht.slot_eq with ⟨r, hrules, hslot⟩
      simp only [normalizeMethods, ht.hasNormalParts.inPlace_eq, hrules, hrest, bind, Except.bind,
        pure, Except.pure, hslot]

end

/-- A normal term stays as it is. -/
theorem Normal.normalize_eq (h : Normal t) : normalize t = .ok t := by
  rw [normalize, h.hasNormalParts.inPlace_eq]
  exact h.applyRules_all

/-- Normalizing a second time changes nothing. -/
theorem normalize_idempotent (h : normalize t = .ok r) : normalize r = .ok r :=
  (normal_of_normalize h).normalize_eq

/-- A type whose constructor has a number for its normal form, and whose method holds a division by
a literal zero and a form with a nop before the operator. -/
def unfoldedType : Term :=
  .typeDef ⟨"point"⟩ [⟨"x"⟩] (.list [.symbol ⟨"+"⟩])
    [(⟨"scaled"⟩, .func [Symbol.this]
      [.list [.symbol ⟨"/"⟩, .atom (.number 8.0), .atom (.number 2.0), .atom (.number 0.0),
          .symbol ⟨"x"⟩],
        .list [.list [.symbol Symbol.nop], .symbol ⟨"+"⟩, .atom (.number 1.0),
          .symbol ⟨"x"⟩, .atom (.number 2.0)]])]

def foldedType : Term :=
  .typeDef ⟨"point"⟩ [⟨"x"⟩] (.list [.symbol ⟨"+"⟩])
    [(⟨"scaled"⟩, .func [Symbol.this]
      [.list [.symbol ⟨"/"⟩, .atom (.number 4.0), .atom (.number 0.0), .symbol ⟨"x"⟩],
        .list [.symbol ⟨"+"⟩, .symbol ⟨"x"⟩, .atom (.number 3.0)]])]

theorem normalize_idempotent_type :
    normalize unfoldedType = .ok foldedType ∧ normalize foldedType = .ok foldedType := by
  have h : normalize unfoldedType = .ok foldedType := by
    decide +kernel
  exact ⟨h, normalize_idempotent h⟩

end Term
end RegisterLisp
