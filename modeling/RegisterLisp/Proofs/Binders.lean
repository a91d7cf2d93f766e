import RegisterLisp.Proofs.Recognition

/-!
# Parameter lists are normalized as code

The items of a list are normalized before the rules see the list, and this holds of the parameter
list of `(func (params…) body…)`, too.  It comes out as it was only if, read as a form, there is
nothing to do about it: its first name is no keyword, and if it is an operator then the other names
are operands that it accepts and keeps (`Inert`).

`normalize_func_eq_iff` says that with distinct parameters this is all it takes to get the function
literal that was written down.  Otherwise the list has gone from the form, has become an atom, or
is refused.
-/

namespace RegisterLisp

namespace Operator

/-- Whether a form with so many symbols as operands is left alone by folding. -/
def keepsSymbols (op : Operator) (n : Nat) : Bool :=
  if op = .and ∨ op = .or then 2 ≤ n else op.arity.admits n

theorem keepsSymbols_zero (op : Operator) : op.keepsSymbols 0 = false := by
  cases op <;> rfl

/-- A form that is left alone has a number of operands that is accepted. -/
theorem admits_of_keepsSymbols {op : Operator} {n : Nat} (h : op.keepsSymbols n = true) :
    op.arity.admits n = true := by
  unfold keepsSymbols at h
  split at h
  · rename_i hop
    rcases hop with rfl | rfl <;> rfl
  · exact h

end Operator

namespace Reduction

open Term (access)

variable {op : Operator} {head : Term} {p : Symbol} {ps : List Symbol}

/-! ## Folding a form whose operands are symbols -/

/-- No symbol is a literal, so `and` and `or` find nothing that decides them. -/
theorem leadingLiterals_symbols : leadingLiterals access (ps.map Term.symbol) = [] := by
  cases ps with
  | nil => rfl
  | cons p ps => exact leadingLiterals_cons_of_not rfl

theorem filter_isBool_symbols (b : Bool) :
    ((ps.map Term.symbol).filter fun t => !isBool access b t) = ps.map Term.symbol := by
  rw [List.filter_eq_self]
  intro t ht
  obtain ⟨p, -, rfl⟩ := List.mem_map.1 ht
  rfl

/-- Without literals there is nothing to compute. -/
theorem simplified?_symbols (hand : op ≠ .and) (hor : op ≠ .or) :
    simplified? access op head (ps.map Term.symbol) = none := by
  have hsymbol : ∀ t ∈ ps.map Term.symbol, ∃ p, t = Term.symbol p := by
    intro t ht
    obtain ⟨p, -, rfl⟩ := List.mem_map.1 ht
    exact ⟨p, rfl⟩
  have hunary : ∀ t ∈ ps.map Term.symbol, (access.view t).atom?.bind (unaryValue? op) = none := by
    intro t ht
    obtain ⟨p, rfl⟩ := hsymbol t ht
    cases op <;> rfl
  have hnumber : ∀ t ∈ ps.map Term.symbol, access.number? t = none := by
    intro t ht
    obtain ⟨p, rfl⟩ := hsymbol t ht
    rfl
  have hmerge : ∀ f, mergeLiterals access f head (ps.map Term.symbol) = none := by
    intro f
    rw [mergeLiterals, List.filterMap_eq_nil_iff.2 hnumber]
  have hleading : ∀ f stop, mergeLeading access f stop head (ps.map Term.symbol) = none := by
    intro f stop
    cases ps <;> rfl
  -- No operand is a literal, so every way to simplify a form finds nothing.
  unfold simplified?
  split
  · exact absurd rfl hand
  · exact absurd rfl hor
  · rw [hunary _ (by simp [*])]; rfl
  · rw [hunary _ (by simp [*])]; rfl
  · rw [hunary _ (by simp [*])]; rfl
  · exact hleading _ _
  · exact hleading _ _
  · rw [hnumber _ (by simp [*])]; rfl
  · rw [hnumber _ (by simp [*])]; rfl
  · split
    · simp [hmerge]
    · rfl

/-- The operands of a conjunction or disjunction are kept, a single one in place of the form. -/
theorem simplified?_connective_symbols (h : op = .and ∨ op = .or) :
    ∃ empty, simplified? access op head (ps.map Term.symbol) =
      some (rebuild access head (ps.map Term.symbol) empty) := by
  rcases h with rfl | rfl
  · refine ⟨.bool true, ?_⟩
    simp [simplified?, reduceAnd, leadingLiterals_symbols, filter_isBool_symbols]
  · refine ⟨.bool false, ?_⟩
    simp [simplified?, reduceOr, leadingLiterals_symbols, filter_isBool_symbols]

/-- Without an operator at the head there is nothing to fold. -/
theorem foldStable_of_not_operator {operands : List Term} (h : Operator.ofSymbol? p = none) :
    FoldStable (Term.symbol p :: operands) := by
  have hhead : (access.symbol? (Term.symbol p)).bind Operator.ofSymbol? = none := h
  exact Or.inl (by simp [reduceOperator, hhead])

/-- A list of names is folded only if its head is an operator that does not keep them. -/
theorem foldStable_symbols
    (h : ∀ op ∈ Operator.ofSymbol? p, op.keepsSymbols ps.length = true) :
    FoldStable ((p :: ps).map Term.symbol) := by
  cases hop : Operator.ofSymbol? p with
  | none => exact foldStable_of_not_operator hop
  | some op =>
      have hkeeps := h op hop
      have hne : ps.map Term.symbol ≠ [] := by
        intro hnil
        rw [List.map_eq_nil_iff.1 hnil, List.length_nil, op.keepsSymbols_zero] at hkeeps
        cases hkeeps
      have hadmits : op.arity.admits (ps.map Term.symbol).length = true := by
        rw [List.length_map]
        exact Operator.admits_of_keepsSymbols hkeeps
      rw [FoldStable, List.map_cons, Term.symbol, reduceOperator_cons hop (Or.inl hne),
        if_pos hadmits]
      by_cases hconnective : op = .and ∨ op = .or
      · obtain ⟨empty, heq⟩ := simplified?_connective_symbols hconnective
        have hlength : 2 ≤ (ps.map Term.symbol).length := by
          simpa [Operator.keepsSymbols, hconnective] using hkeeps
        rw [heq, rebuild_of_length hlength, Option.filter_some]
        split
        · exact Or.inr rfl
        · exact Or.inl rfl
      · rw [not_or] at hconnective
        rw [simplified?_symbols hconnective.1 hconnective.2]
        exact Or.inl rfl

/-- Any other number of operands is refused or leads to an atom. -/
theorem reduceOperator_symbols (hop : Operator.ofSymbol? p = some op)
    (h : op.keepsSymbols ps.length = false) :
    (∃ a, reduceOperator access ((p :: ps).map Term.symbol) = .ok (some (.part (.atom a)))) ∨
      ∃ cause, reduceOperator access ((p :: ps).map Term.symbol) = .error cause := by
  by_cases hne : ps.map Term.symbol ≠ [] ∨ op.unit? = none
  · rw [List.map_cons, Term.symbol, reduceOperator_cons hop hne, List.length_map]
    by_cases hconnective : op = .and ∨ op = .or
    · have hadmits : op.arity.admits ps.length = true := by
        rcases hconnective with rfl | rfl <;> rfl
      obtain ⟨empty, heq⟩ := @simplified?_connective_symbols op (.atom (.symbol p)) ps hconnective
      have hlength : ps.length < 2 := by
        simpa [Operator.keepsSymbols, hconnective] using h
      rw [if_pos hadmits, heq]
      match ps, hlength with
      | [], _ => exact Or.inl ⟨empty, rfl⟩
      | [x], _ => exact Or.inl ⟨.symbol x, rfl⟩
    · have hadmits : op.arity.admits ps.length = false := by
        simpa [Operator.keepsSymbols, hconnective] using h
      rw [hadmits]
      exact Or.inr ⟨_, rfl⟩
  · push Not at hne
    obtain ⟨hnil, hunit⟩ := hne
    obtain ⟨unit, hunit⟩ := Option.ne_none_iff_exists'.1 hunit
    obtain rfl := List.map_eq_nil_iff.1 hnil
    have hhead : (access.symbol? (Term.symbol p)).bind Operator.ofSymbol? = some op := hop
    exact Or.inl ⟨.number unit, by simp [reduceOperator, hhead, hunit]; rfl⟩

end Reduction

namespace Term

open Reduction

variable {p : Symbol} {ps : List Symbol} {bs bs' : List Term} {r : Term}

/-! ## Lists of symbols -/

/-- Whether a list of names, read as a form, is left as it is and is no nop. -/
def Inert : List Symbol → Prop
  | [] => True
  | p :: ps => p ≠ Symbol.nop ∧ p ≠ Symbol.func ∧ p ≠ Symbol.defType ∧
      ∀ op ∈ Operator.ofSymbol? p, op.keepsSymbols ps.length = true

instance : DecidablePred Inert
  | [] => isTrue trivial
  | p :: ps => inferInstanceAs (Decidable (p ≠ Symbol.nop ∧ p ≠ Symbol.func ∧
      p ≠ Symbol.defType ∧ ∀ op ∈ Operator.ofSymbol? p, op.keepsSymbols ps.length = true))

/-- A parameter list that stays in place is not dropped as a nop. -/
theorem Inert.isNop_eq_false (h : Inert ps) : isNop access (.list (ps.map symbol)) = false := by
  match ps, h with
  | [], _ => rfl
  | p :: _, ⟨hnop, _⟩ =>
      rw [Bool.eq_false_iff, Ne, isNop_iff]
      rintro ⟨args, heq⟩
      cases heq
      exact hnop rfl

theorem headedBy_symbols {s : Symbol} :
    HeadedBy s (.list ((p :: ps).map symbol)) ↔ p = s := by
  constructor
  · rintro ⟨args, heq⟩
    cases heq
    rfl
  · rintro rfl
    exact ⟨_, rfl⟩

/-- The rules apply to a list of symbols as it is. -/
theorem normalize_symbols :
    normalize (.list (ps.map symbol)) = applyRules Rule.all (.list (ps.map symbol)) := by
  have hnormal : HasNormalParts (.list (ps.map symbol)) := by
    intro t ht
    obtain ⟨p, -, rfl⟩ := List.mem_map.1 ht
    exact Normal.atom _
  rw [normalize, hnormal.inPlace_eq]
  rfl

theorem dropNops_symbols : dropNops access (ps.map symbol) = none := by
  refine dropNops_eq_none_iff.2 (Or.inr (Or.inr ?_))
  intro t ht
  obtain ⟨p, -, rfl⟩ := List.mem_map.1 ht
  rintro ⟨args, heq⟩
  cases heq

/-- A list of names is in normal form if none of the four rules is about its head. -/
theorem normalize_symbols_eq (hfunc : p ≠ Symbol.func) (htype : p ≠ Symbol.defType)
    (hkeeps : ∀ op ∈ Operator.ofSymbol? p, op.keepsSymbols ps.length = true) :
    normalize (.list ((p :: ps).map symbol)) = .ok (.list ((p :: ps).map symbol)) := by
  rw [normalize_symbols]
  refine Irreducible.applyRules_all ⟨dropNops_symbols, foldStable_symbols hkeeps, ?_, ?_⟩
  · rw [funcLiteral_eq_none_iff, headedBy_symbols]
    exact hfunc
  · rw [typeDefinition_eq_none_iff, headedBy_symbols]
    exact htype

/-- A parameter list that stays in place is in normal form. -/
theorem Inert.normalize_eq (h : Inert ps) :
    normalize (.list (ps.map symbol)) = .ok (.list (ps.map symbol)) := by
  match ps, h with
  | [], _ => rfl
  | _ :: _, ⟨_, hfunc, htype, hkeeps⟩ => exact normalize_symbols_eq hfunc htype hkeeps

/-- No definition consists of symbols only. -/
theorem applyRules_definitions_symbols (h : p = Symbol.func ∨ p = Symbol.defType) :
    ∃ cause, applyRules [.func, .typeDef] (.list ((p :: ps).map symbol)) = .error cause := by
  rcases h with rfl | rfl
  · have hfunc : ∃ cause, funcLiteral access ((Symbol.func :: ps).map symbol) = .error cause := by
      cases ps with
      | nil => exact ⟨_, rfl⟩
      | cons q qs => exact ⟨_, rfl⟩
    obtain ⟨cause, hfunc⟩ := hfunc
    exact ⟨cause, by rw [applyRules, Rule.apply, hfunc]⟩
  · have htype :
        ∃ cause, typeDefinition access ((Symbol.defType :: ps).map symbol) = .error cause := by
      -- Either there are too few symbols, or one of them stands where a list of fields should be.
      rcases ps with _ | ⟨name, _ | ⟨fields, _ | ⟨body, methods⟩⟩⟩ <;> exact ⟨_, rfl⟩
    obtain ⟨cause, htype⟩ := htype
    have hnone : Rule.func.apply access ((Symbol.defType :: ps).map symbol) = .ok none := rfl
    exact ⟨cause, by rw [applyRules_none hnone, applyRules, Rule.apply, htype]⟩

/-- A list of symbols that is not left as it is becomes an atom, if it is not refused. -/
theorem eq_atom_of_not_inert (hnop : p ≠ Symbol.nop) (h : ¬ Inert (p :: ps))
    (hr : normalize (.list ((p :: ps).map symbol)) = .ok r) : ∃ a, r = .atom a := by
  have hnone : Rule.nop.apply access ((p :: ps).map symbol) = .ok none :=
    congrArg Except.ok dropNops_symbols
  rw [normalize_symbols, Rule.all, applyRules_none hnone] at hr
  by_cases hkeyword : p = Symbol.func ∨ p = Symbol.defType
  · have hstable : FoldStable ((p :: ps).map symbol) := by
      refine foldStable_of_not_operator ?_
      rcases hkeyword with rfl | rfl <;> decide
    obtain ⟨cause, herror⟩ := @applyRules_definitions_symbols p ps hkeyword
    rw [applyRules_fold hstable, herror] at hr
    cases hr
  · rw [not_or] at hkeyword
    obtain ⟨op, hop, hkeeps⟩ :
        ∃ op, Operator.ofSymbol? p = some op ∧ op.keepsSymbols ps.length = false := by
      by_contra hall
      push Not at hall
      exact h ⟨hnop, hkeyword.1, hkeyword.2, fun op hop => by simpa using hall op hop⟩
    rcases reduceOperator_symbols hop hkeeps with ⟨a, hatom⟩ | ⟨cause, herror⟩
    · have hfold : Rule.fold.apply access ((p :: ps).map symbol) = .ok (some (.part (.atom a))) :=
        hatom
      rw [applyRules_some hfold] at hr
      cases hr
      exact ⟨a, rfl⟩
    · rw [applyRules, Rule.apply, herror] at hr
      cases hr

/-! ## Function forms -/

/-- Only nops are removed before a function literal is recognized. -/
theorem normalize_func {args args' : List Term} (h : normalizeAll args = .ok args') :
    normalize (.list (.symbol Symbol.func :: args)) =
      applyRules [.func, .typeDef]
        (.list (.symbol Symbol.func :: args'.filter fun t => !isNop access t)) := by
  have hitems : inPlace (.list (.symbol Symbol.func :: args)) =
      .ok (.list (.symbol Symbol.func :: args')) := by
    rw [inPlace, normalizeAll_cons, h]
    rfl
  have hdrop : dropNops access (.symbol Symbol.func :: args') =
      if args'.any (isNop access) then
        some (.list (.symbol Symbol.func :: args'.filter fun t => !isNop access t))
      else none := rfl
  have hfold : ∀ operands, applyRules [.fold, .func, .typeDef]
      (.list (.symbol Symbol.func :: operands)) =
      applyRules [.func, .typeDef] (.list (.symbol Symbol.func :: operands)) :=
    fun operands => applyRules_fold (foldStable_of_not_operator (by decide))
  -- Nops are dropped if there are any, and folding has nothing to do with the keyword.
  rw [normalize, hitems, Rule.all, Except.bind]
  split at hdrop
  · have hnops : Rule.nop.apply access (.symbol Symbol.func :: args') =
        .ok (some (.list (.symbol Symbol.func :: args'.filter fun t => !isNop access t))) :=
      congrArg Except.ok hdrop
    rw [applyRules_some hnops]
    exact hfold _
  · rename_i hany
    have hnops : Rule.nop.apply access (.symbol Symbol.func :: args') = .ok none :=
      congrArg Except.ok hdrop
    have hkept : (args'.filter fun t => !isNop access t) = args' := by
      rw [List.filter_eq_self]
      simpa using hany
    rw [applyRules_none hnops, hkept]
    exact hfold _

/-- What is recognized has the form of a definition. -/
theorem eq_func_of_applyRules {args : List Term}
    (h : applyRules [.func, .typeDef] (.list (.symbol Symbol.func :: args)) = .ok r) :
    ∃ list params body, args = list :: body ∧ names? access list = some params ∧
      r = .func params body := by
  rcases applyRules_cons h with ⟨hnone, -⟩ | ⟨new, hfunc, hnew⟩
  · exact absurd ⟨args, rfl⟩ (funcLiteral_eq_none_iff.1 hnone)
  · obtain ⟨params, body, rfl, -, head, list, heq, hnames⟩ := funcLiteral_eq_some hfunc
    cases heq
    cases hnew
    exact ⟨list, params, body, rfl, hnames, rfl⟩

theorem names?_symbols : names? access (.list (ps.map symbol)) = some ps := by
  have hnames : ∀ ps : List Symbol, (ps.map symbol).mapM access.symbol? = some ps := by
    intro ps
    induction ps with
    | nil => rfl
    | cons p ps ih => simp only [List.map_cons, List.mapM_cons, ih]; rfl
  exact hnames ps

/-- A parameter list of distinct names makes a literal with these parameters. -/
theorem funcLiteral_symbols (hdistinct : ps.Nodup) (body : List Term) :
    funcLiteral access (.symbol Symbol.func :: .list (ps.map symbol) :: body) =
      .ok (some (.func ⟨ps, body⟩)) := by
  have hhead : access.head? (.symbol Symbol.func :: .list (ps.map symbol) :: body) =
      some Symbol.func := rfl
  have hrepeated : Symbol.repeated? [] ps = none :=
    Symbol.repeated?_eq_none_iff.2 ⟨hdistinct, by simp⟩
  simp [funcLiteral, hhead, names?_symbols, hrepeated]

instance : DecidablePred (HeadedBy Symbol.nop) :=
  fun _ => decidable_of_iff _ isNop_iff

/-- What is taken for a nop is what is headed by one. -/
theorem isNop_eq_decide (t : Term) : isNop access t = decide (HeadedBy Symbol.nop t) := by
  rw [Bool.eq_iff_iff, isNop_iff, decide_eq_true_iff]

/-- Without a parameter list that is left alone, the form is refused, or its body is not that of
the function: its first expression was taken for the parameter list. -/
theorem inert_of_normalize_func {list' : Term}
    (hlist : normalize (.list (ps.map symbol)) = .ok list')
    (hbody : normalizeAll bs = .ok bs')
    (h : normalize (.list (.symbol Symbol.func :: .list (ps.map symbol) :: bs)) =
      .ok (.func ps (bs'.filter fun b => !isNop access b))) : Inert ps := by
  have hargs : normalizeAll (.list (ps.map symbol) :: bs) = .ok (list' :: bs') :=
    normalizeAll_cons_eq_ok.2 ⟨_, _, hlist, hbody, rfl⟩
  rw [normalize_func hargs] at h
  obtain ⟨list, params, body, hitems, hnames, heq⟩ := eq_func_of_applyRules h
  cases heq
  by_contra hinert
  match ps with
  | [] => exact hinert trivial
  | p :: ps =>
      by_cases hnop : p = Symbol.nop
      · -- The list was dropped, and the first expression of the body taken for it.
        subst hnop
        have hnone : Operator.ofSymbol? Symbol.nop = none := by decide
        have hsame := @normalize_symbols_eq Symbol.nop ps (by decide) (by decide) (by simp [hnone])
        have hnop : isNop access (.list ((Symbol.nop :: ps).map symbol)) = true := rfl
        rw [hsame] at hlist
        cases hlist
        rw [List.filter_cons_of_neg (by rw [hnop]; decide)] at hitems
        have hlength := congrArg List.length hitems
        simp at hlength
      · -- An atom is no list of names.
        obtain ⟨a, rfl⟩ := eq_atom_of_not_inert hnop hinert hlist
        rw [List.filter_cons_of_pos rfl] at hitems
        cases hitems
        cases hnames

/-- A function form with distinct parameters becomes the function literal with these parameters
and with the normal forms of its body other than nops, exactly if the parameter list is left alone
as a form. -/
theorem normalize_func_eq_iff (hdistinct : ps.Nodup) (hbody : normalizeAll bs = .ok bs') :
    normalize (.list (.symbol Symbol.func :: .list (ps.map symbol) :: bs)) =
        .ok (.func ps (bs'.filter fun b => ¬ HeadedBy Symbol.nop b)) ↔
      Inert ps := by
  simp only [decide_not, ← isNop_eq_decide]
  constructor
  · intro h
    -- The form is normalized, so its parameter list is.
    rcases bind_eq_ok h with ⟨_, hitems, -⟩
    rcases map_eq_ok hitems with ⟨_, hitems, -⟩
    rcases normalizeAll_cons_eq_ok.1 hitems with ⟨_, _, -, hargs, -⟩
    rcases normalizeAll_cons_eq_ok.1 hargs with ⟨_, _, hlist, -⟩
    exact inert_of_normalize_func hlist hbody h
  · intro h
    have hargs : normalizeAll (.list (ps.map symbol) :: bs) =
        .ok (.list (ps.map symbol) :: bs') :=
      normalizeAll_cons_eq_ok.2 ⟨_, _, h.normalize_eq, hbody, rfl⟩
    have hfunc : Rule.func.apply access (.symbol Symbol.func :: .list (ps.map symbol) ::
        bs'.filter fun b => !isNop access b) = _ := funcLiteral_symbols hdistinct _
    rw [normalize_func hargs, List.filter_cons_of_pos (by simp [h.isNop_eq_false]),
      applyRules_some hfunc]
    rfl

/-- A disjunction with two operands can be a parameter list, also with a keyword among them. -/
theorem normalize_func_eq_iff_or :
    normalize (.list [.symbol Symbol.func,
        .list [.symbol ⟨"or"⟩, .symbol Symbol.nop, .symbol ⟨"x"⟩], .list [.symbol Symbol.nop],
        .list [.symbol ⟨"+"⟩, .symbol ⟨"or"⟩, .atom (.number 1.0), .atom (.number 2.0)]]) =
      .ok (.func [⟨"or"⟩, Symbol.nop, ⟨"x"⟩]
        [.list [.symbol ⟨"+"⟩, .symbol ⟨"or"⟩, .atom (.number 3.0)]]) := by
  have hbody : normalizeAll [.list [.symbol Symbol.nop],
      .list [.symbol ⟨"+"⟩, .symbol ⟨"or"⟩, .atom (.number 1.0), .atom (.number 2.0)]] =
      .ok [.list [.symbol Symbol.nop],
        .list [.symbol ⟨"+"⟩, .symbol ⟨"or"⟩, .atom (.number 3.0)]] := by
    decide +kernel
  have hdistinct : [⟨"or"⟩, Symbol.nop, ⟨"x"⟩].Nodup := by
    decide
  exact (normalize_func_eq_iff hdistinct hbody).2 (by decide)

/-- A conjunction with one operand cannot: it is replaced by its operand. -/
theorem normalize_func_single_conjunct :
    ([⟨"and"⟩, ⟨"x"⟩] : List Symbol).Nodup ∧ normalizeAll [.symbol ⟨"x"⟩] = .ok [.symbol ⟨"x"⟩] ∧
      normalize (.list [.symbol Symbol.func, .list [.symbol ⟨"and"⟩, .symbol ⟨"x"⟩],
        .symbol ⟨"x"⟩]) =
      .error (.malformed "(func x x)"
        "func's first argument must be a list of parameter names") := by
  decide +kernel

/-- With `nop` as the first parameter another list is taken for the parameters. -/
example : normalize (.list [.symbol Symbol.func, .list [.symbol Symbol.nop],
    .list [.symbol ⟨"x"⟩], .symbol ⟨"x"⟩]) = .ok (.func [⟨"x"⟩] [.symbol ⟨"x"⟩]) := by
  decide +kernel

end Term
end RegisterLisp
