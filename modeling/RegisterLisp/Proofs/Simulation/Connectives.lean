import RegisterLisp.Proofs.Machine
import RegisterLisp.Proofs.Reduction.Conditions
import Mathlib.Data.List.DropRight

/-!
# The value of a folded `and` or `or`

A form with atoms for operands has as its value a word of the machine: the last operand of an `and`
of which none is zero, the first operand of an `or` that is not zero, and a zero if it fails.
Folding drops booleans that make no difference to the success of the form.  This does make a
difference to the value of an `and` that ends in `true`: the folded form has the value of the last
operand before (`essential`).  And a form from which only one operand is left is replaced by it, so
that a zero other than `0.0` can be the value where the form failed before.
-/

namespace RegisterLisp

open Reduction
open Term (access normalize normalizeAll)

variable {W : Type}

namespace Machine

/-- A literal is zero exactly if it counts as false. -/
def Truthful (M : Machine W) : Prop :=
  ∀ a i b, Immediate.ofAtom? a = some i → a.truth? = some b → M.isZero (M.constant i) = !b

end Machine

namespace Atom

def word (M : Machine W) (assign : Symbol → W) : Atom → W
  | .symbol name => assign name
  | .number x => M.constant (.number x)
  | .bool b => M.constant (.ofBool b)
  | .string text => M.constant (.string text)

theorem word_eq_constant {M : Machine W} {assign : Symbol → W} {a : Atom} {i : Immediate}
    (h : Immediate.ofAtom? a = some i) : a.word M assign = M.constant i := by
  cases a <;> cases h <;> rfl

/-- Whether the word of a literal is zero is its truth value. -/
theorem isZero_word {M : Machine W} (hM : M.Truthful) {assign : Symbol → W} {a : Atom} {b : Bool}
    (h : a.truth? = some b) : M.isZero (a.word M assign) = !b := by
  cases a with
  | symbol name => cases h
  | _ => exact hM _ _ b rfl h

end Atom

namespace Connective

/-! ## Values -/

def value (M : Machine W) : Connective → List W → W
  | .and, ws =>
      if ws.any M.isZero then M.constant (.number 0.0) else ws.getLastD (M.constant (.ofBool true))
  | .or, ws => (ws.find? fun w => !M.isZero w).getD (M.constant (.number 0.0))

/-- The operands that the value of the folded form depends on. -/
def essential : Connective → List Atom → List Atom
  | .and, as => as.rdropWhile (· = .bool true)
  | .or, as => as

/-- The operands that folding keeps. -/
def kept (c : Connective) (as : List Atom) : List Atom :=
  as.filter (· ≠ .bool !c.decisive)

theorem value_singleton (M : Machine W) (c : Connective) (w : W) :
    c.value M [w] = if M.isZero w then M.constant (.number 0.0) else w := by
  cases c <;> cases h : M.isZero w <;> simp [value, h]

/-- An operand of `or` that is zero is passed over. -/
theorem value_or_cons (M : Machine W) (w : W) (ws : List W) :
    value M .or (w :: ws) = if M.isZero w then value M .or ws else w := by
  cases h : M.isZero w <;> simp [value, h]

section Folded

variable {M : Machine W} {assign : Symbol → W} {as : List Atom}

/-- The neutral boolean never decides. -/
theorem isZero_neutral (hM : M.Truthful) (c : Connective) :
    M.isZero ((Atom.bool !c.decisive).word M assign) = c.decisive := by
  have hzero : M.isZero ((Atom.bool !c.decisive).word M assign) = !!c.decisive :=
    Atom.isZero_word hM rfl
  rwa [Bool.not_not] at hzero

/-- Whether an `and` fails does not depend on literals `true`. -/
theorem any_isZero_kept (hM : M.Truthful) :
    ((kept .and as).map (Atom.word M assign)).any M.isZero =
      (as.map (Atom.word M assign)).any M.isZero := by
  have htrue : M.isZero ((Atom.bool true).word M assign) = false := isZero_neutral hM .and
  induction as with
  | nil => rfl
  | cons a as ih =>
      by_cases ha : a = .bool true
      · subst ha
        have hkept : kept .and (.bool true :: as) = kept .and as := rfl
        rw [hkept, ih, List.map_cons, List.any_cons, htrue, Bool.false_or]
      · have hkept : kept .and (a :: as) = a :: kept .and as :=
          List.filter_cons_of_pos (by simpa [decisive] using ha)
        rw [hkept, List.map_cons, List.map_cons, List.any_cons, List.any_cons, ih]

/-- The last operand that is kept is the last one behind which there is only `true`. -/
theorem value_kept_and (hM : M.Truthful) :
    value M .and ((kept .and as).map (Atom.word M assign)) =
      value M .and ((essential .and as).map (Atom.word M assign)) := by
  induction as using List.reverseRecOn with
  | nil => rfl
  | append_singleton as a ih =>
      by_cases ha : a = .bool true
      · subst ha
        have hkept : kept .and (as ++ [.bool true]) = kept .and as := by
          simp [kept, decisive]
        have hessential : essential .and (as ++ [.bool true]) = essential .and as :=
          List.rdropWhile_concat_pos _ _ _ (by simp)
        rw [hkept, hessential, ih]
      · have hkept : kept .and (as ++ [a]) = kept .and as ++ [a] := by
          simp [kept, decisive, ha]
        have hessential : essential .and (as ++ [a]) = as ++ [a] :=
          List.rdropWhile_concat_neg _ _ _ (by simpa using ha)
        have hany := @any_isZero_kept W M assign as hM
        simp only [hkept, hessential, value, List.map_append, List.any_append, hany, List.map_cons,
          List.map_nil, List.getLastD_concat]

/-- The first operand that is not zero is no literal `false`. -/
theorem value_kept_or (hM : M.Truthful) :
    value M .or ((kept .or as).map (Atom.word M assign)) =
      value M .or ((essential .or as).map (Atom.word M assign)) := by
  have hfalse : M.isZero ((Atom.bool false).word M assign) = true := isZero_neutral hM .or
  induction as with
  | nil => rfl
  | cons a as ih =>
      have hessential : essential .or (a :: as) = a :: essential .or as := rfl
      rw [hessential, List.map_cons, value_or_cons]
      by_cases ha : a = .bool false
      · subst ha
        have hkept : kept .or (.bool false :: as) = kept .or as := rfl
        rw [hkept, ih, if_pos hfalse]
      · have hkept : kept .or (a :: as) = a :: kept .or as :=
          List.filter_cons_of_pos (by simpa [decisive] using ha)
        rw [hkept, List.map_cons, value_or_cons, ih]

/-- The operands that folding keeps have the value of those that matter. -/
theorem value_kept (hM : M.Truthful) (c : Connective) :
    c.value M ((c.kept as).map (Atom.word M assign)) =
      c.value M ((c.essential as).map (Atom.word M assign)) := by
  cases c with
  | and => exact value_kept_and hM
  | or => exact value_kept_or hM

end Folded

/-! ## Folding -/

def form (c : Connective) (as : List Atom) : Term :=
  .list (.atom (.symbol c.symbol) :: as.map .atom)

/-- What becomes of a form with atoms for operands. -/
inductive Folds (c : Connective) (as : List Atom) : Term → Prop
  /-- A literal decides before any symbol is reached. -/
  | decided {before behind : List Atom} {l : Atom} (has : as = before ++ l :: behind)
      (hbefore : ∀ a ∈ before, a.truth? = some !c.decisive) (hl : l.truth? = some c.decisive) :
      Folds c as (.atom (c.verdict l))
  | empty (hkept : c.kept as = []) : Folds c as (.atom (.bool !c.decisive))
  | single {a : Atom} (hkept : c.kept as = [a]) : Folds c as (.atom a)
  | form (hkept : 2 ≤ (c.kept as).length) : Folds c as (c.form (c.kept as))

theorem leadingLiterals_atoms (as : List Atom) :
    leadingLiterals access (as.map .atom) = as.takeWhile Atom.isLiteral := by
  induction as with
  | nil => rfl
  | cons a as ih =>
      rw [List.map_cons]
      cases ha : a.isLiteral with
      | true => rw [leadingLiterals_cons_atom ha, ih, List.takeWhile_cons_of_pos ha]
      | false =>
          have hview : (Term.atom a).view.isLiteral = false := ha
          rw [leadingLiterals_cons_of_not hview, List.takeWhile_cons_of_neg (by simp [ha])]

theorem filter_isBool_atoms (b : Bool) (as : List Atom) :
    ((as.map Term.atom).filter fun t => !isBool access b t) =
      (as.filter (· ≠ .bool b)).map .atom := by
  rw [List.filter_map]
  congr 1
  refine List.filter_congr fun a _ => ?_
  cases a with
  | bool b' => simp [isBool, access, Term.view, beq_eq_decide]
  | _ => simp [isBool, access, Term.view]

theorem truth?_of_isLiteral {a : Atom} {b : Bool} (ha : a.isLiteral = true)
    (hb : a.truth? ≠ some b) : a.truth? = some !b := by
  cases htruth : a.truth? with
  | none =>
      -- Only a symbol has no truth value.
      cases a with
      | symbol name => cases ha
      | _ => cases htruth
  | some b' =>
      rw [htruth] at hb
      exact congrArg some (Bool.eq_not.2 fun heq => hb (congrArg some heq))

/-- Folding a form of atoms decides it, or keeps the operands it may not drop. -/
theorem folds_reduce (c : Connective) (as : List Atom) :
    c.Folds as (c.reduce access (.atom (.symbol c.symbol)) (as.map .atom)).toTerm := by
  cases hfind : (leadingLiterals access (as.map .atom)).find? fun l => l.truth? == some c.decisive with
  | some l =>
      rw [reduce_of_decided hfind]
      rw [leadingLiterals_atoms, List.find?_eq_some_iff_append] at hfind
      obtain ⟨hl, before, behind, heq, hbefore⟩ := hfind
      have has : as = before ++ l :: (behind ++ as.dropWhile Atom.isLiteral) := by
        calc as = as.takeWhile Atom.isLiteral ++ as.dropWhile Atom.isLiteral :=
              List.takeWhile_append_dropWhile.symm
          _ = before ++ l :: (behind ++ as.dropWhile Atom.isLiteral) := by simp [heq]
      refine Folds.decided has ?_ (by simpa using hl)
      intro a ha
      have hliteral : a.isLiteral = true := List.mem_takeWhile_imp (by rw [heq]; simp [ha])
      exact truth?_of_isLiteral hliteral (by simpa using hbefore a ha)
  | none =>
      -- No literal at the front decides, so neutral booleans are dropped everywhere.
      rw [reduce_of_undecided hfind, filter_isBool_atoms]
      change c.Folds as (rebuild access _ ((c.kept as).map .atom) _).toTerm
      match hkept : c.kept as with
      | [] => exact Folds.empty hkept
      | [a] => exact Folds.single hkept
      | a :: b :: rest =>
          have hform : (rebuild access (.atom (.symbol c.symbol)) ((a :: b :: rest).map Term.atom)
              (.bool !c.decisive)).toTerm = c.form (c.kept as) := by
            rw [hkept]
            rfl
          rw [hform]
          exact Folds.form (by simp [hkept])

/-- The word that replaces a form is its value, or a zero where the form fails. -/
theorem Folds.word_atom {M : Machine W} (hM : M.Truthful) {assign : Symbol → W} {c : Connective}
    {as : List Atom} {a : Atom} (h : c.Folds as (.atom a)) :
    a.word M assign = c.value M ((c.essential as).map (Atom.word M assign)) ∨
      M.isZero (a.word M assign) = true ∧
        c.value M ((c.essential as).map (Atom.word M assign)) = M.constant (.number 0.0) := by
  cases h with
  | @decided before behind l has hbefore hl =>
      refine Or.inl ?_
      cases c with
      | and =>
          -- The literal that decides is no `true`, so it is kept.
          have hne : l ≠ .bool true := by
            rintro rfl
            cases hl
          have hmem : l ∈ kept .and as := by
            refine List.mem_filter.2 ⟨by rw [has]; simp, by simpa [decisive] using hne⟩
          have hany : ((kept .and as).map (Atom.word M assign)).any M.isZero = true := by
            refine List.any_eq_true.2 ⟨l.word M assign, List.mem_map_of_mem hmem, ?_⟩
            exact Atom.isZero_word hM hl
          rw [← value_kept hM, value, if_pos hany]
          rfl
      | or =>
          have hfind : ((as.map (Atom.word M assign)).find? fun w => !M.isZero w) =
              some (l.word M assign) := by
            rw [List.find?_eq_some_iff_append, Atom.isZero_word hM hl]
            refine ⟨rfl, before.map (Atom.word M assign), behind.map (Atom.word M assign),
              by simp [has], ?_⟩
            intro w hw
            obtain ⟨a, ha, rfl⟩ := List.mem_map.1 hw
            rw [Atom.isZero_word hM (hbefore a ha)]
            rfl
          have hessential : essential .or as = as := rfl
          rw [hessential, value, hfind]
          rfl
  | empty hkept =>
      refine Or.inl ?_
      rw [← value_kept hM, hkept]
      cases c <;> rfl
  | single hkept =>
      rw [← value_kept hM, hkept, List.map_singleton, value_singleton]
      split
      · rename_i hzero
        exact Or.inr ⟨hzero, rfl⟩
      · exact Or.inl rfl

/-- Normalizing such a form is folding it. -/
theorem normalize_form (c : Connective) (as : List Atom) :
    ∃ t, normalize (c.form as) = .ok t ∧ c.Folds as t := by
  have hatoms : normalizeAll (as.map .atom) = .ok (as.map .atom) := by
    refine Term.normalizeAll_eq fun t ht => ?_
    obtain ⟨a, -, rfl⟩ := List.mem_map.1 ht
    exact Term.Normal.atom a
  have hnops : ∀ t ∈ as.map Term.atom, isNop access t = false := by
    intro t ht
    obtain ⟨a, -, rfl⟩ := List.mem_map.1 ht
    rfl
  refine ⟨_, ?_, c.folds_reduce as⟩
  rw [form, Term.normalize_operator (by rw [c.ofSymbol?_symbol]; rfl) hatoms hnops,
    c.afterFolding_eq]

end Connective
end RegisterLisp
