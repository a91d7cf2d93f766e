import RegisterLisp.Proofs.Lowering.Room
import RegisterLisp.Proofs.Simulation.Connectives
import RegisterLisp.Proofs.Simulation.Correctness

/-!
# The code of a folded `and` or `or`

Where the code of a form with atoms for operands can be generated, the code of the folded form can
be generated as well, since folding only leaves out code: it drops operands, or loads one of them
instead of testing it.  Both codes are then run from the same registers.  The first leaves the value
of the form; the second leaves the value of the folded form, which is the same but for an `and` that
ends in `true` and for zeros other than `0.0`.
-/

namespace RegisterLisp

open Machine Lowering Steps
open Term (normalize)

namespace Connective

variable {c : Connective} {operands : List (LowerM Source)} {as : List Atom}

/-! ## Generating the code -/

def code : Connective → List (LowerM Source) → LowerM Value
  | .and => conjunction
  | .or => disjunction

def test (c : Connective) (out : Reg) (failure success : Label) :
    LowerM Source → LowerM Unit :=
  match c with
  | .and => conjunct out failure
  | .or => disjunct out success

def finish (c : Connective) (out : Reg) (failure success : Label) : LowerM Value :=
  match c with
  | .and => emit .jump [.label success] >>= fun _ => shortCircuitEnd out failure success
  | .or => shortCircuitEnd out failure success

theorem code_nil (c : Connective) : c.code [] = load (.ofBool !c.decisive) := by
  cases c <;> rfl

/-- The code of a form with operands: two labels, the tests and the end. -/
theorem code_eq (h : operands ≠ []) :
    c.code operands = Lowering.withTemporary fun out =>
      newLabel "failure" >>= fun failure => newLabel "success" >>= fun success =>
        operands.forM (c.test out failure success) >>= fun _ => c.finish out failure success := by
  have hempty : operands.isEmpty = false := by simpa using h
  cases c with
  | and => simp only [code, conjunction, hempty, Bool.false_eq_true, if_false, test, finish]
  | or => simp only [code, disjunction, hempty, Bool.false_eq_true, if_false, test, finish]

/-- An operand is put into the temporary, and then a jump is written that depends on it. -/
theorem test_eq (c : Connective) (out : Reg) (failure success : Label) (operand : LowerM Source) :
    ∃ jump : Source → LowerM Unit, (∀ source, Plain (jump source)) ∧
      c.test out failure success operand =
        operand >>= fun source => putInto out source >>= fun _ => jump source := by
  cases c with
  | and =>
      refine ⟨_, ?_, rfl⟩
      rintro (i | (r | l))
      · exact Plain.emit _ _
      · exact Plain.emit _ _
      · exact Plain.sequential.pure _
  | or =>
      refine ⟨_, ?_, rfl⟩
      rintro (i | (r | l)) <;> exact Plain.emit _ _

/-- A test of an operand that only writes only writes. -/
theorem plain_test {out : Reg} {failure success : Label} {operand : LowerM Source}
    (h : Plain operand) : Plain (c.test out failure success operand) := by
  obtain ⟨jump, hjump, heq⟩ := c.test_eq out failure success operand
  rw [heq]
  exact Plain.sequential.bind h fun source =>
    Plain.sequential.bind (Plain.putInto out source) fun _ => hjump source

/-- Where the end of a form fits, returning its register does. -/
theorem fits_finish {out : Reg} {failure success : Label} :
    Fits (c.finish out failure success) (pure (.register out)) := by
  have hend : Fits (shortCircuitEnd out failure success) (pure (.register out)) :=
    Fits.skip (Plain.defineLabel _).onlyWrites fun _ =>
      Fits.skip (Plain.emit _ _).onlyWrites fun _ =>
        Fits.skip (Plain.defineLabel _).onlyWrites fun _ => Fits.pure _
  cases c with
  | and => exact Fits.skip (Plain.emit _ _).onlyWrites fun _ => hend
  | or => exact hend

/-- The zero of a form that fails can be loaded at once. -/
theorem fits_finish_zero {out : Reg} {failure success : Label} :
    Fits (c.finish out failure success)
      (emit .load [.register out, .immediate (.number 0.0)] >>= fun _ => pure (.register out)) := by
  have hend : Fits (shortCircuitEnd out failure success)
      (emit .load [.register out, .immediate (.number 0.0)] >>= fun _ => pure (.register out)) :=
    Fits.skip (Plain.defineLabel _).onlyWrites fun _ =>
      Fits.bind (Plain.emit _ _).fits fun _ =>
        Fits.skip (Plain.defineLabel _).onlyWrites fun _ => Fits.pure _
  cases c with
  | and => exact Fits.skip (Plain.emit _ _).onlyWrites fun _ => hend
  | or => exact hend

/-- Where a whole form can be generated a zero can be loaded. -/
theorem covers_zero (hne : operands ≠ []) (h : ∀ operand ∈ operands, Plain operand) :
    Covers (c.code operands) (load (.number 0.0)) := by
  rw [code_eq hne]
  refine Covers.withTemporary fun out => Covers.of_fits ?_
  refine Fits.skip (OnlyWrites.newLabel _) fun failure =>
    Fits.skip (OnlyWrites.newLabel _) fun success => Fits.skip ?_ fun _ => fits_finish_zero
  exact OnlyWrites.sequential.forM fun operand hmem => (plain_test (h operand hmem)).onlyWrites

/-- Each operand by itself can be put into a temporary. -/
theorem covers_operand {operand : LowerM Source} (h : ∀ operand ∈ operands, Plain operand)
    (hmem : operand ∈ operands) :
    Covers (c.code operands) (Lowering.withTemporary fun out =>
      operand >>= fun source => putInto out source >>= fun _ => pure (.register out)) := by
  rw [code_eq (List.ne_nil_of_mem hmem)]
  refine Covers.withTemporary fun out => Covers.of_fits ?_
  refine Fits.skip (OnlyWrites.newLabel _) fun failure =>
    Fits.skip (OnlyWrites.newLabel _) fun success => ?_
  have hloop : ∀ ops : List (LowerM Source), (∀ o ∈ ops, Plain o) →
      OnlyWrites (ops.forM (c.test out failure success)) := fun ops hops =>
    OnlyWrites.sequential.forM fun o ho => (plain_test (hops o ho)).onlyWrites
  -- The operands before it and behind it are left out, and so is the jump.
  obtain ⟨before, behind, rfl⟩ := List.append_of_mem hmem
  obtain ⟨jump, hjump, htest⟩ := c.test_eq out failure success operand
  rw [List.forM_eq_forM, List.forM_append, List.forM_cons, htest]
  simp only [bind_assoc]
  refine Fits.skip (hloop before fun o ho => h o (by simp [ho])) fun _ => ?_
  refine Fits.bind (h operand hmem).fits fun source =>
    Fits.bind (Plain.putInto out source).fits fun _ => ?_
  refine Fits.skip (hjump source).onlyWrites fun _ => ?_
  exact Fits.skip (hloop behind fun o ho => h o (by simp [ho])) fun _ => fits_finish

theorem plain_finish {out : Reg} {failure success : Label} :
    Plain (c.finish out failure success) := by
  have hend : Plain (shortCircuitEnd out failure success) :=
    Plain.sequential.bind (Plain.defineLabel _) fun _ =>
      Plain.sequential.bind (Plain.emit _ _) fun _ =>
        Plain.sequential.bind (Plain.defineLabel _) fun _ => Plain.sequential.pure _
  cases c with
  | and => exact Plain.sequential.bind (Plain.emit _ _) fun _ => hend
  | or => exact hend

/-- Where a form can be generated, one with fewer operands can. -/
theorem covers_filter {source : Atom → LowerM Source} (h : ∀ a, Plain (source a))
    {p : Atom → Bool} (hne : as.filter p ≠ []) :
    Covers (c.code (as.map source)) (c.code ((as.filter p).map source)) := by
  have hne' : as ≠ [] := by
    rintro rfl
    exact hne rfl
  rw [code_eq (by simpa using hne'), code_eq (by simpa using hne)]
  -- Both make the same labels first, and from there on they differ in the operands alone.
  refine Covers.withTemporary fun out => Covers.bind fun failure => Covers.bind fun success =>
    Covers.of_fits (Fits.bind ?_ fun _ => plain_finish.fits)
  rw [List.forM_eq_forM, List.forM_map, List.forM_map]
  exact Fits.forM_filter p (fun a _ => (plain_test (h a)).fits)
    fun a _ => (plain_test (h a)).onlyWrites

/-- The code of a form with atoms for operands. -/
theorem lower_form (c : Connective) (as : List Atom) :
    lower (c.form as) = c.code (as.map fun a => (Part.ofAtom a).source) := by
  have hsources : (Term.parts (as.map .atom)).map Part.source =
      as.map fun a => (Part.ofAtom a).source := by
    rw [Term.parts_eq_map, List.map_map, List.map_map]
    rfl
  rw [← hsources]
  cases c <;> rfl

/-- Atoms as operands only write. -/
theorem plain_sources (as : List Atom) :
    ∀ operand ∈ as.map fun a => (Part.ofAtom a).source, Plain operand := by
  intro operand hoperand
  obtain ⟨a, -, rfl⟩ := List.mem_map.1 hoperand
  exact Plain.source_ofAtom a

theorem lower_literal {a : Atom} {i : Immediate} (h : Immediate.ofAtom? a = some i) :
    lower (.atom a) = load i := by
  rw [lower, Term.part, Part.ofAtom]
  cases a <;> cases h <;> rw [lowerAtom]

/-- Where a form can be generated, each of its operands can. -/
theorem exists_lower_atom {a : Atom} {s s' : Lowering} {v : Value}
    (h : lower (c.form as) s = (.ok v, s')) (ha : a ∈ as) :
    ∃ v' s₁, lower (.atom a) s = (.ok v', s₁) := by
  rw [lower_form] at h
  obtain ⟨s₁, hput⟩ := covers_operand (plain_sources as) (List.mem_map_of_mem ha) s v s' h
  cases hi : Immediate.ofAtom? a with
  | some i =>
      have hsource : (Part.ofAtom a).source = pure (.constant i) := by
        simp [Part.source, Part.ofAtom, hi]
      simp only [hsource, pure_bind] at hput
      rw [lower_literal hi]
      exact ⟨v, s₁, hput⟩
  | none =>
      -- A symbol has no code, but it was looked up.
      cases a with
      | symbol name =>
          obtain ⟨out, s₂, s₃, haround, hbody, -⟩ := withTemporary_eq_ok hput
          obtain ⟨_, _, hsource, -⟩ := bind_eq_ok.1 hbody
          obtain ⟨value, _, hlookup, -⟩ := bind_eq_ok.1 hsource
          obtain ⟨hname, -⟩ := lookup_eq_ok.1 hlookup
          rw [haround.scopes] at hname
          exact ⟨value, s, lookup_eq_ok.2 ⟨hname, rfl⟩⟩
      | _ => cases hi

/-- Whatever becomes of a form by folding, its code can be generated where that of the form can. -/
theorem Folds.exists_lower {t : Term} (hfolds : c.Folds as t) {s s' : Lowering} {v : Value}
    (h : lower (c.form as) s = (.ok v, s')) : ∃ v' s₁, lower t s = (.ok v', s₁) := by
  cases hfolds with
  | @decided before behind l has _ _ =>
      have hl : l ∈ as := by simp [has]
      cases c with
      | or => exact exists_lower_atom h hl
      | and =>
          -- The zero that is loaded where the form fails.
          rw [lower_form] at h
          have hne : (as.map fun a => (Part.ofAtom a).source) ≠ [] := by simp [has]
          obtain ⟨s₁, hload⟩ := covers_zero hne (plain_sources as) s v s' h
          have hfalse : lower (.atom (.bool false)) = load (.number 0.0) := lower_literal rfl
          exact ⟨v, s₁, (congrFun hfalse s).trans hload⟩
  | empty hkept =>
      cases as with
      | nil =>
          rw [lower_form, List.map_nil, code_nil, ← @lower_literal (.bool !c.decisive) _ rfl] at h
          exact ⟨v, s', h⟩
      | cons a as =>
          have ha : a = .bool !c.decisive := by
            simpa using List.filter_eq_nil_iff.1 hkept a List.mem_cons_self
          exact exists_lower_atom h (ha ▸ List.mem_cons_self)
  | single hkept =>
      have ha := List.mem_of_mem_filter (hkept ▸ List.mem_singleton_self _)
      exact exists_lower_atom h ha
  | form hkept =>
      have hne : c.kept as ≠ [] := List.ne_nil_of_length_pos (by omega)
      rw [lower_form] at h ⊢
      obtain ⟨s₁, hkept⟩ := covers_filter Plain.source_ofAtom hne s v s' h
      exact ⟨v, s₁, hkept⟩

end Connective

/-! ## Evaluation -/

namespace Machine

variable {W : Type} {M : Machine W} {regs : Reg → W} {code : List Line} {scopes : Scopes}
  {calls calls' : List (Call W)} {assign : Symbol → W} {as : List Atom} {w : W}

/-- The visible symbols have the given words in a register file. -/
def Assigns (M : Machine W) (scopes : Scopes) (regs : Reg → W) (assign : Symbol → W) : Prop :=
  ∀ name v, scopes.lookup name false = some v → v.word M regs = assign name

/-- An atom has one value, given the words of the symbols. -/
theorem Evaluates.atom_eq (hassign : Assigns M scopes regs assign) {a : Atom}
    (h : Evaluates M regs code scopes calls (.atom a) w calls') : w = a.word M assign := by
  cases h with
  | literal h => exact (Atom.word_eq_constant h).symm
  | symbol h => exact hassign _ _ h

/-- An `and` of atoms has the value of its last operand, or zero if one of them is zero. -/
theorem EvaluatesAnd.atoms_eq (hassign : Assigns M scopes regs assign) {first : W}
    (h : EvaluatesAnd M regs code scopes calls first (as.map .atom) w calls') :
    w = if (as.map (Atom.word M assign)).any M.isZero then M.constant (.number 0.0)
      else (as.map (Atom.word M assign)).getLastD first := by
  induction as generalizing first calls with
  | nil =>
      cases h
      rfl
  | cons a as ih =>
      rw [List.map_cons, List.any_cons, List.getLastD_cons]
      cases h with
      | stop ha hzero =>
          obtain rfl := ha.atom_eq hassign
          rw [hzero]
          rfl
      | next ha hzero has =>
          obtain rfl := ha.atom_eq hassign
          rw [hzero, Bool.false_or]
          exact ih has

/-- An `or` of atoms has the value of the first operand that is not zero. -/
theorem EvaluatesOr.atoms_eq (hassign : Assigns M scopes regs assign)
    (h : EvaluatesOr M regs code scopes calls (as.map .atom) w calls') :
    w = Connective.value M .or (as.map (Atom.word M assign)) := by
  induction as generalizing calls with
  | nil =>
      cases h
      rfl
  | cons a as ih =>
      rw [List.map_cons, Connective.value_or_cons]
      cases h with
      | stop ha hzero =>
          obtain rfl := ha.atom_eq hassign
          rw [hzero]
          rfl
      | next ha hzero has =>
          obtain rfl := ha.atom_eq hassign
          rw [hzero]
          exact ih has

/-- Evaluation gives the value of a form. -/
theorem Evaluates.form_eq (hassign : Assigns M scopes regs assign) {c : Connective}
    (h : Evaluates M regs code scopes calls (c.form as) w calls') :
    w = c.value M (as.map (Atom.word M assign)) := by
  have hop := c.ofSymbol?_symbol
  cases h with
  | operator hs hand hor _ _ _ =>
      rw [hop] at hs
      cases hs
      cases c with
      | and => exact absurd rfl hand
      | or => exact absurd rfl hor
  | and hs hts =>
      rw [hop] at hs
      cases c with
      | and => exact hts.atoms_eq hassign
      | or => cases hs
  | or hs hts =>
      rw [hop] at hs
      cases c with
      | and => cases hs
      | or => exact hts.atoms_eq hassign
  | call hcallee _ _ =>
      have hnone := (hcallee.2 c.symbol rfl).2.2
      rw [hop] at hnone
      cases hnone

end Machine

/-! ## What the code leaves -/

namespace Lowering

variable {W : Type} {M : Machine W} {s s' : Lowering} {v : Value} {regs : Reg → W}
  {assign : Symbol → W}

/-- The code of a term can be generated, and wherever it stands, it leaves a word as the value of
the term. -/
def Leaves (M : Machine W) (s : Lowering) (t : Term) (regs : Reg → W) (w : W) : Prop :=
  ∃ v s' code, lower t s = (.ok v, s') ∧ s'.listing.lines = code.reverse ++ s.listing.lines ∧
    Embedded code 0 code ∧ ∀ whole start, Embedded whole start code → ∀ stack : List W,
      ∃ m, Reaches M whole ⟨regs, stack, start, []⟩ m ∧ m.pc = start + code.length ∧
        v.word M m.regs = w

/-- The code of an expression leaves what evaluation gives. -/
theorem leaves_of_evaluates {t : Term} {w : W} (ht : t.isExpression = true) (hs : s.BoundLive)
    (h : lower t s = (.ok v, s'))
    (hvalue : ∀ code w' calls, Evaluates M regs code s.scopes [] t w' calls → w' = w) :
    Leaves M s t regs w := by
  obtain ⟨code, hcode⟩ := t.emitting.code s v s' h
  refine ⟨v, s', code, h, hcode.lines, Embedded.self hcode.labels, ?_⟩
  intro whole start hembedded stack
  obtain ⟨code', hadded, hcomputes⟩ :=
    @Setting.simulates W (s.setting M whole regs) t ht s v s' hs.wellBound h
  -- `code` was fixed before the registers, the simulation brings its own.
  have hsame : code' = code := by
    have hlines : code'.reverse ++ s.listing.lines = code.reverse ++ s.listing.lines :=
      hadded.symm.trans hcode.lines
    exact List.reverse_injective (List.append_cancel_right hlines)
  rw [hsame] at hcomputes
  obtain ⟨calls, m, hevaluates, harrives⟩ := hcomputes start [] ⟨regs, stack, start, []⟩ hembedded
    ⟨rfl, fun _ _ => rfl, List.Forall₂.nil⟩
  exact ⟨m, harrives.reaches, harrives.ready.pc, hvalue whole _ calls hevaluates⟩

theorem leaves_atom {a : Atom} (hs : s.BoundLive) (hassign : Assigns M s.scopes regs assign)
    (h : lower (.atom a) s = (.ok v, s')) : Leaves M s (.atom a) regs (a.word M assign) :=
  leaves_of_evaluates rfl hs h fun _ _ _ hvalue => hvalue.atom_eq hassign

theorem isExpression_form (c : Connective) (as : List Atom) :
    (c.form as).isExpression = true := by
  have hatoms : Term.areExpressions (as.map .atom) = true := by
    induction as with
    | nil => rfl
    | cons a as ih => exact ih
  cases c <;> exact hatoms

/-- The code of a form of atoms leaves the value of the form. -/
theorem leaves_form {c : Connective} {as : List Atom} (hs : s.BoundLive)
    (hassign : Assigns M s.scopes regs assign) (h : lower (c.form as) s = (.ok v, s')) :
    Leaves M s (c.form as) regs (c.value M (as.map (Atom.word M assign))) :=
  leaves_of_evaluates (isExpression_form c as) hs h fun _ _ _ hvalue => hvalue.form_eq hassign

/-- Wherever the code of an `and` or `or` over atoms can be generated, it leaves the value of the
form, and the code of its normal form can be generated and leaves the value of the form up to its
essential operands: without literals `true` at the end of an `and`.  Only where the normal form is
an atom and the form fails, what is left is the word of this atom, which may be another zero than
`0.0`. -/
theorem folded_form_code_value (hM : M.Truthful) (c : Connective) (as : List Atom)
    (hs : s.BoundLive) (h : lower (c.form as) s = (.ok v, s')) :
    ∃ t, normalize (c.form as) = .ok t ∧
      ∀ regs assign, Assigns M s.scopes regs assign →
        Leaves M s (c.form as) regs (c.value M (as.map (Atom.word M assign))) ∧
        ∃ w, Leaves M s t regs w ∧
          (w = c.value M ((c.essential as).map (Atom.word M assign)) ∨
            ∃ a, t = .atom a ∧ w = a.word M assign ∧ M.isZero w = true ∧
              c.value M ((c.essential as).map (Atom.word M assign)) =
                M.constant (.number 0.0)) := by
  obtain ⟨t, hnormalize, hfolds⟩ := c.normalize_form as
  refine ⟨t, hnormalize, ?_⟩
  intro regs assign hassign
  refine ⟨leaves_form hs hassign h, ?_⟩
  obtain ⟨v', s₁, hlower⟩ := hfolds.exists_lower h
  cases t with
  | atom a =>
      refine ⟨a.word M assign, leaves_atom hs hassign hlower, ?_⟩
      exact (hfolds.word_atom hM).imp_right fun hzero => ⟨a, rfl, rfl, hzero⟩
  | list items =>
      cases hfolds with
      | form _ =>
          exact ⟨_, leaves_form hs hassign hlower, Or.inl (Connective.value_kept hM c)⟩
  | _ => cases hfolds

/-! ## Forms that end in `true` -/

/-- A machine whose words are constants, and one more word for all addresses.  It computes
nothing. -/
def constants : Machine (Option Immediate) where
  constant := some
  address _ := none
  binary _ w _ := w
  unary _ w := w
  negate w := w
  isZero
    | some (.number x) => x == 0.0
    | _ => false
  isZero_address _ := rfl
  result _ := none
  scratch _ _ := none

/-- On the machine of constants literals are zero as they should be. -/
theorem truthful_constants : constants.Truthful := by
  intro a i b hi hb
  cases a with
  | number x =>
      cases hi
      cases hb
      simp [constants, bne]
  | string text =>
      cases hi
      cases hb
      rfl
  | bool value =>
      cases hi
      cases hb
      cases b <;> decide +kernel
  | symbol name => cases hi

/-- The form `(and a 2 true)`. -/
def endingInTrue : Term :=
  Connective.form .and [.symbol ⟨"a"⟩, .number 2.0, .bool true]

theorem folded_form_code_value_endingInTrue :
    normalize endingInTrue = .ok (Connective.form .and [.symbol ⟨"a"⟩, .number 2.0]) ∧
      Leaves constants (insideSample ⟨4⟩) endingInTrue (fun _ => some (.number 3.0))
        (some (.number 1.0)) ∧
      Leaves constants (insideSample ⟨4⟩) (Connective.form .and [.symbol ⟨"a"⟩, .number 2.0])
        (fun _ => some (.number 3.0)) (some (.number 2.0)) := by
  have hnormalize : normalize endingInTrue =
      .ok (Connective.form .and [.symbol ⟨"a"⟩, .number 2.0]) := by
    decide +kernel
  have hok : (lower endingInTrue (insideSample ⟨4⟩)).1 = .ok (.register ⟨32⟩) := by
    decide +kernel
  obtain ⟨t, ht, hvalues⟩ := folded_form_code_value truthful_constants .and
    [.symbol ⟨"a"⟩, .number 2.0, .bool true] boundLive_insideSample (eq_ok_of_fst hok)
  obtain rfl := Except.ok.inj (ht.symm.trans hnormalize)
  have hassign : Assigns constants (insideSample ⟨4⟩).scopes (fun _ => some (.number 3.0))
      fun name => ((insideSample ⟨4⟩).scopes.lookup name false).bind
        (Value.word constants fun _ => some (.number 3.0)) := by
    intro name v hv
    simp [hv]
  obtain ⟨horiginal, w, hfolded, hw⟩ := hvalues _ _ hassign
  refine ⟨hnormalize, horiginal, ?_⟩
  rcases hw with rfl | ⟨a, ha, -⟩
  · exact hfolded
  · cases ha

theorem boundLive_empty : BoundLive {} := by
  intro name value hvalue
  cases hvalue

theorem assigns_empty {regs : Reg → W} {assign : Symbol → W} :
    Assigns M ({} : Lowering).scopes regs assign := by
  intro name v hv
  cases hv

/-- The value of a form and the value of its normal form may differ: `(and 2 true)` has the value
`1.0` and is folded to `2`, and `(or -0)` has the value `0.0` and is folded to `-0`. -/
theorem folded_form_value_differs :
    constants.Truthful ∧
      ∀ p ∈ [(Connective.and, [Atom.number 2.0, .bool true]), (.or, [.number (-0.0)])],
        ¬ ∀ t regs w w', normalize (p.1.form p.2) = .ok t →
          Leaves constants {} (p.1.form p.2) regs w → Leaves constants {} t regs w' → w = w' := by
  refine ⟨truthful_constants, ?_⟩
  have hleaves : ∀ (c : Connective) (as : List Atom) (a : Atom) {v v' : Value},
      (lower (c.form as) {}).1 = .ok v → (lower (.atom a) {}).1 = .ok v' →
        Leaves constants {} (c.form as) (fun _ => none)
          (c.value constants (as.map (Atom.word constants fun _ => none))) ∧
        Leaves constants {} (.atom a) (fun _ => none) (a.word constants fun _ => none) :=
    fun _ _ _ _ _ hform hatom =>
      ⟨leaves_form boundLive_empty assigns_empty (eq_ok_of_fst hform),
        leaves_atom boundLive_empty assigns_empty (eq_ok_of_fst hatom)⟩
  rintro p hp hequal
  simp only [List.mem_cons, List.not_mem_nil, or_false] at hp
  rcases hp with rfl | rfl
  · obtain ⟨hform, hatom⟩ := @hleaves .and [.number 2.0, .bool true] (.number 2.0) (.register ⟨32⟩)
      (.register ⟨32⟩) (by decide +kernel) (by decide +kernel)
    exact absurd (hequal _ _ _ _ (by decide +kernel) hform hatom) (by decide +kernel)
  · obtain ⟨hform, hatom⟩ := @hleaves .or [.number (-0.0)] (.number (-0.0)) (.register ⟨32⟩)
      (.register ⟨32⟩) (by decide +kernel) (by decide +kernel)
    exact absurd (hequal _ _ _ _ (by decide +kernel) hform hatom) (by decide +kernel)

end Lowering
end RegisterLisp
