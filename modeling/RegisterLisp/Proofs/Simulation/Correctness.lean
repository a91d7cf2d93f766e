import RegisterLisp.Proofs.Simulation.Calls

/-!
# The code of expressions is correct

Atoms and function literals complete the cases of an expression, and induction on the term puts
them together: the code of an expression computes its value, makes the calls of its evaluation in
the same order and with the same arguments, and leaves the registers alone that were live before.

The one exception is r3, which counts as live all the time: a call leaves its result there, and
nothing saves what was in it before.
-/

namespace RegisterLisp

open Machine Lowering Steps

/-- Embedded code can be read off the whole code. -/
theorem Machine.Embedded.isPrefix_drop {whole code : List Line} {start : Nat}
    (h : Embedded whole start code) : code <+: whole.drop start := by
  rw [List.prefix_iff_getElem?]
  intro i hi
  rw [List.getElem?_drop]
  exact h.line i _ (List.getElem?_eq_getElem hi)

namespace Setting

variable {W : Type} {E : Setting W}

/-! ## Atoms -/

/-- A literal is loaded into a temporary. -/
theorem simulates_literal {a : Atom} {i : Immediate} (hi : Immediate.ofAtom? a = some i)
    (hload : lowerAtom a = load i) : E.Simulates (.atom a) := by
  have hlowered : E.Lowered (lowerAtom a) (fun v regs => v.word E.machine regs)
      (E.meaning (.atom a)) := by
    rw [hload]
    refine (lowered_load i).imp ?_
    rintro scopes calls w calls' ⟨rfl, rfl⟩
    exact Evaluates.literal hi
  exact hlowered

/-- A symbol has no code: it stands for a label or for a register that holds a variable. -/
theorem simulates_symbol (name : Symbol) : E.Simulates (.atom (.symbol name)) := by
  intro s v s' hs hrun
  obtain ⟨_, _, hget, hrun⟩ := bind_eq_ok.1 hrun
  cases hget
  cases hname : s.scopes.lookup name false with
  | none =>
      rw [hname] at hrun
      cases hrun
  | some value =>
      rw [hname] at hrun
      cases hrun
      refine ⟨[], Added.refl s, ?_⟩
      intro start calls m _ hready
      have hword : v.word E.machine m.regs = v.word E.machine E.regs := by
        cases v with
        | label l => rfl
        | register r => exact hready.vars r (hs.bound name r hname)
      refine ⟨calls, m, ?_, Arrives.refl hready⟩
      change Evaluates _ _ _ _ _ _ (v.word E.machine m.regs) _
      rw [hword]
      exact Evaluates.symbol hname

/-- A symbol is read where it stands. -/
theorem simulates_atom (a : Atom) : E.Simulates (.atom a) := by
  cases a with
  | number x => exact simulates_literal rfl rfl
  | string text => exact simulates_literal rfl rfl
  | bool b => exact simulates_literal rfl rfl
  | symbol name => exact simulates_symbol name

/-! ## Function literals -/

/-- The code of a function literal jumps over the function, whose code stands at the label that is
the value of the literal. -/
theorem simulates_func (params : List Symbol) (body : List Term) :
    E.Simulates (.func params body) := by
  intro s v s' hs hrun
  obtain ⟨s₂, s₃, s₄, rfl, hjump, hfunction, hskip, rfl⟩ := localFunction_eq_ok hrun
  have hbody : EmitAll ((Term.parts body).map Part.code) body :=
    (Term.emitting (.func params body)).body params body rfl
  obtain ⟨_, s₅, hlabel, hrest⟩ := bind_eq_ok.1 hfunction
  have hlabelAdded := Added.of_wrote (wrote_of_defineLabel hlabel)
  obtain ⟨code, hcode⟩ := Emits.functionBody hbody _ _ _ hrest
  have hblock : Added _ s₃ s₄ := hlabelAdded.trans hcode.lines
  have hadded := ((Added.of_wrote hjump).trans hblock).trans (Added.of_wrote hskip)
  refine ⟨_, hadded, ?_⟩
  intro start calls m hembedded hready
  have hplace := hembedded.left.right.place 0 _ (.ofLocal "anonfunc" s.listing.nextLabel) rfl
    (Line.localLabel?_eq_some.2 ⟨rfl, Label.isLocal_ofLocal _ _⟩)
  have hskipPlace := hembedded.right.place 0 _ (.ofLocal "skip" (s.listing.nextLabel + 1)) rfl
    (Line.localLabel?_eq_some.2 ⟨rfl, Label.isLocal_ofLocal _ _⟩)
  have hfunctionCode : FunctionCode E.code s.scopes (.ofLocal "anonfunc" s.listing.nextLabel)
      params body :=
    ⟨_, _, s₃, s₄, hplace, hembedded.left.right.isPrefix_drop, hjump.scopes, hfunction, hblock⟩
  have hstart : E.Arrives s.registers.live m start calls m := Arrives.refl hready
  have hend := (hstart.jump hembedded.left.left hskipPlace).next hembedded.right rfl
  rw [List.length_append, ← Nat.add_assoc]
  exact ⟨calls, _, Evaluates.func hfunctionCode, hend⟩

/-! ## Lists -/

/-- Any form may head a call. -/
theorem isCallee_of_symbol?_eq_none {t : Term} (hsymbol : t.view.symbol? = none)
    (hliteral : t.view.isLiteral = false) : t.IsCallee := by
  refine ⟨hliteral, ?_⟩
  intro s hs
  rw [hsymbol] at hs
  cases hs

theorem isLiteral_part (t : Term) : t.part.isLiteral = t.view.isLiteral := by
  cases t <;> rfl

/-- A list is an operator form or a call, and both have been covered. -/
theorem simulates_list {items : List Term} (hnop : Term.isHeadedBy Symbol.nop items = false)
    (hdefine : Term.isHeadedBy Symbol.define items = false) (h : ∀ t ∈ items, E.Simulates t) :
    E.Simulates (.list items) := by
  cases items with
  | nil =>
      intro s v s' _ hrun
      cases hrun
  | cons head args =>
      have hhead : E.Simulates head := h head (by simp)
      have hargs : ∀ t ∈ args, E.Simulates t := fun t ht => h t (by simp [ht])
      have hsources : (Term.parts args).map Part.source = args.map fun t => t.part.source := by
        rw [Term.parts_eq_map, List.map_map]
        rfl
      intro s v s' hs hrun
      change lowerList _ (head.part :: Term.parts args) s = _ at hrun
      rw [lowerList, Term.symbol?_part, hsources] at hrun
      -- The head decides what the list is.
      cases hsymbol : head.view.symbol? with
      | none =>
          rw [hsymbol] at hrun
          dsimp only at hrun
          split at hrun
          · cases hrun
          · rename_i hliteral
            rw [isLiteral_part] at hliteral
            have hcallee := isCallee_of_symbol?_eq_none hsymbol (by simpa using hliteral)
            exact lowered_call hcallee hhead hargs s v s' hs hrun
      | some name =>
          rw [hsymbol] at hrun
          obtain rfl := Term.eq_symbol_of_view hsymbol
          rw [Term.isHeadedBy_cons_symbol] at hnop hdefine
          have hnop' : name ≠ Symbol.nop := by simpa using hnop
          have hdefine' : name ≠ Symbol.define := by simpa using hdefine
          dsimp only at hrun
          rw [if_neg hnop', if_neg hdefine'] at hrun
          cases hop : Operator.ofSymbol? name with
          | some op =>
              rw [hop] at hrun
              exact lowered_applyOperator hop hargs s v s' hs hrun
          | none =>
              rw [hop] at hrun
              have hcallee : Term.IsCallee (.atom (.symbol name)) := by
                refine ⟨rfl, ?_⟩
                intro name' hname'
                cases hname'
                exact ⟨hnop', hdefine', hop⟩
              exact lowered_call hcallee hhead hargs s v s' hs hrun

/-! ## Expressions -/

mutual

/-- The code of every expression computes its value, by the structure of the expression. -/
theorem simulates : ∀ t : Term, t.isExpression = true → E.Simulates t
  | .atom a, _ => simulates_atom a
  | .func params body, _ => simulates_func params body
  | .list items, h => by
      simp only [Term.isExpression, Bool.and_eq_true, Bool.not_eq_true'] at h
      exact simulates_list h.1.1 h.1.2 (simulates_of_mem items h.2)
  | .quoted _, h => by simp [Term.isExpression] at h
  | .typeDef _ _ _ _, h => by simp [Term.isExpression] at h

theorem simulates_of_mem :
    ∀ ts : List Term, Term.areExpressions ts = true → ∀ t ∈ ts, E.Simulates t
  | [], _, _, ht => nomatch ht
  | t :: ts, h, t', ht => by
      simp only [Term.areExpressions, Bool.and_eq_true] at h
      rcases List.mem_cons.1 ht with heq | ht
      · rw [heq]
        exact simulates t h.1
      · exact simulates_of_mem ts h.2 t' ht

end

end Setting

namespace Lowering

/-- Every visible symbol stands for a live argument register or for a label. -/
def BoundLive (s : Lowering) : Prop :=
  ∀ name value, s.scopes.lookup name false = some value →
    (∃ r, value = .register r ∧ r ∈ s.registers.live ∧
      r ∈ RegSet.arguments Reg.argumentCount) ∨ ∃ l, value = .label l

def setting {W : Type} (M : Machine W) (code : List Line) (regs : Reg → W) (s : Lowering) :
    Setting W where
  machine := M
  code := code
  regs := regs
  vars := s.registers.live.inter (RegSet.arguments Reg.argumentCount)
  argument := fun _ hr => (RegSet.mem_inter.1 hr).2

/-- Symbols that stand for live argument registers are well bound. -/
theorem BoundLive.wellBound {W : Type} {M : Machine W} {code : List Line} {regs : Reg → W}
    {s : Lowering} (h : s.BoundLive) : WellBound (s.setting M code regs) s := by
  refine ⟨?_, fun r hr => (RegSet.mem_inter.1 hr).1⟩
  intro name r hname
  rcases h name _ hname with ⟨q, hq, hlive, hargument⟩ | ⟨l, hl⟩
  · cases hq
    exact RegSet.mem_inter.2 ⟨hlive, hargument⟩
  · cases hl

/-- The code of an expression, wherever it stands, computes the value of the expression from any
register file.  It makes the calls that evaluation makes, in the same order, with the callee as
target and the arguments in r4, r5, ….  The registers that were live before, and r12 – r31, hold
what they held before, except that r3 may be changed by a call. -/
theorem expression_code_computes_value {W : Type} (M : Machine W) {t : Term}
    (ht : t.isExpression = true) {s s' : Lowering} {v : Value} (hs : s.BoundLive)
    (h : lower t s = (.ok v, s')) :
    ∃ code, s'.listing.lines = code.reverse ++ s.listing.lines ∧ Embedded code 0 code ∧
      ∀ whole start, Embedded whole start code → ∀ (regs : Reg → W) (stack : List W),
        ∃ w calls m, Evaluates M regs whole s.scopes [] t w calls ∧
          Reaches M whole ⟨regs, stack, start, []⟩ m ∧ m.pc = start + code.length ∧
          v.word M m.regs = w ∧ Matches m.calls calls ∧ m.stack = stack ∧
          ∀ r, r ∈ s.registers.live ∨ (12 ≤ r.index.val ∧ r.index.val < 32) →
            (r = Reg.result → calls = []) → m.regs r = regs r := by
  obtain ⟨code, hcode⟩ := t.emitting.code s v s' h
  refine ⟨code, hcode.lines, Embedded.self hcode.labels, ?_⟩
  intro whole start hembedded regs stack
  obtain ⟨code', hadded, hcomputes⟩ :=
    Setting.simulates (E := s.setting M whole regs) t ht s v s' hs.wellBound h
  -- The code that computes the value is the code that was added.
  have heq : code' = code := by
    have hlines : code'.reverse ++ s.listing.lines = code.reverse ++ s.listing.lines := by
      rw [← hcode.lines]
      exact hadded.symm
    exact List.reverse_injective (List.append_cancel_right hlines)
  rw [heq] at hcomputes
  obtain ⟨calls, m, hvalue, harrives⟩ := hcomputes start [] ⟨regs, stack, start, []⟩ hembedded
    ⟨rfl, fun _ _ => rfl, List.Forall₂.nil⟩
  refine ⟨_, calls, m, hvalue, harrives.reaches, harrives.ready.pc, rfl, harrives.ready.calls,
    harrives.kept.stack, ?_⟩
  intro r hr hresult
  by_cases hne : r = Reg.result
  · -- No call was made, so nothing was left in r3.
    have hcalls : m.calls = [] := by
      have hmatches := harrives.ready.calls
      rw [hresult hne] at hmatches
      exact List.forall₂_nil_right_iff.1 hmatches
    rw [hne]
    exact harrives.kept.result hcalls
  · exact harrives.kept.regs r hr hne

/-! ## A machine and an expression -/

/-- A machine on natural numbers that adds whatever the operator is, and whose calls answer with a
number that grows from call to call. -/
def adder : Machine Nat where
  constant
    | .number x => if x = 0.0 then 0 else 1
    | .string text => text.length
  address l := l.text.length + 1
  binary _ a b := a + b
  unary _ a := a
  negate a := a
  isZero a := a == 0
  isZero_address _ := rfl
  result n := n + 10
  scratch n _ := n

def insideSample (r : Reg) : Lowering where
  scopes :=
    { inner := [{ bindings := [(⟨"a"⟩, .register r)], boundary := true }]
      globals := [(⟨"f"⟩, .ofGlobal "f")] }
  registers := { live := RegSet.reserved.insert r }

/-- The expression `(and a (+ (f a 2) ((func (x) x) true)))`. -/
def sampleExpression : Term :=
  .list [.symbol ⟨"and"⟩, .symbol ⟨"a"⟩,
    .list [.symbol ⟨"+"⟩, .list [.symbol ⟨"f"⟩, .symbol ⟨"a"⟩, .atom (.number 2.0)],
      .list [.func [⟨"x"⟩] [.symbol ⟨"x"⟩], .atom (.bool true)]]]

theorem boundLive_insideSample : (insideSample ⟨4⟩).BoundLive := by
  intro name value hvalue
  by_cases ha : name = ⟨"a"⟩
  · rw [ha] at hvalue
    cases hvalue
    exact Or.inl ⟨⟨4⟩, rfl, by decide +kernel, by decide +kernel⟩
  · -- The scope of the function is a boundary, so only globals are left.
    have hlocal : Scopes.local? name false (insideSample ⟨4⟩).scopes.outermost
        (insideSample ⟨4⟩).scopes.inner = none := by
      have hbeq : (name == (⟨"a"⟩ : Symbol)) = false := by simpa using ha
      simp [Scopes.local?, insideSample, List.lookup_cons, hbeq]
    rw [Scopes.lookup, hlocal] at hvalue
    obtain ⟨l, -, rfl⟩ := Option.map_eq_some_iff.1 hvalue
    exact Or.inr ⟨l, rfl⟩

theorem expression_code_computes_value_sample :
    sampleExpression.isExpression = true ∧ (insideSample ⟨4⟩).BoundLive ∧
      (lower sampleExpression (insideSample ⟨4⟩)).1 = .ok (.register ⟨32⟩) ∧
      ∃ code w calls m, (lower sampleExpression (insideSample ⟨4⟩)).2.listing.lines = code.reverse ∧
        Evaluates adder (fun _ => 5) code (insideSample ⟨4⟩).scopes [] sampleExpression w calls ∧
        Reaches adder code ⟨fun _ => 5, [], 0, []⟩ m ∧ m.pc = code.length ∧ m.regs ⟨32⟩ = w ∧
        Matches m.calls calls ∧ m.regs ⟨4⟩ = 5 ∧ m.regs ⟨20⟩ = 5 := by
  have hexpression : sampleExpression.isExpression = true := by decide +kernel
  have hok : (lower sampleExpression (insideSample ⟨4⟩)).1 = .ok (.register ⟨32⟩) := by
    decide +kernel
  obtain ⟨code, hlines, hself, hruns⟩ :=
    expression_code_computes_value adder hexpression boundLive_insideSample (eq_ok_of_fst hok)
  obtain ⟨w, calls, m, hvalue, hreaches, hpc, hword, hmatches, -, hkept⟩ :=
    hruns code 0 hself (fun _ => 5) []
  rw [Nat.zero_add] at hpc
  refine ⟨hexpression, boundLive_insideSample, hok, code, w, calls, m, ?_, hvalue, hreaches, hpc,
    hword, hmatches, ?_, ?_⟩
  · rw [hlines]
    exact List.append_nil _
  · exact hkept ⟨4⟩ (Or.inl (by decide +kernel)) (fun heq => absurd heq (by decide))
  · exact hkept ⟨20⟩ (Or.inr (by decide)) (fun heq => absurd heq (by decide))

/-! ## The register of results -/

def outsideSample : Lowering where
  scopes := { globals := [(⟨"f"⟩, .ofGlobal "f")] }

theorem boundLive_outsideSample : outsideSample.BoundLive := by
  intro name value hvalue
  obtain ⟨l, -, rfl⟩ := Option.map_eq_some_iff.1 hvalue
  exact Or.inr ⟨l, rfl⟩

/-- Not every live register is left alone: r3 is live, and the code of `(f)` changes it. -/
theorem call_overwrites_live_result :
    ¬ ∀ (M : Machine Nat) (t : Term) (s s' : Lowering) (v : Value), t.isExpression = true →
      s.BoundLive → lower t s = (.ok v, s') →
      ∀ code, s'.listing.lines = code.reverse ++ s.listing.lines → ∀ regs : Reg → Nat,
        ∃ m, Reaches M code ⟨regs, [], 0, []⟩ m ∧ m.pc = code.length ∧
          ∀ r ∈ s.registers.live, m.regs r = regs r := by
  intro hall
  obtain ⟨m, hreaches, hpc, hkept⟩ := hall adder (.list [.symbol ⟨"f"⟩]) outsideSample
    (lower (.list [.symbol ⟨"f"⟩]) outsideSample).2 (.register Reg.result) (by decide +kernel)
    boundLive_outsideSample (eq_ok_of_fst (by decide +kernel))
    [⟨0, .instruction .call [.label (.ofGlobal "f")]⟩] (by decide +kernel) (fun _ => 0)
  have hresult : m.regs Reg.result = 0 := hkept Reg.result (by decide +kernel)
  -- The only run to the end makes the call, which leaves 10 in r3.
  rcases Relation.ReflTransGen.cases_head hreaches with heq | ⟨m₁, hstep, hrest⟩
  · rw [← heq] at hpc
    cases hpc
  · cases hstep
    rcases Relation.ReflTransGen.cases_head hrest with heq | ⟨m₂, hstep, -⟩
    · rw [← heq] at hresult
      exact absurd hresult (by decide)
    · cases hstep

end Lowering
end RegisterLisp
