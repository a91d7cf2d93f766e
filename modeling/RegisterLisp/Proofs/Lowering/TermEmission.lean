import RegisterLisp.Proofs.Lowering.Emission
import RegisterLisp.Proofs.Lowering.Forms

/-!
# What the code of terms adds

One lemma for every piece of code says which globals it declares if its parts declare theirs, and
that its local labels are fresh.  Two pieces define labels of their own: a short-circuit form and a
function literal.  By induction, the code of a term declares `Term.declared`.
-/

namespace RegisterLisp
namespace Lowering

open Steps

/-- Steps that declare what the terms at their places declare. -/
abbrev EmitAll {α : Type} (steps : List (LowerM α)) (ts : List Term) : Prop :=
  List.Forall₂ (fun step t => Emits t.declared step) steps ts

namespace Emits

variable {α : Type} {declared : Bindings Label}

/-- A loop over steps declares what the terms declare, in order. -/
theorem forM {f : LowerM α → LowerM PUnit}
    (hf : ∀ {step declared}, Emits declared step → Emits declared (f step)) :
    ∀ {steps : List (LowerM α)} {ts : List Term}, EmitAll steps ts →
      Emits (Term.declaredAll ts) (steps.forM f)
  | [], [], .nil => Emits.pure _
  | _ :: _, _ :: _, .cons h hs => by
      rw [Term.declaredAll]
      exact Emits.bind (hf h) fun _ => forM hf hs

/-! ## Operands and operators -/

/-- No instruction declares anything. -/
theorem putInto (out : Reg) (source : Source) : Emits [] (putInto out source) := by
  rcases source with i | (r | l)
  · exact Emits.emit _ _
  · change Emits [] (if r = out then _ else _)
    split
    · exact Emits.pure _
    · exact Emits.emit _ _
  · exact Emits.emit _ _

theorem load (i : Immediate) : Emits [] (load i) :=
  Emits.withTemporary fun _ => Emits.bind (Emits.emit _ _) fun _ => Emits.pure _

theorem lookup (name : Symbol) : Emits [] (lookup name) := by
  intro s a s' h
  obtain ⟨s₁, s₂, hget, h⟩ := bind_eq_ok.1 h
  cases hget
  cases hname : s.scopes.lookup name false with
  | none =>
      rw [hname] at h
      cases h
  | some value =>
      rw [hname] at h
      cases h
      exact ⟨[], Emission.refl s⟩

/-- Atoms declare nothing. -/
theorem lowerAtom (a : Atom) : Emits [] (lowerAtom a) := by
  cases a with
  | number x => exact load _
  | string s => exact load _
  | bool b => exact load _
  | symbol name => exact lookup name

theorem unary {opcode : Opcode} {operand : LowerM Source} (h : Emits declared operand) :
    Emits declared (unary opcode operand) := by
  refine Emits.withTemporary fun out => Emits.followed h fun source => ?_
  refine Emits.followed (putInto out source) fun _ => ?_
  exact Emits.followed (Emits.emit _ _) fun _ => Emits.pure _

theorem combineOne {op : Operator} {out : Reg} {operand : LowerM Source}
    (h : Emits declared operand) : Emits declared (combineOne op out operand) := by
  refine Emits.followed h fun source => ?_
  rcases source with i | (r | l)
  · exact Emits.emit _ _
  · exact Emits.emit _ _
  · exact Emits.throw _

/-- What the first operand declares comes before what the others declare. -/
theorem combineAll {op : Operator} {first : LowerM Source} {rest : List (LowerM Source)}
    {ts : List Term} (hfirst : Emits declared first) (hrest : EmitAll rest ts) :
    Emits (Term.declaredAll ts ++ declared) (combineAll op first rest) := by
  refine Emits.withTemporary fun out => Emits.bind hfirst fun source => ?_
  refine Emits.after (putInto out source) fun _ => ?_
  exact Emits.followed (forM combineOne hrest) fun _ => Emits.pure _

/-- An operand of `and` declares what its term declares. -/
theorem conjunct {out : Reg} {failure : Label} {operand : LowerM Source}
    (h : Emits declared operand) : Emits declared (conjunct out failure operand) := by
  refine Emits.followed h fun source => Emits.followed (putInto out source) fun _ => ?_
  rcases source with i | (r | l)
  · exact Emits.emit _ _
  · exact Emits.emit _ _
  · exact Emits.pure _

theorem disjunct {out : Reg} {success : Label} {operand : LowerM Source}
    (h : Emits declared operand) : Emits declared (disjunct out success operand) := by
  refine Emits.followed h fun source => Emits.followed (putInto out source) fun _ => ?_
  rcases source with i | (r | l)
  · exact Emits.emit _ _
  · exact Emits.emit _ _
  · exact Emits.emit _ _

end Emits

/-! ## Short-circuit forms -/

def shortCircuitLines (indent : Nat) (out : Reg) (failure success : Label) : List Line :=
  [⟨indent, .label failure⟩,
    ⟨indent, .instruction .load [.register out, .immediate (.number 0.0)]⟩,
    ⟨indent, .label success⟩]

/-- The lines at the end of a short circuit, exactly. -/
theorem shortCircuitEnd_eq_ok {out : Reg} {failure success : Label} {s s' : Lowering} {v : Value}
    (h : shortCircuitEnd out failure success s = (.ok v, s')) :
    v = .register out ∧ s'.scopes = s.scopes ∧ s'.listing.nextLabel = s.listing.nextLabel ∧
      s'.listing.lines =
        (shortCircuitLines s.listing.indent out failure success).reverse ++ s.listing.lines := by
  obtain ⟨_, s₁, h₁, h⟩ := bind_eq_ok.1 h
  obtain ⟨_, s₂, h₂, h⟩ := bind_eq_ok.1 h
  obtain ⟨_, s₃, h₃, h⟩ := bind_eq_ok.1 h
  cases h
  have w₁ := wrote_of_defineLabel h₁
  have w₂ := wrote_of_emit h₂
  have w₃ := wrote_of_defineLabel h₃
  refine ⟨rfl, ?_, ?_, ?_⟩
  · rw [w₃.scopes, w₂.scopes, w₁.scopes]
  · rw [w₃.nextLabel, w₂.nextLabel, w₁.nextLabel]
  · rw [w₃.lines, w₂.lines, w₁.lines, w₂.indent, w₁.indent]
    rfl

/-- The two labels of a short-circuit form come before those of its operands. -/
theorem Emission.shortCircuit {out : Reg} {failure success : Label} {s s₁ s₂ s₃ s' : Lowering}
    {v : Value} {declared : Bindings Label} {code : List Line}
    (hfailure : newLabel "failure" s = (.ok failure, s₁))
    (hsuccess : newLabel "success" s₁ = (.ok success, s₂))
    (hcode : Emission s₂ declared code s₃)
    (hend : shortCircuitEnd out failure success s₃ = (.ok v, s')) :
    Emission s declared
      (code ++ shortCircuitLines s₃.listing.indent out failure success) s' := by
  obtain ⟨rfl, rfl⟩ := newLabel_eq_ok hfailure
  obtain ⟨rfl, rfl⟩ := newLabel_eq_ok hsuccess
  obtain ⟨-, hscopes, hnext, hlines⟩ := shortCircuitEnd_eq_ok hend
  refine ⟨?_, ?_, ?_⟩
  · rw [hscopes, hcode.globals]
  · rw [hlines, hcode.lines, List.reverse_append, List.append_assoc]
  · rw [hnext]
    -- Without its two labels the code has those of its operands only.
    have hload : FreshLabels s₃.listing.nextLabel s₃.listing.nextLabel
        [⟨s₃.listing.indent, .instruction .load [.register out, .immediate (.number 0.0)]⟩] :=
      FreshLabels.of_no_labels (Nat.le_refl _) (by simp [Line.localLabel?])
    have hboth := hcode.labels.append hload
    rw [← List.append_nil (code ++ _)] at hboth
    have hsuccess := FreshLabels.insert "success" s₃.listing.indent _ _ hboth
    rw [List.append_assoc] at hsuccess
    exact FreshLabels.insert "failure" s₃.listing.indent _ _ hsuccess

/-- What stands at the place of a single step. -/
theorem forall₂_singleton {α β : Type} {R : α → β → Prop} {a : α} {bs : List β}
    (h : List.Forall₂ R [a] bs) : ∃ b, bs = [b] ∧ R a b := by
  cases h with
  | cons hab hs =>
      cases hs
      exact ⟨_, rfl, hab⟩

namespace Emits

variable {declared : Bindings Label}

/-- A whole `and` declares what its operands declare. -/
theorem conjunction {operands : List (LowerM Source)} {ts : List Term}
    (h : EmitAll operands ts) : Emits (Term.declaredAll ts) (conjunction operands) := by
  unfold Lowering.conjunction
  split
  · rename_i hempty
    cases h with
    | nil => exact load _
    | cons => simp at hempty
  · refine Emits.withTemporary fun out => ?_
    intro s v s' hs
    obtain ⟨failure, s₁, h₁, hs⟩ := bind_eq_ok.1 hs
    obtain ⟨success, s₂, h₂, hs⟩ := bind_eq_ok.1 hs
    obtain ⟨_, s₃, h₃, hs⟩ := bind_eq_ok.1 hs
    obtain ⟨_, s₄, h₄, hend⟩ := bind_eq_ok.1 hs
    obtain ⟨code, hcode⟩ := forM conjunct h _ _ _ h₃
    obtain ⟨code', hcode'⟩ := Emits.emit _ _ _ _ _ h₄
    exact ⟨_, Emission.shortCircuit h₁ h₂ (hcode.trans hcode') hend⟩

/-- So does a whole `or`. -/
theorem disjunction {operands : List (LowerM Source)} {ts : List Term}
    (h : EmitAll operands ts) : Emits (Term.declaredAll ts) (disjunction operands) := by
  unfold Lowering.disjunction
  split
  · rename_i hempty
    cases h with
    | nil => exact load _
    | cons => simp at hempty
  · refine Emits.withTemporary fun out => ?_
    intro s v s' hs
    obtain ⟨failure, s₁, h₁, hs⟩ := bind_eq_ok.1 hs
    obtain ⟨success, s₂, h₂, hs⟩ := bind_eq_ok.1 hs
    obtain ⟨_, s₃, h₃, hend⟩ := bind_eq_ok.1 hs
    obtain ⟨code, hcode⟩ := forM disjunct h _ _ _ h₃
    exact ⟨_, Emission.shortCircuit h₁ h₂ hcode hend⟩

/-- Every operator form declares what its operands declare. -/
theorem applyOperator {op : Operator} {operands : List (LowerM Source)} {ts : List Term}
    (h : EmitAll operands ts) : Emits (Term.declaredAll ts) (applyOperator op operands) := by
  have hcode := operatorCode_applyOperator op operands
  generalize Lowering.applyOperator op operands = code at hcode ⊢
  cases hcode with
  | conjunction _ => exact conjunction h
  | disjunction _ => exact disjunction h
  | negation _ =>
      obtain ⟨t, rfl, ht⟩ := forall₂_singleton h
      exact unary ht
  | unary _ _ =>
      obtain ⟨t, rfl, ht⟩ := forall₂_singleton h
      exact unary ht
  | combination _ _ _ _ _ =>
      cases h with
      | cons hfirst hrest => exact combineAll hfirst hrest
  | refusal _ => exact Emits.throw _

/-! ## Calls -/

/-- The arguments declare what their terms declare. -/
theorem passArguments :
    ∀ {args : List (LowerM Source)} {ts : List Term} {temps : List Reg}, EmitAll args ts →
      args.length ≤ temps.length → Emits (Term.declaredAll ts) (passArguments args temps)
  | [], [], _, .nil, _ => Emits.pure _
  | _ :: _, _ :: _, [], _, hlength => by simp at hlength
  | _ :: _, _ :: _, temp :: temps, .cons h hs, hlength => by
      rw [Term.declaredAll]
      refine Emits.bind h fun source => Emits.after (putInto temp source) fun _ => ?_
      exact passArguments hs (by simpa using hlength)

theorem placeArguments : ∀ (regs temps : List Reg), Emits [] (placeArguments regs temps)
  | [], _ => Emits.pure _
  | _ :: _, [] => Emits.pure _
  | _ :: regs, _ :: temps => Emits.followed (Emits.emit _ _) fun _ => placeArguments regs temps

theorem transfer (opcode : Opcode) (saved : RegSet) : Emits [] (transfer opcode saved) := by
  unfold Lowering.transfer
  split
  · exact Emits.pure _
  · exact Emits.emit _ _

/-- The call itself declares nothing. -/
theorem invoke (saved : RegSet) (target : Operand) (temps : List Reg) (count : Nat) :
    Emits [] (invoke saved target temps count) := by
  rw [invoke_eq]
  refine Emits.followed (transfer _ _) fun _ => ?_
  refine Emits.followed (Emits.withArguments fun regs => ?_) fun _ => ?_
  · exact Emits.followed (placeArguments regs temps) fun _ => Emits.emit _ _
  · exact Emits.followed (transfer _ _) fun _ => Emits.pure _

theorem callValue {saved : RegSet} {args : List (LowerM Source)} {ts : List Term} (v : Value)
    (hargs : EmitAll args ts) : Emits (Term.declaredAll ts) (callValue saved args v) := by
  intro s a s' h
  cases v with
  | label l =>
      rw [Lowering.callValue] at h
      obtain ⟨temps, s₁, s₂, haround, hbody, -, hlength, -⟩ := withTemporaries_eq_ok h
      obtain ⟨code, hcode⟩ := Emits.followed (passArguments hargs hlength.ge)
        (fun _ => invoke saved (.label l) temps args.length) _ _ _ hbody
      exact ⟨code, hcode.around haround⟩
  | register r =>
      rw [Lowering.callValue] at h
      obtain ⟨temps, s₁, s₂, haround, hbody, -, hlength, -⟩ := withTemporaries_eq_ok h
      cases temps with
      | nil => cases hlength
      | cons target temps =>
          have hle : args.length ≤ temps.length := (Nat.succ.inj hlength).ge
          obtain ⟨code, hcode⟩ := Emits.after (putInto target (.value (.register r)))
            (fun _ => Emits.followed (passArguments hargs hle)
              fun _ => invoke saved (.register target) temps args.length) _ _ _ hbody
          exact ⟨code, hcode.around haround⟩

/-- The callee is generated first, so its declarations are the oldest. -/
theorem call {callee : LowerM Value} {args : List (LowerM Source)} {ts : List Term}
    (hcallee : Emits declared callee) (hargs : EmitAll args ts) :
    Emits (Term.declaredAll ts ++ declared) (call callee args) := by
  rw [call_eq]
  split
  · exact Emits.throw _
  · intro s a s' h
    obtain ⟨_, _, hget, h⟩ := bind_eq_ok.1 h
    cases hget
    exact Emits.bind hcallee (fun v => callValue v hargs) _ _ _ h

/-! ## Functions -/

/-- Forms in sequence declare one after the other. -/
theorem inSequence :
    ∀ {steps : List (LowerM Value)} {ts : List Term} {value : Value}, EmitAll steps ts →
      Emits (Term.declaredAll ts) (inSequence value steps)
  | [], [], _, .nil => Emits.pure _
  | _ :: _, _ :: _, _, .cons h hs => by
      rw [Term.declaredAll]
      exact Emits.bind h fun _ => inSequence hs

end Emits

def functionBody (label : Label) (f : Function) : LowerM Unit :=
  tell ⟨.info, .lowering, Thunk.mk fun _ =>
    "generating function " ++ label.text ++ "/" ++ toString f.params.length⟩ >>= fun _ =>
  insideFunction (withArguments f.params.length fun args =>
    bindParams f.params args >>= fun _ =>
    inSequence (.register Reg.result) f.body >>= fun result =>
    emit .ret [Operand.ofValue result] >>= fun _ =>
    comment ("end of function " ++ label.text))

/-- A function is its label and the rest. -/
theorem functionAt_eq (label : Label) (f : Function) :
    functionAt label f = defineLabel label >>= fun _ => functionBody label f :=
  rfl

namespace Emits

/-- A body declares globals, which are seen outside of the function. -/
theorem functionBody {label : Label} {f : Function} {ts : List Term} (h : EmitAll f.body ts) :
    Emits (Term.declaredAll ts) (functionBody label f) := by
  refine Emits.after (Emits.tell _) fun _ => ?_
  refine Emits.insideFunction (Emits.withArguments fun args => ?_)
  refine Emits.after (Emits.bindParams _ _) fun _ => ?_
  refine Emits.followed (inSequence h) fun result => ?_
  exact Emits.followed (Emits.emit _ _) fun _ => Emits.comment _

/-- The code of a function at a global label. -/
theorem functionAt {name : String} {f : Function} {ts : List Term} (h : EmitAll f.body ts) :
    Emits (Term.declaredAll ts) (functionAt (.ofGlobal name) f) := by
  rw [functionAt_eq]
  refine Emits.after ?_ fun _ => functionBody h
  intro s u s' hs
  refine ⟨_, Emission.of_wrote (wrote_of_defineLabel hs) ?_⟩
  simp [Line.localLabel?]

end Emits

/-- The code of a function literal: a jump over the function, the function, and the place behind it.
The two labels come before those of the body. -/
theorem localFunction_eq_ok {f : Function} {s s' : Lowering} {v : Value}
    (h : localFunction f s = (.ok v, s')) :
    ∃ s₂ s₃ s₄,
      s₂ = { s with listing := { s.listing with nextLabel := s.listing.nextLabel + 2 } } ∧
      Wrote (.instruction .jump [.label (.ofLocal "skip" (s.listing.nextLabel + 1))]) s₂ s₃ ∧
      functionAt (.ofLocal "anonfunc" s.listing.nextLabel) f s₃ = (.ok (), s₄) ∧
      Wrote (.label (.ofLocal "skip" (s.listing.nextLabel + 1))) s₄ s' ∧
      v = .label (.ofLocal "anonfunc" s.listing.nextLabel) := by
  obtain ⟨label, s₁, h₁, h⟩ := bind_eq_ok.1 h
  obtain ⟨skip, s₂, h₂, h⟩ := bind_eq_ok.1 h
  obtain ⟨_, s₃, h₃, h⟩ := bind_eq_ok.1 h
  obtain ⟨_, s₄, h₄, h⟩ := bind_eq_ok.1 h
  obtain ⟨_, s₅, h₅, h⟩ := bind_eq_ok.1 h
  cases h
  obtain ⟨rfl, rfl⟩ := newLabel_eq_ok h₁
  obtain ⟨rfl, rfl⟩ := newLabel_eq_ok h₂
  exact ⟨_, s₃, s₄, rfl, wrote_of_emit h₃, h₄, wrote_of_defineLabel h₅, rfl⟩

/-- The code of a function literal: a jump over the function, and the function itself.  Its labels
have the numbers `n` and `n + 1`. -/
def literalLines (n before start behind : Nat) (body : List Line) : List Line :=
  [⟨before, .instruction .jump [.label (.ofLocal "skip" (n + 1))]⟩] ++
    ⟨start, .label (.ofLocal "anonfunc" n)⟩ ::
      (body ++ [⟨behind, .label (.ofLocal "skip" (n + 1))⟩])

/-- The two labels of a function literal come before those of its body. -/
theorem Emission.localFunction {s s₃ s₄ s₅ s' : Lowering} {declared : Bindings Label}
    {code : List Line}
    (hjump : Wrote (.instruction .jump [.label (.ofLocal "skip" (s.listing.nextLabel + 1))])
      { s with listing := { s.listing with nextLabel := s.listing.nextLabel + 2 } } s₃)
    (hlabel : Wrote (.label (.ofLocal "anonfunc" s.listing.nextLabel)) s₃ s₅)
    (hcode : Emission s₅ declared code s₄)
    (hskip : Wrote (.label (.ofLocal "skip" (s.listing.nextLabel + 1))) s₄ s') :
    Emission s declared (literalLines s.listing.nextLabel s.listing.indent s₃.listing.indent
      s₄.listing.indent code) s' := by
  refine ⟨?_, ?_, ?_⟩
  · rw [hskip.scopes, hcode.globals, hlabel.scopes, hjump.scopes]
  · rw [hskip.lines, hcode.lines, hlabel.lines, hjump.lines]
    simp [literalLines]
  · -- The labels of the body, then the label behind it, then the one before it.
    have hfresh : FreshLabels (s.listing.nextLabel + 2) s'.listing.nextLabel code := by
      have hfresh := hcode.labels
      rwa [hlabel.nextLabel, hjump.nextLabel, ← hskip.nextLabel] at hfresh
    have hjumpLine : FreshLabels (s.listing.nextLabel + 2) (s.listing.nextLabel + 2)
        [⟨s.listing.indent,
          .instruction .jump [.label (.ofLocal "skip" (s.listing.nextLabel + 1))]⟩] :=
      FreshLabels.of_no_labels (Nat.le_refl _) (by simp [Line.localLabel?])
    have hboth := hjumpLine.append hfresh
    rw [← List.append_nil (_ ++ code)] at hboth
    have hbehind := FreshLabels.insert "skip" s₄.listing.indent _ _ hboth
    rw [List.append_assoc] at hbehind
    exact FreshLabels.insert "anonfunc" s₃.listing.indent _ _ hbehind

namespace Emits

/-- A literal has no name, so it declares what its body declares. -/
theorem localFunction {f : Function} {ts : List Term} (h : EmitAll f.body ts) :
    Emits (Term.declaredAll ts) (localFunction f) := by
  intro s v s' hs
  obtain ⟨s₂, s₃, s₄, rfl, hjump, hfunction, hskip, -⟩ := localFunction_eq_ok hs
  rw [functionAt_eq] at hfunction
  obtain ⟨_, s₅, hlabel, hbody⟩ := bind_eq_ok.1 hfunction
  obtain ⟨code, hcode⟩ := functionBody h _ _ _ hbody
  exact ⟨_, Emission.localFunction hjump (wrote_of_defineLabel hlabel) hcode hskip⟩

end Emits
end Lowering

/-! ## Terms -/

namespace Term

open Lowering

/-- Lowering sees the same symbols as the term has. -/
theorem symbol?_part (t : Term) : t.part.symbol? = t.view.symbol? := by
  cases t <;> rfl

/-- Only a function literal is seen as a function. -/
theorem eq_func_of_function? {t : Term} {f : Function} (h : t.part.function? = some f) :
    ∃ params body, t = .func params body ∧ f = ⟨params, (parts body).map Part.code⟩ := by
  cases t with
  | func params body =>
      cases h
      exact ⟨params, body, rfl, rfl⟩
  | atom a => cases h
  | list items => cases h
  | quoted inner => cases h
  | typeDef name fields ctor methods => cases h

/-- An operand declares what its term declares. -/
theorem emits_source {t : Term} (h : Emits t.declared t.part.code) :
    Emits t.declared t.part.source := by
  unfold Part.source
  cases hi : t.part.atom?.bind Immediate.ofAtom? with
  | none => exact Emits.followed h fun _ => Emits.pure _
  | some i =>
      cases t with
      | atom a => exact Emits.pure _
      | _ => cases hi

/-- A term whose code declares what the term declares, and whose body does so if it is a function
literal. -/
structure Emitting (t : Term) : Prop where
  code : Emits t.declared t.part.code
  body : ∀ params body, t = .func params body → EmitAll ((parts body).map Part.code) body

/-- Terms that declare what they say do so together. -/
theorem emitAll_code {ts : List Term} (h : ∀ t ∈ ts, t.Emitting) :
    EmitAll ((parts ts).map Part.code) ts := by
  rw [parts_eq_map, List.map_map, EmitAll, List.forall₂_map_left_iff, List.forall₂_same]
  exact fun t ht => (h t ht).code

theorem emitAll_source {ts : List Term} (h : ∀ t ∈ ts, t.Emitting) :
    EmitAll ((parts ts).map Part.source) ts := by
  rw [parts_eq_map, List.map_map, EmitAll, List.forall₂_map_left_iff, List.forall₂_same]
  exact fun t ht => emits_source (h t ht).code

/-- The code of a function literal that stands at a global label. -/
theorem Emitting.function {t : Term} (h : t.Emitting) {f : Function}
    (hf : t.part.function? = some f) (name : String) :
    Emits t.declared (functionAt (.ofGlobal name) f) := by
  obtain ⟨params, body, rfl, rfl⟩ := eq_func_of_function? hf
  rw [declared]
  exact Emits.functionAt (h.body params body rfl)

/-- A constructor or method declares what is in it; its name is declared by the type. -/
theorem Emitting.member {t : Term} (h : t.Emitting) (name : String) :
    Emits t.declared (member (.ofGlobal name) t.part) := by
  unfold Lowering.member
  cases hf : t.part.function? with
  | none => exact Emits.unsupported _
  | some f => exact h.function hf name

theorem emits_methodNames (type : Symbol) (methods : List (Symbol × Term)) :
    Emits (methodNames type methods) ((methodParts methods).forM fun (m, _) =>
      bindGlobal (Symbol.method type m) (methodLabel type m)) := by
  induction methods with
  | nil => exact Emits.pure _
  | cons method methods ih =>
      rcases method with ⟨m, t⟩
      -- Names are bound in order, so the latest one comes first.
      have hnames : methodNames type ((m, t) :: methods)
          = methodNames type methods ++ [(Symbol.method type m, methodLabel type m)] := by
        simp [methodNames]
      rw [hnames]
      exact Emits.bind (Emits.bindGlobal _ _) fun _ => ih

theorem emits_methods (type : Symbol) :
    ∀ {methods : List (Symbol × Term)}, (∀ m ∈ methods, m.2.Emitting) →
      Emits (declaredMethods methods)
        ((methodParts methods).forM fun (m, code) => Lowering.member (methodLabel type m) code)
  | [], _ => Emits.pure _
  | (m, t) :: methods, h => by
      have ht : t.Emitting := h (m, t) (by simp)
      rw [declaredMethods]
      exact Emits.bind (ht.member _) fun _ => emits_methods type fun m' hm' => h m' (by simp [hm'])

/-- A type declares its name, the names of its methods and then what is in them. -/
theorem emits_defineType {name : Symbol} {ctor : Term} {methods : List (Symbol × Term)}
    (hctor : ctor.Emitting) (hmethods : ∀ m ∈ methods, m.2.Emitting) :
    Emits (declaredMethods methods ++ ctor.declared ++ methodNames name methods
      ++ [(name, .ofGlobal name.name)]) (defineType name ctor.part (methodParts methods)) := by
  refine Emits.bind (Emits.bindGlobal _ _) fun _ => ?_
  refine Emits.bind (emits_methodNames name methods) fun _ => ?_
  refine Emits.bind (hctor.member _) fun _ => ?_
  exact Emits.followed (emits_methods name hmethods) fun _ => Emits.pure _

/-! ### Lists -/

theorem isHeadedBy_cons_symbol (s head : Symbol) (args : List Term) :
    isHeadedBy s (.atom (.symbol head) :: args) = decide (head = s) := by
  simp [isHeadedBy, view, View.symbol?, View.atom?, Atom.symbol?, beq_eq_decide]

theorem isHeadedBy_cons_of_none (s : Symbol) {head : Term} (args : List Term)
    (h : head.view.symbol? = none) : isHeadedBy s (head :: args) = false := by
  simp [isHeadedBy, h]

/-- A list that is not headed by `define` names nothing. -/
theorem definedName_eq_nil {items : List Term} (h : isHeadedBy Symbol.define items = false) :
    definedName items = [] := by
  unfold definedName
  split
  · split
    · rw [h]
      rfl
    · rfl
  · rfl

/-- A definition declares its name, and then what its body declares. -/
theorem emits_lowerDefine {text : Thunk String} {args : List Term} (h : ∀ t ∈ args, t.Emitting) :
    Emits (declaredAll args ++ definedName (.atom (.symbol Symbol.define) :: args))
      (lowerDefine text (parts args)) := by
  match args with
  | [] => exact Emits.unsupported _
  | [_] => exact Emits.unsupported _
  | _ :: _ :: _ :: _ => exact Emits.unsupported _
  | [name, value] =>
      have hvalue : value.Emitting := h value (by simp)
      have hparts : parts [name, value] = [name.part, value.part] := rfl
      rw [hparts, lowerDefine, symbol?_part]
      cases hname : name.view.symbol? with
      | none => exact Emits.unsupported _
      | some s =>
          cases hf : value.part.function? with
          | none => exact Emits.unsupported _
          | some f =>
              -- The name is bound first, so the globals of the body come before it in the list.
              have hdeclared : declaredAll [name, value]
                  ++ definedName [.atom (.symbol Symbol.define), name, value]
                  = value.declared ++ [(s, .ofGlobal s.name)] := by
                rw [eq_symbol_of_view hname]
                simp [declaredAll, declared, definedName, isHeadedBy_cons_symbol, view,
                  View.symbol?, View.atom?, Atom.symbol?]
              rw [hdeclared]
              refine Emits.bind (Emits.bindGlobal _ _) fun _ => ?_
              exact Emits.followed (hvalue.function hf s.name) fun _ => Emits.pure _

/-- A list declares what it says, for each of the heads it may have. -/
theorem emits_lowerList {text : Thunk String} {items : List Term} (h : ∀ t ∈ items, t.Emitting) :
    Emits (declared (.list items)) (lowerList text (parts items)) := by
  rw [declared]
  cases items with
  | nil => exact Emits.unsupported _
  | cons head args =>
      have hhead : head.Emitting := h head (by simp)
      have hargs : ∀ t ∈ args, t.Emitting := fun t ht => h t (by simp [ht])
      have hsources := emitAll_source hargs
      rw [parts, Lowering.lowerList, symbol?_part]
      cases hsymbol : head.view.symbol? with
      | none =>
          have hnop := isHeadedBy_cons_of_none Symbol.nop args hsymbol
          have hdefine := isHeadedBy_cons_of_none Symbol.define args hsymbol
          rw [hnop, if_neg Bool.false_ne_true, definedName_eq_nil hdefine, List.append_nil,
            declaredAll]
          dsimp only
          -- A literal cannot be called.
          split
          · exact Emits.unsupported _
          · exact Emits.call hhead.code hsources
      | some s =>
          obtain rfl := eq_symbol_of_view hsymbol
          rw [isHeadedBy_cons_symbol, declaredAll, declared, List.append_nil]
          dsimp only
          by_cases hnop : s = Symbol.nop
          · rw [if_pos hnop, if_pos (by simpa using hnop)]
            exact Emits.pure _
          · rw [if_neg hnop, if_neg (by simpa using hnop)]
            by_cases hdefine : s = Symbol.define
            · rw [if_pos hdefine, hdefine]
              exact emits_lowerDefine hargs
            · have hnone : definedName (.atom (.symbol s) :: args) = [] :=
                definedName_eq_nil (by rw [isHeadedBy_cons_symbol]; simpa using hdefine)
              rw [if_neg hdefine, hnone, List.append_nil]
              split
              · exact Emits.applyOperator hsources
              · have hcall := Emits.call hhead.code hsources
                rwa [declared, List.append_nil] at hcall

/-! ### All terms -/

mutual

/-- Every term declares what it says, by its structure. -/
theorem emitting : ∀ t : Term, t.Emitting
  | .atom a => ⟨by rw [declared]; exact Emits.lowerAtom a, fun _ _ h => nomatch h⟩
  | .list items => ⟨emits_lowerList (emitting_of_mem items), fun _ _ h => nomatch h⟩
  | .quoted inner => ⟨Emits.unsupported _, fun _ _ h => nomatch h⟩
  | .func params body => by
      have hbody : EmitAll ((parts body).map Part.code) body :=
        emitAll_code (emitting_of_mem body)
      refine ⟨?_, ?_⟩
      · rw [declared]
        exact Emits.localFunction hbody
      · intro params' body' heq
        cases heq
        exact hbody
  | .typeDef name fields ctor methods => by
      refine ⟨?_, fun _ _ h => nomatch h⟩
      rw [declared]
      exact emits_defineType (emitting ctor) (emitting_of_mem_methods methods)

theorem emitting_of_mem : ∀ (ts : List Term), ∀ t ∈ ts, t.Emitting
  | [], _, ht => nomatch ht
  | t :: ts, t', ht => by
      rcases List.mem_cons.1 ht with heq | ht
      · rw [heq]
        exact emitting t
      · exact emitting_of_mem ts t' ht

theorem emitting_of_mem_methods :
    ∀ (ms : List (Symbol × Term)), ∀ m ∈ ms, m.2.Emitting
  | [], _, hm => nomatch hm
  | (_, t) :: ms, m, hm => by
      rcases List.mem_cons.1 hm with rfl | hm
      · exact emitting t
      · exact emitting_of_mem_methods ms m hm

end

end Term
end RegisterLisp
