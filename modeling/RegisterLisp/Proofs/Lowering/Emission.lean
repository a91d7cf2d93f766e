import RegisterLisp.Proofs.Lowering.Labels
import RegisterLisp.Proofs.Lowering.Steps
import RegisterLisp.Proofs.Register.Sets

/-!
# What successful lowering adds

A step that succeeds has appended some code to the listing and declared some globals.  Which globals
these are can be read off the term: `Term.declared`.  The local labels of the code are numbered from
the label counter before the step up to the counter after it, each number once.

`Lowering.Emission s declared code s'` states all of this about one step, and `Lowering.Emits` about
every run of a step that succeeds.
-/

namespace RegisterLisp

/-! ## Globals that a term declares -/

namespace Term

def isHeadedBy (s : Symbol) (items : List Term) : Bool :=
  items.head?.any fun head => head.view.symbol? == some s

/-- The name that a list headed by `define` gives to a global function. -/
def definedName (items : List Term) : Bindings Label :=
  match items with
  | [_, name, _] =>
      match name.view.symbol? with
      | some name => if isHeadedBy Symbol.define items then [(name, .ofGlobal name.name)] else []
      | none => []
  | _ => []

def methodNames (type : Symbol) (methods : List (Symbol × Term)) : Bindings Label :=
  (methods.map fun (m, _) => (Symbol.method type m, Lowering.methodLabel type m)).reverse

mutual

/-- The globals that the code of a term declares, latest first.  A definition inside a function
literal is seen by all that follows, also outside of the literal. -/
def declared : Term → Bindings Label
  | .atom _ => []
  | .quoted _ => []
  | .func _ body => declaredAll body
  | .list items =>
      if isHeadedBy Symbol.nop items then [] else declaredAll items ++ definedName items
  | .typeDef name _ ctor methods =>
      declaredMethods methods ++ declared ctor ++ methodNames name methods
        ++ [(name, .ofGlobal name.name)]

def declaredAll : List Term → Bindings Label
  | [] => []
  | t :: ts => declaredAll ts ++ declared t

def declaredMethods : List (Symbol × Term) → Bindings Label
  | [] => []
  | (_, t) :: ms => declaredMethods ms ++ declared t

end

end Term

def Scopes.declare (s : Scopes) (new : Bindings Label) : Scopes :=
  { s with globals := new ++ s.globals }

@[simp]
theorem Scopes.declare_nil (s : Scopes) : s.declare [] = s :=
  rfl

/-- Globals are declared one after the other, the latest first. -/
theorem Scopes.declare_append (s : Scopes) (new new' : Bindings Label) :
    s.declare (new' ++ new) = (s.declare new).declare new' := by
  simp [declare]

/-! ## Writing comments -/

def Line.isComment (line : Line) : Bool :=
  match line.statement with
  | .comment _ | .commentStart | .commentLine _ | .commentEnd => true
  | _ => false

/-- A comment uses no label. -/
theorem Line.localLabel?_of_isComment {line : Line} (h : line.isComment = true) :
    line.localLabel? = none := by
  unfold isComment at h
  unfold localLabel?
  cases hstatement : line.statement <;> simp_all

namespace Listing

open Steps

/-- A step of writing that, if it succeeds, adds lines with a property and uses no label. -/
def Adds (p : Line → Prop) {α : Type} (step : WriteM α) : Prop :=
  ∀ l a l', step l = (.ok a, l') →
    l'.nextLabel = l.nextLabel ∧
      ∃ code : List Line, l'.lines = code.reverse ++ l.lines ∧ ∀ line ∈ code, p line

namespace Adds

variable {p : Line → Prop}

/-- A statement that is written is the one line that is added. -/
theorem write {statement : Statement} (h : ∀ indent, p ⟨indent, statement⟩) :
    Adds p (write statement) := by
  intro l _ l' hl
  obtain ⟨hlines, -, hnext⟩ := write_eq_ok hl
  exact ⟨hnext, [⟨l.indent, statement⟩], hlines, by simpa using h l.indent⟩

theorem bind {α β : Type} {x : WriteM α} {f : α → WriteM β} (hx : Adds p x)
    (hf : ∀ a, Adds p (f a)) : Adds p (x >>= f) := by
  intro l b l' h
  obtain ⟨a, l₁, h₁, h₂⟩ := bind_eq_ok.1 h
  obtain ⟨hnext, code, hlines, hcode⟩ := hx l a l₁ h₁
  obtain ⟨hnext', code', hlines', hcode'⟩ := hf a l₁ b l' h₂
  -- The lines of a listing are kept last first.
  refine ⟨hnext'.trans hnext, code ++ code', ?_, ?_⟩
  · rw [hlines', hlines, List.reverse_append, List.append_assoc]
  · intro line hline
    exact (List.mem_append.1 hline).elim (hcode line) (hcode' line)

theorem forM {γ : Type} {f : γ → WriteM PUnit} (hf : ∀ x, Adds p (f x)) :
    ∀ xs : List γ, Adds p (xs.forM f)
  | [] => by
      intro l _ l' h
      cases h
      exact ⟨rfl, [], rfl, by simp⟩
  | x :: xs => Adds.bind (hf x) fun _ => forM hf xs

theorem indented {α : Type} {step : WriteM α} (h : Adds p step) : Adds p (indented step) := by
  intro l a l' hl
  rcases hstep : step l.increaseIndent with ⟨r, l₁⟩
  unfold Listing.indented at hl
  rw [hstep] at hl
  cases hl
  exact h l.increaseIndent a l₁ hstep

/-- All lines of a comment are comments. -/
theorem comment (text : String) : Adds (fun line => line.isComment = true) (comment text) := by
  unfold Listing.comment
  split
  · refine Adds.bind (Adds.write fun _ => rfl) fun _ => ?_
    refine Adds.bind (Adds.indented ?_) fun _ => Adds.write fun _ => rfl
    exact Adds.forM (fun _ => Adds.write fun _ => rfl) _
  · exact Adds.write fun _ => rfl

end Adds
end Listing

namespace Lowering

open Steps

/-! ## What primitive steps have done -/

/-- The states around a statement that was written. -/
structure Wrote (statement : Statement) (s s' : Lowering) : Prop where
  scopes : s'.scopes = s.scopes
  registers : s'.registers = s.registers
  lines : s'.listing.lines = ⟨s.listing.indent, statement⟩ :: s.listing.lines
  indent : s'.listing.indent = s.listing.indent
  nextLabel : s'.listing.nextLabel = s.listing.nextLabel

/-- A step of writing changes the listing and nothing else of the state. -/
theorem writing_eq_ok {α : Type} {step : Listing.WriteM α} {s s' : Lowering} {a : α}
    (h : writing step s = (.ok a, s')) :
    ∃ l, step s.listing = (.ok a, l) ∧ s' = { s with listing := l } := by
  unfold writing at h
  split at h
  · rename_i l hstep
    cases h
    exact ⟨l, hstep, rfl⟩
  · cases h

theorem wrote_of_writing {statement : Statement} {s s' : Lowering} {u : Unit}
    (h : writing (Listing.write statement) s = (.ok u, s')) : Wrote statement s s' := by
  obtain ⟨l, hl, rfl⟩ := writing_eq_ok h
  obtain ⟨hlines, hindent, hnext⟩ := Listing.write_eq_ok hl
  exact ⟨rfl, rfl, hlines, hindent, hnext⟩

/-- An instruction is written as one line. -/
theorem wrote_of_emit {opcode : Opcode} {operands : List Operand} {s s' : Lowering} {u : Unit}
    (h : emit opcode operands s = (.ok u, s')) : Wrote (.instruction opcode operands) s s' :=
  wrote_of_writing h

/-- So is the definition of a label. -/
theorem wrote_of_defineLabel {l : Label} {s s' : Lowering} {u : Unit}
    (h : defineLabel l s = (.ok u, s')) : Wrote (.label l) s s' :=
  wrote_of_writing h

/-- A new label uses the next number and writes nothing. -/
theorem newLabel_eq_ok {stem : String} {s s' : Lowering} {l : Label}
    (h : newLabel stem s = (.ok l, s')) :
    l = .ofLocal stem s.listing.nextLabel ∧
      s' = { s with listing := { s.listing with nextLabel := s.listing.nextLabel + 1 } } := by
  cases h
  exact ⟨rfl, rfl⟩

/-- The states around a step with reserved registers, and around the step inside. -/
structure Around (s s₁ s₂ s' : Lowering) : Prop where
  scopes : s₁.scopes = s.scopes
  listing : s₁.listing = s.listing
  scopes' : s'.scopes = s₂.scopes
  listing' : s'.listing = s₂.listing

/-- A step with registers that succeeds ran in a state where they are live, and the file is restored
behind it. -/
theorem withRegisters_eq_ok {α : Type} {request : Reservation} {body : List Reg → LowerM α}
    {s s' : Lowering} {a : α} (h : withRegisters request body s = (.ok a, s')) :
    ∃ regs s₁ s₂, s.registers.save.reserve request = (.ok regs, s₁.registers) ∧
      Around s s₁ s₂ s' ∧ body regs s₁ = (.ok a, s₂) := by
  rcases hreserve : s.registers.save.reserve request with ⟨cause | regs, file⟩
  · rw [withRegisters_of_error hreserve] at h
    cases h
  · rcases hbody : body regs
      { s with registers := file, log := scopeRecord file.depth regs :: s.log } with ⟨r, s₂⟩
    rw [withRegisters_of_ok hreserve hbody] at h
    cases h
    exact ⟨regs, { s with registers := file, log := scopeRecord file.depth regs :: s.log }, s₂,
      rfl, ⟨rfl, rfl, rfl, rfl⟩, hbody⟩

/-- A step with temporaries runs with registers from r32 on that were free before. -/
theorem withTemporaries_eq_ok {α : Type} {n : Nat} {body : List Reg → LowerM α}
    {s s' : Lowering} {a : α} (h : withRegisters (.temporaries n) body s = (.ok a, s')) :
    ∃ regs s₁ s₂, Around s s₁ s₂ s' ∧ body regs s₁ = (.ok a, s₂) ∧
      RegFile.Hands s.registers regs s₁.registers ∧ regs.length = n ∧ regs.Nodup ∧
      ∀ r ∈ regs, r ∉ s.registers.live ∧ 32 ≤ r.index.val := by
  obtain ⟨regs, s₁, s₂, hreserve, haround, hbody⟩ := withRegisters_eq_ok h
  exact ⟨regs, s₁, s₂, haround, hbody, RegFile.reserve_temporaries hreserve⟩

/-- The temporary handed out was free, and it is none of the first 32 registers. -/
theorem withTemporary_eq_ok {α : Type} {body : Reg → LowerM α} {s s' : Lowering} {a : α}
    (h : withTemporary body s = (.ok a, s')) :
    ∃ out s₁ s₂, Around s s₁ s₂ s' ∧ body out s₁ = (.ok a, s₂) ∧
      RegFile.Hands s.registers [out] s₁.registers ∧ out ∉ s.registers.live ∧
      32 ≤ out.index.val := by
  obtain ⟨regs, s₁, s₂, haround, hbody, hhands, hlength, -, hfree⟩ := withTemporaries_eq_ok h
  obtain ⟨out, rfl⟩ := List.length_eq_one_iff.1 hlength
  exact ⟨out, s₁, s₂, haround, hbody, hhands, hfree out (by simp)⟩

/-- The registers of arguments are handed out up to eight of them. -/
theorem withArguments_eq_ok {α : Type} {n : Nat} {body : List Reg → LowerM α} {s s' : Lowering}
    {a : α} (h : withArguments n body s = (.ok a, s')) :
    ∃ s₁ s₂, Around s s₁ s₂ s' ∧ body (RegSet.arguments n).toList s₁ = (.ok a, s₂) ∧ n ≤ 8 := by
  unfold withArguments at h
  cases hrequest : Reservation.arguments n with
  | error cause =>
      rw [hrequest] at h
      cases h
  | ok request =>
      rw [hrequest] at h
      obtain ⟨regs, s₁, s₂, hreserve, haround, hbody⟩ := withRegisters_eq_ok h
      -- The argument registers are reserved by name, so they are handed out in order.
      obtain ⟨-, hn, rfl⟩ := RegFile.reserve_arguments hrequest hreserve
      exact ⟨s₁, s₂, haround, hbody, hn⟩

/-! ## What a step has added -/

/-- What stands in the state after a step that it did not hold before. -/
structure Emission (s : Lowering) (declared : Bindings Label) (code : List Line) (s' : Lowering) :
    Prop where
  globals : s'.scopes.globals = declared ++ s.scopes.globals
  lines : s'.listing.lines = code.reverse ++ s.listing.lines
  labels : FreshLabels s.listing.nextLabel s'.listing.nextLabel code

namespace Emission

variable {s s₁ s₂ s' : Lowering} {declared declared' : Bindings Label} {code code' : List Line}

theorem refl (s : Lowering) : Emission s [] [] s :=
  ⟨rfl, rfl, FreshLabels.nil (Nat.le_refl _)⟩

/-- What two steps one after the other emit. -/
theorem trans (h : Emission s declared code s₁) (h' : Emission s₁ declared' code' s') :
    Emission s (declared' ++ declared) (code ++ code') s' := by
  refine ⟨?_, ?_, h.labels.append h'.labels⟩
  · rw [h'.globals, h.globals, List.append_assoc]
  · rw [h'.lines, h.lines, List.reverse_append, List.append_assoc]

/-- Reserving registers around a step does not change what it emits. -/
theorem around (haround : Around s s₁ s₂ s') (h : Emission s₁ declared code s₂) :
    Emission s declared code s' := by
  refine ⟨?_, ?_, ?_⟩
  · rw [haround.scopes', h.globals, haround.scopes]
  · rw [haround.listing', h.lines, haround.listing]
  · rw [haround.listing', ← haround.listing]
    exact h.labels

/-- A statement other than the definition of a local label. -/
theorem of_wrote {statement : Statement} (h : Wrote statement s s')
    (hlabel : (⟨s.listing.indent, statement⟩ : Line).localLabel? = none) :
    Emission s [] [⟨s.listing.indent, statement⟩] s' := by
  refine ⟨?_, ?_, FreshLabels.of_no_labels ?_ ?_⟩
  · rw [h.scopes, List.nil_append]
  · rw [h.lines]
    rfl
  · rw [h.nextLabel]
  · intro line hline
    rw [List.mem_singleton.1 hline]
    exact hlabel

/-- A comment emits comment lines and declares nothing. -/
theorem of_comment {text : String} {u : Unit} (h : comment text s = (.ok u, s')) :
    ∃ code, Emission s [] code s' ∧ s'.scopes = s.scopes ∧
      s'.listing.nextLabel = s.listing.nextLabel ∧ ∀ line ∈ code, line.isComment = true := by
  obtain ⟨l, hl, rfl⟩ := writing_eq_ok h
  obtain ⟨hnext, code, hlines, hcode⟩ := Listing.Adds.comment text s.listing u l hl
  have hlabels : ∀ line ∈ code, line.localLabel? = none :=
    fun line hline => Line.localLabel?_of_isComment (hcode line hline)
  exact ⟨code, ⟨rfl, hlines, FreshLabels.of_no_labels (Nat.le_of_eq hnext.symm) hlabels⟩, rfl, hnext,
    hcode⟩

end Emission

/-- Whenever the step succeeds, it declares these globals and adds some code. -/
def Emits (declared : Bindings Label) {α : Type} (step : LowerM α) : Prop :=
  ∀ s a s', step s = (.ok a, s') → ∃ code, Emission s declared code s'

namespace Emits

variable {α β : Type} {declared declared' : Bindings Label}

theorem pure (a : α) : Emits [] (pure a : LowerM α) := by
  intro s _ s' h
  cases h
  exact ⟨[], Emission.refl s⟩

/-- A step that fails emits whatever is asked for. -/
theorem throw (e : LowerError) : Emits declared (throw e : LowerM α) := by
  intro s _ s' h
  cases h

theorem unsupported (text : Thunk String) : Emits declared (unsupported text : LowerM α) := by
  intro s _ s' h
  cases h

/-- The second step declares its globals on top of those of the first. -/
theorem bind {x : LowerM α} {f : α → LowerM β} (hx : Emits declared x)
    (hf : ∀ a, Emits declared' (f a)) : Emits (declared' ++ declared) (x >>= f) := by
  intro s b s' h
  obtain ⟨a, s₁, h₁, h₂⟩ := bind_eq_ok.1 h
  obtain ⟨code, hcode⟩ := hx s a s₁ h₁
  obtain ⟨code', hcode'⟩ := hf a s₁ b s' h₂
  exact ⟨code ++ code', hcode.trans hcode'⟩

/-- A step followed by one that declares nothing. -/
theorem followed {x : LowerM α} {f : α → LowerM β} (hx : Emits declared x)
    (hf : ∀ a, Emits [] (f a)) : Emits declared (x >>= f) :=
  Emits.bind hx hf

/-- A step after one that declares nothing. -/
theorem after {x : LowerM α} {f : α → LowerM β} (hx : Emits [] x)
    (hf : ∀ a, Emits declared (f a)) : Emits declared (x >>= f) := by
  have h := Emits.bind hx hf
  rwa [List.append_nil] at h

/-! ### Primitive steps -/

theorem tell (r : Record) : Emits [] (tell r) := by
  intro s _ s' h
  cases h
  exact ⟨[], rfl, rfl, FreshLabels.nil (Nat.le_refl _)⟩

theorem emit (opcode : Opcode) (operands : List Operand) : Emits [] (emit opcode operands) :=
  fun _ _ _ h => ⟨_, Emission.of_wrote (wrote_of_emit h) rfl⟩

/-- Binding a global declares it and writes nothing. -/
theorem bindGlobal (name : Symbol) (label : Label) :
    Emits [(name, label)] (bindGlobal name label) := by
  intro s _ s' h
  cases h
  exact ⟨[], rfl, rfl, FreshLabels.nil (Nat.le_refl _)⟩

theorem bindSymbol (name : Symbol) (value : Value) : Emits [] (Lowering.bind name value) := by
  intro s _ s' h
  cases h
  refine ⟨[], ?_, rfl, FreshLabels.nil (Nat.le_refl _)⟩
  change (s.scopes.bind name value).globals = s.scopes.globals
  unfold Scopes.bind
  split <;> rfl

/-- Parameters are bound locally, so they declare nothing. -/
theorem bindParams : ∀ (params : List Symbol) (regs : List Reg), Emits [] (bindParams params regs)
  | [], _ => Emits.pure _
  | _ :: _, [] => Emits.pure _
  | p :: params, r :: regs =>
      Emits.bind (bindSymbol p (.register r)) fun _ => bindParams params regs

theorem comment (text : String) : Emits [] (comment text) := by
  intro s u s' h
  obtain ⟨code, hcode, -⟩ := Emission.of_comment h
  exact ⟨code, hcode⟩

/-! ### Steps around others -/

/-- Registers around a step leave its declarations alone. -/
theorem withRegisters {request : Reservation} {body : List Reg → LowerM α}
    (hbody : ∀ regs, Emits declared (body regs)) :
    Emits declared (withRegisters request body) := by
  intro s a s' h
  obtain ⟨regs, s₁, s₂, -, haround, hrun⟩ := withRegisters_eq_ok h
  obtain ⟨code, hcode⟩ := hbody regs s₁ a s₂ hrun
  exact ⟨code, hcode.around haround⟩

theorem withTemporary {body : Reg → LowerM α} (hbody : ∀ out, Emits declared (body out)) :
    Emits declared (withTemporary body) := by
  refine withRegisters fun regs => ?_
  cases regs with
  | nil => exact Emits.throw _
  | cons out _ => exact hbody out

theorem withArguments {n : Nat} {body : List Reg → LowerM α}
    (hbody : ∀ regs, Emits declared (body regs)) : Emits declared (withArguments n body) := by
  intro s a s' h
  obtain ⟨s₁, s₂, haround, hrun, -⟩ := withArguments_eq_ok h
  obtain ⟨code, hcode⟩ := hbody _ s₁ a s₂ hrun
  exact ⟨code, hcode.around haround⟩

/-- A definition inside a function is seen outside of it, too. -/
theorem insideFunction {step : LowerM α} (h : Emits declared step) :
    Emits declared (insideFunction step) := by
  intro s a s' hs
  rcases hstep : step
    { s with scopes := s.scopes.enter true, listing := s.listing.increaseIndent } with ⟨r, s₁⟩
  unfold Lowering.insideFunction at hs
  rw [hstep] at hs
  cases hs
  obtain ⟨code, hcode⟩ := h _ a s₁ hstep
  -- Entering and leaving a scope and indenting touch neither globals nor lines nor labels.
  exact ⟨code, hcode.globals, hcode.lines, hcode.labels⟩

end Emits
end Lowering
end RegisterLisp
