import RegisterLisp.Proofs.Lowering.Extents

/-!
# Steps that lay down code

A label is created, mentioned and defined at different moments.  A global is bound before its code
exists, a jump is written before its target, and the code of a function stands in the middle of the
code of an expression.

`Lowering.Lays D S A Q x` says what a step `x` that succeeds has added: code of a shape `S`, with a
line for every global that was bound and for every local label that was handed out.  If `D` holds of
all labels that the code defines and of all globals, it holds of all labels that the code mentions
and of the label that the step returns.  Until the code of a program is complete, nothing is said
about which labels are in `D`.
-/

namespace RegisterLisp

/-! ## Values that stand for labels -/

def Value.In (D : Label → Prop) : Value → Prop
  | .register _ => True
  | .label l => D l

namespace Scopes

structure LocalsIn (D : Label → Prop) (s : Scopes) : Prop where
  inner : ∀ scope ∈ s.inner, ∀ b ∈ scope.bindings, b.2.In D
  outermost : ∀ b ∈ s.outermost, b.2.In D

variable {D : Label → Prop} {s : Scopes}

/-- What is looked up was bound. -/
theorem mem_of_lookup {α : Type} {bindings : Bindings α} {name : Symbol} {a : α}
    (h : bindings.lookup name = some a) : (name, a) ∈ bindings := by
  obtain ⟨before, after, rfl, -⟩ := List.lookup_eq_some_iff.1 h
  simp

/-- A local symbol stands for no label outside of `D`, in whichever scope it is found. -/
theorem LocalsIn.local? {name : Symbol} {outermost : Bindings Value} {v : Value}
    (houtermost : ∀ b ∈ outermost, b.2.In D) :
    ∀ {inner : List Scope}, (∀ scope ∈ inner, ∀ b ∈ scope.bindings, b.2.In D) →
      local? name false outermost inner = some v → v.In D
  | [], _, h => houtermost _ (mem_of_lookup h)
  | scope :: rest, hinner, h => by
      rw [Scopes.local?] at h
      split at h
      · rename_i value hvalue
        cases h
        exact hinner scope (by simp) _ (mem_of_lookup hvalue)
      · split at h
        · cases h
        · exact local? houtermost (fun scope' hscope' => hinner scope' (by simp [hscope'])) h

/-- Nor does any symbol, if the globals do not. -/
theorem LocalsIn.lookup {name : Symbol} {v : Value} (h : s.LocalsIn D)
    (hglobals : ∀ b ∈ s.globals, D b.2) (hlookup : s.lookup name false = some v) : v.In D := by
  unfold Scopes.lookup at hlookup
  split at hlookup
  · rename_i value hvalue
    cases hlookup
    exact LocalsIn.local? h.outermost h.inner hvalue
  · obtain ⟨l, hl, rfl⟩ := Option.map_eq_some_iff.1 hlookup
    exact hglobals _ (mem_of_lookup hl)

/-- Binding a value in `D` keeps local symbols in it. -/
theorem LocalsIn.bind {name : Symbol} {v : Value} (h : s.LocalsIn D) (hv : v.In D) :
    (s.bind name v).LocalsIn D := by
  unfold Scopes.bind
  split
  · exact ⟨h.inner, List.forall_mem_cons.2 ⟨hv, h.outermost⟩⟩
  · rename_i scope rest hinner
    have hscopes := h.inner
    rw [hinner, List.forall_mem_cons] at hscopes
    refine ⟨List.forall_mem_cons.2 ⟨?_, hscopes.2⟩, h.outermost⟩
    exact List.forall_mem_cons.2 ⟨hv, hscopes.1⟩

/-- A local binding changes no global. -/
theorem globals_bind (s : Scopes) (name : Symbol) (v : Value) :
    (s.bind name v).globals = s.globals := by
  unfold Scopes.bind
  split <;> rfl

end Scopes

namespace Lowering

open Steps

variable {D : Label → Prop} {s s₁ s₂ s' : Lowering} {code code' : List Line}

/-! ## What is added -/

/-- What the step added has a line for every global that was bound, and for every local label that
was handed out. -/
structure Accounted (s : Lowering) (code : List Line) (s' : Lowering) : Prop where
  declared : ∃ new, Emission s new code s' ∧ ∀ b ∈ new, Defines code b.2
  count : s'.listing.nextLabel =
    s.listing.nextLabel + (code.filterMap Line.localLabel?).length

namespace Accounted

/-- Two steps account for what they have bound and handed out. -/
theorem trans (h : Accounted s code s₁) (h' : Accounted s₁ code' s') :
    Accounted s (code ++ code') s' := by
  obtain ⟨new, hcode, hnew⟩ := h.declared
  obtain ⟨new', hcode', hnew'⟩ := h'.declared
  refine ⟨⟨new' ++ new, hcode.trans hcode', ?_⟩, ?_⟩
  · intro b hb
    rw [defines_append]
    exact (List.mem_append.1 hb).elim (fun hb => Or.inr (hnew' b hb)) fun hb => Or.inl (hnew b hb)
  · rw [h'.count, h.count, List.filterMap_append, List.length_append, Nat.add_assoc]

/-- Registers reserved around a step do not matter here. -/
theorem around (haround : Around s s₁ s₂ s') (h : Accounted s₁ code s₂) : Accounted s code s' := by
  obtain ⟨new, hcode, hnew⟩ := h.declared
  refine ⟨⟨new, hcode.around haround, hnew⟩, ?_⟩
  rw [haround.listing', ← haround.listing]
  exact h.count

theorem of_wrote {statement : Statement} (h : Wrote statement s s')
    (hlabel : (⟨s.listing.indent, statement⟩ : Line).localLabel? = none) :
    Accounted s [⟨s.listing.indent, statement⟩] s' := by
  refine ⟨⟨[], .of_wrote h hlabel, by simp⟩, ?_⟩
  rw [h.nextLabel, List.filterMap_cons_none hlabel]
  rfl

/-- No global is lost. -/
theorem globals_subset (h : Accounted s code s') :
    ∀ b ∈ s.scopes.globals, b ∈ s'.scopes.globals := by
  obtain ⟨new, hcode, -⟩ := h.declared
  intro b hb
  rw [hcode.globals]
  exact List.mem_append_right new hb

end Accounted

/-- The property holds of all labels that the code defines, and of all globals. -/
structure Comprises (D : Label → Prop) (code : List Line) (s : Lowering) : Prop where
  defines : ∀ l, Defines code l → D l
  globals : ∀ b ∈ s.scopes.globals, D b.2

/-- A property of all labels is one of those in the first piece. -/
theorem Comprises.left (h : Comprises D (code ++ code') s') (hadded : Accounted s₁ code' s') :
    Comprises D code s₁ :=
  ⟨fun l hl => h.defines l (defines_append.2 (Or.inl hl)),
    fun b hb => h.globals b (hadded.globals_subset b hb)⟩

theorem Comprises.right (h : Comprises D (code ++ code') s') : Comprises D code' s' :=
  ⟨fun l hl => h.defines l (defines_append.2 (Or.inr hl)), h.globals⟩

/-- A step that succeeds lays down code of some shape.  Under an assumption, all labels it mentions
are in `D` if those are that it defines. -/
def Lays (D : Label → Prop) (S : List Line → Prop) {α : Type} (A : Prop) (Q : α → Prop)
    (x : LowerM α) : Prop :=
  ∀ s a s', x s = (.ok a, s') → ∃ code, S code ∧ Accounted s code s' ∧
    (A → Comprises D code s' → s.scopes.LocalsIn D →
      s'.scopes.LocalsIn D ∧ (∀ l, Mentions code l → D l) ∧ Q a)

namespace Lays

variable {S S' S'' : List Line → Prop} {α β : Type} {A A' : Prop} {Q : α → Prop} {R : β → Prop}

/-- A weaker assumption is enough. -/
theorem imp {x : LowerM α} (himp : A' → A) (hx : Lays D S A Q x) : Lays D S A' Q x := by
  intro s a s' h
  obtain ⟨code, hS, hadded, hrefers⟩ := hx s a s' h
  exact ⟨code, hS, hadded, fun hA => hrefers (himp hA)⟩

/-- The shape of the code may be forgotten in part. -/
theorem mono {x : LowerM α} (hS : ∀ code, S code → S' code) (hx : Lays D S A Q x) :
    Lays D S' A Q x := by
  intro s a s' h
  obtain ⟨code, hcode, hrest⟩ := hx s a s' h
  exact ⟨code, hS code hcode, hrest⟩

/-- A step that writes nothing and binds no global. -/
theorem silent {x : LowerM α} (hS : S [])
    (h : ∀ s a s', x s = (.ok a, s') → s'.listing = s.listing ∧
      s'.scopes.globals = s.scopes.globals ∧
      (A → (∀ b ∈ s.scopes.globals, D b.2) → s.scopes.LocalsIn D → s'.scopes.LocalsIn D ∧ Q a)) :
    Lays D S A Q x := by
  intro s a s' hx
  obtain ⟨hlisting, hglobals, hlocals⟩ := h s a s' hx
  refine ⟨[], hS, ⟨⟨[], ⟨hglobals, ?_, ?_⟩, by simp⟩, ?_⟩, ?_⟩
  · rw [hlisting]
    rfl
  · rw [hlisting]
    exact .nil (Nat.le_refl _)
  · rw [hlisting]
    rfl
  · intro hA hlabels hs
    obtain ⟨hs', ha⟩ := hlocals hA (hglobals ▸ hlabels.globals) hs
    exact ⟨hs', fun l hl => absurd hl not_mentions_nil, ha⟩

theorem pure {a : α} (hS : S []) (ha : A → Q a) : Lays D S A Q (pure a) := by
  refine silent hS fun s _ s' h => ?_
  cases h
  exact ⟨rfl, rfl, fun hA _ hlocals => ⟨hlocals, ha hA⟩⟩

/-- Two steps lay down their code one after the other; the second may rely on the result of the
first. -/
theorem bind {x : LowerM α} {f : α → LowerM β} (hx : Lays D S A Q x)
    (hf : ∀ a, Lays D S' (A ∧ Q a) R (f a))
    (hS : ∀ code code', S code → S' code' → S'' (code ++ code')) : Lays D S'' A R (x >>= f) := by
  intro s b s' h
  obtain ⟨a, s₁, h₁, h₂⟩ := bind_eq_ok.1 h
  obtain ⟨code, hcode, hadded, hrefers⟩ := hx s a s₁ h₁
  obtain ⟨code', hcode', hadded', hrefers'⟩ := hf a s₁ b s' h₂
  refine ⟨code ++ code', hS code code' hcode hcode', hadded.trans hadded', ?_⟩
  -- The first piece may mention what only the second one defines, so `D` has to comprise both.
  intro hA hlabels hlocals
  obtain ⟨hlocals₁, hmentions, ha⟩ := hrefers hA (hlabels.left hadded') hlocals
  obtain ⟨hlocals', hmentions', hb⟩ := hrefers' ⟨hA, ha⟩ hlabels.right hlocals₁
  exact ⟨hlocals', fun l hl => (mentions_append.1 hl).elim (hmentions l) (hmentions' l), hb⟩

theorem unsupported (text : Thunk String) : Lays D S A Q (unsupported text) := by
  intro s _ s' h
  cases h

/-- A step that fails lays down nothing. -/
theorem throw (e : LowerError) : Lays D S A Q (throw e) := by
  intro s _ s' h
  cases h

/-! ### Steps around others -/

/-- Registers around a step do not change the code that is laid down. -/
theorem withRegisters {request : Reservation} {body : List Reg → LowerM α}
    (hbody : ∀ regs, Lays D S A Q (body regs)) : Lays D S A Q (withRegisters request body) := by
  intro s a s' h
  obtain ⟨regs, s₁, s₂, -, haround, hrun⟩ := withRegisters_eq_ok h
  obtain ⟨code, hcode, hadded, hrefers⟩ := hbody regs s₁ a s₂ hrun
  refine ⟨code, hcode, hadded.around haround, ?_⟩
  intro hA hlabels hlocals
  rw [haround.scopes']
  rw [← haround.scopes] at hlocals
  exact hrefers hA ⟨hlabels.defines, haround.scopes' ▸ hlabels.globals⟩ hlocals

theorem withArguments {n : Nat} {body : List Reg → LowerM α}
    (hbody : ∀ regs, Lays D S A Q (body regs)) : Lays D S A Q (withArguments n body) := by
  unfold Lowering.withArguments
  cases Reservation.arguments n with
  | error cause => exact throw _
  | ok request => exact withRegisters hbody

/-- The scope of a function is empty when it is entered, and is left with all its bindings. -/
theorem insideFunction {step : LowerM α} (h : Lays D S A Q step) :
    Lays D S A Q (insideFunction step) := by
  intro s a s' hs
  rcases hstep : step
    { s with scopes := s.scopes.enter true, listing := s.listing.increaseIndent } with ⟨r, s₁⟩
  unfold Lowering.insideFunction at hs
  rw [hstep] at hs
  cases hs
  obtain ⟨code, hcode, ⟨⟨new, hemission, hnew⟩, hcount⟩, hrefers⟩ := h _ a s₁ hstep
  refine ⟨code, hcode, ⟨⟨new, ?_, hnew⟩, hcount⟩, ?_⟩
  · exact ⟨hemission.globals, hemission.lines, hemission.labels⟩
  · intro hA hlabels hlocals
    have hentered : (s.scopes.enter true).LocalsIn D :=
      ⟨List.forall_mem_cons.2 ⟨by simp, hlocals.inner⟩, hlocals.outermost⟩
    obtain ⟨hlocals₁, hrest⟩ := hrefers hA ⟨hlabels.defines, hlabels.globals⟩ hentered
    exact ⟨⟨fun scope hscope => hlocals₁.inner scope (List.mem_of_mem_tail hscope),
      hlocals₁.outermost⟩, hrest⟩

/-! ### Primitive steps -/

theorem tell (hS : S []) (r : Record) : Lays D S A (fun _ => True) (tell r) := by
  refine silent hS fun s _ s' h => ?_
  cases h
  exact ⟨rfl, rfl, fun _ _ hlocals => ⟨hlocals, trivial⟩⟩

/-- A symbol stands for a label that is bound, and so for one in `D`. -/
theorem lookup (hS : S []) (name : Symbol) : Lays D S A (Value.In D) (lookup name) := by
  refine silent hS fun s v s' h => ?_
  obtain ⟨_, _, hget, h⟩ := bind_eq_ok.1 h
  cases hget
  cases hname : s.scopes.lookup name false with
  | none =>
      rw [hname] at h
      cases h
  | some value =>
      rw [hname] at h
      cases h
      exact ⟨rfl, rfl, fun _ hglobals hlocals => ⟨hlocals, hlocals.lookup hglobals hname⟩⟩

/-- A parameter stands for a register. -/
theorem bindSymbol (hS : S []) (name : Symbol) (r : Reg) :
    Lays D S A (fun _ => True) (Lowering.bind name (.register r)) := by
  refine silent hS fun s _ s' h => ?_
  cases h
  exact ⟨rfl, s.scopes.globals_bind name (.register r),
    fun _ _ hlocals => ⟨hlocals.bind trivial, trivial⟩⟩

/-- An instruction whose labels are in `D` if the assumption holds. -/
theorem emit {opcode : Opcode} {operands : List Operand}
    (hS : ∀ indent, S [⟨indent, .instruction opcode operands⟩])
    (hoperands : A → ∀ l, .label l ∈ operands → D l) :
    Lays D S A (fun _ => True) (emit opcode operands) := by
  intro s _ s' h
  have hwrote := wrote_of_emit h
  refine ⟨_, hS _, .of_wrote hwrote rfl, fun hA _ hlocals => ⟨?_, ?_, trivial⟩⟩
  · rw [hwrote.scopes]
    exact hlocals
  · exact fun l hl => hoperands hA l (mentions_singleton.1 hl)

theorem comment (hS : ∀ code, (∀ line ∈ code, line.isComment = true) → S code) (text : String) :
    Lays D S A (fun _ => True) (comment text) := by
  intro s u s' h
  obtain ⟨code, hcode, hscopes, hnext, hcomments⟩ := Emission.of_comment h
  have hlabels : code.filterMap Line.localLabel? = [] := by
    rw [List.filterMap_eq_nil_iff]
    exact fun line hline => Line.localLabel?_of_isComment (hcomments line hline)
  refine ⟨code, hS code hcomments, ⟨⟨[], hcode, by simp⟩, by rw [hnext, hlabels]; rfl⟩, ?_⟩
  intro _ _ hlocals
  refine ⟨hscopes ▸ hlocals, fun l hl => absurd hl (not_mentions ?_), trivial⟩
  intro line hline opcode operands hstatement
  have hcomment := hcomments line hline
  rw [Line.isComment, hstatement] at hcomment
  cases hcomment

/-! ## Straight code -/

/-- Straight code is settled, whatever labels are pending. -/
theorem straight (D pending : Label → Prop) :
    Straight (Value.In D) (Lays D (Settled pending)) where
  register _ := trivial
  imp := imp
  pure ha := pure .nil ha
  bind hx hf := bind hx hf fun _ _ => Settled.append
  live {α A Q f} hf := by
    intro s a s' h
    obtain ⟨_, _, hget, h⟩ := bind_eq_ok.1 h
    cases hget
    exact hf _ s a s' h
  lookup name := lookup .nil name
  unsupported text := unsupported text
  refused _ := throw _
  emit hopcode hoperands := emit (fun _ => .plain hopcode) hoperands
  withRegisters := withRegisters

end Lays
end Lowering
end RegisterLisp
