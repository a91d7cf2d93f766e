import RegisterLisp.Proofs.Lowering.Metering
import RegisterLisp.Proofs.Simulation.Correctness

/-!
# The code of functions

`FunctionCode` says that the code of a function stands at a label.  Here it is run: a machine that
is started at the label, with anything in its registers, gets to the return at the end of the
function, and the value that is returned there is the value of the last form of the body, evaluated
with the parameters in r4, r5, ….

A call of the machine is one step and does not look at the code of the function, so the register
file at a call is taken as the one that the function is started with.  Then the parameters are the
arguments of the call (`parameter_word`).
-/

namespace RegisterLisp

open Machine Lowering Steps

/-- The scopes that the body of a function is generated in. -/
def Scopes.inFunction (scopes : Scopes) (params : List Symbol) : Scopes :=
  (scopes.enter true).bindAll params (RegSet.arguments params.length).toList

/-! ## Forms in sequence -/

namespace Setting

variable {W : Type} {E : Setting W}

/-- Forms that are generated one after the other are evaluated one after the other.  What is
returned is the value of the last of them, or what stood there before if there are none. -/
theorem inSequence_runs {ts : List Term} (hts : ∀ t ∈ ts, E.Simulates t) :
    ∀ {value v : Value} {s s' : Lowering}, WellBound E s →
      inSequence value (ts.map fun t => t.part.code) s = (.ok v, s') →
      ∃ code, Added code s s' ∧ ∀ start calls m, Embedded E.code start code →
        E.Ready start calls m → ∃ ws calls' m',
          EvaluatesAll E.machine E.regs E.code s.scopes calls ts ws calls' ∧
          E.Arrives s.registers.live m (start + code.length) calls' m' ∧
          v.word E.machine m'.regs = ws.getLastD (value.word E.machine m.regs) := by
  induction ts with
  | nil =>
      intro value v s s' _ h
      cases h
      refine ⟨[], Added.refl s, fun start calls m _ hready => ?_⟩
      exact ⟨[], calls, m, EvaluatesAll.nil, Arrives.refl hready, rfl⟩
  | cons t ts ih =>
      intro value v s s' hs h
      obtain ⟨w, s₁, ht, hrest⟩ := bind_eq_ok.1 h
      have hafter := after_code ht
      obtain ⟨code₁, hadded₁, hcomputes⟩ := hts t (by simp) s w s₁ hs ht
      obtain ⟨code₂, hadded₂, hruns⟩ := ih (fun t' ht' => hts t' (by simp [ht']))
        (hs.after hafter) hrest
      refine ⟨_, hadded₁.trans hadded₂, fun start calls m hembedded hready => ?_⟩
      obtain ⟨calls₁, m₁, hvalue, harrives₁⟩ := hcomputes start calls m hembedded.left hready
      obtain ⟨ws, calls', m', hvalues, harrives₂, hlast⟩ :=
        hruns _ calls₁ m₁ hembedded.right harrives₁.ready
      rw [hafter.scopes] at hvalues
      rw [hafter.registers, Nat.add_assoc, ← List.length_append] at harrives₂
      refine ⟨_, calls', m', EvaluatesAll.cons hvalue hvalues, harrives₁.trans harrives₂, ?_⟩
      rw [List.getLastD_cons]
      exact hlast

end Setting

/-! ## Functions -/

/-- Where no local label is defined twice, code is embedded wherever it stands. -/
theorem Machine.Embedded.of_isPrefix {whole code : List Line} {start : Nat}
    (hlabels : (whole.filterMap Line.localLabel?).Nodup) (h : code <+: whole.drop start) :
    Embedded whole start code := by
  have hline : ∀ i line, code[i]? = some line → whole[start + i]? = some line := by
    intro i line hi
    obtain ⟨rest, hrest⟩ := h
    have hlt : i < code.length := (List.getElem?_eq_some_iff.1 hi).1
    rw [← List.getElem?_drop, ← hrest, List.getElem?_append_left hlt, hi]
  exact ⟨hline, fun i line l hi hl => place?_eq_some hlabels (hline i line hi) hl⟩

namespace Lowering

/-- The code of a function: its label, the code of its forms, and the return. -/
theorem functionAt_eq_ok {l : Label} {f : Function} {s s' : Lowering}
    (h : functionAt l f s = (.ok (), s')) :
    ∃ s₁ s₂ s₃ v, f.params.length ≤ 8 ∧ s₁.scopes = s.scopes.inFunction f.params ∧
      (∀ r ∈ RegSet.arguments f.params.length, r ∈ s₁.registers.live) ∧
      Added [⟨s.listing.indent, .label l⟩] s s₁ ∧
      inSequence (.register Reg.result) f.body s₁ = (.ok v, s₂) ∧
      Wrote (.instruction .ret [Operand.ofValue v]) s₂ s₃ ∧ ∃ code, Added code s₃ s' := by
  rw [functionAt_eq] at h
  obtain ⟨_, t₁, hlabel, h⟩ := bind_eq_ok.1 h
  have hwrote := wrote_of_defineLabel hlabel
  obtain ⟨_, t₂, htell, h⟩ := bind_eq_ok.1 h
  obtain ⟨hscopes, hlisting⟩ : t₂.scopes = t₁.scopes ∧ t₂.listing = t₁.listing := by
    cases htell
    exact ⟨rfl, rfl⟩
  rw [inFunction_apply] at h
  split at h
  · rename_i hcount
    obtain ⟨hok, hleft⟩ := Prod.mk.inj h
    obtain ⟨v, s₂, hbody, hrest⟩ := bind_eq_ok.1 (eq_ok_of_fst hok)
    obtain ⟨_, s₃, hret, hcomment⟩ := bind_eq_ok.1 hrest
    obtain ⟨code, hcode, -⟩ := Emission.of_comment hcomment
    refine ⟨entered f.params t₂, s₂, s₃, v, hcount, ?_, ?_, ?_, hbody, wrote_of_emit hret, code, ?_⟩
    · rw [← hwrote.scopes, ← hscopes]
      rfl
    · exact fun r hr => RegSet.mem_union.2 (Or.inr hr)
    · change t₂.listing.lines = _
      rw [hlisting]
      exact hwrote.lines
    · rw [← hleft]
      exact hcode.lines
  · cases h

/-- The setting of the body of a function with `n` parameters: its variables are the first `n`
argument registers. -/
def functionSetting {W : Type} (M : Machine W) (code : List Line) (regs : Reg → W) {n : Nat}
    (hn : n ≤ 8) : Setting W where
  machine := M
  code := code
  regs := regs
  vars := RegSet.arguments n
  argument := fun r hr => by
    obtain ⟨hlow, hhigh⟩ := RegSet.mem_arguments.1 hr
    exact RegSet.mem_arguments.2 ⟨hlow, hhigh.trans_le (Nat.add_le_add_left hn 4)⟩

/-- In the body of a function, only its parameters are bound to registers. -/
theorem wellBound_inFunction {W : Type} {M : Machine W} {code : List Line} {regs : Reg → W}
    {params : List Symbol} {scopes : Scopes} {s : Lowering} (hn : params.length ≤ 8)
    (hscopes : s.scopes = scopes.inFunction params)
    (hlive : ∀ r ∈ RegSet.arguments params.length, r ∈ s.registers.live) :
    WellBound (functionSetting M code regs hn) s := by
  refine ⟨?_, hlive⟩
  intro name r hname
  have hshows : (scopes.inFunction params).Shows (· ∈ RegSet.arguments params.length)
      params.contains :=
    Scopes.shows_bindAll (RegSet.length_toList_arguments hn) fun r hr => RegSet.mem_toList.1 hr
  rw [hscopes] at hname
  exact (hshows.fits_of_lookup hname).2

/-- A machine that is started at the label of a function, with any register file, gets to the return
at the end of the function.  On the way the forms of the body are evaluated, with the parameters in
r4, r5, …, and the calls are made that evaluation makes.  What is returned is the value of the last
form, or what was in r3 if there is none.  The arguments and r12 – r31 are as before. -/
theorem function_code_computes_body {W : Type} (M : Machine W) {code : List Line} {scopes : Scopes}
    {l : Label} {params : List Symbol} {body : List Term}
    (hlabels : (code.filterMap Line.localLabel?).Nodup)
    (hbody : Term.areExpressions body = true) (h : FunctionCode code scopes l params body)
    (regs : Reg → W) (stack : List W) :
    ∃ start ws calls m indent v, place? code l = some start ∧
      EvaluatesAll M regs code (scopes.inFunction params) [] body ws calls ∧
      Reaches M code ⟨regs, stack, start, []⟩ m ∧
      code[m.pc]? = some ⟨indent, .instruction .ret [Operand.ofValue v]⟩ ∧
      v.word M m.regs = ws.getLastD (regs Reg.result) ∧ Matches m.calls calls ∧
      m.stack = stack ∧
      ∀ r, r ∈ RegSet.arguments params.length ∨ (12 ≤ r.index.val ∧ r.index.val < 32) →
        m.regs r = regs r := by
  obtain ⟨start, block, s, s', hplace, hprefix, rfl, hfunction, hblock⟩ := h
  obtain ⟨s₁, s₂, s₃, v, hn, hscopes, hlive, hlabel, hforms, hret, rest, hrest⟩ :=
    functionAt_eq_ok hfunction
  have hembedded := Embedded.of_isPrefix hlabels hprefix
  have hcodes : (Term.parts body).map Part.code = body.map fun t => t.part.code := by
    rw [Term.parts_eq_map, List.map_map]
    rfl
  rw [hcodes] at hforms
  obtain ⟨forms, hadded, hruns⟩ := Setting.inSequence_runs
    (Setting.simulates_of_mem (E := functionSetting M code regs hn) body hbody)
    (wellBound_inFunction hn hscopes hlive) hforms
  -- The block is the label, the forms, the return and a comment.
  have heq : block = ([⟨s.listing.indent, .label l⟩] ++ forms) ++
      (⟨s₂.listing.indent, .instruction .ret [Operand.ofValue v]⟩ :: rest) := by
    have hall := (hlabel.trans hadded).trans ((Added.of_wrote hret).trans hrest)
    exact List.reverse_injective (List.append_cancel_right (hblock.symm.trans hall))
  rw [heq] at hembedded
  have hstart : (functionSetting M code regs hn).Ready start [] ⟨regs, stack, start, []⟩ :=
    ⟨rfl, fun _ _ => rfl, List.Forall₂.nil⟩
  have hbegin : (functionSetting M code regs hn).Arrives s₁.registers.live _ start [] _ :=
    Setting.Arrives.refl hstart
  have hlabelRun := hbegin.next hembedded.left.left rfl
  obtain ⟨ws, calls, m, hvalues, harrives, hlast⟩ :=
    hruns _ [] _ hembedded.left.right hlabelRun.ready
  rw [hscopes] at hvalues
  have hall := hlabelRun.trans harrives
  have hreturn := hembedded.right.line 0 _ rfl
  rw [Nat.add_zero, List.length_append, ← Nat.add_assoc, ← hall.ready.pc] at hreturn
  refine ⟨start, ws, calls, m, s₂.listing.indent, v, hplace, hvalues, hall.reaches, hreturn, hlast,
    hall.ready.calls, hall.kept.stack, ?_⟩
  intro r hr
  refine hall.kept.regs r (hr.imp_left (hlive r)) ?_
  rintro rfl
  rcases hr with hr | hr
  · exact absurd (RegSet.mem_arguments.1 hr).1 (by decide)
  · exact absurd hr.1 (by decide)

/-- With the register file that a call was made with, a parameter is the argument in its place. -/
theorem parameter_word {W : Type} {M : Machine W} {inv : Invocation W} {call : Call W}
    (hpasses : inv.Passes call) {params : List Symbol} (hdistinct : params.Nodup)
    (hcount : call.arguments.length = params.length) (hn : params.length ≤ 8) (scopes : Scopes)
    {i : Nat} {p : Symbol} (hp : params[i]? = some p) :
    ∃ v, (scopes.inFunction params).lookup p false = some v ∧
      call.arguments[i]? = some (v.word M inv.regs) := by
  have hlength : (RegSet.arguments params.length).toList.length = params.length :=
    RegSet.length_toList_arguments hn
  obtain ⟨r, hr, hpair⟩ := Scopes.exists_localValue?_bindAll (s := scopes) hlength
    (List.mem_of_getElem? hp)
  refine ⟨.register r, ?_, ?_⟩
  · have hlocal : Scopes.local? p false (scopes.inFunction params).outermost
        (scopes.inFunction params).inner = some (.register r) := hr
    rw [Scopes.lookup, hlocal]
  · -- The pair of the parameter and its register stands in one place only.
    obtain ⟨j, hj⟩ := List.mem_iff_getElem?.1 hpair
    obtain ⟨hparam, hreg⟩ := List.getElem?_zip_eq_some.1 hj
    obtain ⟨hi, hip⟩ := List.getElem?_eq_some_iff.1 hp
    obtain ⟨hj', hjp⟩ := List.getElem?_eq_some_iff.1 hparam
    obtain rfl : i = j := hdistinct.getElem_inj_iff.1 (hip.trans hjp.symm)
    rw [← hpasses.arguments, hcount, List.getElem?_map, hreg]
    rfl

end Lowering
end RegisterLisp
