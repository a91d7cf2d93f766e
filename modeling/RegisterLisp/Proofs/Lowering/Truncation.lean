import RegisterLisp.Proofs.Lowering.Forms
import RegisterLisp.Proofs.Lowering.Room
import RegisterLisp.Proofs.Store.Trees

/-!
# A sink that is full

A step that runs on a sink with a limit is compared with the same step on a sink without one.  Up to
the limit both do the same.  The first line that does not fit is cut, the step fails because of the
sink, and from there on nothing more is written, whatever is on the way out: open functions, reserved
registers, a comment over several lines.

`Truncates` says so of a step.  It is kept by sequences of steps: either the first step is cut, or the
second one runs with the room that the first has left.
-/

namespace RegisterLisp

/-! ## Bytes -/

namespace Line

def bytes (line : Line) : List UInt8 :=
  line.render.toUTF8.toList

end Line

namespace Listing

/-- These bytes have been written between two listings: lines, and then possibly a part of one. -/
def Written (l : Listing) (out : List UInt8) (l' : Listing) : Prop :=
  ∃ (code : List Line) (cut : List UInt8), l'.lines = code.reverse ++ l.lines ∧
    l'.fragment = l.fragment ++ cut ∧ out = code.flatMap Line.bytes ++ cut

/-- Lines come before what is written after them. -/
theorem Written.after {l l₁ l' : Listing} {code : List Line} {out : List UInt8}
    (hlines : l₁.lines = code.reverse ++ l.lines) (hfragment : l₁.fragment = l.fragment)
    (h : Written l₁ out l') : Written l (code.flatMap Line.bytes ++ out) l' := by
  obtain ⟨code', cut, hlines', hcut, rfl⟩ := h
  refine ⟨code ++ code', cut, ?_, hcut.trans (by rw [hfragment]), ?_⟩
  · rw [hlines', hlines, List.reverse_append, List.append_assoc]
  · rw [List.flatMap_append, List.append_assoc]

end Listing

namespace Lowering

open Steps

variable {α β : Type}

def withRoom (s : Lowering) (room : Option Nat) : Lowering :=
  { s with listing := { s.listing with room } }

/-- A line that does not fit is cut. -/
theorem write_of_full {statement : Statement} {s : Lowering} {n : Nat}
    (hroom : s.listing.room = some n)
    (h : n < (Line.bytes ⟨s.listing.indent, statement⟩).length) :
    writing (Listing.write statement) s = (.error (.sink .full), { s with listing := { s.listing with
      fragment := s.listing.fragment ++ (Line.bytes ⟨s.listing.indent, statement⟩).take n
      room := some 0 } }) := by
  have hlarge : ¬ (Line.render ⟨s.listing.indent, statement⟩).toUTF8.toList.length ≤ n :=
    Nat.not_le.2 h
  rw [writing, Listing.write_apply, Listing.writeLine_apply, hroom]
  dsimp only
  rw [if_neg hlarge]
  rfl

/-! ## Steps on a sink with a limit -/

/-- Without a limit the step writes some lines.  With room for all of them it does the same; with
less room it fails, and as much of them has been written as fits. -/
def TruncatesAt (x : LowerM α) (s : Lowering) (n : Nat) : Prop :=
  ∃ (r : Except LowerError α) (s' : Lowering) (code : List Line),
    x (s.withRoom none) = (r, s'.withRoom none) ∧
    s'.listing.lines = code.reverse ++ s.listing.lines ∧ s'.listing.fragment = s.listing.fragment ∧
    ((code.flatMap Line.bytes).length ≤ n →
      x (s.withRoom (some n)) = (r, s'.withRoom (some (n - (code.flatMap Line.bytes).length)))) ∧
    (n < (code.flatMap Line.bytes).length →
      ∃ s₁, x (s.withRoom (some n)) = (.error (.sink .full), s₁) ∧
        Listing.Written s.listing ((code.flatMap Line.bytes).take n) s₁.listing)

/-- The step does the same on a sink with a limit, up to the limit. -/
def Truncates (x : LowerM α) : Prop :=
  ∀ s n, TruncatesAt x s n

/-- A step that writes nothing here, and does not look at the sink. -/
theorem TruncatesAt.of_silent {x : LowerM α} {s t : Lowering} {r : Except LowerError α} {n : Nat}
    (hx : ∀ room, x (s.withRoom room) = (r, t.withRoom room)) (ht : t.listing = s.listing) :
    TruncatesAt x s n := by
  refine ⟨r, t, [], hx none, ?_, ?_, fun _ => hx (some n), fun h => absurd h (by simp)⟩
  · rw [ht]
    rfl
  · rw [ht]

/-- A step inside of another one that changes the state before and after it, but not the output. -/
theorem TruncatesAt.around {x y : LowerM α} {s s₀ : Lowering} {g : Lowering → Lowering} {n : Nat}
    (hx : TruncatesAt x s₀ n)
    (hrun : ∀ room, y (s.withRoom room) =
      ((x (s₀.withRoom room)).1, g (x (s₀.withRoom room)).2))
    (hlines : s₀.listing.lines = s.listing.lines)
    (hfragment : s₀.listing.fragment = s.listing.fragment)
    (hroom : ∀ t room, g (t.withRoom room) = (g t).withRoom room)
    (hglines : ∀ t, (g t).listing.lines = t.listing.lines)
    (hgfragment : ∀ t, (g t).listing.fragment = t.listing.fragment) : TruncatesAt y s n := by
  obtain ⟨r, s', code, hfull, hcode, hkept, hfits, hcut⟩ := hx
  refine ⟨r, g s', code, ?_, ?_, ?_, ?_, ?_⟩
  · rw [hrun, hfull, hroom]
  · rw [hglines, hcode, hlines]
  · rw [hgfragment, hkept, hfragment]
  · intro hn
    rw [hrun, hfits hn, hroom]
  · intro hn
    obtain ⟨s₁, hfails, code', cut, hcode', hcut', hout⟩ := hcut hn
    refine ⟨g s₁, by rw [hrun, hfails], code', cut, ?_, ?_, hout⟩
    · rw [hglines, hcode', hlines]
    · rw [hgfragment, hcut', hfragment]

namespace Truncates

/-! ### Sequences -/

theorem pure (a : α) : Truncates (pure a : LowerM α) :=
  fun _ _ => .of_silent (fun _ => rfl) rfl

theorem throw (e : LowerError) : Truncates (throw e : LowerM α) :=
  fun _ _ => .of_silent (fun _ => rfl) rfl

theorem unsupported (text : Thunk String) : Truncates (unsupported text : LowerM α) :=
  fun _ _ => .of_silent (fun _ => rfl) rfl

/-- With less room the first step may be cut, and then the second one does not run. -/
theorem bind {x : LowerM α} {f : α → LowerM β} (hx : Truncates x) (hf : ∀ a, Truncates (f a)) :
    Truncates (x >>= f) := by
  intro s n
  obtain ⟨r, s₁, code, hfull, hlines, hfragment, hroom, hcut⟩ := hx s n
  cases r with
  | error e =>
      -- The second step is not run, with or without a limit.
      refine ⟨.error e, s₁, code, ?_, hlines, hfragment, ?_, ?_⟩
      · rw [bind_apply, hfull]
      · intro hn
        rw [bind_apply, hroom hn]
      · intro hn
        obtain ⟨s₂, hrun, hwritten⟩ := hcut hn
        exact ⟨s₂, by rw [bind_apply, hrun], hwritten⟩
  | ok a =>
      obtain ⟨r, s₂, code', hfull', hlines', hfragment', hroom', hcut'⟩ :=
        hf a s₁ (n - (code.flatMap Line.bytes).length)
      have hlength : ((code ++ code').flatMap Line.bytes).length =
          (code.flatMap Line.bytes).length + (code'.flatMap Line.bytes).length := by
        rw [List.flatMap_append, List.length_append]
      refine ⟨r, s₂, code ++ code', ?_, ?_, hfragment'.trans hfragment, ?_, ?_⟩
      · rw [bind_apply, hfull]
        exact hfull'
      · rw [hlines', hlines, List.reverse_append, List.append_assoc]
      · intro hn
        rw [hlength] at hn ⊢
        rw [bind_apply, hroom (by omega)]
        dsimp only
        rw [hroom' (by omega), Nat.sub_sub]
      · intro hn
        rw [hlength] at hn
        rw [List.flatMap_append, List.take_append]
        by_cases hfirst : n < (code.flatMap Line.bytes).length
        · -- The first step is cut already, and what the second would write is beyond the limit.
          obtain ⟨s₃, hrun, hwritten⟩ := hcut hfirst
          refine ⟨s₃, by rw [bind_apply, hrun], ?_⟩
          rw [Nat.sub_eq_zero_of_le hfirst.le, List.take_zero, List.append_nil]
          exact hwritten
        · -- The first step fits, and leaves its part of the room to the second.
          obtain ⟨s₃, hrun, hwritten⟩ := hcut' (by omega)
          refine ⟨s₃, ?_, ?_⟩
          · rw [bind_apply, hroom (by omega)]
            exact hrun
          · rw [List.take_of_length_le (by omega)]
            exact hwritten.after hlines hfragment

/-- Steps in sequence are cut as one step. -/
theorem sequential : Sequential (@Truncates) :=
  ⟨Truncates.pure, Truncates.bind⟩

/-! ### Writing -/

/-- A line is written, or cut where the room ends. -/
theorem write (statement : Statement) : Truncates (writing (Listing.write statement)) := by
  intro s n
  have hbytes : ([⟨s.listing.indent, statement⟩] : List Line).flatMap Line.bytes =
      Line.bytes ⟨s.listing.indent, statement⟩ := by simp
  refine ⟨.ok (), written statement s, [⟨s.listing.indent, statement⟩], ?_, rfl, rfl, ?_, ?_⟩
  · exact write_of_fits fun m hm => nomatch hm
  · rw [hbytes]
    intro hn
    refine write_of_fits fun m hm => ?_
    cases hm
    exact hn
  · rw [hbytes]
    intro hn
    exact ⟨_, write_of_full (s := s.withRoom (some n)) rfl hn,
      [], (Line.bytes ⟨s.listing.indent, statement⟩).take n, rfl, rfl, rfl⟩

end Truncates

/-- Steps of writing one after the other are steps of lowering one after the other. -/
theorem writing_bind (x : Listing.WriteM α) (f : α → Listing.WriteM β) :
    writing (x >>= f) = writing x >>= fun a => writing (f a) := by
  funext s
  rw [bind_apply, writing, writing, bind_apply]
  rcases x s.listing with ⟨r, l⟩
  cases r with
  | ok a => rfl
  | error e => rfl

/-- Writing several things is writing one after the other. -/
theorem writing_forM {γ : Type} (f : γ → Listing.WriteM PUnit) :
    ∀ xs : List γ, writing (xs.forM f) = xs.forM fun x => writing (f x)
  | [] => rfl
  | x :: xs => by
      have hcons : writing (f x >>= fun _ => xs.forM f) =
          writing (f x) >>= fun _ => xs.forM fun x => writing (f x) := by
        rw [writing_bind, writing_forM f xs]
      exact hcons

namespace Truncates

/-- The indentation is taken back whether the lines inside were cut or not. -/
theorem indented {step : Listing.WriteM α} (h : Truncates (writing step)) :
    Truncates (writing (Listing.indented step)) := by
  intro s n
  refine (h { s with listing := s.listing.increaseIndent } n).around
    (g := fun t => { t with listing := t.listing.decreaseIndent }) ?_ rfl rfl
    (fun _ _ => rfl) (fun _ => rfl) fun _ => rfl
  intro room
  have hstart : (s.withRoom room).listing.increaseIndent =
      (Lowering.withRoom { s with listing := s.listing.increaseIndent } room).listing := rfl
  rw [writing, writing, Listing.indented, hstart]
  rcases step (Lowering.withRoom { s with listing := s.listing.increaseIndent } room).listing
    with ⟨r, l⟩
  cases r with
  | ok a => rfl
  | error e => rfl

/-- A comment is cut in whatever line the room ends. -/
theorem comment (text : String) : Truncates (comment text) := by
  unfold Lowering.comment Listing.comment
  split
  · rw [writing_bind]
    refine Truncates.bind (write _) fun _ => ?_
    rw [writing_bind]
    refine Truncates.bind (indented ?_) fun _ => write _
    rw [writing_forM]
    exact sequential.forM fun line _ => write _
  · exact write _

/-! ### Other primitive steps -/

/-- A label takes no room. -/
theorem newLabel (stem : String) : Truncates (newLabel stem) := by
  intro s n
  -- The label counter is not part of the output.
  exact ⟨.ok (.ofLocal stem s.listing.nextLabel),
    { s with listing := { s.listing with nextLabel := s.listing.nextLabel + 1 } }, [], rfl, rfl, rfl,
    fun _ => rfl, fun h => absurd h (by simp)⟩

theorem tell (r : Record) : Truncates (tell r) :=
  fun s _ => .of_silent (t := { s with log := r :: s.log }) (fun _ => rfl) rfl

theorem bindGlobal (name : Symbol) (label : Label) : Truncates (bindGlobal name label) :=
  fun s _ => .of_silent (t := { s with scopes := s.scopes.bindGlobal name label })
    (fun _ => rfl) rfl

theorem bindSymbol (name : Symbol) (value : Value) : Truncates (Lowering.bind name value) :=
  fun s _ => .of_silent (t := { s with scopes := s.scopes.bind name value }) (fun _ => rfl) rfl

theorem bindParams :
    ∀ (params : List Symbol) (regs : List Reg), Truncates (bindParams params regs)
  | [], _ => Truncates.pure _
  | _ :: _, [] => Truncates.pure _
  | p :: params, r :: regs =>
      Truncates.bind (bindSymbol p (.register r)) fun _ => bindParams params regs

/-- Looking a symbol up takes no room. -/
theorem lookup (name : Symbol) : Truncates (lookup name) := by
  intro s n
  cases hname : s.scopes.lookup name false with
  | none =>
      refine .of_silent (r := .error (.unbound name)) (t := s) (fun room => ?_) rfl
      have hname' : (s.withRoom room).scopes.lookup name false = none := hname
      rw [Lowering.lookup, bind_apply, get_apply]
      simp only [hname', throw_apply]
  | some value =>
      exact .of_silent (t := s) (fun room => lookup_eq_ok.2 ⟨hname, rfl⟩) rfl

/-- The registers in use do not depend on the room in the sink. -/
theorem live {f : RegSet → LowerM α} (hf : ∀ live, Truncates (f live)) :
    Truncates (get >>= fun s => f s.registers.live) :=
  fun s n => hf s.registers.live s n

/-! ### Steps around others -/

/-- The registers are restored whether the body is cut or not. -/
theorem withRegisters {request : Reservation} {body : List Reg → LowerM α}
    (hbody : ∀ regs, Truncates (body regs)) : Truncates (withRegisters request body) := by
  intro s n
  rcases hreserve : s.registers.save.reserve request with ⟨cause | regs, file⟩
  · refine .of_silent (r := .error (.registers cause)) (t := s) (fun room => ?_) rfl
    have hreserve' : (s.withRoom room).registers.save.reserve request = (.error cause, file) :=
      hreserve
    exact withRegisters_of_error hreserve'
  · -- The registers are given back, also if the step inside was cut.
    refine (hbody regs { s with
        registers := file, log := scopeRecord file.depth regs :: s.log } n).around
      (g := fun t => { t with registers := t.registers.restore }) ?_ rfl rfl
      (fun _ _ => rfl) (fun _ => rfl) fun _ => rfl
    intro room
    have hreserve' : (s.withRoom room).registers.save.reserve request = (.ok regs, file) :=
      hreserve
    exact withRegisters_of_ok hreserve' rfl

theorem insideFunction {step : LowerM α} (h : Truncates step) :
    Truncates (insideFunction step) := by
  intro s n
  exact (h { s with
      scopes := s.scopes.enter true, listing := s.listing.increaseIndent } n).around
    (g := fun t => { t with scopes := t.scopes.leave, listing := t.listing.decreaseIndent })
    (fun _ => rfl) rfl rfl (fun _ _ => rfl) (fun _ => rfl) fun _ => rfl

/-- A function is cut as its body is. -/
theorem functionAt {label : Label} {f : Function} (h : ∀ step ∈ f.body, Truncates step) :
    Truncates (functionAt label f) := by
  refine Truncates.bind (write _) fun _ => Truncates.bind (tell _) fun _ => insideFunction ?_
  unfold withArguments
  split
  · exact Truncates.throw _
  · refine withRegisters fun args => Truncates.bind (bindParams _ _) fun _ => ?_
    refine Truncates.bind (sequential.inSequence h) fun result => ?_
    exact Truncates.bind (write _) fun _ => comment _

/-- All forms are cut as one step. -/
theorem closed : Closed (@Truncates) where
  toSequential := sequential
  live := live
  lookup := lookup
  unsupported := unsupported
  refused _ := Truncates.throw _
  emit _ _ := write _
  defineLabel _ := write _
  newLabel := newLabel
  comment := comment
  bindGlobal := bindGlobal
  withRegisters := withRegisters
  functionAt := functionAt

end Truncates

/-! ## Programs -/

/-- On a sink that takes `n` bytes the first `n` bytes are written of what is written to a sink
without a limit.  If that is not all, the step fails because of the sink, and else it ends as it does
without a limit. -/
def CutsOff (x : LowerM α) : Prop :=
  ∀ (s : Lowering) (n : Nat), ∃ out : List UInt8,
    Listing.Written s.listing out (x (s.withRoom none)).2.listing ∧
    Listing.Written s.listing (out.take n) (x (s.withRoom (some n))).2.listing ∧
    (x (s.withRoom (some n))).1 =
      if n < out.length then .error (.sink .full) else (x (s.withRoom none)).1

/-- The bytes on a sink with a limit are a prefix of those on a sink without one. -/
theorem Truncates.cutsOff {x : LowerM α} (h : Truncates x) : CutsOff x := by
  intro s n
  obtain ⟨r, s', code, hfull, hlines, hfragment, hroom, hcut⟩ := h s n
  have hwritten : Listing.Written s.listing (code.flatMap Line.bytes) s'.listing :=
    ⟨code, [], hlines, by rw [hfragment, List.append_nil], by rw [List.append_nil]⟩
  refine ⟨code.flatMap Line.bytes, ?_, ?_⟩
  · rw [hfull]
    exact hwritten
  · by_cases hn : n < (code.flatMap Line.bytes).length
    · obtain ⟨s₁, hrun, hcut⟩ := hcut hn
      rw [hrun, if_pos hn]
      exact ⟨hcut, rfl⟩
    · have hle := Nat.le_of_not_lt hn
      rw [hroom hle, if_neg hn, hfull, List.take_of_length_le hle]
      exact ⟨hwritten, rfl⟩

/-- Whatever the program and the state it is generated in, a full sink cuts the output off and does
nothing else.  This holds of programs as trees, of forms in a store whose references come to an end,
and of any forms in a store that are followed down to the same depth with and without a limit. -/
theorem full_sink_only_truncates :
    (∀ ts : List Term, CutsOff (lowerProgram (Term.parts ts))) ∧
      (∀ (store : Store) (refs : List Ref), (∀ r ∈ refs, store.Grounded r) →
        CutsOff (store.lowerProgram refs)) ∧
      ∀ (store : Store) (depth : Nat) (refs : List Ref),
        CutsOff (lowerProgram (refs.map (store.part depth))) := by
  have hterms : ∀ ts : List Term, CutsOff (lowerProgram (Term.parts ts)) := fun ts =>
    (Truncates.closed.lowerProgram
      (Truncates.closed.terms (fun _ _ => Truncates.throw _) ts)).cutsOff
  refine ⟨hterms, ?_, ?_⟩
  · intro store refs hrefs
    rw [Store.lowerProgram_eq hrefs]
    exact hterms _
  · intro store depth refs
    exact (Truncates.closed.lowerProgram
      (Truncates.closed.cells (fun _ _ => Truncates.throw _) store depth refs)).cutsOff

/-- A function literal without parameters that two forms of a program share. -/
def sharedFunction : Store where
  cells := #[⟨.func [] [.atom (.string "a")], none⟩, ⟨.list [.cell 0, .cell 0], none⟩]

/-- The call of the function with itself as its argument, cut off in the middle of the code of the
argument. -/
theorem full_sink_cuts_off_sharedFunction :
    (∀ r ∈ [Ref.cell 1], sharedFunction.Grounded r) ∧
      CutsOff (sharedFunction.lowerProgram [.cell 1]) ∧
      (sharedFunction.lowerProgram [.cell 1] (Lowering.withRoom {} none)).1 = .ok () ∧
      (sharedFunction.lowerProgram [.cell 1] (Lowering.withRoom {} (some 200))).1 =
        .error (.sink .full) := by
  have hfunction : sharedFunction.Grounded (.cell 0) :=
    .cell (by decide) fun r hr => by
      obtain rfl := List.mem_singleton.1 hr
      exact .atom _
  have hgrounded : ∀ r ∈ [Ref.cell 1], sharedFunction.Grounded r := by
    intro r hr
    obtain rfl := List.mem_singleton.1 hr
    refine .cell (by decide) fun r hr => ?_
    have hr' : r ∈ [Ref.cell 0, .cell 0] := hr
    simp only [List.mem_cons, List.not_mem_nil, or_false, or_self] at hr'
    exact hr' ▸ hfunction
  exact ⟨hgrounded, full_sink_only_truncates.2.1 sharedFunction [.cell 1] hgrounded,
    by decide +kernel, by decide +kernel⟩

end Lowering
end RegisterLisp
