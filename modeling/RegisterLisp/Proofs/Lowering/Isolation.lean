import RegisterLisp.Proofs.Lowering.Restoration

/-!
# Functions do not see the scopes around them

The body of a function is generated behind a boundary of scopes, where look-up ends.  So what is
bound in the scopes around a function has no influence on its code: not directly, and not through the
functions, definitions and types inside of it, each of which has a boundary of its own.

`Lowering.Alike` relates two states in which look-up finds the same.  Steps from alike states have
the same result and lead to alike states (`Isolated`).  Any two states with the same globals, registers
and listing are alike behind a new boundary.
-/

namespace RegisterLisp

/-! ## Scopes up to a boundary -/

namespace Scopes

/-- Two lists of scopes have the same scopes up to a boundary, and any scopes beyond it. -/
inductive SameToBoundary : List Scope → List Scope → Prop
  | boundary (scope : Scope) (outer outer' : List Scope) (h : scope.boundary = true) :
      SameToBoundary (scope :: outer) (scope :: outer')
  | scope (scope : Scope) {inner inner' : List Scope} (h : SameToBoundary inner inner') :
      SameToBoundary (scope :: inner) (scope :: inner')

namespace SameToBoundary

variable {inner inner' : List Scope}

/-- Look-up does not go beyond a boundary. -/
theorem local?_eq (h : SameToBoundary inner inner') (name : Symbol)
    (outermost outermost' : Bindings Value) :
    local? name false outermost inner = local? name false outermost' inner' := by
  induction h with
  | boundary scope outer outer' hboundary => simp [local?, hboundary]
  | scope scope _ ih => simp only [local?, ih]

end SameToBoundary

end Scopes

/-! ## Steps from related states -/

namespace Steps

variable {σ ε α β : Type}

/-- From related states the step has the same result, and it leads to related states. -/
def Respects (R : σ → σ → Prop) (x : ExceptT ε (StateM σ) α) : Prop :=
  ∀ s t, R s t → (x s).1 = (x t).1 ∧ R (x s).2 (x t).2

namespace Respects

variable {R : σ → σ → Prop}

theorem pure (a : α) : Respects R (pure a : ExceptT ε (StateM σ) α) :=
  fun _ _ h => ⟨rfl, h⟩

theorem throw (e : ε) : Respects R (throw e : ExceptT ε (StateM σ) α) :=
  fun _ _ h => ⟨rfl, h⟩

/-- Related states stay related along a sequence of steps. -/
theorem bind {x : ExceptT ε (StateM σ) α} {f : α → ExceptT ε (StateM σ) β} (hx : Respects R x)
    (hf : ∀ a, Respects R (f a)) : Respects R (x >>= f) := by
  intro s t h
  obtain ⟨hresult, hstates⟩ := hx s t h
  rw [bind_apply, bind_apply]
  rcases hs : x s with ⟨r, s'⟩
  rcases ht : x t with ⟨r', t'⟩
  rw [hs, ht] at hresult hstates
  obtain rfl : r = r' := hresult
  cases r with
  | ok a => exact hf a _ _ hstates
  | error e => exact ⟨rfl, hstates⟩

end Respects
end Steps

namespace Lowering

open Steps
open Scopes (SameToBoundary)

variable {α β : Type} {s t : Lowering}

/-! ## States that look alike -/

structure Agrees (s t : Lowering) : Prop where
  globals : t.scopes.globals = s.scopes.globals
  registers : t.registers = s.registers
  listing : t.listing = s.listing

/-- Two states in which the same is found for every symbol. -/
structure Alike (s t : Lowering) : Prop extends Agrees s t where
  inner : SameToBoundary s.scopes.inner t.scopes.inner

/-- In alike states a symbol stands for the same. -/
theorem Alike.lookup_eq (h : Alike s t) (name : Symbol) :
    t.scopes.lookup name false = s.scopes.lookup name false := by
  unfold Scopes.lookup Scopes.global?
  rw [h.globals, h.inner.local?_eq name s.scopes.outermost t.scopes.outermost]

/-- Behind a new boundary all that is local is the same. -/
theorem Agrees.enter (h : Agrees s t) :
    Alike { s with scopes := s.scopes.enter true, listing := s.listing.increaseIndent }
      { t with scopes := t.scopes.enter true, listing := t.listing.increaseIndent } where
  globals := h.globals
  registers := h.registers
  listing := congrArg Listing.increaseIndent h.listing
  inner := .boundary _ _ _ rfl

/-- A step that the local scopes and their bindings have no influence on. -/
abbrev IgnoresLocals (x : LowerM α) : Prop :=
  Respects Agrees x

namespace IgnoresLocals

/-- Steps that ignore local scopes do so in sequence. -/
theorem sequential : Sequential (@IgnoresLocals) :=
  ⟨Respects.pure, Respects.bind⟩

/-- What is written does not depend on scopes. -/
theorem writing (step : Listing.WriteM α) : IgnoresLocals (writing step) := by
  intro s t h
  unfold Lowering.writing
  rw [h.listing]
  rcases step s.listing with ⟨r, l⟩
  cases r with
  | ok a => exact ⟨rfl, h.globals, h.registers, rfl⟩
  | error e => exact ⟨rfl, h.globals, h.registers, rfl⟩

theorem tell (r : Record) : IgnoresLocals (tell r) :=
  fun _ _ h => ⟨rfl, h.globals, h.registers, h.listing⟩

/-- A global binding does not depend on local ones. -/
theorem bindGlobal (name : Symbol) (label : Label) : IgnoresLocals (bindGlobal name label) :=
  fun _ _ h => ⟨rfl, congrArg ((name, label) :: ·) h.globals, h.registers, h.listing⟩

theorem unsupported (text : Thunk String) : IgnoresLocals (unsupported text : LowerM α) :=
  fun _ _ h => ⟨rfl, h⟩

/-- In a new scope behind a boundary a step may look up symbols. -/
theorem insideFunction {step : LowerM α} (h : Respects Alike step) :
    IgnoresLocals (insideFunction step) := by
  intro s t hagrees
  obtain ⟨hresult, hstates⟩ := h _ _ hagrees.enter
  exact ⟨hresult, hstates.globals, hstates.registers,
    congrArg Listing.decreaseIndent hstates.listing⟩

end IgnoresLocals

/-! ## Steps between boundaries -/

/-- Binding a symbol in the innermost scope of alike states. -/
theorem respects_bindSymbol (name : Symbol) (value : Value) :
    Respects Alike (Lowering.bind name value) := by
  intro s t h
  refine ⟨rfl, ?_⟩
  change Alike { s with scopes := s.scopes.bind name value }
    { t with scopes := t.scopes.bind name value }
  have hinner := h.inner
  unfold Scopes.bind
  -- Both states have a boundary, so neither of them is at its outermost scope.
  rcases hs : s.scopes.inner with _ | ⟨scope, inner⟩
  · rw [hs] at hinner
    cases hinner
  · rcases ht : t.scopes.inner with _ | ⟨scope', inner'⟩
    · rw [hs, ht] at hinner
      cases hinner
    · rw [hs, ht] at hinner
      refine ⟨⟨h.globals, h.registers, h.listing⟩, ?_⟩
      -- The scope that is bound in is the first one of both lists.
      cases hinner with
      | boundary _ _ _ hboundary => exact .boundary _ _ _ hboundary
      | scope _ hrest => exact .scope _ hrest

/-- Binding the same parameters keeps states alike. -/
theorem respects_bindParams :
    ∀ (params : List Symbol) (regs : List Reg), Respects Alike (bindParams params regs)
  | [], _ => Respects.pure _
  | _ :: _, [] => Respects.pure _
  | p :: params, r :: regs =>
      Respects.bind (respects_bindSymbol p (.register r)) fun _ => respects_bindParams params regs

/-- Alike states give a symbol the same meaning or the same error. -/
theorem respects_lookup (name : Symbol) : Respects Alike (lookup name) := by
  intro s t h
  rw [lookup, bind_apply, bind_apply, get_apply, get_apply]
  dsimp only
  rw [h.lookup_eq]
  cases s.scopes.lookup name false with
  | none => exact ⟨rfl, h⟩
  | some value => exact ⟨rfl, h⟩

/-- A step may depend on the live registers, which agree. -/
theorem respects_live {f : RegSet → LowerM α} (hf : ∀ live, Respects Alike (f live)) :
    Respects Alike (get >>= fun s => f s.registers.live) := by
  intro s t h
  have hrun := hf s.registers.live s t h
  rw [bind_apply, bind_apply, get_apply, get_apply]
  dsimp only
  rw [h.registers]
  exact hrun

/-- The same registers are handed out in alike states. -/
theorem respects_withRegisters {request : Reservation} {body : List Reg → LowerM α}
    (hbody : ∀ regs, Respects Alike (body regs)) :
    Respects Alike (withRegisters request body) := by
  intro s t h
  rcases hreserve : s.registers.save.reserve request with ⟨cause | regs, file⟩
  · have hreserve' : t.registers.save.reserve request = (.error cause, file) := by
      rw [h.registers, hreserve]
    rw [withRegisters_of_error hreserve, withRegisters_of_error hreserve']
    exact ⟨rfl, h⟩
  · have hreserve' : t.registers.save.reserve request = (.ok regs, file) := by
      rw [h.registers, hreserve]
    rw [withRegisters_of_ok hreserve rfl, withRegisters_of_ok hreserve' rfl]
    have halike : Alike
        { s with registers := file, log := scopeRecord file.depth regs :: s.log }
        { t with registers := file, log := scopeRecord file.depth regs :: t.log } :=
      ⟨⟨h.globals, rfl, h.listing⟩, h.inner⟩
    obtain ⟨hresult, hstates⟩ := hbody regs _ _ halike
    exact ⟨hresult, ⟨hstates.globals, congrArg RegFile.restore hstates.registers,
      hstates.listing⟩, hstates.inner⟩

/-! ## The code of functions -/

/-- A step that leaves the scopes as they are and cannot tell alike states apart. -/
structure Isolated (x : LowerM α) : Prop where
  framed : Framed 0 x
  respects : Respects Alike x

namespace Isolated

/-- What the local scopes have no influence on cannot tell alike states apart. -/
theorem of_ignoresLocals {x : LowerM α} (hframed : Framed 0 x) (h : IgnoresLocals x) :
    Isolated x := by
  refine ⟨hframed, ?_⟩
  intro s t halike
  obtain ⟨hresult, hstates⟩ := h s t halike.toAgrees
  refine ⟨hresult, hstates, ?_⟩
  -- The scopes are left as they were, and so are still the same up to the boundary.
  have hs : (x s).2.scopes.inner = s.scopes.inner := (hframed s).inner
  have ht : (x t).2.scopes.inner = t.scopes.inner := (hframed t).inner
  rw [hs, ht]
  exact halike.inner

theorem sequential : Sequential (@Isolated) where
  pure a := ⟨Framed.pure a, Respects.pure a⟩
  bind hx hf :=
    ⟨Framed.bind hx.framed fun a => (hf a).framed,
      Respects.bind hx.respects fun a => (hf a).respects⟩

end Isolated

/-- A function has its own scope, and all of its code is generated in it. -/
theorem IgnoresLocals.functionAt {label : Label} {f : Function}
    (h : ∀ step ∈ f.body, Isolated step) : IgnoresLocals (functionAt label f) := by
  refine Respects.bind (writing _) fun _ => Respects.bind (tell _) fun _ => insideFunction ?_
  unfold withArguments
  split
  · exact Respects.throw _
  · refine respects_withRegisters fun args => ?_
    refine Respects.bind (respects_bindParams _ _) fun _ => ?_
    refine Respects.bind (Isolated.sequential.inSequence h).respects fun result => ?_
    -- The end of the function looks nothing up.
    refine (Isolated.of_ignoresLocals ?_ ?_).respects
    · exact Framed.bind (Framed.emit _ _) fun _ => Framed.comment _
    · exact Respects.bind (writing _) fun _ => writing _

/-- All forms are made of isolated steps. -/
theorem Isolated.closed : Closed (@Isolated) where
  toSequential := sequential
  live hf :=
    ⟨Framed.closed.live fun live => (hf live).framed, respects_live fun live => (hf live).respects⟩
  lookup name := ⟨Framed.lookup name, respects_lookup name⟩
  unsupported text := of_ignoresLocals (Framed.unsupported text) (IgnoresLocals.unsupported text)
  refused _ := of_ignoresLocals (Framed.throw _) (Respects.throw _)
  emit _ _ := of_ignoresLocals (Framed.emit _ _) (IgnoresLocals.writing _)
  defineLabel _ := of_ignoresLocals (Framed.defineLabel _) (IgnoresLocals.writing _)
  newLabel _ := of_ignoresLocals (Framed.newLabel _) (IgnoresLocals.writing _)
  comment _ := of_ignoresLocals (Framed.comment _) (IgnoresLocals.writing _)
  bindGlobal _ _ := of_ignoresLocals (Framed.bindGlobal _ _) (IgnoresLocals.bindGlobal _ _)
  withRegisters hbody :=
    ⟨Framed.withRegisters fun regs => (hbody regs).framed,
      respects_withRegisters fun regs => (hbody regs).respects⟩
  functionAt h :=
    of_ignoresLocals (Framed.functionAt fun step hmem => (h step hmem).framed)
      (IgnoresLocals.functionAt h)

/-- The code of every term is isolated. -/
theorem Isolated.term (t : Term) : t.part.Has (@Isolated) :=
  closed.term (fun _ _ => of_ignoresLocals (Framed.throw _) (Respects.throw _)) t

theorem Isolated.cell (store : Store) (depth : Nat) (r : Ref) :
    (store.part depth r).Has (@Isolated) :=
  closed.cell (fun _ _ => of_ignoresLocals (Framed.throw _) (Respects.throw _)) store depth r

namespace IgnoresLocals

/-- The code of a literal is generated behind a boundary, so local scopes do not matter. -/
theorem localFunction {f : Function} (h : ∀ step ∈ f.body, Isolated step) :
    IgnoresLocals (localFunction f) := by
  refine Respects.bind (writing _) fun label => Respects.bind (writing _) fun skip => ?_
  refine Respects.bind (writing _) fun _ => Respects.bind (functionAt h) fun _ => ?_
  exact Respects.bind (writing _) fun _ => Respects.pure _

/-- Neither do they for the code of a global function. -/
theorem define {name : Symbol} {f : Function} (h : ∀ step ∈ f.body, Isolated step) :
    IgnoresLocals (define name f) := by
  refine Respects.bind (bindGlobal _ _) fun _ => ?_
  exact Respects.bind (functionAt h) fun _ => Respects.pure _

theorem member {label : Label} {p : Part}
    (h : ∀ f, p.function? = some f → ∀ step ∈ f.body, Isolated step) :
    IgnoresLocals (member label p) := by
  unfold Lowering.member
  split
  · rename_i f hf
    exact functionAt (h f hf)
  · exact unsupported _

/-- Local scopes do not matter for the code of a type. -/
theorem defineType {name : Symbol} {ctor : Part} {methods : List (Symbol × Part)}
    (hctor : ∀ f, ctor.function? = some f → ∀ step ∈ f.body, Isolated step)
    (hmethods : ∀ m ∈ methods, ∀ f, m.2.function? = some f → ∀ step ∈ f.body, Isolated step) :
    IgnoresLocals (defineType name ctor methods) := by
  refine Respects.bind (bindGlobal _ _) fun _ => ?_
  refine Respects.bind (sequential.forM fun m _ => bindGlobal _ _) fun _ => ?_
  refine Respects.bind (member hctor) fun _ => ?_
  exact Respects.bind (sequential.forM fun m hm => member (hmethods m hm)) fun _ => Respects.pure _

end IgnoresLocals

/-! ## Forms that introduce functions -/

/-- Function literals, types, and lists headed by `define`. -/
inductive Introduces : Shape Part → Prop
  | func (params : List Symbol) (body : List Part) : Introduces (.func params body)
  | typeDef (name : Symbol) (fields : List Symbol) (ctor : Part) (methods : List (Symbol × Part)) :
      Introduces (.typeDef name fields ctor methods)
  | define {head : Part} (args : List Part) (h : head.symbol? = some Symbol.define) :
      Introduces (.list (head :: args))

namespace IgnoresLocals

theorem lowerDefine {text : Thunk String} {parts : List Part}
    (h : ∀ p ∈ parts, p.Has (@Isolated)) : IgnoresLocals (lowerDefine text parts) := by
  unfold Lowering.lowerDefine
  split
  · rename_i name body
    split
    · rename_i f _ hf
      exact define ((h body (by simp)).function f hf)
    · exact unsupported _
  · exact unsupported _

/-- A form that introduces functions is generated the same whatever local bindings there are. -/
theorem lowerShape {text : Thunk String} {layer : Shape Part} (hlayer : Introduces layer)
    (h : ∀ p ∈ layer.parts, p.Has (@Isolated)) : IgnoresLocals (lowerShape text layer) := by
  cases hlayer with
  | func params body => exact localFunction (Part.meets_codes h)
  | typeDef name fields ctor methods =>
      refine defineType (h ctor (by simp [Shape.parts])).function fun m hm => ?_
      exact (h m.2 (List.mem_cons_of_mem _ (List.mem_map_of_mem hm))).function
  | define args hhead =>
      rw [Lowering.lowerShape, Lowering.lowerList, hhead]
      dsimp only
      rw [if_neg (by decide), if_pos rfl]
      exact lowerDefine fun p hp => h p (List.mem_cons_of_mem _ hp)

/-- The code of a term that introduces functions. -/
theorem term (layer : Shape Term) (hlayer : Introduces (layer.map Term.part)) :
    IgnoresLocals (lower layer.toTerm) := by
  rw [lower, Term.part_toTerm]
  refine lowerShape hlayer fun p hp => ?_
  rw [Shape.parts_map] at hp
  obtain ⟨t, _, rfl⟩ := List.mem_map.1 hp
  exact Isolated.term t

/-- The code of a cell that introduces functions, whatever the depth of its parts. -/
theorem cell {store : Store} {id : Nat}
    (hlayer : ∀ depth, Introduces ((store.shape id).map (store.part depth))) :
    IgnoresLocals (store.lower (.cell id)) := by
  have hdepth : ∀ depth, IgnoresLocals (store.part depth (.cell id)).code := by
    intro depth
    cases depth with
    | zero => exact unsupported _
    | succ depth =>
        rw [Store.part_cell]
        refine lowerShape (hlayer depth) fun p hp => ?_
        rw [Shape.parts_map] at hp
        obtain ⟨r, _, rfl⟩ := List.mem_map.1 hp
        exact Isolated.cell store depth r
  intro s t h
  -- The depth depends on the room in the sink, which is the same in both states.
  unfold Store.lower
  rw [h.listing]
  exact hdepth _ s t h

end IgnoresLocals

/-- The bindings of the scopes around a function literal have no influence on it, whether it is
anonymous, defined or a member of a type, as a tree or in a store: from states with the same globals,
registers and listing the result is the same, and so are globals, registers and listing after it. -/
theorem functions_ignore_local_scopes :
    (∀ (params : List Symbol) (body : List Term),
      IgnoresLocals (lower (.func params body)) ∧
      (∀ name : Symbol, IgnoresLocals (lower
        (.list [.atom (.symbol Symbol.define), .atom (.symbol name), .func params body]))) ∧
      ∀ label : Label, IgnoresLocals (member label (Term.part (.func params body)))) ∧
    (∀ (name : Symbol) (fields : List Symbol) (ctor : Term) (methods : List (Symbol × Term)),
      IgnoresLocals (lower (.typeDef name fields ctor methods))) ∧
    (∀ (store : Store) (id : Nat) (params : List Symbol) (body : List Ref),
      store.shape id = .func params body →
        IgnoresLocals (store.lower (.cell id)) ∧
        (∀ (outer : Nat) (name : Symbol), store.shape outer =
            .list [.atom (.symbol Symbol.define), .atom (.symbol name), .cell id] →
          IgnoresLocals (store.lower (.cell outer))) ∧
        ∀ (depth : Nat) (label : Label),
          IgnoresLocals (member label (store.part depth (.cell id)))) ∧
    ∀ (store : Store) (id : Nat) (name : Symbol) (fields : List Symbol) (ctor : Ref)
      (methods : List (Symbol × Ref)), store.shape id = .typeDef name fields ctor methods →
        IgnoresLocals (store.lower (.cell id)) := by
  refine ⟨fun params body => ⟨?_, fun name => ?_, fun label => ?_⟩,
    fun name fields ctor methods => ?_,
    fun store id params body hfunc => ⟨?_, fun outer name houter => ?_, fun depth label => ?_⟩,
    fun store id name fields ctor methods htype => ?_⟩
  · exact IgnoresLocals.term (.func params body) (.func _ _)
  · exact IgnoresLocals.term (.list _) (.define _ rfl)
  · exact IgnoresLocals.member (Isolated.term _).function
  · exact IgnoresLocals.term (.typeDef name fields ctor methods) (.typeDef _ _ _ _)
  · refine IgnoresLocals.cell fun depth => ?_
    rw [hfunc]
    exact .func _ _
  · refine IgnoresLocals.cell fun depth => ?_
    rw [houter]
    refine .define _ ?_
    cases depth <;> rfl
  · exact IgnoresLocals.member (Isolated.cell store depth _).function
  · refine IgnoresLocals.cell fun depth => ?_
    rw [htype]
    exact .typeDef _ _ _ _

/-- The definition of a function that returns an inner function, which in turn returns `x`. -/
def nestedReader : Store where
  cells := #[⟨.func [] [.atom (.symbol ⟨"x"⟩)], none⟩, ⟨.func [] [.cell 0], none⟩,
    ⟨.list [.atom (.symbol Symbol.define), .atom (.symbol ⟨"f"⟩), .cell 1], none⟩]

def knowingX : Lowering where
  scopes := { outermost := [(⟨"x"⟩, .register Reg.result)] }

/-- The inner function does not find the local binding of `x`. -/
theorem functions_ignore_local_scopes_nestedReader :
    Agrees {} knowingX ∧
      (lookup ⟨"x"⟩ {}).1 ≠ (lookup ⟨"x"⟩ knowingX).1 ∧
      nestedReader.shape 1 = .func [] [.cell 0] ∧
      nestedReader.shape 2 =
        .list [.atom (.symbol Symbol.define), .atom (.symbol ⟨"f"⟩), .cell 1] ∧
      (nestedReader.lower (.cell 2) {}).1 = .error (.unbound ⟨"x"⟩) ∧
      (nestedReader.lower (.cell 2) knowingX).1 = .error (.unbound ⟨"x"⟩) := by
  have hagrees : Agrees {} knowingX := ⟨rfl, rfl, rfl⟩
  have hsame : IgnoresLocals (nestedReader.lower (.cell 2)) :=
    (functions_ignore_local_scopes.2.2.1 nestedReader 1 [] [.cell 0] rfl).2.1 2 ⟨"f"⟩ rfl
  have hrun : (nestedReader.lower (.cell 2) {}).1 = .error (.unbound ⟨"x"⟩) := by decide +kernel
  exact ⟨hagrees, by decide, rfl, rfl, hrun, (hsame _ _ hagrees).1 ▸ hrun⟩

end Lowering
end RegisterLisp
