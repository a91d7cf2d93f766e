import RegisterLisp.Proofs.Lowering.Emission
import RegisterLisp.Proofs.Lowering.Forms
import RegisterLisp.Proofs.Lowering.Metering

/-!
# How many temporaries forms need

`Term.need` is the number of temporaries that the code of a term needs at one time, where `sees`
tells which symbols stand for registers.  A metered property holds of the code of every term with
this need, and of the code of every form in a store with the need of the term that it unfolds to.

`Lowering.Request` is what a generator can be asked for, again and again.
-/

namespace RegisterLisp

/-! ## Needs -/

namespace Term

/-- Whether the value of a term is left in a register.  Functions and types are labels. -/
def leavesRegister (sees : Symbol → Bool) : Term → Bool
  | .atom (.symbol s) => sees s
  | .atom _ => true
  | .list items => !isHeadedBy Symbol.define items
  | .quoted _ | .func _ _ | .typeDef _ _ _ _ => false

mutual

/-- How many temporaries the code of a term needs. -/
def need (sees : Symbol → Bool) : Term → Nat
  | .atom a => if a.isLiteral then 1 else 0
  | .list items => needList sees items
  | .quoted _ => 0
  -- A function sees no registers but those of its parameters.
  | .func params body => needAll params.contains body
  | .typeDef _ _ ctor methods => max (need sees ctor) (needMethods sees methods)

/-- The need of a list of these items. -/
def needList (sees : Symbol → Bool) : List Term → Nat
  | [] => 0
  | head :: args =>
      if head.view.symbol? = some Symbol.nop then 0
      else if head.view.symbol? = some Symbol.define then needAll sees args
      else if (head.view.symbol?.bind Operator.ofSymbol?).isSome then 1 + needOperands sees args
      else max (need sees head)
        ((head.leavesRegister sees).toNat + args.length + needOperands sees args)

def needOperands (sees : Symbol → Bool) : List Term → Nat
  | [] => 0
  | t :: ts => max (if t.view.isLiteral then 0 else need sees t) (needOperands sees ts)

def needAll (sees : Symbol → Bool) : List Term → Nat
  | [] => 0
  | t :: ts => max (need sees t) (needAll sees ts)

def needMethods (sees : Symbol → Bool) : List (Symbol × Term) → Nat
  | [] => 0
  | (_, t) :: ms => max (need sees t) (needMethods sees ms)

end

/-- The need of operands is a maximum. -/
theorem needOperands_eq (sees : Symbol → Bool) (ts : List Term) :
    needOperands sees ts =
      (ts.map fun t => if t.view.isLiteral then 0 else need sees t).foldr max 0 := by
  induction ts with
  | nil => rfl
  | cons t ts ih => rw [needOperands, ih, List.map_cons, List.foldr_cons]

theorem needAll_eq (sees : Symbol → Bool) (ts : List Term) :
    needAll sees ts = (ts.map (need sees)).foldr max 0 := by
  induction ts with
  | nil => rfl
  | cons t ts ih => rw [needAll, ih, List.map_cons, List.foldr_cons]

end Term

/-! ## Terms by their top layers -/

theorem Shape.map_id {ρ : Type} (layer : Shape ρ) : layer.map (fun r => r) = layer := by
  cases layer <;> simp [map]

namespace Term

variable {C : Term → Prop}

mutual

/-- What holds of atoms, and of a form if it holds of its parts, holds of all terms. -/
theorem layerInduction (atom : ∀ a, C (.atom a))
    (layer : ∀ sh : Shape Term, (∀ t ∈ sh.parts, C t) → C sh.toTerm) : ∀ t, C t
  | .atom a => atom a
  | .list items => layer (.list items) (layerInductionAll atom layer items)
  | .quoted inner => layer (.quoted inner) fun t ht => by
      cases List.mem_singleton.1 ht
      exact layerInduction atom layer inner
  | .func params body => layer (.func params body) (layerInductionAll atom layer body)
  | .typeDef name fields ctor methods =>
      layer (.typeDef name fields ctor methods) (List.forall_mem_cons.2
        ⟨layerInduction atom layer ctor, layerInductionMethods atom layer methods⟩)

/-- The induction on terms by their top layer, for the items of a list. -/
theorem layerInductionAll (atom : ∀ a, C (.atom a))
    (layer : ∀ sh : Shape Term, (∀ t ∈ sh.parts, C t) → C sh.toTerm) :
    ∀ (ts : List Term), ∀ t ∈ ts, C t
  | [] => fun _ h => nomatch h
  | t :: ts => List.forall_mem_cons.2 ⟨layerInduction atom layer t, layerInductionAll atom layer ts⟩

theorem layerInductionMethods (atom : ∀ a, C (.atom a))
    (layer : ∀ sh : Shape Term, (∀ t ∈ sh.parts, C t) → C sh.toTerm) :
    ∀ (ms : List (Symbol × Term)), ∀ t ∈ ms.map Prod.snd, C t
  | [] => fun _ h => nomatch h
  | (_, t) :: ms =>
      List.forall_mem_cons.2 ⟨layerInduction atom layer t, layerInductionMethods atom layer ms⟩

end

end Term

namespace Lowering

/-! ## Forms -/

/-- As far as the property goes, the part is the term as lowering sees it. -/
structure Part.Follows (usable : Reg → Prop)
    (P : {α : Type} → (Symbol → Bool) → Nat → (α → Prop) → LowerM α → Prop) (t : Term) (p : Part) :
    Prop where
  atom? : p.atom? = t.view.atom?
  code : ∀ sees, P sees (t.need sees) (Value.Fits usable (t.leavesRegister sees)) p.code
  function : ∀ f, p.function? = some f → ∃ body, t = .func f.params body ∧
    List.Forall₂ (fun step u => ∀ sees, P sees (u.need sees)
      (fun v => ∃ b, Value.Fits usable b v) step) f.body body

namespace Metered

variable {usable : Reg → Prop} {kept : RegSet}
  {P : {α : Type} → (Symbol → Bool) → Nat → (α → Prop) → LowerM α → Prop}
  {sees : Symbol → Bool} {t : Term} {p : Part} {text : Thunk String}

/-- An atom as a part is the atom. -/
theorem ofAtom (hP : Metered usable kept P) (a : Atom) :
    (Part.ofAtom a).Follows usable P (.atom a) where
  atom? := rfl
  code sees := by
    cases a with
    | symbol name => exact hP.lookup name
    | number x => exact hP.load _
    | string s => exact hP.load _
    | bool b => exact hP.load _
  function f hf := nomatch hf

/-- A literal operand needs nothing. -/
theorem source (hP : Metered usable kept P) (h : p.Follows usable P t) :
    P sees (if t.view.isLiteral then 0 else t.need sees) (Source.Fits usable) p.source := by
  have hcode : P sees (t.need sees) (Source.Fits usable) (p.code >>= fun v => return .value v) :=
    hP.after (h.code sees) fun v hv => hP.pure ⟨_, hv⟩
  rw [Part.source, h.atom?]
  cases t with
  | atom a =>
      cases a with
      | symbol name => exact hcode
      | _ => exact hP.pure trivial
  | _ => exact hcode

/-- Operands need nothing if they are literals, and else what their code needs. -/
theorem sources (hP : Metered usable kept P) (sees : Symbol → Bool) {args : List (Term × Part)}
    (h : ∀ x ∈ args, x.2.Follows usable P x.1) :
    List.Forall₂ (fun x n => P sees n (Source.Fits usable) x) ((args.map Prod.snd).map Part.source)
      ((args.map Prod.fst).map fun t => if t.view.isLiteral then 0 else t.need sees) := by
  induction args with
  | nil => exact .nil
  | cons x args ih =>
      obtain ⟨hx, hargs⟩ := List.forall_mem_cons.1 h
      exact .cons (hP.source hx) (ih hargs)

/-- The body of a function needs what its need says, whatever is seen around it. -/
theorem functionAt_of_follows (hP : Metered usable kept P) {label : Label} {f : Function}
    (h : p.Follows usable P t) (hf : p.function? = some f) :
    P sees (t.need sees) (fun _ => True) (Lowering.functionAt label f) := by
  obtain ⟨body, rfl, hbody⟩ := h.function f hf
  rw [Term.need, Term.needAll_eq]
  exact hP.functionAt (List.forall₂_map_right_iff.2 (hbody.imp fun _ _ h => h _))

/-- A constructor or method needs what its literal needs. -/
theorem member (hP : Metered usable kept P) {label : Label} (h : p.Follows usable P t) :
    P sees (t.need sees) (fun _ => True) (member label p) := by
  unfold Lowering.member
  split
  · rename_i f hf
    exact hP.functionAt_of_follows h hf
  · exact hP.unsupported _

/-- A definition needs what its function needs. -/
theorem lowerDefine (hP : Metered usable kept P) {args : List (Term × Part)}
    (h : ∀ x ∈ args, x.2.Follows usable P x.1) :
    P sees (Term.needAll sees (args.map Prod.fst)) (Value.Fits usable false)
      (lowerDefine text (args.map Prod.snd)) := by
  rcases args with _ | ⟨x, _ | ⟨y, _ | ⟨z, args⟩⟩⟩
  · exact hP.unsupported _
  · exact hP.unsupported _
  · simp only [List.map_cons, List.map_nil, Lowering.lowerDefine]
    split
    · rename_i name f hname hf
      have hx : x.1.view.symbol? = some name := by
        rw [View.symbol?, ← (h x (by simp)).atom?]
        exact hname
      have hneed : Term.needAll sees [x.1, y.1] = y.1.need sees := by
        simp [Term.needAll, Term.eq_symbol_of_view hx, Term.need, Atom.isLiteral]
      rw [hneed]
      refine hP.before (hP.bindGlobal _ _) fun _ _ => ?_
      refine hP.after (hP.functionAt_of_follows (h y (by simp)) hf) fun _ _ => ?_
      exact hP.pure rfl
    · exact hP.unsupported _
  · exact hP.unsupported _

/-- The methods of a type are generated one after the other. -/
theorem members (hP : Metered usable kept P) {name : Symbol} {methods : List (Symbol × Term × Part)}
    (h : ∀ m ∈ methods, m.2.2.Follows usable P m.2.1) :
    P sees (Term.needMethods sees (methods.map fun m => (m.1, m.2.1))) (fun _ => True)
      ((methods.map fun m => (m.1, m.2.2)).forM fun m =>
        Lowering.member (methodLabel name m.1) m.2) := by
  induction methods with
  | nil => exact hP.pure trivial
  | cons m methods ih =>
      obtain ⟨hm, hmethods⟩ := List.forall_mem_cons.1 h
      exact hP.bind (hP.member hm) fun _ _ => ih hmethods

theorem methodNames (hP : Metered usable kept P) (name : Symbol) (methods : List (Symbol × Part)) :
    P sees 0 (fun _ => True) (methods.forM fun m =>
      Lowering.bindGlobal (Symbol.method name m.1) (methodLabel name m.1)) := by
  induction methods with
  | nil => exact hP.pure trivial
  | cons m methods ih => exact hP.before (hP.bindGlobal _ _) fun _ _ => ih

/-- A type needs what its constructor or the most demanding method needs. -/
theorem defineType (hP : Metered usable kept P) {name : Symbol} {ctor : Term × Part}
    {methods : List (Symbol × Term × Part)} (hctor : ctor.2.Follows usable P ctor.1)
    (hmethods : ∀ m ∈ methods, m.2.2.Follows usable P m.2.1) :
    P sees (max (ctor.1.need sees) (Term.needMethods sees (methods.map fun m => (m.1, m.2.1))))
      (Value.Fits usable false)
      (defineType name ctor.2 (methods.map fun m => (m.1, m.2.2))) := by
  refine hP.before (hP.bindGlobal _ _) fun _ _ => hP.before (hP.methodNames _ _) fun _ _ => ?_
  refine hP.bind (hP.member hctor) fun _ _ => hP.after (hP.members hmethods) fun _ _ => ?_
  exact hP.pure rfl

/-- A list needs what the form that its head says it is needs. -/
theorem lowerList (hP : Metered usable kept P) {items : List (Term × Part)}
    (h : ∀ x ∈ items, x.2.Follows usable P x.1) :
    P sees (Term.needList sees (items.map Prod.fst))
      (Value.Fits usable (!Term.isHeadedBy Symbol.define (items.map Prod.fst)))
      (lowerList text (items.map Prod.snd)) := by
  cases items with
  | nil => exact hP.unsupported _
  | cons head args =>
      obtain ⟨hhead, hargs⟩ := List.forall_mem_cons.1 h
      have hsymbol : head.2.symbol? = head.1.view.symbol? := by
        rw [Part.symbol?, hhead.atom?]
        rfl
      have hsources := hP.sources sees hargs
      have hcall := hP.call (hhead.code sees) hsources
      rw [List.length_map, List.length_map, ← Term.needOperands_eq] at hcall
      rw [List.map_cons, List.map_cons, Term.needList, Lowering.lowerList, hsymbol, List.length_map]
      -- The head decides, in the same order in both.
      cases hs : head.1.view.symbol? with
      | none =>
          simp only [Term.isHeadedBy, hs, reduceCtorEq, if_false, Option.bind_none, Option.isSome_none,
            List.head?_cons, Option.any_some]
          split
          · exact hP.unsupported _
          · exact hcall
      | some s =>
          dsimp only
          simp only [Term.isHeadedBy, hs, Option.some_inj, Option.bind_some, List.head?_cons,
            Option.any_some]
          split
          · rename_i hnop
            subst hnop
            exact hP.pure ⟨rfl, hP.result⟩
          · split
            · rename_i hdefine
              subst hdefine
              exact hP.lowerDefine hargs
            · rename_i hdefine
              have hdefine' : (some s == some Symbol.define) = false := by simpa using hdefine
              rw [hdefine', Bool.not_false]
              obtain hop | ⟨op, hop⟩ := Option.eq_none_or_eq_some (Operator.ofSymbol? s)
              · simp only [hop, Option.isSome_none, Bool.false_eq_true, if_false]
                exact hcall
              · simp only [hop, Option.isSome_some, if_true]
                rw [Term.needOperands_eq]
                exact hP.applyOperator hsources

/-- The steps of a body with the terms that they come from. -/
theorem bodies (hP : Metered usable kept P) {body : List (Term × Part)}
    (h : ∀ x ∈ body, x.2.Follows usable P x.1) :
    List.Forall₂ (fun step u => ∀ sees, P sees (u.need sees)
      (fun v => ∃ b, Value.Fits usable b v) step) ((body.map Prod.snd).map Part.code)
      (body.map Prod.fst) := by
  induction body with
  | nil => exact .nil
  | cons x body ih =>
      obtain ⟨hx, hbody⟩ := List.forall_mem_cons.1 h
      exact .cons (fun sees => hP.imp (hx.code sees) fun v hv => ⟨_, hv⟩) (ih hbody)

/-- The code of a form, from what is known of its parts. -/
theorem ofShape (hP : Metered usable kept P) (text : Thunk String) {layer : Shape (Term × Part)}
    (h : ∀ x ∈ layer.parts, x.2.Follows usable P x.1) :
    (Part.ofShape text (layer.map Prod.snd)).Follows usable P (layer.map Prod.fst).toTerm where
  atom? := by cases layer <;> rfl
  code sees := by
    cases layer with
    | list items => exact hP.lowerList h
    | quoted inner => exact hP.unsupported _
    | func params body =>
        change P sees (Term.needAll params.contains (body.map Prod.fst)) _ _
        rw [Term.needAll_eq]
        exact hP.localFunction
          (List.forall₂_map_right_iff.2 ((hP.bodies h).imp fun _ _ h => h params.contains))
    | typeDef name fields ctor methods =>
        obtain ⟨hctor, hmethods⟩ := List.forall_mem_cons.1 h
        exact hP.defineType hctor (List.forall_mem_map.1 hmethods)
  function f hf := by
    cases layer with
    | func params body =>
        cases hf
        exact ⟨_, rfl, hP.bodies h⟩
    | _ => cases hf

/-- The code of a form whose parts are made from something else, in the same way as its tree. -/
theorem ofLayer (hP : Metered usable kept P) (text : Thunk String) {ρ : Type} {layer : Shape ρ}
    {tree : ρ → Term} {part : ρ → Part}
    (h : ∀ r ∈ layer.parts, (part r).Follows usable P (tree r)) :
    (Part.ofShape text (layer.map part)).Follows usable P (layer.map tree).toTerm := by
  have hparts : ∀ x ∈ (layer.map fun r => (tree r, part r)).parts, x.2.Follows usable P x.1 := by
    rw [Shape.parts_map]
    exact List.forall_mem_map.2 h
  have hpairs := hP.ofShape text hparts
  rwa [Shape.map_map, Shape.map_map] at hpairs

/-- The part of a term needs what the term says, by the structure of the term. -/
theorem ofTerm (hP : Metered usable kept P) (t : Term) : t.part.Follows usable P t := by
  induction t using Term.layerInduction with
  | atom a => exact hP.ofAtom a
  | layer sh ih =>
      have h := hP.ofLayer (Thunk.mk fun _ => sh.toTerm.render) ih
      rwa [Shape.map_id, ← Term.part_toTerm] at h

/-- A form in a store is followed as far as it is unfolded, wherever its cells lead. -/
theorem ofRef (hP : Metered usable kept P) (s : Store) (depth : Nat) (r : Ref) :
    (s.part depth r).Follows usable P (s.unfold depth r) := by
  induction depth generalizing r with
  | zero =>
      cases r with
      | atom a => exact hP.ofAtom a
      | cell id => exact ⟨rfl, fun sees => hP.unsupported _, fun _ h => nomatch h⟩
  | succ depth ih =>
      cases r with
      | atom a => exact hP.ofAtom a
      | cell id =>
          rw [Store.part_cell]
          exact hP.ofLayer _ fun r _ => ih r

/-- A program needs what the form in it needs that needs most. -/
theorem lowerProgram (hP : Metered usable kept P) (sees : Symbol → Bool) {ρ : Type} {refs : List ρ}
    (tree : ρ → Term) (part : ρ → Part) (h : ∀ r ∈ refs, (part r).Follows usable P (tree r)) :
    P sees (Term.needAll sees (refs.map tree)) (fun _ => True) (lowerProgram (refs.map part)) := by
  induction refs with
  | nil => exact hP.pure trivial
  | cons r refs ih =>
      obtain ⟨hr, hrefs⟩ := List.forall_mem_cons.1 h
      refine hP.before (hP.comment _) fun _ _ => ?_
      exact hP.bind (hr.code sees) fun _ _ => ih hrefs

end Metered

/-! ## Requests -/

/-- What can be asked for: the code of a form or that of a program, as trees or in a store. -/
inductive Request
  | form (t : Term)
  | program (ts : List Term)
  | cell (store : Store) (r : Ref)
  | cells (store : Store) (rs : List Ref)

namespace Request

/-- The step that answers a request. -/
def step : Request → LowerM Unit
  | .form t => do let _ ← lower t
  | .program ts => Lowering.lowerProgram (Term.parts ts)
  | .cell store r => do let _ ← store.lower r
  | .cells store rs => store.lowerProgram rs

def answer (requests : List Request) (s : Lowering) : Lowering :=
  requests.foldl (fun s request => (request.step s).2) s

/-- What every request preserves holds after any number of them. -/
theorem answer_invariant {C : Lowering → Prop} (requests : List Request) {s : Lowering} (h : C s)
    (hstep : ∀ request s', C s' → C (step request s').2) : C (answer requests s) := by
  induction requests generalizing s with
  | nil => exact h
  | cons request requests ih => exact ih (hstep request s h)

end Request

/-- In every state, a request is answered by a step that the property holds of. -/
theorem Metered.request {usable : Reg → Prop} {kept : RegSet}
    {P : {α : Type} → (Symbol → Bool) → Nat → (α → Prop) → LowerM α → Prop}
    (hP : Metered usable kept P) (sees : Symbol → Bool) (request : Request) (s : Lowering) :
    ∃ n x, request.step s = x s ∧ P sees n (fun _ => True) x := by
  -- The value of a form is dropped.
  have hdrop : ∀ {t : Term} {p : Part}, p.Follows usable P t →
      P sees (t.need sees) (fun _ => True) (do let _ ← p.code) :=
    fun h => hP.after (h.code sees) fun _ _ => hP.pure trivial
  cases request with
  | form t => exact ⟨_, do let _ ← t.part.code, rfl, hdrop (hP.ofTerm t)⟩
  | program ts =>
      have hterms := fun t (_ : t ∈ ts) => hP.ofTerm t
      refine ⟨_, _, ?_, hP.lowerProgram sees (fun t => t) Term.part hterms⟩
      rw [Request.step, Term.parts_eq_map]
  | cell store r =>
      refine ⟨_, _, ?_, hdrop (hP.ofRef store (store.reach s.listing.room) r)⟩
      rw [Request.step, Steps.bind_apply, Steps.bind_apply, Store.lower]
  | cells store rs =>
      have hrefs := fun r (_ : r ∈ rs) => hP.ofRef store (store.reach s.listing.room) r
      refine ⟨_, _, ?_, hP.lowerProgram sees (store.unfold _) (store.part _) hrefs⟩
      rw [Request.step, Store.lowerProgram, Store.parts]

end Lowering
end RegisterLisp
