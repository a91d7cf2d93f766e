import RegisterLisp.Proofs.Lowering.Isolation
import RegisterLisp.Proofs.Lowering.LaidCode

/-!
# Scopes that have been left

A sequence of operations on scopes that enters a scope and leaves it at its end, with everything in
between properly nested, leaves no local binding behind and takes none away.  What may have changed
are the globals: a symbol that was bound globally stands for the last label that it was given,
wherever no local binding hides it.

`ScopeStep.openAfter` counts the scopes that a sequence has entered and not left.  As long as there
is one, the operations neither see nor change the scopes around it: what they do on top of other
scopes (`Scopes.atop`) is what they do on their own.  And where the scope is a boundary, look-up
finds what it would find if there were no scopes around it at all.
-/

namespace RegisterLisp

/-- An operation on scopes. -/
inductive ScopeStep
  | enter (boundary : Bool)
  | leave
  | bind (name : Symbol) (value : Value)
  | bindGlobal (name : Symbol) (label : Label)
  deriving DecidableEq

namespace ScopeStep

def run (s : Scopes) : ScopeStep → Scopes
  | .enter boundary => s.enter boundary
  | .leave => s.leave
  | .bind name value => s.bind name value
  | .bindGlobal name label => s.bindGlobal name label

def runAll (s : Scopes) (steps : List ScopeStep) : Scopes :=
  steps.foldl run s

/-- The number of scopes that are open after an operation if `n` are open before it.  With no
scope open, none can be left. -/
def openNext : Nat → ScopeStep → Option Nat
  | n, .enter _ => some (n + 1)
  | 0, .leave => none
  | n + 1, .leave => some n
  | n, .bind _ _ => some n
  | n, .bindGlobal _ _ => some n

/-- The number of scopes that are open after some operations if `n` are open before them, unless
they leave one that is not among these. -/
def openAfter (n : Nat) (steps : List ScopeStep) : Option Nat :=
  steps.foldlM openNext n

def block (boundary : Bool) (body : List ScopeStep) : List ScopeStep :=
  .enter boundary :: (body ++ [.leave])

def labelFor? (name : Symbol) : ScopeStep → Option Label
  | .bindGlobal name' label => if name' = name then some label else none
  | _ => none

def lastLabel? (name : Symbol) (steps : List ScopeStep) : Option Label :=
  (steps.filterMap (labelFor? name)).getLast?

end ScopeStep

namespace Scopes

open ScopeStep

variable {s : Scopes} {n m : Nat} {name : Symbol} {skip : Bool} {v : Value}
  {steps body : List ScopeStep} {step : ScopeStep}

/-! ## Local bindings that are seen -/

/-- A binding is seen from inside the first of some scopes: that scope has it, or it has no binding
of the name, does not end look-up, and the binding is seen beyond it. -/
inductive SeenIn (name : Symbol) (skip : Bool) (v : Value) : List Scope → Prop
  | here {scope : Scope} {outer : List Scope} (h : scope.bindings.lookup name = some v) :
      SeenIn name skip v (scope :: outer)
  | beyond {scope : Scope} {outer : List Scope} (hname : scope.bindings.lookup name = none)
      (hboundary : scope.boundary = true → skip = true) (h : SeenIn name skip v outer) :
      SeenIn name skip v (scope :: outer)

/-- A local binding is seen.  The outermost scope is no boundary. -/
def Sees (s : Scopes) (name : Symbol) (skip : Bool) (v : Value) : Prop :=
  SeenIn name skip v (s.inner ++ [{ bindings := s.outermost }])

/-- The local binding that look-up finds is the one that is seen. -/
theorem local?_eq_some_iff {outermost : Bindings Value} {inner : List Scope} :
    local? name skip outermost inner = some v ↔
      SeenIn name skip v (inner ++ [{ bindings := outermost }]) := by
  induction inner with
  | nil =>
      constructor
      · exact fun h => .here h
      · intro h
        cases h with
        | here h => exact h
        | beyond _ _ h => cases h
  | cons scope inner ih =>
      rw [local?, List.cons_append]
      -- A binding in the innermost scope ends the search, and so does a boundary.
      cases hlookup : scope.bindings.lookup name with
      | some value =>
          constructor
          · intro h
            cases h
            exact .here hlookup
          · intro h
            cases h with
            | here h => rw [← h, hlookup]
            | beyond hname _ _ => rw [hlookup] at hname; cases hname
      | none =>
          dsimp only
          constructor
          · intro h
            split at h
            · cases h
            · rename_i hpasses
              refine .beyond hlookup ?_ (ih.1 h)
              simpa using hpasses
          · intro h
            cases h with
            | here h => rw [hlookup] at h; cases h
            | beyond _ hboundary h => rw [if_neg (by simpa using hboundary), ih.2 h]

/-- A local binding that is seen is what look-up finds, and else the global one is. -/
theorem lookup_eq_of_sees (h : s.Sees name skip v) : s.lookup name skip = some v := by
  rw [lookup, local?_eq_some_iff.2 h]

/-- Without a local binding the global one counts. -/
theorem lookup_eq_of_not_sees (h : ¬ ∃ v, s.Sees name skip v) :
    s.lookup name skip = (s.global? name).map .label := by
  have hnone : local? name skip s.outermost s.inner = none :=
    Option.eq_none_iff_forall_ne_some.2 fun v hv => h ⟨v, local?_eq_some_iff.1 hv⟩
  rw [lookup, hnone]

/-- What is seen was bound in one of the scopes. -/
theorem SeenIn.exists_bound {scopes : List Scope} (h : SeenIn name skip v scopes) :
    ∃ scope ∈ scopes, (name, v) ∈ scope.bindings := by
  induction h with
  | here h => exact ⟨_, List.mem_cons_self, mem_of_lookup h⟩
  | beyond _ _ _ ih =>
      obtain ⟨scope, hscope, hbound⟩ := ih
      exact ⟨scope, List.mem_cons_of_mem _ hscope, hbound⟩

/-! ## Steps -/

/-- Scopes on top of others, whose globals they take the place of. -/
def atop (s base : Scopes) : Scopes where
  inner := s.inner ++ base.inner
  outermost := base.outermost
  globals := s.globals

/-- A scope with `n` scopes in it, and nothing around it. -/
structure Stands (boundary : Bool) (n : Nat) (s : Scopes) : Prop where
  inner : ∃ top first, s.inner = top ++ [first] ∧ top.length = n ∧ first.boundary = boundary
  outermost : s.outermost = []

def single (boundary : Bool) (globals : Bindings Label) : Scopes where
  inner := [{ boundary }]
  globals := globals

theorem stands_single (boundary : Bool) (globals : Bindings Label) :
    Stands boundary 0 (single boundary globals) :=
  ⟨⟨[], _, rfl, rfl, rfl⟩, rfl⟩

/-- Entering a scope puts an empty one on top. -/
theorem enter_eq_atop (base : Scopes) (boundary : Bool) :
    base.enter boundary = (single boundary base.globals).atop base :=
  rfl

/-- An operation that leaves no scope outside keeps what stands by itself. -/
theorem Stands.run {boundary : Bool} (h : Stands boundary n s) (hstep : openNext n step = some m) :
    Stands boundary m (step.run s) := by
  obtain ⟨⟨top, first, hinner, hlength, hboundary⟩, houtermost⟩ := h
  rcases s with ⟨inner, outermost, globals⟩
  obtain rfl : inner = top ++ [first] := hinner
  cases step with
  | enter b =>
      cases hstep
      exact ⟨⟨{ boundary := b } :: top, first, rfl, congrArg (· + 1) hlength, hboundary⟩, houtermost⟩
  | leave =>
      cases top with
      | nil =>
          -- The scope itself is not left, since no scope in it is open.
          cases hlength
          cases hstep
      | cons scope top =>
          cases hlength
          cases hstep
          exact ⟨⟨top, first, rfl, rfl, hboundary⟩, houtermost⟩
  | bind name v =>
      cases hstep
      cases top with
      | nil =>
          exact ⟨⟨[], { first with bindings := (name, v) :: first.bindings }, rfl, hlength,
            hboundary⟩, houtermost⟩
      | cons scope top =>
          exact ⟨⟨{ scope with bindings := (name, v) :: scope.bindings } :: top, first, rfl, hlength,
            hboundary⟩, houtermost⟩
  | bindGlobal name label =>
      cases hstep
      exact ⟨⟨top, first, rfl, hlength, hboundary⟩, houtermost⟩

/-- An operation inside of a scope neither sees nor changes the scopes around it. -/
theorem Stands.run_atop {boundary : Bool} (h : Stands boundary n s) (base : Scopes)
    (step : ScopeStep) : step.run (s.atop base) = (step.run s).atop base := by
  obtain ⟨⟨top, first, hinner, -⟩, -⟩ := h
  rcases s with ⟨inner, outermost, globals⟩
  obtain rfl : inner = top ++ [first] := hinner
  cases top <;> cases step <;> rfl

/-- What is bound in the scopes after an operation was bound before, or is what it binds. -/
theorem bound_run {scope : Scope} (hscope : scope ∈ (step.run s).inner)
    (hbound : (name, v) ∈ scope.bindings) :
    step = .bind name v ∨ ∃ scope' ∈ s.inner, (name, v) ∈ scope'.bindings := by
  rcases s with ⟨inner, outermost, globals⟩
  cases step with
  | enter boundary =>
      rcases List.mem_cons.1 hscope with rfl | hscope
      · cases hbound
      · exact Or.inr ⟨scope, hscope, hbound⟩
  | leave => exact Or.inr ⟨scope, List.mem_of_mem_tail hscope, hbound⟩
  | bind name' v' =>
      cases inner with
      | nil => cases hscope
      | cons first rest =>
          rcases List.mem_cons.1 hscope with rfl | hscope
          · rcases List.mem_cons.1 hbound with heq | hbound
            · cases heq
              exact Or.inl rfl
            · exact Or.inr ⟨first, by simp, hbound⟩
          · exact Or.inr ⟨scope, by simp [hscope], hbound⟩
  | bindGlobal name' label => exact Or.inr ⟨scope, hscope, hbound⟩

/-- A global binding stays until it is bound again, whatever scope is left. -/
theorem global?_run (s : Scopes) (step : ScopeStep) (name : Symbol) :
    (step.run s).global? name = (labelFor? name step).or (s.global? name) := by
  cases step with
  | enter boundary => rfl
  | leave => rfl
  | bind name' v =>
      rw [ScopeStep.run, global?, globals_bind]
      rfl
  | bindGlobal name' label =>
      rw [ScopeStep.run, Scopes.bindGlobal, global?, List.lookup_cons, labelFor?]
      by_cases hname : name' = name
      · rw [hname, beq_self_eq_true, if_pos rfl, Option.some_or]
      · rw [beq_false_of_ne (Ne.symm hname), if_neg hname, Option.none_or, global?]

/-! ## Runs -/

theorem openAfter_cons :
    openAfter n (step :: steps) = (openNext n step).bind fun k => openAfter k steps := by
  rw [openAfter, List.foldlM_cons]
  rfl

/-- Operations in sequence keep what stands by itself, and what is below it is not touched. -/
theorem Stands.runAll {boundary : Bool} (h : Stands boundary n s)
    (hsteps : openAfter n steps = some m) :
    Stands boundary m (runAll s steps) ∧
      ∀ base, ScopeStep.runAll (s.atop base) steps = (ScopeStep.runAll s steps).atop base := by
  induction steps generalizing s n with
  | nil =>
      cases hsteps
      exact ⟨h, fun _ => rfl⟩
  | cons step steps ih =>
      rw [openAfter_cons] at hsteps
      obtain ⟨k, hstep, hrest⟩ := Option.bind_eq_some_iff.1 hsteps
      obtain ⟨hstands, hatop⟩ := ih (h.run hstep) hrest
      refine ⟨hstands, fun base => ?_⟩
      have hfirst : ScopeStep.runAll (s.atop base) (step :: steps) =
          ScopeStep.runAll (step.run (s.atop base)) steps := rfl
      rw [hfirst, h.run_atop base step]
      exact hatop base

/-- A local binding after some operations was made by one of them or was there before. -/
theorem bound_runAll {scope : Scope} (hscope : scope ∈ (runAll s steps).inner)
    (hbound : (name, v) ∈ scope.bindings) :
    .bind name v ∈ steps ∨ ∃ scope' ∈ s.inner, (name, v) ∈ scope'.bindings := by
  induction steps generalizing s with
  | nil => exact Or.inr ⟨scope, hscope, hbound⟩
  | cons step steps ih =>
      rcases ih hscope with hmem | ⟨scope', hscope', hbound'⟩
      · exact Or.inl (List.mem_cons_of_mem step hmem)
      · rcases bound_run hscope' hbound' with rfl | hbefore
        · exact Or.inl List.mem_cons_self
        · exact Or.inr hbefore

/-- The last global binding of a name counts. -/
theorem global?_runAll (s : Scopes) (steps : List ScopeStep) (name : Symbol) :
    (runAll s steps).global? name = (lastLabel? name steps).or (s.global? name) := by
  induction steps generalizing s with
  | nil => rfl
  | cons step steps ih =>
      have hlast : lastLabel? name (step :: steps) =
          (lastLabel? name steps).or (labelFor? name step) := by
        unfold lastLabel?
        cases hlabel : labelFor? name step with
        | none => rw [List.filterMap_cons_none hlabel, Option.or_none]
        | some label => rw [List.filterMap_cons_some hlabel, List.getLast?_cons, Option.or_some]
      rw [hlast, Option.or_assoc, ← global?_run]
      exact ih (step.run s)

/-! ## Behind a scope that was left -/

/-- A block of operations leaves all local bindings as they were. -/
theorem locals_runAll_block (hbody : openAfter 0 body = some 0) (boundary : Bool) (s : Scopes) :
    (runAll s (block boundary body)).inner = s.inner ∧
      (runAll s (block boundary body)).outermost = s.outermost := by
  obtain ⟨hstands, hatop⟩ := (stands_single boundary s.globals).runAll hbody
  have hrun : runAll s (block boundary body) =
      ((runAll (single boundary s.globals) body).atop s).leave := by
    rw [← hatop s, ← enter_eq_atop]
    simp [runAll, block, ScopeStep.run]
  -- Of the scopes in between none is open any more, so the one that is left is the one entered.
  obtain ⟨top, first, hinner, hlength, -⟩ := hstands.inner
  obtain rfl := List.length_eq_zero_iff.1 hlength
  rw [hrun]
  exact ⟨by simp [Scopes.leave, atop, hinner], rfl⟩

/-- Behind a scope the same local bindings are seen as before it. -/
theorem sees_runAll_block (hbody : openAfter 0 body = some 0) (boundary : Bool) (s : Scopes) :
    (runAll s (block boundary body)).Sees name skip v ↔ s.Sees name skip v := by
  obtain ⟨hinner, houtermost⟩ := locals_runAll_block hbody boundary s
  rw [Sees, hinner, houtermost, Sees]

/-! ## Inside of a boundary -/

theorem sameToBoundary_append (top : List Scope) {first : Scope} (h : first.boundary = true)
    (outer outer' : List Scope) :
    SameToBoundary ((top ++ [first]) ++ outer) ((top ++ [first]) ++ outer') := by
  induction top with
  | nil => exact .boundary first outer outer' h
  | cons scope top ih => exact .scope scope ih

/-- Inside of a boundary the same is found as if there were no scopes around it. -/
theorem Stands.lookup_atop (h : Stands true n s) (base : Scopes) (name : Symbol) :
    (s.atop base).lookup name false = s.lookup name false := by
  obtain ⟨top, first, hinner, -, hboundary⟩ := h.inner
  have hsame : SameToBoundary (s.atop base).inner s.inner := by
    have hnear := sameToBoundary_append top hboundary base.inner []
    rwa [← hinner, List.append_nil] at hnear
  rw [lookup, lookup, hsame.local?_eq name (s.atop base).outermost s.outermost]
  rfl

/-- What is found in scopes that stand alone was bound in one of them, or globally. -/
theorem Stands.bound_of_lookup {boundary : Bool} (h : Stands boundary n s)
    (hlookup : s.lookup name skip = some v) :
    (∃ scope ∈ s.inner, (name, v) ∈ scope.bindings) ∨
      ∃ l, v = .label l ∧ s.global? name = some l := by
  by_cases hsees : ∃ w, s.Sees name skip w
  · obtain ⟨w, hw⟩ := hsees
    rw [lookup_eq_of_sees hw] at hlookup
    cases hlookup
    obtain ⟨scope, hscope, hbound⟩ := SeenIn.exists_bound hw
    rcases List.mem_append.1 hscope with hinner | houtermost
    · exact Or.inl ⟨scope, hinner, hbound⟩
    · -- Nothing is bound outside of scopes that stand alone.
      rw [List.mem_singleton.1 houtermost, h.outermost] at hbound
      cases hbound
  · rw [lookup_eq_of_not_sees hsees] at hlookup
    obtain ⟨l, hl, rfl⟩ := Option.map_eq_some_iff.1 hlookup
    exact Or.inr ⟨l, rfl, hl⟩

/-- Inside of a boundary no local binding from outside is found. -/
theorem lookup_inside_boundary (s : Scopes) (hsteps : openAfter 0 steps = some m) (name : Symbol) :
    (runAll (s.enter true) steps).lookup name false =
      (runAll (single true s.globals) steps).lookup name false := by
  obtain ⟨hstands, hatop⟩ := (stands_single true s.globals).runAll hsteps
  rw [enter_eq_atop, hatop, hstands.lookup_atop]

theorem bound_inside_boundary (s : Scopes) (hsteps : openAfter 0 steps = some m)
    (h : (runAll (s.enter true) steps).lookup name false = some v) :
    .bind name v ∈ steps ∨
      ∃ l, v = .label l ∧ (runAll (s.enter true) steps).global? name = some l := by
  obtain ⟨hstands, hatop⟩ := (stands_single true s.globals).runAll hsteps
  rw [lookup_inside_boundary s hsteps] at h
  rcases hstands.bound_of_lookup h with ⟨scope, hscope, hbound⟩ | hglobal
  · -- The scope that was entered had no bindings, so all of them were made by the operations.
    refine Or.inl ((bound_runAll hscope hbound).resolve_right ?_)
    rintro ⟨first, hfirst, hbefore⟩
    rw [List.mem_singleton.1 hfirst] at hbefore
    cases hbefore
  · rw [enter_eq_atop, hatop]
    exact Or.inr hglobal

/-- After a scope has been left, every look-up gives what it gave before the scope was entered,
except for symbols without a visible local binding that have been bound globally: these stand for
the last label that they were given.  And inside of a boundary, look-up finds what was bound since
the boundary was entered, or a global, whatever scopes there are around it. -/
theorem left_scopes_are_invisible (s : Scopes) :
    (∀ boundary body, openAfter 0 body = some 0 → ∀ name skip,
      ((∃ v, s.Sees name skip v) ∨ lastLabel? name (block boundary body) = none →
        (runAll s (block boundary body)).lookup name skip = s.lookup name skip) ∧
      ((¬ ∃ v, s.Sees name skip v) → ∀ l, lastLabel? name (block boundary body) = some l →
        (runAll s (block boundary body)).lookup name skip = some (.label l))) ∧
    ∀ steps m, openAfter 0 steps = some m → ∀ name,
      (∀ s' : Scopes, s'.globals = s.globals →
        (runAll (s'.enter true) steps).lookup name false =
          (runAll (s.enter true) steps).lookup name false) ∧
      ∀ v, (runAll (s.enter true) steps).lookup name false = some v →
        .bind name v ∈ steps ∨
          ∃ l, v = .label l ∧ (runAll (s.enter true) steps).global? name = some l := by
  refine ⟨?_, ?_⟩
  · intro boundary body hbody name skip
    have hsees : ∀ v, (runAll s (block boundary body)).Sees name skip v ↔ s.Sees name skip v :=
      fun v => sees_runAll_block hbody boundary s
    have hglobal := global?_runAll s (block boundary body) name
    -- Behind the block local bindings count first, and they are the old ones.
    by_cases hlocal : ∃ v, s.Sees name skip v
    · obtain ⟨v, hv⟩ := hlocal
      refine ⟨fun _ => ?_, fun hnone => absurd ⟨v, hv⟩ hnone⟩
      rw [lookup_eq_of_sees hv, lookup_eq_of_sees ((hsees v).2 hv)]
    · have hlookup : (runAll s (block boundary body)).lookup name skip =
          ((lastLabel? name (block boundary body)).or (s.global? name)).map .label := by
        rw [lookup_eq_of_not_sees (by simpa only [hsees] using hlocal), hglobal]
      refine ⟨fun hcase => ?_, fun _ l hl => ?_⟩
      · rw [hlookup, hcase.resolve_left hlocal, Option.none_or, lookup_eq_of_not_sees hlocal]
      · rw [hlookup, hl]
        rfl
  · intro steps m hsteps name
    refine ⟨fun s' hglobals => ?_, fun v => bound_inside_boundary s hsteps⟩
    rw [lookup_inside_boundary s' hsteps, lookup_inside_boundary s hsteps, hglobals]

/-- Scopes inside of a boundary that hides a binding of `y`. -/
def hidingScopes (r q : Reg) : Scopes where
  inner := [{ bindings := [(⟨"x"⟩, .register r)], boundary := true }]
  outermost := [(⟨"y"⟩, .register q)]

/-- Operations that bind `x` locally and both symbols globally, `y` twice. -/
def rebindings (r : Reg) : List ScopeStep :=
  [.bind ⟨"x"⟩ (.register r), .bindGlobal ⟨"y"⟩ ⟨".f"⟩, .enter false, .bindGlobal ⟨"x"⟩ ⟨".x"⟩,
    .bindGlobal ⟨"y"⟩ ⟨".y"⟩, .leave]

/-- The local binding of `x` is found again.  That of `y` is found again if boundaries are skipped;
otherwise nothing was found for `y` before, and now its last label is. -/
theorem left_scopes_are_invisible_hidingScopes :
    openAfter 0 (rebindings ⟨5⟩) = some 0 ∧
      (runAll (hidingScopes ⟨4⟩ ⟨5⟩) (block true (rebindings ⟨5⟩))).lookup ⟨"x"⟩ false =
        some (.register ⟨4⟩) ∧
      (runAll (hidingScopes ⟨4⟩ ⟨5⟩) (block true (rebindings ⟨5⟩))).lookup ⟨"y"⟩ true =
        some (.register ⟨5⟩) ∧
      (hidingScopes ⟨4⟩ ⟨5⟩).lookup ⟨"y"⟩ false = none ∧
      (runAll (hidingScopes ⟨4⟩ ⟨5⟩) (block true (rebindings ⟨5⟩))).lookup ⟨"y"⟩ false =
        some (.label ⟨".y"⟩) ∧
      (runAll ((hidingScopes ⟨4⟩ ⟨5⟩).enter true) []).lookup ⟨"x"⟩ false =
        (runAll (({} : Scopes).enter true) []).lookup ⟨"x"⟩ false := by
  have hbody : openAfter 0 (rebindings ⟨5⟩) = some 0 := by decide
  obtain ⟨hleft, hinside⟩ := left_scopes_are_invisible (hidingScopes ⟨4⟩ ⟨5⟩)
  have hx : (hidingScopes ⟨4⟩ ⟨5⟩).lookup ⟨"x"⟩ false = some (.register ⟨4⟩) := by decide
  have hy : (hidingScopes ⟨4⟩ ⟨5⟩).lookup ⟨"y"⟩ true = some (.register ⟨5⟩) := by decide
  have hnone : (hidingScopes ⟨4⟩ ⟨5⟩).lookup ⟨"y"⟩ false = none := by decide
  have hhidden : ¬ ∃ v, (hidingScopes ⟨4⟩ ⟨5⟩).Sees ⟨"y"⟩ false v := by
    rintro ⟨v, hv⟩
    rw [lookup_eq_of_sees hv] at hnone
    cases hnone
  refine ⟨hbody, ?_, ?_, hnone, ?_, ?_⟩
  · rw [(hleft true _ hbody ⟨"x"⟩ false).1 (Or.inl ⟨_, .here rfl⟩), hx]
  · rw [(hleft true _ hbody ⟨"y"⟩ true).1 (Or.inl ⟨_, .beyond rfl (fun _ => rfl) (.here rfl)⟩), hy]
  · exact (hleft true _ hbody ⟨"y"⟩ false).2 hhidden ⟨".y"⟩ (by decide)
  · exact ((hinside [] 0 rfl ⟨"x"⟩).1 {} rfl).symm

end Scopes
end RegisterLisp
