import RegisterLisp.Reduction.Rules

/-!
# Normal terms

Normalizing a term reduces its parts from the inside out, in order, and then applies the rules to
what has become of it.  Quoted parts are kept as they are.

`Term.inPlace` is the term with its parts normalized and no rule applied yet; `Term.normalize` goes
on to apply the rules.  The constructor and the methods of a type definition have to stay forms
with parts, so one that would become an atom is left as it is in place.

`Term.visit` goes through a term once and keeps, besides the result, how far a failed normalization
got and what the log says; `Term.result_visit` states that its result is that of `Term.normalize`.
-/

namespace RegisterLisp
namespace Term

/-- Applies rules in order to a term with normal parts. -/
def applyRules : List Rule → Term → Except FormError Term
  | [], t => .ok t
  | rule :: rules, t =>
      match t with
      | .list items =>
          match rule.apply access items with
          | .error cause => .error cause
          | .ok none => applyRules rules t
          | .ok (some replacement) => applyRules rules replacement.toTerm
      | _ => .ok t

/-- What goes into the place of a constructor or method: the result, unless it is an atom. -/
def slot (inPlace result : Term) : Term :=
  match result with
  | .atom _ => inPlace
  | t => t

mutual

/-- The term with its parts normalized. -/
def inPlace : Term → Except FormError Term
  | .atom a => .ok (.atom a)
  | .list items => (normalizeAll items).map .list
  | .quoted inner => .ok (.quoted inner)
  | .func params body => (normalizeAll body).map (.func params)
  | .typeDef name fields ctor methods => do
      let ctor' ← inPlace ctor
      let ctor'' ← applyRules Rule.all ctor'
      let methods' ← normalizeMethods methods
      return .typeDef name fields (slot ctor' ctor'') methods'

def normalizeAll : List Term → Except FormError (List Term)
  | [] => .ok []
  | t :: ts => do
      let t' ← inPlace t
      let t'' ← applyRules Rule.all t'
      let ts' ← normalizeAll ts
      return t'' :: ts'

def normalizeMethods : List (Symbol × Term) → Except FormError (List (Symbol × Term))
  | [] => .ok []
  | (name, t) :: ms => do
      let t' ← inPlace t
      let t'' ← applyRules Rule.all t'
      let ms' ← normalizeMethods ms
      return (name, slot t' t'') :: ms'

end

def normalize (t : Term) : Except FormError Term :=
  (inPlace t).bind (applyRules Rule.all)

/-! ## What is left behind and what the log says -/

/-- The records of applying rules to a term with normal parts. -/
def rulesJournal (depth : Nat) : List Rule → Term → List Record
  | [], _ => []
  | rule :: rules, t =>
      match t with
      | .list items =>
          match rule.apply access items with
          | .error _ => []
          | .ok none => rulesJournal depth rules t
          | .ok (some replacement) =>
              let after := replacement.toTerm
              rule.records depth replacement (Thunk.mk fun _ => t.render)
                (Thunk.mk fun _ => after.render) ++ rulesJournal depth rules after
      | _ => []

/-- What normalizing something comes to. -/
structure Progress (α : Type) where
  /-- What stands in its place afterwards, also after a failure: parts up to the failure are
  normalized in place, and only where all parts succeeded are they replaced by their normal
  forms. -/
  leftover : α
  result : Except FormError α
  /-- The log, up to the first failure. -/
  records : List Record := []

namespace Progress

def unchanged {α : Type} (a : α) : Progress α :=
  ⟨a, .ok a, []⟩

/-- Puts parts together; the whole has normal parts then. -/
def map {α β : Type} (f : α → β) (p : Progress α) : Progress β :=
  match p.result with
  | .ok a => ⟨f a, .ok (f a), p.records⟩
  | .error cause => ⟨f p.leftover, .error cause, p.records⟩

/-- Goes on with the rest `tail` after the first of several, which is put before it. -/
def cons {α : Type} (p : Progress α) (tail : List α) (rest : Unit → Progress (List α)) :
    Progress (List α) :=
  match p.result with
  | .error cause => ⟨p.leftover :: tail, .error cause, p.records⟩
  | .ok a =>
      let q := rest ()
      ⟨p.leftover :: q.leftover, q.result.map (a :: ·), p.records ++ q.records⟩

/-- Applies the rules to a term with normal parts. -/
def applyRules (depth : Nat) (p : Progress Term) : Progress Term :=
  match p.result with
  | .error _ => p
  | .ok t =>
      ⟨p.leftover, Term.applyRules Rule.all t, p.records ++ rulesJournal depth Rule.all t⟩

def slot (p : Progress Term) : Progress Term :=
  { p with result := p.result.map (Term.slot p.leftover) }

def named (name : Symbol) (p : Progress Term) : Progress (Symbol × Term) :=
  ⟨(name, p.leftover), p.result.map ((name, ·)), p.records⟩

/-- Goes on with the methods after the constructor of a type. -/
def members (p : Progress Term) (methods : List (Symbol × Term))
    (rest : Unit → Progress (List (Symbol × Term))) :
    Progress (Term × List (Symbol × Term)) :=
  match p.result with
  | .error cause => ⟨(p.leftover, methods), .error cause, p.records⟩
  | .ok ctor =>
      let q := rest ()
      ⟨(p.leftover, q.leftover), q.result.map ((ctor, ·)), p.records ++ q.records⟩

end Progress

mutual

def visit (depth : Nat) : Term → Progress Term
  | .atom a => .unchanged (.atom a)
  | .quoted inner => .unchanged (.quoted inner)
  | .list items => ((visitAll (depth + 1) items).map .list).applyRules depth
  | .func params body => (visitAll (depth + 1) body).map (.func params)
  | .typeDef name fields ctor methods =>
      ((visit (depth + 1) ctor).slot.members methods fun _ => visitMethods (depth + 1) methods).map
        fun (ctor, methods) => .typeDef name fields ctor methods

def visitAll (depth : Nat) : List Term → Progress (List Term)
  | [] => .unchanged []
  | t :: ts => (visit depth t).cons ts fun _ => visitAll depth ts

def visitMethods (depth : Nat) : List (Symbol × Term) → Progress (List (Symbol × Term))
  | [] => .unchanged []
  | (name, t) :: ms => ((visit depth t).slot.named name).cons ms fun _ => visitMethods depth ms

end

/-- All records of normalizing a top-level form. -/
def records (t : Term) : List Record :=
  let p := visit 1 t
  match p.result with
  | .ok _ => p.records
  | .error cause => p.records ++ [cause.record (Thunk.mk fun _ => p.leftover.render)]

/-- All records of normalizing the forms of a program, up to the first that fails. -/
def programRecords : List Term → List Record
  | [] => []
  | t :: ts =>
      t.records ++
        match normalize t with
        | .ok _ => programRecords ts
        | .error _ => []

/-! ## The two ways of normalizing agree -/

namespace Progress

variable {α β : Type}

/-- Putting parts together does not touch a failure. -/
@[simp]
theorem result_map (f : α → β) (p : Progress α) : (p.map f).result = p.result.map f := by
  cases h : p.result <;> simp [map, h, Except.map]

theorem leftover_map (f : α → β) (p : Progress α) {a : α} (h : p.result = .ok a) :
    (p.map f).leftover = f a := by
  simp [map, h]

/-- The first failure of several is the failure of all of them. -/
@[simp]
theorem result_cons (p : Progress α) (tail : List α) (rest : Unit → Progress (List α)) :
    (p.cons tail rest).result = p.result.bind fun a => (rest ()).result.map (a :: ·) := by
  cases h : p.result <;> simp [cons, h, Except.bind]

@[simp]
theorem result_applyRules (depth : Nat) (p : Progress Term) :
    (p.applyRules depth).result = p.result.bind (Term.applyRules Rule.all) := by
  cases h : p.result <;> simp [applyRules, h, Except.bind]

/-- The rules do not change what a failure leaves behind. -/
@[simp]
theorem leftover_applyRules (depth : Nat) (p : Progress Term) :
    (p.applyRules depth).leftover = p.leftover := by
  cases h : p.result <;> simp [applyRules, h]

@[simp]
theorem result_members (p : Progress Term) (methods : List (Symbol × Term))
    (rest : Unit → Progress (List (Symbol × Term))) :
    (p.members methods rest).result =
      p.result.bind fun ctor => (rest ()).result.map ((ctor, ·)) := by
  cases h : p.result <;> simp [members, h, Except.bind]

end Progress

/-- No rule applies to a function literal. -/
theorem applyRules_func (rules : List Rule) (params : List Symbol) (body : List Term) :
    applyRules rules (.func params body) = .ok (.func params body) := by
  cases rules <;> rfl

/-- No rule applies to a type definition. -/
theorem applyRules_typeDef (rules : List Rule) (name : Symbol) (fields : List Symbol) (ctor : Term)
    (methods : List (Symbol × Term)) :
    applyRules rules (.typeDef name fields ctor methods) =
      .ok (.typeDef name fields ctor methods) := by
  cases rules <;> rfl

/-- The normal form of a constructor or method in its place. -/
theorem result_slot {p : Progress Term} {t : Term} (result : p.result = normalize t)
    (leftover : ∀ r, p.result = .ok r → inPlace t = .ok p.leftover) :
    p.slot.result = (do
      let t' ← inPlace t
      let t'' ← applyRules Rule.all t'
      return slot t' t'') := by
  cases h : p.result with
  | error cause =>
      rw [h] at result
      cases hp : inPlace t with
      | error _ => simp_all [Progress.slot, normalize, Except.map, Except.bind, bind]
      | ok t' =>
          have hr : applyRules Rule.all t' = .error cause := by
            rw [result, normalize, hp, Except.bind]
          simp [Progress.slot, h, hr, Except.map, Except.bind, bind]
  | ok r =>
      have hp := leftover r h
      have hr : applyRules Rule.all p.leftover = .ok r := by
        rw [← h, result, normalize, hp, Except.bind]
      simp [Progress.slot, h, hp, hr, Except.map, Except.bind, bind, pure, Except.pure]

mutual

/-- One pass through a term has the result of normalizing it. -/
theorem result_visit (depth : Nat) : ∀ t : Term, (visit depth t).result = normalize t
  | .atom _ => rfl
  | .quoted _ => rfl
  | .list items => by
      rw [visit, Progress.result_applyRules, Progress.result_map, result_visitAll, normalize,
        inPlace]
  | .func params body => by
      rw [visit, Progress.result_map, result_visitAll, normalize, inPlace]
      cases normalizeAll body <;> simp [Except.map, Except.bind, applyRules_func]
  | .typeDef name fields ctor methods => by
      rw [visit, Progress.result_map, Progress.result_members, result_visitMethods,
        result_slot (result_visit (depth + 1) ctor) (leftover_visit (depth + 1) ctor), normalize,
        inPlace]
      cases inPlace ctor with
      | error _ => rfl
      | ok ctor' =>
          cases h : applyRules Rule.all ctor' with
          | error _ => simp [h, bind, Except.bind, Except.map]
          | ok _ =>
              cases normalizeMethods methods <;>
                simp [h, bind, Except.bind, Except.map, pure, Except.pure, applyRules_typeDef]

/-- After a success a term stands in its place with its parts normalized. -/
theorem leftover_visit (depth : Nat) :
    ∀ (t r : Term), (visit depth t).result = .ok r → inPlace t = .ok (visit depth t).leftover
  | .atom _, _, _ => rfl
  | .quoted _, _, _ => rfl
  | .list items, r, h => by
      rw [visit, Progress.result_applyRules, Progress.result_map] at h
      rw [inPlace, visit, Progress.leftover_applyRules, ← result_visitAll (depth + 1)]
      cases hi : (visitAll (depth + 1) items).result with
      | error _ => simp [hi, Except.map, Except.bind] at h
      | ok _ => rw [Progress.leftover_map _ _ hi]; rfl
  | .func params body, r, h => by
      rw [visit, Progress.result_map] at h
      rw [inPlace, visit, ← result_visitAll (depth + 1)]
      cases hi : (visitAll (depth + 1) body).result with
      | error _ => simp [hi, Except.map] at h
      | ok _ => rw [Progress.leftover_map _ _ hi]; rfl
  | .typeDef name fields ctor methods, r, h => by
      rw [visit, Progress.result_map] at h
      rw [visit]
      cases hm : ((visit (depth + 1) ctor).slot.members methods
          fun _ => visitMethods (depth + 1) methods).result with
      | error _ => rw [hm] at h; simp [Except.map] at h
      | ok _ =>
          rw [Progress.leftover_map _ _ hm]
          rw [Progress.result_members, result_visitMethods,
            result_slot (result_visit (depth + 1) ctor) (leftover_visit (depth + 1) ctor)] at hm
          rw [inPlace]
          cases hc : inPlace ctor with
          | error _ => simp [hc, bind, Except.bind] at hm
          | ok ctor' =>
              cases hr : applyRules Rule.all ctor' with
              | error _ => simp [hc, hr, bind, Except.bind] at hm
              | ok _ =>
                  cases hn : normalizeMethods methods with
                  | error _ =>
                      simp [hc, hr, hn, bind, Except.bind, Except.map, pure, Except.pure] at hm
                  | ok _ =>
                      simp [hc, hr, hn, bind, Except.bind, Except.map, pure, Except.pure] at hm
                      simp [hr, bind, Except.bind, pure, Except.pure, ← hm]

/-- One pass through several terms has the result of normalizing them in order. -/
theorem result_visitAll (depth : Nat) :
    ∀ ts : List Term, (visitAll depth ts).result = normalizeAll ts
  | [] => rfl
  | t :: ts => by
      rw [visitAll, Progress.result_cons, result_visit, result_visitAll, normalize, normalizeAll]
      cases inPlace t with
      | error _ => rfl
      | ok t' =>
          cases h : applyRules Rule.all t' with
          | error _ => simp [h, bind, Except.bind]
          | ok _ =>
              cases normalizeAll ts <;> simp [h, bind, Except.bind, Except.map, pure, Except.pure]

/-- One pass through methods has the result of normalizing them in order. -/
theorem result_visitMethods (depth : Nat) :
    ∀ ms : List (Symbol × Term), (visitMethods depth ms).result = normalizeMethods ms
  | [] => rfl
  | (name, t) :: ms => by
      rw [visitMethods, Progress.result_cons, result_visitMethods, normalizeMethods]
      have hs := result_slot (result_visit depth t) (leftover_visit depth t)
      simp only [Progress.named]
      rw [hs]
      cases inPlace t with
      | error _ => rfl
      | ok t' =>
          cases h : applyRules Rule.all t' with
          | error _ => simp [h, bind, Except.bind, Except.map]
          | ok _ =>
              cases normalizeMethods ms <;>
                simp [h, bind, Except.bind, Except.map, pure, Except.pure]

end

end Term
end RegisterLisp
