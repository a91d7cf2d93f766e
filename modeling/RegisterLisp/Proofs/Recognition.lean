import RegisterLisp.Proofs.Normalization
import RegisterLisp.Proofs.Reading.Readable

/-!
# Recognized definitions

What the lowering takes for granted about a program.  In the normal form of a form that was read
from a text, every list headed by `func` or `def-type` has been turned into a definition, nops are
gone from lists and function bodies, and the definitions are consistent: names that are declared
together are distinct, a constructor takes the fields of its type, and a method takes its receiver
first.  `WellFormed` says so of a term, outside of quotes.

The rules look at a list with well-formed items, and what they make of it is built from these items
and from literals (`Reduced.wellFormed`).
-/

namespace RegisterLisp

/-! ## Names that occur twice -/

namespace Symbol

theorem repeated?_eq_none_iff {seen names : List Symbol} :
    repeated? seen names = none ↔ names.Nodup ∧ ∀ s ∈ names, s ∉ seen := by
  induction names generalizing seen with
  | nil => simp [repeated?]
  | cons name names ih =>
      rw [repeated?]
      split
      · rename_i hseen
        simp [hseen]
      · rename_i hseen
        rw [ih, List.nodup_cons]
        grind

/-- Names are distinct where no repetition is found. -/
theorem nodup_of_repeated? {names : List Symbol} (h : repeated? [] names = none) : names.Nodup :=
  (repeated?_eq_none_iff.1 h).1

end Symbol

namespace Term

open Reduction

variable {items : List Term} {t r : Term}

/-! ## The predicate -/

/-- A list whose first item is the symbol. -/
def HeadedBy (s : Symbol) (t : Term) : Prop :=
  ∃ args, t = .list (.symbol s :: args)

/-- A list has one head. -/
theorem HeadedBy.unique {s s' : Symbol} (h : HeadedBy s t) (h' : HeadedBy s' t) : s = s' := by
  rcases h with ⟨args, rfl⟩
  rcases h' with ⟨args', heq⟩
  cases heq
  rfl

/-- Outside of quotes no definition is left in source form, no nop stands where it could be left
out, and all definitions are consistent. -/
inductive WellFormed : Term → Prop
  | atom (a : Atom) : WellFormed (.atom a)
  | quoted (t : Term) : WellFormed (.quoted t)
  | list {items : List Term} (hitems : ∀ t ∈ items, WellFormed t)
      (hfunc : ¬ HeadedBy Symbol.func (.list items))
      (htype : ¬ HeadedBy Symbol.defType (.list items))
      (hnops : HeadedBy Symbol.nop (.list items) ∨ ∀ t ∈ items, ¬ HeadedBy Symbol.nop t) :
      WellFormed (.list items)
  | func {params : List Symbol} {body : List Term} (hbody : ∀ t ∈ body, WellFormed t)
      (hparams : params.Nodup) (hnops : ∀ t ∈ body, ¬ HeadedBy Symbol.nop t) :
      WellFormed (.func params body)
  | typeDef {name : Symbol} {fields : List Symbol} {ctorBody : Term}
      {methods : List (Symbol × Term)} (hbody : WellFormed ctorBody)
      (hmethods : ∀ m ∈ methods, WellFormed m.2) (hfields : fields.Nodup)
      (hreceivers : ∀ m ∈ methods, ∃ params body, m.2 = .func (Symbol.this :: params) body)
      (hnames : (name :: name.predicate :: methods.map Prod.fst).Nodup) :
      WellFormed (.typeDef name fields (.func fields [ctorBody]) methods)

/-! ## The rules by the head of a list -/

theorem head?_eq_some_iff {s : Symbol} :
    access.head? items = some s ↔ HeadedBy s (.list items) := by
  constructor
  · intro h
    rcases Option.bind_eq_some_iff.1 h with ⟨head, hhead, hs⟩
    rcases List.head?_eq_some_iff.1 hhead with ⟨args, rfl⟩
    exact ⟨args, by rw [eq_symbol_of_view hs]; rfl⟩
  · rintro ⟨args, heq⟩
    cases heq
    rfl

theorem isNop_iff : isNop access t = true ↔ HeadedBy Symbol.nop t := by
  cases t with
  | list items =>
      rw [← head?_eq_some_iff]
      exact beq_iff_eq
  | _ => simp [isNop, access, view, View.items?, HeadedBy]

/-- Only lists headed by `func` are looked at. -/
theorem funcLiteral_eq_none_iff :
    funcLiteral access items = .ok none ↔ ¬ HeadedBy Symbol.func (.list items) := by
  rw [← head?_eq_some_iff]
  constructor
  · intro h hhead
    simp only [funcLiteral, hhead, bne_self_eq_false, Bool.false_eq_true, if_false] at h
    split at h
    · split at h
      · cases h
      · split at h <;> cases h
    · cases h
  · intro h
    simp [funcLiteral, h]

/-- Only lists headed by `def-type` are looked at. -/
theorem typeDefinition_eq_none_iff :
    typeDefinition access items = .ok none ↔ ¬ HeadedBy Symbol.defType (.list items) := by
  rw [← head?_eq_some_iff]
  constructor
  · intro h hhead
    simp only [typeDefinition, hhead, bne_self_eq_false, Bool.false_eq_true, if_false] at h
    repeat' split at h
    all_goals cases h
  · intro h
    simp [typeDefinition, h]

/-- Nops are left in a list only by a keyword at its head. -/
theorem dropNops_eq_none_iff :
    dropNops access items = none ↔
      HeadedBy Symbol.nop (.list items) ∨ HeadedBy Symbol.defType (.list items) ∨
        ∀ t ∈ items, ¬ HeadedBy Symbol.nop t := by
  rw [← head?_eq_some_iff, ← head?_eq_some_iff]
  unfold dropNops
  split
  · rename_i hkeyword
    simpa [or_assoc] using Or.inl hkeyword
  · rename_i hkeyword
    simp only [Bool.or_eq_true, beq_iff_eq, not_or] at hkeyword
    simp [hkeyword, List.any_eq_true, isNop_iff]

/-! ## What the rules make of a list with well-formed items -/

/-- A list that no rule changes is well-formed if its items are. -/
theorem wellFormed_of_irreducible (hitems : ∀ t ∈ items, WellFormed t) (h : Irreducible items) :
    WellFormed (.list items) := by
  have htype := typeDefinition_eq_none_iff.1 h.typeDef
  have hnops := dropNops_eq_none_iff.1 h.nop
  exact WellFormed.list hitems (funcLiteral_eq_none_iff.1 h.func) htype
    (hnops.imp_right fun hrest => hrest.resolve_left htype)

/-- Nops are removed before a function literal is recognized. -/
theorem not_nop_of_funcLiteral {new : Replacement Term} (hnops : dropNops access items = none)
    (h : funcLiteral access items = .ok (some new)) : ∀ t ∈ items, ¬ HeadedBy Symbol.nop t := by
  have hhead : HeadedBy Symbol.func (.list items) := by
    by_contra hne
    rw [funcLiteral_eq_none_iff.2 hne] at h
    cases h
  rcases dropNops_eq_none_iff.1 hnops with hnop | htype | hfree
  · exact absurd (hhead.unique hnop) (by decide)
  · exact absurd (hhead.unique htype) (by decide)
  · exact hfree

/-- A literal that was recognized is well-formed: its parameters are distinct. -/
theorem wellFormed_of_funcLiteral {new : Replacement Term} (hitems : ∀ t ∈ items, WellFormed t)
    (hnops : dropNops access items = none) (h : funcLiteral access items = .ok (some new)) :
    WellFormed new.toTerm := by
  have hfree := not_nop_of_funcLiteral hnops h
  obtain ⟨params, body, rfl, hrepeated, head, list, rfl, -⟩ := funcLiteral_eq_some h
  exact WellFormed.func (fun t ht => hitems t (by simp [ht]))
    (Symbol.nodup_of_repeated? hrepeated) fun t ht => hfree t (by simp [ht])

/-- A definition without faults adds a receiver to its methods that they do not have, and its
names are distinct. -/
theorem of_typeDefFault?_eq_none {name : Symbol} {methods : List (Symbol × Lambda Term)}
    (h : typeDefFault? access items name methods = none) :
    (∀ m ∈ methods, Symbol.this ∉ m.2.params) ∧
      (name :: name.predicate :: methods.map Prod.fst).Nodup := by
  unfold typeDefFault? at h
  split at h
  · cases h
  · rename_i hfind
    refine ⟨?_, Symbol.nodup_of_repeated? (Option.map_eq_none_iff.1 h)⟩
    intro m hm
    simpa using List.find?_eq_none.1 hfind m hm

/-- A method that does not name its receiver can be given one. -/
theorem wellFormed_of_method {s : Symbol} {f : Lambda Term} (ht : WellFormed t)
    (h : method? access t = some (s, f)) (hthis : Symbol.this ∉ f.params) :
    WellFormed (.func (Symbol.this :: f.params) f.body) := by
  rcases method?_eq_some h with ⟨name, rfl⟩
  cases ht with
  | list hitems _ _ _ =>
      have hfunc : WellFormed (.func f.params f.body) := hitems _ (by simp)
      cases hfunc with
      | func hbody hparams hnops =>
          exact WellFormed.func hbody (List.nodup_cons.2 ⟨hthis, hparams⟩) hnops

/-- So is a type: its names are distinct, and its members fit together. -/
theorem wellFormed_of_typeDefinition {new : Replacement Term}
    (hitems : ∀ t ∈ items, WellFormed t) (h : typeDefinition access items = .ok (some new)) :
    WellFormed new.toTerm := by
  obtain ⟨name, fields, ctorBody, methods, rfl, hctor, hmethods, hrepeated, hfault⟩ :=
    typeDefinition_eq_some h
  obtain ⟨hthis, hnames⟩ := of_typeDefFault?_eq_none hfault
  simp only [Replacement.toTerm, withReceivers, List.map_map]
  refine WellFormed.typeDef (hitems _ hctor) ?_ (Symbol.nodup_of_repeated? hrepeated) ?_ ?_
  · intro m hm
    rcases List.mem_map.1 hm with ⟨⟨s, f⟩, hmem, rfl⟩
    rcases hmethods _ hmem with ⟨t, ht, hmethod⟩
    exact wellFormed_of_method (hitems t ht) hmethod (hthis _ hmem)
  · intro m hm
    rcases List.mem_map.1 hm with ⟨⟨s, f⟩, -, rfl⟩
    exact ⟨f.params, f.body, rfl⟩
  · rw [List.map_map]
    exact hnames

/-- So is whatever the rules put in the place of a list. -/
theorem Reduced.wellFormed (hitems : ∀ t ∈ items, WellFormed t) (h : Reduced items r) :
    WellFormed r := by
  cases h with
  | literal _ => exact WellFormed.atom _
  | item ht => exact hitems r ht
  | list hkept h =>
      refine wellFormed_of_irreducible ?_ h
      intro t ht
      rcases hkept t ht with ht | ⟨v, rfl, -⟩
      · exact hitems t ht
      · exact WellFormed.atom v
  | func hkept hnops h =>
      exact wellFormed_of_funcLiteral (fun t ht => hitems t (hkept t ht)) hnops h
  | typeDef hkept h => exact wellFormed_of_typeDefinition (fun t ht => hitems t (hkept t ht)) h

/-! ## Forms from a text -/

theorem exists_of_mem_normalizeAll {ts ts' : List Term} (h : normalizeAll ts = .ok ts') :
    ∀ t' ∈ ts', ∃ t ∈ ts, normalize t = .ok t' := by
  induction ts generalizing ts' with
  | nil =>
      cases h
      simp
  | cons t ts ih =>
      rcases normalizeAll_cons_eq_ok.1 h with ⟨first, rest, hfirst, hrest, rfl⟩
      intro t' ht'
      rcases List.mem_cons.1 ht' with rfl | ht'
      · exact ⟨t, List.mem_cons_self, hfirst⟩
      · rcases ih hrest t' ht' with ⟨u, hu, hnormal⟩
        exact ⟨u, List.mem_cons_of_mem _ hu, hnormal⟩

/-- A readable form holds no definitions other than those that are recognized in it. -/
theorem Readable.wellFormed_of_normalize (hread : Readable t) (h : normalize t = .ok r) :
    WellFormed r := by
  induction hread generalizing r with
  | atom _ =>
      cases h
      exact WellFormed.atom _
  | quoted _ _ =>
      cases h
      exact WellFormed.quoted _
  | list _ ih =>
      rcases bind_eq_ok h with ⟨t', ht', hrules⟩
      rcases map_eq_ok ht' with ⟨items', hitems', rfl⟩
      refine (reduced_of_applyRules (normal_of_normalizeAll hitems') hrules).wellFormed ?_
      intro u' hu'
      rcases exists_of_mem_normalizeAll hitems' u' hu' with ⟨u, hu, hnormal⟩
      exact ih u hu hnormal

/-- The normal form of every form of a text is well-formed. -/
theorem normalize_read_wellFormed {text : String} {forms : List Term}
    (hread : readAll text = .ok forms) (ht : t ∈ forms) (h : normalize t = .ok r) :
    WellFormed r :=
  (readable_of_readAll hread t ht).wellFormed_of_normalize h

/-- A type whose constructor has a nop for its body, and whose method holds a function literal with
a nop before the keyword. -/
def definitionText : String :=
  "(def-type point (x y) (nop x) (shift (func (dx) (nop) ((nop) func (z) (+ z x dx)))))"

def definitionForm : Term :=
  .list [.symbol Symbol.defType, .symbol ⟨"point"⟩, .list [.symbol ⟨"x"⟩, .symbol ⟨"y"⟩],
    .list [.symbol Symbol.nop, .symbol ⟨"x"⟩],
    .list [.symbol ⟨"shift"⟩, .list [.symbol Symbol.func, .list [.symbol ⟨"dx"⟩],
      .list [.symbol Symbol.nop],
      .list [.list [.symbol Symbol.nop], .symbol Symbol.func, .list [.symbol ⟨"z"⟩],
        .list [.symbol ⟨"+"⟩, .symbol ⟨"z"⟩, .symbol ⟨"x"⟩, .symbol ⟨"dx"⟩]]]]]

def recognizedType : Term :=
  .typeDef ⟨"point"⟩ [⟨"x"⟩, ⟨"y"⟩]
    (.func [⟨"x"⟩, ⟨"y"⟩] [.list [.symbol Symbol.nop, .symbol ⟨"x"⟩]])
    [(⟨"shift"⟩, .func [Symbol.this, ⟨"dx"⟩]
      [.func [⟨"z"⟩] [.list [.symbol ⟨"+"⟩, .symbol ⟨"z"⟩, .symbol ⟨"x"⟩, .symbol ⟨"dx"⟩]]])]

theorem normalize_read_wellFormed_type :
    readAll definitionText = .ok [definitionForm] ∧
      normalize definitionForm = .ok recognizedType ∧ WellFormed recognizedType := by
  have hread : readAll definitionText = .ok [definitionForm] := by
    decide +kernel
  have h : normalize definitionForm = .ok recognizedType := by
    decide +kernel
  exact ⟨hread, h, normalize_read_wellFormed hread List.mem_cons_self h⟩

end Term
end RegisterLisp
