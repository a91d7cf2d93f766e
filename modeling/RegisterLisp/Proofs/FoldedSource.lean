import RegisterLisp.CommandLine
import RegisterLisp.Proofs.Binders
import RegisterLisp.Proofs.Reading.RoundTrip

/-!
# Folded text as a source

The folded forms of a program are printed one to a line, and a function literal is printed as the
list that it would be recognized from.  `asSource` is that list, and it has the same text.  So what
the reader returns for the folded text is known, and it remains to see that it is normalized to the
forms that were printed.

The one place where this could fail is a parameter list, which is normalized as if it were a form.
But it was normalized before, so there is nothing left to do about it, and it is no nop, for then it
would have been dropped.  `FromSource` keeps this in mind, together with what is needed for reading:
symbols are words and what is quoted was read.  Folding computes literals only and never a symbol.
-/

namespace RegisterLisp

/-- Atoms whose text denotes them: numbers have to be finite, and no character of a string may be
written by its code point. -/
def Atom.IsStable : Atom → Prop
  | .number x => x.isNaN = false ∧ x.isInf = false
  | .string s => ∀ c ∈ s.toList, Text.isSpelledOut c = false
  | _ => True

/-- Such an atom is what the reader makes of its text. -/
theorem Atom.IsStable.reread_eq {a : Atom} (h : a.IsStable) : a.reread = a := by
  rw [reread_eq_iff]
  rintro x rfl
  exact h.2

theorem Atom.IsStable.hasSpelledOut_eq {a : Atom} (h : a.IsStable) : a.hasSpelledOut = false := by
  rw [hasSpelledOut_eq_false_iff]
  rintro s rfl
  exact h

namespace Term

open Reduction

variable {items : List Term} {t r : Term}

/-! ## Type definitions -/

mutual

def hasTypeDef : Term → Bool
  | .atom _ => false
  | .list items => anyTypeDef items
  | .quoted inner => hasTypeDef inner
  | .func _ body => anyTypeDef body
  | .typeDef _ _ _ _ => true

def anyTypeDef : List Term → Bool
  | [] => false
  | t :: ts => hasTypeDef t || anyTypeDef ts

end

/-! ## Source forms -/

mutual

/-- A term with its function literals as lists.  Type definitions are left as they are. -/
def asSource : Term → Term
  | .atom a => .atom a
  | .list items => .list (asSourceAll items)
  | .quoted inner => .quoted inner
  | .func params body =>
      .list (.symbol Symbol.func :: .list (params.map .symbol) :: asSourceAll body)
  | .typeDef name fields ctor methods => .typeDef name fields ctor methods

def asSourceAll : List Term → List Term
  | [] => []
  | t :: ts => asSource t :: asSourceAll ts

end

theorem asSourceAll_eq_map (ts : List Term) : asSourceAll ts = ts.map asSource := by
  induction ts with
  | nil => rfl
  | cons t ts ih => rw [asSourceAll, ih, List.map_cons]

theorem anyTypeDef_eq_false_iff {ts : List Term} :
    anyTypeDef ts = false ↔ ∀ t ∈ ts, t.hasTypeDef = false := by
  induction ts with
  | nil => simp [anyTypeDef]
  | cons t ts ih => simp [anyTypeDef, ih]

/-- The atoms of several terms are those of each of them. -/
theorem mem_atomsAll {a : Atom} {ts : List Term} : a ∈ atomsAll ts ↔ ∃ t ∈ ts, a ∈ t.atoms := by
  induction ts with
  | nil => simp [atomsAll]
  | cons t ts ih => simp [atomsAll, ih]

theorem renderAll_symbols (names : List Symbol) :
    renderAll (names.map symbol) = names.map Symbol.name := by
  induction names with
  | nil => rfl
  | cons s names ih => rw [List.map_cons, renderAll, ih, List.map_cons]; rfl

mutual

/-- A function literal is printed as the list that it is recognized from. -/
theorem render_asSource : ∀ t : Term, (asSource t).render = t.render
  | .atom _ => rfl
  | .list items => by rw [asSource, render, renderAll_asSource items, render]
  | .quoted _ => rfl
  | .func params body => by
      have hparams : (Term.list (params.map symbol)).render =
          "(" ++ spaced (params.map Symbol.name) ++ ")" := by
        rw [render, renderAll_symbols]
      rw [asSource, render, renderAll, renderAll, hparams, renderAll_asSource body, render]
      rfl
  | .typeDef _ _ _ _ => rfl

/-- Function literals print as the lists that they were read from. -/
theorem renderAll_asSource : ∀ ts : List Term, renderAll (asSourceAll ts) = renderAll ts
  | [] => rfl
  | t :: ts => by
      rw [asSourceAll, renderAll, render_asSource t, renderAll_asSource ts, renderAll]

end

/-! ## What forms of a text are made of -/

/-- A term whose symbols are words and whose quotes were read; parameter lists are such that they
are recognized again. -/
inductive FromSource : Term → Prop
  | symbol {s : Symbol} (h : (Atom.symbol s).IsReadable) : FromSource (.symbol s)
  | literal {a : Atom} (h : a.isLiteral = true) : FromSource (.atom a)
  | quoted {t : Term} (h : Readable t) : FromSource (.quoted t)
  | list {items : List Term} (hitems : ∀ t ∈ items, FromSource t) : FromSource (.list items)
  | func {params : List Symbol} {body : List Term}
      (hwords : ∀ p ∈ params, (Atom.symbol p).IsReadable)
      (hparams : Normal (.list (params.map Term.symbol)))
      (hnop : ¬ HeadedBy Symbol.nop (.list (params.map Term.symbol)))
      (hbody : ∀ t ∈ body, FromSource t) : FromSource (.func params body)
  | typeDef (name : Symbol) (fields : List Symbol) (ctor : Term) (methods : List (Symbol × Term)) :
      FromSource (.typeDef name fields ctor methods)

/-- An atom that was read comes from source text. -/
theorem fromSource_atom {a : Atom} (h : a.IsReadable) : FromSource (.atom a) := by
  cases a with
  | symbol s => exact FromSource.symbol h
  | _ => exact FromSource.literal rfl

/-- A list of names is a list of symbols. -/
theorem eq_symbols_of_names? {names : List Symbol} (h : names? access t = some names) :
    t = .list (names.map symbol) := by
  have hsymbols : ∀ {ts : List Term} {names : List Symbol},
      ts.mapM access.symbol? = some names → ts = names.map symbol := by
    intro ts
    induction ts with
    | nil =>
        intro names h
        cases h
        rfl
    | cons t ts ih =>
        intro names h
        simp only [List.mapM_cons, Option.bind_eq_bind, Option.bind_eq_some_iff] at h
        obtain ⟨s, hs, rest, hrest, hnames⟩ := h
        cases hnames
        rw [ih hrest, eq_symbol_of_view hs]
        rfl
  obtain ⟨ts, hts, hnames⟩ := Option.bind_eq_some_iff.1 h
  cases t <;> cases hts
  rw [hsymbols hnames]

/-- A symbol that comes from source text is a word. -/
theorem FromSource.isReadable_symbol {s : Symbol} (h : FromSource (.symbol s)) :
    (Atom.symbol s).IsReadable := by
  cases h with
  | symbol h => exact h
  | literal h => cases h

/-- The parameter list of a function literal was normalized and was not dropped. -/
theorem fromSource_of_funcLiteral {f : Lambda Term} (hnormal : ∀ t ∈ items, Normal t)
    (hitems : ∀ t ∈ items, FromSource t) (hnops : dropNops access items = none)
    (h : funcLiteral access items = .ok (some (.func f))) : FromSource (.func f.params f.body) := by
  have hfree := not_nop_of_funcLiteral hnops h
  obtain ⟨params, body, heq, -, head, list, rfl, hnames⟩ := funcLiteral_eq_some h
  cases heq
  obtain rfl := eq_symbols_of_names? hnames
  have hlist := hitems (.list (params.map symbol)) (by simp)
  refine FromSource.func ?_ (hnormal _ (by simp)) (hfree _ (by simp)) fun t ht =>
    hitems t (by simp [ht])
  cases hlist with
  | list hsymbols => exact fun p hp => (hsymbols _ (List.mem_map_of_mem hp)).isReadable_symbol

/-- Rules keep terms from source text such. -/
theorem Reduced.fromSource (hnormal : ∀ t ∈ items, Normal t) (hitems : ∀ t ∈ items, FromSource t)
    (h : Reduced items r) : FromSource r := by
  cases h with
  | literal hv => exact FromSource.literal hv
  | item ht => exact hitems r ht
  | list hkept _ =>
      refine FromSource.list ?_
      intro t ht
      rcases hkept t ht with ht | ⟨v, rfl, hv⟩
      · exact hitems t ht
      · exact FromSource.literal hv
  | func hkept hnops h =>
      exact fromSource_of_funcLiteral (fun t ht => hnormal t (hkept t ht))
        (fun t ht => hitems t (hkept t ht)) hnops h
  | typeDef _ _ => exact FromSource.typeDef _ _ _ _

/-- So does normalizing a term that was read. -/
theorem Readable.fromSource_of_normalize (hread : Readable t) (h : normalize t = .ok r) :
    FromSource r := by
  induction hread generalizing r with
  | atom ha =>
      cases h
      exact fromSource_atom ha
  | quoted hinner _ =>
      cases h
      exact FromSource.quoted hinner
  | list _ ih =>
      rcases bind_eq_ok h with ⟨t', ht', hrules⟩
      rcases map_eq_ok ht' with ⟨items', hitems', rfl⟩
      have hnormal := normal_of_normalizeAll hitems'
      refine (reduced_of_applyRules hnormal hrules).fromSource hnormal ?_
      intro u' hu'
      rcases exists_of_mem_normalizeAll hitems' u' hu' with ⟨u, hu, hu'⟩
      exact ih u hu hu'

/-! ## Reading the printed forms -/

/-- A term that is read back from its text: it holds no type definition, and all its atoms denote
themselves. -/
structure Rereadable (t : Term) : Prop where
  types : t.hasTypeDef = false
  atoms : ∀ a ∈ t.atoms, a.IsStable

/-- The items of a list that is read back are read back. -/
theorem Rereadable.of_list (h : Rereadable (.list items)) (ht : t ∈ items) : Rereadable t where
  types := anyTypeDef_eq_false_iff.1 h.types t ht
  atoms := fun a ha => h.atoms a (mem_atomsAll.2 ⟨t, ht, ha⟩)

theorem Rereadable.of_func {params : List Symbol} {body : List Term}
    (h : Rereadable (.func params body)) (ht : t ∈ body) : Rereadable t where
  types := anyTypeDef_eq_false_iff.1 h.types t ht
  atoms := fun a ha => h.atoms a (mem_atomsAll.2 ⟨t, ht, ha⟩)

/-- A term that the reader returns for its own text. -/
structure Legible (t : Term) : Prop where
  readable : Readable t
  atoms : ∀ a ∈ t.atoms, a.IsStable

/-- A list of legible terms is legible. -/
theorem legible_list (h : ∀ t ∈ items, Legible t) : Legible (.list items) where
  readable := Readable.list fun t ht => (h t ht).readable
  atoms := by
    intro a ha
    obtain ⟨t, ht, ha⟩ := mem_atomsAll.1 ha
    exact (h t ht).atoms a ha

theorem legible_symbol {s : Symbol} (h : (Atom.symbol s).IsReadable) : Legible (.symbol s) where
  readable := Readable.atom h
  atoms := by
    intro a ha
    obtain rfl := List.mem_singleton.1 ha
    trivial

/-- The word `func` is read as a symbol. -/
theorem isReadable_func : (Atom.symbol Symbol.func).IsReadable :=
  ⟨by decide +kernel, by decide +kernel⟩

/-- A term from source text, with its literals as lists, is what the reader returns for its text. -/
theorem FromSource.legible_asSource (h : FromSource t) (hreread : Rereadable t) :
    Legible (asSource t) := by
  induction h with
  | symbol h => exact legible_symbol h
  | @literal a h =>
      refine ⟨Readable.atom ?_, hreread.atoms⟩
      have hstable := hreread.atoms a List.mem_cons_self
      cases a with
      | number x => exact hstable.1
      | symbol s => cases h
      | _ => trivial
  | quoted h => exact ⟨Readable.quoted h, hreread.atoms⟩
  | list _ ih =>
      rw [asSource, asSourceAll_eq_map]
      refine legible_list ?_
      intro t' ht'
      obtain ⟨t, ht, rfl⟩ := List.mem_map.1 ht'
      exact ih t ht (hreread.of_list ht)
  | func hwords _ _ _ ih =>
      rw [asSource, asSourceAll_eq_map]
      refine legible_list ?_
      intro t' ht'
      -- The list of a literal: the keyword, the parameters and the body.
      rcases List.mem_cons.1 ht' with rfl | ht'
      · exact legible_symbol isReadable_func
      · rcases List.mem_cons.1 ht' with rfl | ht'
        · refine legible_list ?_
          intro t' ht'
          obtain ⟨p, hp, rfl⟩ := List.mem_map.1 ht'
          exact legible_symbol (hwords p hp)
        · obtain ⟨t, ht, rfl⟩ := List.mem_map.1 ht'
          exact ih t ht (hreread.of_func ht)
  | typeDef _ _ _ _ => cases hreread.types

def printed (ts : List Term) : String :=
  String.join (ts.map fun t => t.render ++ "\n")

theorem printed_cons (t : Term) (ts : List Term) :
    (printed (t :: ts)).toList = t.render.toList ++ '\n' :: (printed ts).toList := by
  simp [printed]

/-- The reader takes the tokens of a legible term for this term. -/
theorem Legible.steps_eq (h : Legible t) (r : Reading) (after : List Token) :
    r.steps (t.scanned after) = (Reading.place r.done r.openings t).steps after := by
  have hreread : t.reread = t :=
    (reread_eq_iff h.readable).2 fun a ha => (h.atoms a ha).reread_eq
  have hspelled : t.atoms.any Atom.hasSpelledOut = false := by
    rw [List.any_eq_false]
    intro a ha
    simp [(h.atoms a ha).hasSpelledOut_eq]
  rw [steps_scanned h.readable, hspelled, hreread]
  rfl

/-- Each line is read as one form. -/
theorem steps_printed {ts : List Term} (h : ∀ t ∈ ts, Legible t) (done : List Term) :
    Reading.steps ⟨done, []⟩ (Token.scan .between (printed ts).toList) =
      .ok ⟨ts.reverse ++ done, []⟩ := by
  induction ts generalizing done with
  | nil => rfl
  | cons t ts ih =>
      have ht := h t List.mem_cons_self
      have hrest := ih (fun u hu => h u (List.mem_cons_of_mem t hu)) (t :: done)
      -- The line feed ends the last word of the line and is then skipped.
      have hline : Token.scan .between ('\n' :: (printed ts).toList) =
          Token.scan .between (printed ts).toList := rfl
      rw [printed_cons, scan_render ht.readable (Token.delimited_cons rfl _), ht.steps_eq, hline]
      simpa [Reading.place] using hrest

/-- Legible terms that are printed one to a line are read back, all of them. -/
theorem readAll_printed {ts : List Term} (h : ∀ t ∈ ts, Legible t) :
    readAll (printed ts) = .ok ts := by
  have hsteps := steps_printed h []
  have hstart : ({} : Reading) = ⟨[], []⟩ := rfl
  rw [readAll, Token.ofText, hstart, hsteps]
  simp [Reading.forms]

/-- Printing does not tell a literal from its list. -/
theorem printed_asSource (ts : List Term) : printed (ts.map asSource) = printed ts := by
  have hlines : (fun t => (asSource t).render ++ "\n") = fun t => t.render ++ "\n" := by
    funext t
    rw [render_asSource]
  rw [printed, List.map_map, Function.comp_def, hlines, printed]

/-! ## Normalizing the source forms -/

/-- Terms that normalize to literals one by one do so as a program. -/
theorem normalizeAll_asSource {ts : List Term} (h : ∀ t ∈ ts, normalize (asSource t) = .ok t) :
    normalizeAll (ts.map asSource) = .ok ts := by
  induction ts with
  | nil => rfl
  | cons t ts ih =>
      have hrest := ih fun u hu => h u (List.mem_cons_of_mem t hu)
      exact normalizeAll_cons_eq_ok.2 ⟨t, ts, h t List.mem_cons_self, hrest, rfl⟩

/-- A function form with a parameter list that is kept, and without nops in its body. -/
theorem normalize_func_source {params : List Symbol} {body body' : List Term}
    (hparams : Normal (.list (params.map symbol)))
    (hnop : ¬ HeadedBy Symbol.nop (.list (params.map symbol))) (hdistinct : params.Nodup)
    (hbody : normalizeAll body = .ok body') (hnops : ∀ t ∈ body', ¬ HeadedBy Symbol.nop t) :
    normalize (.list (.symbol Symbol.func :: .list (params.map symbol) :: body)) =
      .ok (.func params body') := by
  have hargs : normalizeAll (.list (params.map symbol) :: body) =
      .ok (.list (params.map symbol) :: body') :=
    normalizeAll_cons_eq_ok.2 ⟨_, _, hparams.normalize_eq, hbody, rfl⟩
  have hkept : ((Term.list (params.map symbol) :: body').filter fun t => !isNop access t) =
      .list (params.map symbol) :: body' := by
    rw [List.filter_eq_self]
    intro t ht
    rw [Bool.not_eq_true', Bool.eq_false_iff, Ne, isNop_iff]
    rcases List.mem_cons.1 ht with rfl | ht
    · exact hnop
    · exact hnops t ht
  have hfunc : Rule.func.apply access (.symbol Symbol.func :: .list (params.map symbol) :: body') =
      .ok (some (.func ⟨params, body'⟩)) := funcLiteral_symbols hdistinct body'
  rw [normalize_func hargs, hkept, applyRules_some hfunc]
  rfl

/-- The source form of a normal form is normalized to it. -/
theorem FromSource.normalize_asSource (h : FromSource t) (hnormal : Normal t)
    (hformed : WellFormed t) (htypes : t.hasTypeDef = false) : normalize (asSource t) = .ok t := by
  induction h with
  | symbol _ => rfl
  | literal _ => rfl
  | quoted _ => rfl
  | @list items _ ih =>
      cases hnormal with
      | list hnormal hirreducible =>
          cases hformed with
          | list hformed _ _ _ =>
              have hitems : normalizeAll (items.map asSource) = .ok items :=
                normalizeAll_asSource fun t ht => ih t ht (hnormal t ht) (hformed t ht)
                  (anyTypeDef_eq_false_iff.1 htypes t ht)
              rw [asSource, asSourceAll_eq_map, normalize, inPlace, hitems]
              exact hirreducible.applyRules_all
  | @func params body _ hparams hnop _ ih =>
      cases hnormal with
      | func hnormal =>
          cases hformed with
          | func hformed hdistinct hnops =>
              have hbody : normalizeAll (body.map asSource) = .ok body :=
                normalizeAll_asSource fun t ht => ih t ht (hnormal t ht) (hformed t ht)
                  (anyTypeDef_eq_false_iff.1 htypes t ht)
              rw [asSource, asSourceAll_eq_map]
              exact normalize_func_source hparams hnop hdistinct hbody hnops
  | typeDef _ _ _ _ => cases htypes

end Term

/-! ## The folded text of a program -/

namespace Compiler

open Term (asSource printed)

/-- Folding reads the text and then normalizes its forms. -/
theorem fold_eq_ok_iff {text : String} {forms : List Term} :
    (fold text).result = .ok forms ↔
      ∃ program, Term.readAll text = .ok program ∧ Term.normalizeAll program = .ok forms := by
  rw [fold, read]
  cases Term.readAll text with
  | error cause => simp [Except.mapError]
  | ok program =>
      cases h : Term.normalizeAll program <;> simp [normalize, h, Except.mapError]

/-- Compiling a text generates the code of what folding makes of it. -/
theorem compile_result {text : String} {forms : List Term} (h : (fold text).result = .ok forms) :
    (compile text).result = (assemble forms).result := by
  rw [compile]
  simp only [h]

/-- The folded text is read as the source forms of what was folded. -/
theorem readAll_folded {source : String} {forms : List Term}
    (h : (fold source).result = .ok forms) (hreread : ∀ t ∈ forms, t.Rereadable) :
    Term.readAll (printed forms) = .ok (forms.map asSource) ∧
      Term.normalizeAll (forms.map asSource) = .ok forms := by
  obtain ⟨program, hread, hforms⟩ := fold_eq_ok_iff.1 h
  have horigin : ∀ t ∈ forms, t.FromSource ∧ t.Normal ∧ t.WellFormed := by
    intro t ht
    obtain ⟨e, he, hnormal⟩ := Term.exists_of_mem_normalizeAll hforms t ht
    have hreadable := Term.readable_of_readAll hread e he
    exact ⟨hreadable.fromSource_of_normalize hnormal, Term.normal_of_normalize hnormal,
      hreadable.wellFormed_of_normalize hnormal⟩
  constructor
  · rw [← Term.printed_asSource]
    refine Term.readAll_printed ?_
    intro t' ht'
    obtain ⟨t, ht, rfl⟩ := List.mem_map.1 ht'
    exact (horigin t ht).1.legible_asSource (hreread t ht)
  · refine Term.normalizeAll_asSource ?_
    intro t ht
    obtain ⟨hsource, hnormal, hformed⟩ := horigin t ht
    exact hsource.normalize_asSource hnormal hformed (hreread t ht).types

end Compiler

namespace CommandLine

open Term (printed)

/-- The stages of the command line up to the normal forms are those of the compiler. -/
theorem stages_of_fold {text : String} {forms : List Term}
    (h : (Compiler.fold text).result = .ok forms) :
    ∃ program, Compiler.read text = .ok program ∧
      (Compiler.normalize program).result = .ok forms := by
  obtain ⟨program, hread, hforms⟩ := Compiler.fold_eq_ok_iff.1 h
  refine ⟨program, ?_, ?_⟩
  · rw [Compiler.read, hread]
    rfl
  · rw [Compiler.normalize, hforms]
    rfl

/-- Folding a program prints its normal forms. -/
theorem process_fold [ReadWording] {text : String} {forms : List Term}
    (h : (Compiler.fold text).result = .ok forms) (debug : Bool) (path : String) :
    ∃ log, process ⟨debug, .fold path⟩ text = .ok (printed forms, log) := by
  obtain ⟨program, hread, hforms⟩ := stages_of_fold h
  simp only [process, hread, hforms]
  exact ⟨_, rfl⟩

/-- Compiling a program writes the assembly of its normal forms. -/
theorem process_compile [ReadWording] {text assembly : String} {forms : List Term}
    (h : (Compiler.fold text).result = .ok forms)
    (hassembly : (Compiler.assemble forms).result = .ok assembly) (debug : Bool) (path : String)
    (output : Option String) :
    ∃ log, process ⟨debug, .compile path output⟩ text = .ok (assembly, log) := by
  obtain ⟨program, hread, hforms⟩ := stages_of_fold h
  simp only [process, hread, hforms, hassembly]
  exact ⟨_, rfl⟩

/-- Where no type definition is left and all atoms denote themselves, the folded text of a program
is a source with the same normal forms.  So folding prints the same text again, and compiling either
of the two texts gives the assembly of these forms, or the error in it. -/
theorem folded_text_stable [ReadWording] {source : String} {forms : List Term}
    (h : (Compiler.fold source).result = .ok forms)
    (htypes : ∀ t ∈ forms, t.hasTypeDef = false)
    (hnumbers : ∀ t ∈ forms, ∀ x, .number x ∈ t.atoms → x.isNaN = false ∧ x.isInf = false)
    (hstrings : ∀ t ∈ forms, ∀ s, .string s ∈ t.atoms →
      ∀ c ∈ s.toList, Text.isSpelledOut c = false) :
    (∀ debug path, ∃ log, process ⟨debug, .fold path⟩ source = .ok (printed forms, log)) ∧
      (∀ debug path, ∃ log, process ⟨debug, .fold path⟩ (printed forms) =
        .ok (printed forms, log)) ∧
      (Compiler.fold (printed forms)).result = .ok forms ∧
      (Compiler.compile source).result = (Compiler.assemble forms).result ∧
      (Compiler.compile (printed forms)).result = (Compiler.assemble forms).result ∧
      ∀ assembly, (Compiler.assemble forms).result = .ok assembly → ∀ debug path output,
        (∃ log, process ⟨debug, .compile path output⟩ source = .ok (assembly, log)) ∧
          ∃ log, process ⟨debug, .compile path output⟩ (printed forms) = .ok (assembly, log) := by
  have hreread : ∀ t ∈ forms, t.Rereadable := by
    intro t ht
    refine ⟨htypes t ht, ?_⟩
    intro a ha
    cases a with
    | number x => exact hnumbers t ht x ha
    | string s => exact hstrings t ht s ha
    | _ => trivial
  -- The printed forms are read back and fold to themselves, so both texts go the same way.
  have hagain : (Compiler.fold (printed forms)).result = .ok forms :=
    Compiler.fold_eq_ok_iff.2 ⟨_, Compiler.readAll_folded h hreread⟩
  refine ⟨process_fold h, process_fold hagain, hagain, Compiler.compile_result h,
    Compiler.compile_result hagain, ?_⟩
  intro assembly hassembly debug path output
  exact ⟨process_compile h hassembly debug path output,
    process_compile hagain hassembly debug path output⟩

/-- A program with an operator among its parameters, a function literal behind a nop, and a call
with an operator form that goes away. -/
def nestedSource : String :=
  "(define scale (func (or x y) (nop) ((nop) func (k) (+ 1 k 2))))" ++
    "(scale (and 4) \"a\n\" 3)"

def nestedForms : List Term :=
  [.list [.symbol Symbol.define, .symbol ⟨"scale"⟩, .func [⟨"or"⟩, ⟨"x"⟩, ⟨"y"⟩] [.func [⟨"k"⟩]
      [.list [.symbol ⟨"+"⟩, .symbol ⟨"k"⟩, .atom (.number 3.0)]]]],
    .list [.symbol ⟨"scale"⟩, .atom (.number 4.0), .atom (.string "a\n"),
      .atom (.number 3.0)]]

def nestedText : String :=
  "(define scale (func (or x y) (func (k) (+ k 3))))\n(scale 4 \"a\\n\" 3)\n"

def nestedAssembly : String :=
  String.join (
    ["// (define scale (func (or x y) (func (k) (+ k 3))))",
      ".scale:",
      "        jmpl @_skip_1__",
      "        @_anonfunc_0__:",
      "                mov r32 r4",
      "                faddi r32 3.0",
      "                return r32",
      "                // end of function @_anonfunc_0__",
      "        @_skip_1__:",
      "        return @_anonfunc_0__",
      "        // end of function .scale",
      "// (scale 4 \"a\\n\" 3)",
      "load r32 4.0",
      "load r33 \"a\\n\"",
      "load r34 3.0",
      "mov r4 r32",
      "mov r5 r33",
      "mov r6 r34",
      "call .scale"].map (· ++ "\n"))

theorem folded_text_stable_nested :
    (∀ debug path, ∃ log, process ⟨debug, .fold path⟩ nestedSource = .ok (nestedText, log)) ∧
      (∀ debug path, ∃ log, process ⟨debug, .fold path⟩ nestedText = .ok (nestedText, log)) ∧
      (Compiler.compile nestedSource).result = .ok nestedAssembly ∧
      (Compiler.compile nestedText).result = .ok nestedAssembly ∧
      ∀ debug path output, ∃ log,
        process ⟨debug, .compile path output⟩ nestedText = .ok (nestedAssembly, log) := by
  have h : (Compiler.fold nestedSource).result = .ok nestedForms := by
    decide +kernel
  have htext : printed nestedForms = nestedText := by
    decide +kernel
  have hassembly : (Compiler.assemble nestedForms).result = .ok nestedAssembly := by
    decide +kernel
  have hatoms : ∀ t ∈ nestedForms, ∀ a ∈ t.atoms,
      (∃ s, a = .symbol s) ∨ a = .number 3.0 ∨ a = .number 4.0 ∨ a = .string "a\n" := by
    simp [nestedForms, Term.atoms, Term.atomsAll, Term.symbol]
  have hnumbers : ∀ t ∈ nestedForms, ∀ x, .number x ∈ t.atoms →
      x.isNaN = false ∧ x.isInf = false := by
    intro t ht x hx
    rcases hatoms t ht _ hx with ⟨s, hs⟩ | hx | hx | hs
    · cases hs
    · cases hx
      decide +kernel
    · cases hx
      decide +kernel
    · cases hs
  have hstrings : ∀ t ∈ nestedForms, ∀ s, .string s ∈ t.atoms →
      ∀ c ∈ s.toList, Text.isSpelledOut c = false := by
    intro t ht s hs
    rcases hatoms t ht _ hs with ⟨s', hs⟩ | hx | hx | hs
    · cases hs
    · cases hx
    · cases hx
    · cases hs
      exact (Atom.hasSpelledOut_eq_false_iff (.string "a\n")).1 (by decide +kernel) _ rfl
  obtain ⟨hsource, hfolded, -, hcompile, hagain, hprocess⟩ :=
    folded_text_stable h (by decide +kernel) hnumbers hstrings
  rw [htext] at hsource hfolded hagain hprocess
  refine ⟨hsource, hfolded, hcompile.trans hassembly, hagain.trans hassembly, ?_⟩
  exact fun debug path output => (hprocess _ hassembly debug path output).2

end CommandLine
end RegisterLisp
