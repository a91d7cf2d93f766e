import RegisterLisp.Proofs.FoldedSource
import RegisterLisp.Proofs.Text.Unquoting

/-!
# Names without blanks

A symbol that is read from a text is a word, so there is no blank in it.  Normalizing keeps names as
they are: what it computes are literals, and the only name that it adds is that of the receiver.  So
all names in a normal form are free of blanks (`Readable.solid_of_normalize`), be they symbols,
parameters, or the names of types, fields and methods.

Then the text of a normal form has no blank but the space (`Solid.isFlat_render`).
-/

namespace RegisterLisp

open Text (IsFlat isBlank)

/-- A name without blanks. -/
def Symbol.IsSolid (s : Symbol) : Prop :=
  ∀ c ∈ s.name.toList, isBlank c = false

theorem Symbol.IsSolid.isFlat {s : Symbol} (h : s.IsSolid) : IsFlat s.name.toList :=
  Text.isFlat_of_not_isBlank h

/-- A name that was read has no blanks. -/
theorem Symbol.isSolid_of_isReadable {s : Symbol} (h : (Atom.symbol s).IsReadable) :
    s.IsSolid := by
  intro c hc
  have hends := h.1.not_ends c hc
  simp only [Token.endsWord, Bool.or_eq_false_iff] at hends
  simp [hends]

/-- The name of a method has none if the names it is made of have none. -/
theorem Symbol.isSolid_method {type name : Symbol} (htype : type.IsSolid) (hname : name.IsSolid) :
    (Symbol.method type name).IsSolid := by
  intro c hc
  rw [Symbol.method, String.toList_append, String.toList_append] at hc
  rcases List.mem_append.1 hc with hc | hc
  · rcases List.mem_append.1 hc with hc | hc
    · exact htype c hc
    · obtain rfl : c = '.' := by simpa using hc
      rfl
  · exact hname c hc

namespace Term

open Reduction

variable {items : List Term} {t r : Term}

/-- A term in which no name has a blank. -/
inductive Solid : Term → Prop
  | symbol {s : Symbol} (h : s.IsSolid) : Solid (.symbol s)
  | literal {a : Atom} (h : a.isLiteral = true) : Solid (.atom a)
  | list {items : List Term} (h : ∀ t ∈ items, Solid t) : Solid (.list items)
  | quoted {t : Term} (h : Solid t) : Solid (.quoted t)
  | func {params : List Symbol} {body : List Term} (hparams : ∀ p ∈ params, p.IsSolid)
      (hbody : ∀ t ∈ body, Solid t) : Solid (.func params body)
  | typeDef {name : Symbol} {fields : List Symbol} {ctor : Term} {methods : List (Symbol × Term)}
      (hname : name.IsSolid) (hfields : ∀ f ∈ fields, f.IsSolid) (hctor : Solid ctor)
      (hnames : ∀ m ∈ methods, m.1.IsSolid) (hmethods : ∀ m ∈ methods, Solid m.2) :
      Solid (.typeDef name fields ctor methods)

theorem Solid.isSolid {s : Symbol} (h : Solid (.symbol s)) : s.IsSolid := by
  cases h with
  | symbol h => exact h
  | literal h => cases h

/-- The items of a list without blanks in its names are such. -/
theorem Solid.of_list (h : Solid (.list items)) : ∀ t ∈ items, Solid t := by
  cases h with
  | list h => exact h

/-- What is read is made of words. -/
theorem Readable.solid (h : Readable t) : Solid t := by
  induction h with
  | @atom a h =>
      cases a with
      | symbol s => exact .symbol (Symbol.isSolid_of_isReadable h)
      | _ => exact .literal rfl
  | list _ ih => exact .list ih
  | quoted _ ih => exact .quoted ih

/-! ## Definitions -/

/-- The names in a parameter list are solid. -/
theorem Solid.of_names? {names : List Symbol} (h : Solid t) (hnames : names? access t = some names) :
    ∀ s ∈ names, s.IsSolid := by
  obtain rfl := eq_symbols_of_names? hnames
  exact fun s hs => (h.of_list _ (List.mem_map_of_mem hs)).isSolid

/-- A method stands in a list of its name and its function. -/
theorem eq_list_of_method? {s : Symbol} {f : Lambda Term} (h : method? access t = some (s, f)) :
    t = .list [.symbol s, .func f.params f.body] := by
  unfold method? at h
  split at h
  · rename_i name code hitems
    obtain ⟨s', hname, hfunc⟩ := Option.bind_eq_some_iff.1 h
    obtain ⟨⟨params, body⟩, hcode, heq⟩ := Option.map_eq_some_iff.1 hfunc
    cases heq
    obtain rfl := eq_symbol_of_view hname
    cases t <;> cases hitems
    cases code <;> cases hcode
    rfl
  · cases h

/-- Recognizing a function literal makes no new names. -/
theorem solid_of_funcLiteral {f : Lambda Term} (hitems : ∀ t ∈ items, Solid t)
    (h : funcLiteral access items = .ok (some (.func f))) : Solid (.func f.params f.body) := by
  obtain ⟨params, body, heq, -, head, list, rfl, hnames⟩ := funcLiteral_eq_some h
  cases heq
  exact .func ((hitems list (by simp)).of_names? hnames) fun t ht => hitems t (by simp [ht])

/-- The receiver comes first in a method. -/
theorem solid_method {s : Symbol} {f : Lambda Term} (ht : Solid t)
    (h : method? access t = some (s, f)) :
    s.IsSolid ∧ Solid (.func (Symbol.this :: f.params) f.body) := by
  obtain rfl := eq_list_of_method? h
  have hthis : Symbol.this.IsSolid := Symbol.isSolid_of_isReadable ⟨by decide +kernel, by decide +kernel⟩
  have hname : s.IsSolid := (ht.of_list _ (by simp)).isSolid
  cases ht.of_list (.func f.params f.body) (by simp) with
  | func hparams hbody => exact ⟨hname, .func (List.forall_mem_cons.2 ⟨hthis, hparams⟩) hbody⟩

/-- All names of a type definition are found among the items that it is made from. -/
theorem solid_of_typeDefinition {d : TypeDecl Term} (hitems : ∀ t ∈ items, Solid t)
    (h : typeDefinition access items = .ok (some (.typeDef d))) :
    Solid (Replacement.typeDef d).toTerm := by
  unfold typeDefinition at h
  -- Every test that is not passed gives an error or no definition.
  split at h
  · cases h
  split at h
  · rename_i head name fields ctorBody methods _
    split at h
    · cases h
    rename_i name' hname
    split at h
    · cases h
    rename_i fields' hfields
    split at h
    · cases h
    split at h
    · cases h
    rename_i methods' hmethods
    split at h
    · cases h
    cases h
    obtain rfl := eq_symbol_of_view hname
    have hname' : name'.IsSolid := (hitems (.symbol name') (by simp [symbol])).isSolid
    have hfields' := (hitems fields (by simp)).of_names? hfields
    -- Each method was made from an item that stands behind the constructor.
    have hmethods' : ∀ m ∈ methods', m.1.IsSolid ∧
        Solid (.func (Symbol.this :: m.2.params) m.2.body) := by
      intro m hm
      obtain ⟨t, ht, hmethod⟩ := method?_of_mapM hmethods m hm
      exact solid_method (hitems t (by simp [ht])) hmethod
    refine .typeDef hname' hfields' (.func hfields' ?_) ?_ ?_
    · intro t ht
      rw [List.mem_singleton.1 ht]
      exact hitems ctorBody (by simp)
    all_goals
      intro m hm
      simp only [withReceivers, List.map_map, List.mem_map, Function.comp_apply] at hm
      obtain ⟨m', hm', rfl⟩ := hm
    · exact (hmethods' m' hm').1
    · exact (hmethods' m' hm').2
  · cases h

/-! ## Normal forms -/

/-- None of the rules makes new names. -/
theorem Reduced.solid (hitems : ∀ t ∈ items, Solid t) (h : Reduced items r) : Solid r := by
  cases h with
  | literal hv => exact .literal hv
  | item ht => exact hitems r ht
  | list hkept _ =>
      refine .list fun t ht => ?_
      rcases hkept t ht with ht | ⟨v, rfl, hv⟩
      · exact hitems t ht
      · exact .literal hv
  | func hkept _ h => exact solid_of_funcLiteral (fun t ht => hitems t (hkept t ht)) h
  | typeDef hkept h => exact solid_of_typeDefinition (fun t ht => hitems t (hkept t ht)) h

/-- Normalizing what was read gives names without blanks. -/
theorem Readable.solid_of_normalize (hread : Readable t) (h : normalize t = .ok r) : Solid r := by
  induction hread generalizing r with
  | atom ha =>
      cases h
      exact (Readable.atom ha).solid
  | quoted hinner _ =>
      cases h
      exact .quoted hinner.solid
  | list _ ih =>
      obtain ⟨t', ht', hrules⟩ := bind_eq_ok h
      obtain ⟨items', hitems', rfl⟩ := map_eq_ok ht'
      refine (reduced_of_applyRules (normal_of_normalizeAll hitems') hrules).solid ?_
      intro u' hu'
      obtain ⟨u, hu, hu'⟩ := exists_of_mem_normalizeAll hitems' u' hu'
      exact ih u hu hu'

/-- The forms of a text have names without blanks. -/
theorem solid_of_fold {source : String} {forms : List Term}
    (h : (Compiler.fold source).result = .ok forms) : ∀ t ∈ forms, Solid t := by
  obtain ⟨program, hread, hnormalize⟩ := Compiler.fold_eq_ok_iff.1 h
  intro t ht
  obtain ⟨u, hu, hut⟩ := exists_of_mem_normalizeAll hnormalize t ht
  exact (readable_of_readAll hread u hu).solid_of_normalize hut

/-! ## Their text -/

theorem isFlat_plain (x : Float) : IsFlat (Number.plain x).toList := by
  cases hnan : x.isNaN with
  | true =>
      rw [Number.plain, hnan, if_pos rfl]
      exact Text.isFlat_of_all (by decide)
  | false =>
      cases hinf : x.isInf with
      | true =>
          rw [Number.plain, hnan, hinf, if_neg Bool.false_ne_true, if_pos rfl, Number.signed,
            String.toList_ofList]
          split <;> exact Text.isFlat_of_all (by decide)
      | false =>
          obtain ⟨cs, y, hcs, -, htext, -⟩ := Number.exists_text hnan hinf
          have hflat : IsFlat cs := by
            refine Text.isFlat_of_not_isBlank fun c hc => ?_
            rcases hcs.all c hc with hdigit | rfl
            · exact Text.not_isBlank_of_isDigit hdigit
            · rfl
          have hsign : IsFlat ['-'] := Text.isFlat_of_all rfl
          rw [htext]
          split
          · exact Text.isFlat_append.2 ⟨hsign, hflat⟩
          · exact hflat

/-- A literal prints on one line. -/
theorem isFlat_atom {a : Atom} (h : a.isLiteral = true) : IsFlat a.render.toList := by
  cases a with
  | number x => exact isFlat_plain x
  | string s => exact Text.isFlat_quote s
  | bool b => cases b <;> exact Text.isFlat_of_all (by decide)
  | symbol s => cases h

/-- Texts in parentheses. -/
theorem isFlat_parenthesized {texts : List String} (h : ∀ text ∈ texts, IsFlat text.toList) :
    IsFlat ("(" ++ spaced texts ++ ")").toList := by
  have hspaced : IsFlat (spaced texts).toList := by
    rw [spaced, String.toList_intercalate]
    exact Text.isFlat_intercalate (List.forall_mem_map.2 h)
  rw [String.toList_append, String.toList_append]
  exact Text.isFlat_append.2 ⟨Text.isFlat_append.2 ⟨Text.isFlat_of_all (by decide), hspaced⟩,
    Text.isFlat_of_all (by decide)⟩

/-- Terms that print on one line do so together. -/
theorem isFlat_renderAll {ts : List Term} (h : ∀ t ∈ ts, IsFlat t.render.toList) :
    ∀ text ∈ renderAll ts, IsFlat text.toList := by
  induction ts with
  | nil => exact fun _ hmem => nomatch hmem
  | cons t ts ih =>
      rw [renderAll]
      exact List.forall_mem_cons.2
        ⟨h t List.mem_cons_self, ih fun t' ht' => h t' (List.mem_cons_of_mem _ ht')⟩

theorem isFlat_renderMethods {ms : List (Symbol × Term)} (hnames : ∀ m ∈ ms, m.1.IsSolid)
    (h : ∀ m ∈ ms, IsFlat m.2.render.toList) : ∀ text ∈ renderMethods ms, IsFlat text.toList := by
  induction ms with
  | nil => exact fun _ hmem => nomatch hmem
  | cons m ms ih =>
      obtain ⟨hname, hnames⟩ := List.forall_mem_cons.1 hnames
      obtain ⟨hcode, hrest⟩ := List.forall_mem_cons.1 h
      rw [renderMethods]
      refine List.forall_mem_cons.2 ⟨?_, ih hnames hrest⟩
      have hpair : "(" ++ m.1.name ++ " " ++ m.2.render ++ ")"
          = "(" ++ spaced [m.1.name, m.2.render] ++ ")" := by
        simp [spaced, String.intercalate_cons_cons, String.append_assoc]
      rw [hpair]
      refine isFlat_parenthesized ?_
      simpa using ⟨hname.isFlat, hcode⟩

/-- The text of a term whose names have no blanks has no blank but the space. -/
theorem Solid.isFlat_render (h : Solid t) : IsFlat t.render.toList := by
  have hnames : ∀ {names : List Symbol}, (∀ s ∈ names, s.IsSolid) →
      IsFlat ("(" ++ spaced (names.map Symbol.name) ++ ")").toList :=
    fun h => isFlat_parenthesized (List.forall_mem_map.2 fun s hs => (h s hs).isFlat)
  induction h with
  | symbol h => exact h.isFlat
  | literal h => exact isFlat_atom h
  | list _ ih =>
      rw [render]
      exact isFlat_parenthesized (isFlat_renderAll ih)
  | quoted _ ih =>
      rw [render, String.toList_append]
      exact Text.isFlat_append.2 ⟨Text.isFlat_of_all (by decide), ih⟩
  | func hparams _ ih =>
      have hhead : IsFlat Symbol.func.name.toList := Text.isFlat_of_all (by decide)
      rw [render]
      exact isFlat_parenthesized (List.forall_mem_cons.2
        ⟨hhead, List.forall_mem_cons.2 ⟨hnames hparams, isFlat_renderAll ih⟩⟩)
  | typeDef hname hfields _ hmethods _ ihctor ih =>
      have hhead : IsFlat Symbol.defType.name.toList := Text.isFlat_of_all (by decide)
      rw [render]
      refine isFlat_parenthesized (List.forall_mem_cons.2 ⟨hhead, List.forall_mem_cons.2 ?_⟩)
      exact ⟨hname.isFlat, List.forall_mem_cons.2 ⟨hnames hfields, List.forall_mem_cons.2
        ⟨ihctor, isFlat_renderMethods hmethods ih⟩⟩⟩

end Term
end RegisterLisp
