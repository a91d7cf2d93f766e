import RegisterLisp.Proofs.Reading.Printed

/-!
# Reading printed forms

The text of a form that was read gives one form when it is read again, the same one unless it holds
an infinity, and none at all if one of its strings holds a character that is written by its code
point, for which the reader has no escape (`readAll_render`).  So a form comes back exactly if it
holds neither (`readAll_render_eq_iff`).
-/

namespace RegisterLisp

/-- Whether an atom is a string with a character that is written by its code point. -/
def Atom.hasSpelledOut : Atom → Bool
  | .string s => s.toList.any Text.isSpelledOut
  | _ => false

theorem Atom.hasSpelledOut_eq_false_iff (a : Atom) :
    a.hasSpelledOut = false ↔
      ∀ s, a = .string s → ∀ c ∈ s.toList, Text.isSpelledOut c = false := by
  cases a with
  | string s => simp [hasSpelledOut]
  | _ => simp [hasSpelledOut]

/-- Of all atoms only an infinity is read back as something else. -/
theorem Atom.reread_eq_iff (a : Atom) : a.reread = a ↔ ∀ x, a = .number x → x.isInf = false := by
  cases a with
  | number x =>
      rw [reread]
      cases hinf : x.isInf <;> simp [hinf]
  | _ => simp [reread]

namespace Term

/-! ## Atoms -/

mutual

/-- The atoms of a term, also of what is quoted. -/
def atoms : Term → List Atom
  | .atom a => [a]
  | .list items => atomsAll items
  | .quoted inner => atoms inner
  | .func _ body => atomsAll body
  | .typeDef _ _ ctor methods => atoms ctor ++ atomsMethods methods

def atomsAll : List Term → List Atom
  | [] => []
  | t :: ts => atoms t ++ atomsAll ts

def atomsMethods : List (Symbol × Term) → List Atom
  | [] => []
  | (_, t) :: ms => atoms t ++ atomsMethods ms

end

mutual

/-- The term that the text of a readable term denotes. -/
def reread : Term → Term
  | .atom a => .atom a.reread
  | .list items => .list (rereadAll items)
  | .quoted inner => .quoted (reread inner)
  | .func params body => .func params body
  | .typeDef name fields ctor methods => .typeDef name fields ctor methods

def rereadAll : List Term → List Term
  | [] => []
  | t :: ts => reread t :: rereadAll ts

end

mutual

/-- A term is read back as itself if all its atoms are. -/
theorem reread_eq_iff : ∀ {t : Term}, t.Readable →
    (t.reread = t ↔ ∀ a ∈ t.atoms, a.reread = a)
  | .atom a, _ => by simp [reread, atoms]
  | .quoted inner, ht => by
      cases ht with
      | quoted hinner => simp [reread, atoms, reread_eq_iff hinner]
  | .list items, ht => by
      cases ht with
      | list hitems => simp [reread, atoms, rereadAll_eq_iff hitems]
  | .func _ _, ht => by cases ht
  | .typeDef _ _ _ _, ht => by cases ht

theorem rereadAll_eq_iff : ∀ {ts : List Term}, (∀ t ∈ ts, t.Readable) →
    (rereadAll ts = ts ↔ ∀ a ∈ atomsAll ts, a.reread = a)
  | [], _ => by simp [rereadAll, atomsAll]
  | t :: ts, hts => by
      have ht := reread_eq_iff (hts t List.mem_cons_self)
      have hrest := rereadAll_eq_iff fun u hu => hts u (List.mem_cons_of_mem t hu)
      simp only [rereadAll, atomsAll, List.cons.injEq, ht, hrest, List.mem_append, or_imp,
        forall_and]

end

/-! ## Reading the tokens of a term -/

/-- The reader stops at an atom that cannot be read, and else takes the atom that its text
denotes. -/
theorem steps_scanned_atom (a : Atom) (r : Reading) (after : List Token) :
    r.steps ((Term.atom a).scanned after) =
      if a.hasSpelledOut then .error .badEscape
      else (Reading.place r.done r.openings (.atom a.reread)).steps after := by
  cases a with
  | string s =>
      have hsame : (Atom.string s).reread = .string s := rfl
      rw [scanned, Atom.hasSpelledOut, hsame]
      split <;> rfl
  | _ => rfl

mutual

/-- The tokens of a term put the term where the reader is. -/
theorem steps_scanned : ∀ {t : Term}, t.Readable → ∀ (r : Reading) (after : List Token),
    r.steps (t.scanned after) =
      if t.atoms.any Atom.hasSpelledOut then .error .badEscape
      else (Reading.place r.done r.openings t.reread).steps after
  | .atom a, _, r, after => by
      rw [steps_scanned_atom, atoms, reread]
      simp
  | .quoted inner, ht, r, after => by
      cases ht with
      | quoted hinner => exact steps_scanned hinner ⟨r.done, .quote :: r.openings⟩ after
  | .list items, ht, r, after => by
      cases ht with
      | list hitems =>
          have hall := steps_scannedAll hitems r.done [] r.openings (.rightParen :: after)
          -- The parentheses open a list and close it again, and the items go in between.
          have hopen : r.steps ((Term.list items).scanned after) =
              Reading.steps ⟨r.done, .list [] :: r.openings⟩
                (scannedAll items (.rightParen :: after)) := rfl
          have hclose : Reading.steps ⟨r.done, .list (rereadAll items).reverse :: r.openings⟩
              (.rightParen :: after) =
                (Reading.place r.done r.openings
                  (.list (rereadAll items).reverse.reverse)).steps after := rfl
          rw [hopen, hall, List.append_nil, hclose, List.reverse_reverse, atoms, reread]
  | .func _ _, ht, _, _ => by cases ht
  | .typeDef _ _ _ _, ht, _, _ => by cases ht

/-- The items of a list go to the list, up to the first that cannot be read. -/
theorem steps_scannedAll : ∀ {ts : List Term}, (∀ t ∈ ts, t.Readable) →
    ∀ (done items : List Term) (openings : List Opening) (after : List Token),
    Reading.steps ⟨done, .list items :: openings⟩ (scannedAll ts after) =
      if (atomsAll ts).any Atom.hasSpelledOut then .error .badEscape
      else Reading.steps ⟨done, .list ((rereadAll ts).reverse ++ items) :: openings⟩ after
  | [], _, done, items, openings, after => rfl
  | t :: ts, hts, done, items, openings, after => by
      have ht := steps_scanned (hts t List.mem_cons_self) ⟨done, .list items :: openings⟩
        (scannedAll ts after)
      have hrest := steps_scannedAll (fun u hu => hts u (List.mem_cons_of_mem t hu)) done
        (t.reread :: items) openings after
      rw [scannedAll, ht, atomsAll, List.any_append]
      cases t.atoms.any Atom.hasSpelledOut with
      | true => rfl
      | false =>
          -- Items are kept last first.
          have hplace : Reading.place done (.list items :: openings) t.reread =
              ⟨done, .list (t.reread :: items) :: openings⟩ := rfl
          rw [if_neg (by decide), hplace, hrest, Bool.false_or, rereadAll, List.reverse_cons,
            List.append_assoc, List.singleton_append]

end

/-- What the text of a readable term is read as. -/
theorem readAll_render {t : Term} (ht : t.Readable) :
    readAll t.render =
      if t.atoms.any Atom.hasSpelledOut then .error .badEscape else .ok [t.reread] := by
  have hend : Token.Delimited [] := by simp [Token.Delimited]
  have hscan : Token.ofText t.render = t.scanned [] := by
    have h := scan_render ht hend
    rwa [List.append_nil] at h
  rw [readAll, hscan, steps_scanned ht]
  cases t.atoms.any Atom.hasSpelledOut <;> rfl

/-- A form that was read is read back from its text exactly if it holds no infinite number, and no
string with a character that is written by its code point. -/
theorem readAll_render_eq_iff {text : String} {forms : List Term} {e : Term}
    (h : readAll text = .ok forms) (he : e ∈ forms) :
    readAll e.render = .ok [e] ↔
      (∀ x, .number x ∈ e.atoms → x.isInf = false) ∧
        ∀ s, .string s ∈ e.atoms → ∀ c ∈ s.toList, Text.isSpelledOut c = false := by
  have hreadable : e.Readable := readable_of_readAll h e he
  have hnumbers : e.reread = e ↔ ∀ x, .number x ∈ e.atoms → x.isInf = false := by
    simp only [reread_eq_iff hreadable, Atom.reread_eq_iff]
    exact ⟨fun hatoms x hx => hatoms _ hx x rfl, fun hx a ha x hax => hx x (hax ▸ ha)⟩
  have hstrings : e.atoms.any Atom.hasSpelledOut = false ↔
      ∀ s, .string s ∈ e.atoms → ∀ c ∈ s.toList, Text.isSpelledOut c = false := by
    simp only [List.any_eq_false, Bool.not_eq_true, Atom.hasSpelledOut_eq_false_iff]
    exact ⟨fun hatoms s hs => hatoms _ hs s rfl, fun hs a ha s has => hs s (has ▸ ha)⟩
  -- A text that cannot be read gives no form at all, and any other gives one.
  rw [readAll_render hreadable, ← hnumbers, ← hstrings]
  cases e.atoms.any Atom.hasSpelledOut <;> simp

/-- A form with numbers and a string whose texts are not the ones that they were read from. -/
def plainForm : Term :=
  .list [.symbol ⟨"f"⟩, .atom (.number 0.1), .atom (.number (-0.0)),
    .atom (.string "a\"\n"), .quoted (.list [.symbol ⟨"x"⟩, .atom (.number 1e23)])]

def overflownForm : Term :=
  .list [.symbol ⟨"g"⟩, .atom (.number (1.0 / 0.0))]

def controlForm : Term :=
  .quoted (.atom (.string "\x01"))

theorem readAll_render_eq_iff_forms :
    readAll "(f .1 -0 \"a\\\"\n\" '(x 1e23)) (g 1e999) '\"\x01\""
        = .ok [plainForm, overflownForm, controlForm] ∧
      readAll plainForm.render = .ok [plainForm] ∧
        readAll overflownForm.render ≠ .ok [overflownForm] ∧
          readAll controlForm.render ≠ .ok [controlForm] := by
  have h : readAll "(f .1 -0 \"a\\\"\n\" '(x 1e23)) (g 1e999) '\"\x01\""
      = .ok [plainForm, overflownForm, controlForm] := by
    decide +kernel
  have hnumbers : ∀ x, .number x ∈ plainForm.atoms → x = 0.1 ∨ x = -0.0 ∨ x = 1e23 := by
    simp [plainForm, atoms, atomsAll, Term.symbol]
  have hstrings : ∀ s, .string s ∈ plainForm.atoms → s = "a\"\n" := by
    simp [plainForm, atoms, atomsAll, Term.symbol]
  refine ⟨h, (readAll_render_eq_iff h (by simp)).2 ⟨?_, ?_⟩, ?_, ?_⟩
  · intro x hx
    rcases hnumbers x hx with rfl | rfl | rfl <;> decide +kernel
  · intro s hs
    rw [hstrings s hs]
    exact (Atom.hasSpelledOut_eq_false_iff (.string "a\"\n")).1 (by decide +kernel) _ rfl
  · intro hback
    have hfinite := ((readAll_render_eq_iff h (by simp)).1 hback).1 (1.0 / 0.0) (by decide +kernel)
    exact absurd hfinite (by decide +kernel)
  · intro hback
    have hplain := ((readAll_render_eq_iff h (by simp)).1 hback).2 "\x01" (by decide +kernel)
    exact absurd (hplain '\x01' (by decide +kernel)) (by decide +kernel)

end Term
end RegisterLisp
