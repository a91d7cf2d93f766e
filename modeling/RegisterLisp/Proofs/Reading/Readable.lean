import RegisterLisp.Proofs.Number.Layout
import RegisterLisp.Term.Reading

/-!
# What the reader returns

The reader returns trees of atoms, lists and quotes in which every symbol is a bare word that
denotes that symbol, and no number is a NaN (`readable_of_readAll`).  The scanner gives only such
atoms, since in every mode a word that has been started holds no character that ends words; and the
reader only puts together what the scanner gives.
-/

namespace RegisterLisp

open Rounding

/-! ## Bare words -/

namespace Token

/-- Characters that the scanner takes as one word. -/
structure IsWord (w : List Char) : Prop where
  ne_nil : w ≠ []
  not_ends : ∀ c ∈ w, endsWord c = false

theorem isWord_iff (w : List Char) :
    IsWord w ↔ w.isEmpty = false ∧ w.any endsWord = false := by
  constructor
  · intro h
    exact ⟨by simpa using h.ne_nil, by simpa using h.not_ends⟩
  · rintro ⟨hne, hends⟩
    exact ⟨by simpa using hne, by simpa using hends⟩

instance (w : List Char) : Decidable (IsWord w) :=
  decidable_of_iff' _ (isWord_iff w)

theorem isWord_singleton {c : Char} (h : endsWord c = false) : IsWord [c] :=
  ⟨by simp, by simpa using h⟩

/-- A word may grow by any character that does not end it. -/
theorem IsWord.concat {w : List Char} {c : Char} (hw : IsWord w) (hc : endsWord c = false) :
    IsWord (w ++ [c]) := by
  refine ⟨by simp, ?_⟩
  intro c' hc'
  rcases List.mem_append.1 hc' with hc' | hc'
  · exact hw.not_ends c' hc'
  · rw [List.mem_singleton.1 hc']
    exact hc

end Token

theorem isNaN_neg {x : Float} (h : x.isNaN = false) : (-x).isNaN = false := by
  have hneg : -x = .ofModel (.pack x.toModel.unpack.neg) := rfl
  rw [hneg]
  refine isNaN_pack ?_
  have hx : x.toModel.unpack.isNaN = false := h
  cases hunpack : x.toModel.unpack with
  | notANumber =>
      rw [hunpack] at hx
      cases hx
  | infinity s => rfl
  | zero s => rfl
  | finite s m e hpos => rfl

/-- No text that looks like a number is read as a NaN. -/
theorem isNaN_unsigned? {c : Char} {cs : List Char} {x : Float} (hc : c.isDigit = true ∨ c = '.')
    (h : Number.unsigned? (c :: cs) = some x) : x.isNaN = false := by
  have hnumeral : (Number.numeral? (c :: cs)).map Number.Numeral.toFloat = some x := by
    rcases hc with hc | rfl
    · rw [← Number.unsigned?_of_isDigit hc, h]
    · rw [← Number.unsigned?_cons (by decide) (by decide), h]
  rcases Option.map_eq_some_iff.1 hnumeral with ⟨a, -, rfl⟩
  exact isNaN_toFloat a

/-- A word that is tried as a number is not read as a NaN. -/
theorem isNaN_ofChars? {w : List Char} {x : Float} (hw : Token.looksNumeric w = true)
    (h : Number.ofChars? w = some x) : x.isNaN = false := by
  match w with
  | [] => cases hw
  | [c] =>
      have hc : c.isDigit = true := hw
      rw [Number.ofChars?_of_isDigit hc] at h
      exact isNaN_unsigned? (Or.inl hc) h
  | c :: d :: rest =>
      -- After a sign or a point there must be a digit, so the names of NaNs are not tried.
      simp only [Token.looksNumeric, Bool.or_eq_true, Bool.and_eq_true, beq_iff_eq] at hw
      rcases hw with hc | ⟨(rfl | rfl) | rfl, hd⟩
      · rw [Number.ofChars?_of_isDigit hc] at h
        exact isNaN_unsigned? (Or.inl hc) h
      · rcases Option.map_eq_some_iff.1 h with ⟨y, hy, rfl⟩
        exact isNaN_neg (isNaN_unsigned? (Or.inl hd) hy)
      · exact isNaN_unsigned? (Or.inl hd) h
      · rw [Number.ofChars?_cons (by decide) (by decide)] at h
        exact isNaN_unsigned? (Or.inr rfl) h

/-! ## Tokens -/

/-- What the reader may find as an atom: no NaN, and symbols that are words for themselves. -/
def Atom.IsReadable : Atom → Prop
  | .number x => x.isNaN = false
  | .symbol s => Token.IsWord s.name.toList ∧ Token.ofWord s.name.toList = .symbol s
  | _ => True

namespace Token

/-- What a word may denote. -/
theorem ofWord_cases (w : List Char) :
    (∃ b, ofWord w = .bool b) ∨
      (∃ x, ofWord w = .number x ∧ looksNumeric w = true ∧ Number.ofChars? w = some x) ∨
      ofWord w = .symbol ⟨String.ofList w⟩ := by
  unfold ofWord
  dsimp only
  split
  · exact Or.inl ⟨true, rfl⟩
  · split
    · exact Or.inl ⟨false, rfl⟩
    · by_cases hw : looksNumeric w = true
      · rw [if_pos hw]
        cases hx : Number.ofChars? w with
        | none => exact Or.inr (Or.inr rfl)
        | some x => exact Or.inr (Or.inl ⟨x, rfl, hw, rfl⟩)
      · rw [if_neg hw]
        exact Or.inr (Or.inr rfl)

/-- A word denotes a readable atom. -/
theorem isReadable_ofWord {w : List Char} (hw : IsWord w) : (ofWord w).IsReadable := by
  rcases ofWord_cases w with ⟨b, hb⟩ | ⟨x, hx, hnumeric, hchars⟩ | hs
  · rw [hb]
    trivial
  · rw [hx]
    exact isNaN_ofChars? hnumeric hchars
  · have hname : (String.ofList w).toList = w := String.toList_ofList
    rw [hs, Atom.IsReadable, hname]
    exact ⟨hw, hs⟩

/-- The atoms among the tokens are readable. -/
def IsReadable : Token → Prop
  | .atom a => a.IsReadable
  | _ => True

def Mode.IsSound : Mode → Prop
  | .word seen => IsWord seen.reverse
  | _ => True

def Sound (out : List Token × Mode) : Prop :=
  (∀ t ∈ out.1, t.IsReadable) ∧ out.2.IsSound

/-- A token that has been started is as it should be. -/
theorem sound_start (c : Char) : Sound (start c) := by
  unfold start
  split
  · exact ⟨by simp, trivial⟩
  · split
    · exact ⟨by simp, trivial⟩
    · split
      · exact ⟨by simp [IsReadable], trivial⟩
      · split
        · exact ⟨by simp [IsReadable], trivial⟩
        · split
          · exact ⟨by simp [IsReadable], trivial⟩
          · split
            · exact ⟨by simp, trivial⟩
            · -- What starts nothing else does not end a word either.
              refine ⟨by simp, isWord_singleton ?_⟩
              simp_all [endsWord]

/-- One character leads from a sound mode to a sound mode, with readable tokens. -/
theorem sound_step {mode : Mode} (h : mode.IsSound) (c : Char) : Sound (step mode c) := by
  cases mode with
  | between => exact sound_start c
  | afterQuote =>
      unfold step
      dsimp only
      split
      · exact ⟨by simp [IsReadable], trivial⟩
      · exact sound_start c
  | comment =>
      unfold step
      dsimp only
      split <;> exact ⟨by simp, trivial⟩
  | word seen =>
      unfold step
      dsimp only
      split
      · -- The character ends the word and may start the next token.
        rcases sound_start c with ⟨htokens, hmode⟩
        refine ⟨?_, hmode⟩
        intro t ht
        rcases List.mem_cons.1 ht with rfl | ht
        · exact isReadable_ofWord h
        · exact htokens t ht
      · rename_i hc
        refine ⟨by simp, ?_⟩
        -- The characters seen are kept last first.
        have hword : IsWord (seen.reverse ++ [c]) := h.concat (by simpa using hc)
        rwa [← List.reverse_cons] at hword
  | string seen =>
      unfold step
      dsimp only
      split
      · exact ⟨by simp [IsReadable, Atom.IsReadable], trivial⟩
      · split <;> exact ⟨by simp, trivial⟩
  | escape seen =>
      unfold step
      dsimp only
      split
      · exact ⟨by simp, trivial⟩
      · exact ⟨by simp [IsReadable], trivial⟩
  | stuck => exact ⟨by simp [step], trivial⟩

theorem isReadable_finish {mode : Mode} (h : mode.IsSound) : ∀ t ∈ finish mode, t.IsReadable := by
  cases mode with
  | word seen =>
      intro t ht
      rw [List.mem_singleton.1 ht]
      exact isReadable_ofWord h
  | _ => simp [finish, IsReadable]

/-- The scanner gives readable tokens only. -/
theorem isReadable_scan {mode : Mode} (h : mode.IsSound) (cs : List Char) :
    ∀ t ∈ scan mode cs, t.IsReadable := by
  induction cs generalizing mode with
  | nil => exact isReadable_finish h
  | cons c cs ih =>
      rcases sound_step h c with ⟨htokens, hnext⟩
      intro t ht
      rcases List.mem_append.1 ht with ht | ht
      · exact htokens t ht
      · exact ih hnext t ht

end Token

/-! ## Terms -/

namespace Term

/-- Trees that the reader may return. -/
inductive Readable : Term → Prop
  | atom {a : Atom} (h : a.IsReadable) : Readable (.atom a)
  | list {items : List Term} (h : ∀ t ∈ items, Readable t) : Readable (.list items)
  | quoted {t : Term} (h : Readable t) : Readable (.quoted t)

namespace Reading

structure IsReadable (r : Reading) : Prop where
  done : ∀ t ∈ r.done, Readable t
  openings : ∀ items, .list items ∈ r.openings → ∀ t ∈ items, Readable t

/-- A readable term may be put where it belongs. -/
theorem isReadable_place {done : List Term} {openings : List Opening} {t : Term}
    (h : IsReadable ⟨done, openings⟩) (ht : Readable t) : (place done openings t).IsReadable := by
  induction openings generalizing t with
  | nil =>
      refine ⟨?_, h.openings⟩
      intro t' ht'
      rcases List.mem_cons.1 ht' with rfl | ht'
      · exact ht
      · exact h.done t' ht'
  | cons opening rest ih =>
      cases opening with
      | quote =>
          -- The quote is closed with the term, which goes to what was open around it.
          have hrest : IsReadable ⟨done, rest⟩ :=
            ⟨h.done, fun items hitems => h.openings items (List.mem_cons_of_mem _ hitems)⟩
          exact ih hrest (Readable.quoted ht)
      | list items =>
          refine ⟨h.done, ?_⟩
          intro items' hitems'
          rcases List.mem_cons.1 hitems' with heq | hitems'
          · cases heq
            intro t' ht'
            rcases List.mem_cons.1 ht' with rfl | ht'
            · exact ht
            · exact h.openings items List.mem_cons_self t' ht'
          · exact h.openings items' (List.mem_cons_of_mem _ hitems')

/-- Opening a list or a quote adds nothing that has been read. -/
theorem IsReadable.opened {r : Reading} {opening : Opening} (h : r.IsReadable)
    (hopening : ∀ items, opening = .list items → ∀ t ∈ items, Readable t) :
    IsReadable ⟨r.done, opening :: r.openings⟩ := by
  refine ⟨h.done, ?_⟩
  intro items hitems
  rcases List.mem_cons.1 hitems with heq | hitems
  · exact hopening items heq.symm
  · exact h.openings items hitems

/-- What has been read stays readable with one more token. -/
theorem isReadable_step {r next : Reading} {token : Token} (hr : r.IsReadable)
    (ht : token.IsReadable) (h : r.step token = .ok next) : next.IsReadable := by
  cases token with
  | leftParen =>
      cases h
      refine hr.opened ?_
      intro items hitems
      cases hitems
      simp
  | rightParen =>
      unfold step at h
      dsimp only at h
      split at h
      · rename_i items rest hopenings
        cases h
        have hitems := hr.openings items (by simp [hopenings])
        refine isReadable_place ⟨hr.done, ?_⟩ (Readable.list ?_)
        · intro items' hitems'
          exact hr.openings items' (by simp [hopenings, hitems'])
        · intro t ht
          exact hitems t (List.mem_reverse.1 ht)
      · cases h
  | quote =>
      cases h
      refine hr.opened ?_
      intro items hitems
      cases hitems
  | atom a =>
      cases h
      exact isReadable_place hr (Readable.atom ht)
  | fault cause => cases h

/-- And so with all of them. -/
theorem isReadable_steps {r last : Reading} {tokens : List Token} (hr : r.IsReadable)
    (ht : ∀ t ∈ tokens, t.IsReadable) (h : r.steps tokens = .ok last) : last.IsReadable := by
  induction tokens generalizing r with
  | nil =>
      cases h
      exact hr
  | cons token tokens ih =>
      rw [steps] at h
      cases hstep : r.step token with
      | error cause =>
          rw [hstep] at h
          cases h
      | ok next =>
          rw [hstep] at h
          have hnext := isReadable_step hr (ht token List.mem_cons_self) hstep
          exact ih hnext (fun t hmem => ht t (List.mem_cons_of_mem _ hmem)) h

end Reading

/-- Every form that is read from a text is readable. -/
theorem readable_of_readAll {text : String} {forms : List Term} (h : readAll text = .ok forms) :
    ∀ e ∈ forms, Readable e := by
  rw [readAll] at h
  cases hsteps : Reading.steps {} (Token.ofText text) with
  | error cause =>
      rw [hsteps] at h
      cases h
  | ok r =>
      rw [hsteps] at h
      have hempty : Reading.IsReadable {} := ⟨by simp, by simp⟩
      have hbetween : Token.Mode.IsSound .between := trivial
      have hr := Reading.isReadable_steps hempty
        (Token.isReadable_scan hbetween text.toList) hsteps
      dsimp only [Reading.forms] at h
      split at h
      · cases h
        intro e he
        exact hr.done e (List.mem_reverse.1 he)
      · cases h

end Term
end RegisterLisp
