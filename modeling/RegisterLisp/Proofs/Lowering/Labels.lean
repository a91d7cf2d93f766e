import RegisterLisp.Assembly.Line
import Mathlib.Data.List.Nodup

/-!
# Local labels in code

Every local label carries a number, and no two numbers give the same label, whatever the stems are.
`FreshLabels n n' code` says that the local labels that `code` defines are numbered from `n` up to
but not including `n'`, each number once.  Code with this property defines each of its local labels
on one line only, so a jump to it leads to that line.
-/

namespace RegisterLisp

/-! ## The number of a local label -/

namespace Label

def isLocal (l : Label) : Bool :=
  l.text.toList.head? == some '@'

/-- A label made by number is local. -/
@[simp]
theorem isLocal_ofLocal (stem : String) (n : Nat) : (ofLocal stem n).isLocal = true := by
  simp [isLocal, ofLocal]

/-- The label of a name never is. -/
@[simp]
theorem isLocal_ofGlobal (name : String) : (ofGlobal name).isLocal = false := by
  simp [isLocal, ofGlobal]

/-- The digits of a local label are what stands between the last two underscores and the end. -/
theorem takeWhile_isDigit_ofLocal (stem : String) (n : Nat) :
    ((ofLocal stem n).text.toList.reverse.drop 2).takeWhile Char.isDigit
      = (Nat.toDigits 10 n).reverse := by
  have hdigits : ∀ c ∈ (Nat.toDigits 10 n).reverse, c.isDigit = true := by
    intro c hc
    exact Nat.isDigit_of_mem_toDigits (by decide) (by decide) (List.mem_reverse.1 hc)
  have htext : (ofLocal stem n).text.toList.reverse.drop 2
      = (Nat.toDigits 10 n).reverse ++ '_' :: ("@_" ++ spell stem).toList.reverse := by
    simp [ofLocal, Nat.repr]
  rw [htext, List.takeWhile_append_of_pos hdigits]
  simp

/-- The number of a local label is seen in its text. -/
theorem ofLocal_injective {stem stem' : String} {n n' : Nat}
    (h : ofLocal stem n = ofLocal stem' n') : n = n' := by
  have hdigits := takeWhile_isDigit_ofLocal stem n
  rw [h, takeWhile_isDigit_ofLocal, List.reverse_inj] at hdigits
  have hvalue := congrArg (fun ds => Nat.ofDigitChars 10 ds 0) hdigits
  simpa [Nat.ofDigitChars_ten_toDigits] using hvalue.symm

end Label

/-! ## Lines that define local labels -/

namespace Line

/-- The local label that a line defines. -/
def localLabel? (line : Line) : Option Label :=
  match line.statement with
  | .label l => if l.isLocal then some l else none
  | _ => none

theorem localLabel?_eq_some {line : Line} {l : Label} :
    line.localLabel? = some l ↔ line.statement = .label l ∧ l.isLocal = true := by
  unfold localLabel?
  cases line.statement <;> grind

end Line

/-- The line on which a label is defined first. -/
def place? (code : List Line) (l : Label) : Option Nat :=
  code.findIdx? fun line => line.statement == .label l

/-- Where no local label is defined twice, each of them is found where it is defined. -/
theorem place?_eq_some {l : Label} :
    ∀ {code : List Line}, (code.filterMap Line.localLabel?).Nodup →
      ∀ {i : Nat} {line : Line}, code[i]? = some line → line.localLabel? = some l →
        place? code l = some i
  | [], _, i, line, hi, _ => by simp at hi
  | first :: code, hnodup, 0, line, hi, hl => by
      have hfirst : first = line := by simpa using hi
      have hstatement := (Line.localLabel?_eq_some.1 hl).1
      simp [place?, List.findIdx?_cons, hfirst, hstatement]
  | first :: code, hnodup, i + 1, line, hi, hl => by
      have hi' : code[i]? = some line := by simpa using hi
      have hmem : l ∈ code.filterMap Line.localLabel? :=
        List.mem_filterMap.2 ⟨line, List.mem_of_getElem? hi', hl⟩
      -- The first line does not define `l`, or it would be defined twice.
      have hfirst : first.statement ≠ .label l := by
        intro h
        have hlocal : first.localLabel? = some l :=
          Line.localLabel?_eq_some.2 ⟨h, (Line.localLabel?_eq_some.1 hl).2⟩
        rw [List.filterMap_cons_some hlocal] at hnodup
        exact (List.nodup_cons.1 hnodup).1 hmem
      have hrest : (code.filterMap Line.localLabel?).Nodup :=
        hnodup.sublist ((List.sublist_cons_self first code).filterMap _)
      have ih := place?_eq_some hrest hi' hl
      unfold place? at ih ⊢
      simp [List.findIdx?_cons, hfirst, ih]

/-! ## Numbered labels -/

/-- The local labels of `code` are numbered from `n` up to but not including `n'`, each number
once. -/
structure FreshLabels (n n' : Nat) (code : List Line) : Prop where
  le : n ≤ n'
  numbers : ∃ ks : List (String × Nat),
    code.filterMap Line.localLabel? = ks.map (fun k => Label.ofLocal k.1 k.2) ∧
      (ks.map Prod.snd).Nodup ∧ ∀ k ∈ ks, n ≤ k.2 ∧ k.2 < n'

namespace FreshLabels

variable {n n₁ n' : Nat} {code code' : List Line}

theorem of_no_labels (hle : n ≤ n') (h : ∀ line ∈ code, line.localLabel? = none) :
    FreshLabels n n' code :=
  ⟨hle, [], by simpa using h, by simp, by simp⟩

theorem nil (hle : n ≤ n') : FreshLabels n n' [] :=
  of_no_labels hle (by simp)

/-- Numbers that were handed out one after the other are all different. -/
theorem append (h : FreshLabels n n₁ code) (h' : FreshLabels n₁ n' code') :
    FreshLabels n n' (code ++ code') := by
  obtain ⟨ks, hks, hnodup, hrange⟩ := h.numbers
  obtain ⟨ks', hks', hnodup', hrange'⟩ := h'.numbers
  refine ⟨Nat.le_trans h.le h'.le, ks ++ ks', ?_, ?_, ?_⟩
  · rw [List.filterMap_append, hks, hks', List.map_append]
  · rw [List.map_append, List.nodup_append]
    refine ⟨hnodup, hnodup', ?_⟩
    intro a ha b hb
    obtain ⟨k, hk, rfl⟩ := List.mem_map.1 ha
    obtain ⟨k', hk', rfl⟩ := List.mem_map.1 hb
    have := (hrange k hk).2
    have := (hrange' k' hk').1
    omega
  · intro k hk
    have hle := h.le
    have hle' := h'.le
    rcases List.mem_append.1 hk with hk | hk
    · have := hrange k hk
      omega
    · have := hrange' k hk
      omega

/-- A label with a number before all others of the code may stand anywhere in it. -/
theorem insert (stem : String) (indent : Nat) (code code' : List Line)
    (h : FreshLabels (n + 1) n' (code ++ code')) :
    FreshLabels n n' (code ++ ⟨indent, .label (.ofLocal stem n)⟩ :: code') := by
  obtain ⟨ks, hks, hnodup, hrange⟩ := h.numbers
  rw [List.filterMap_append] at hks
  obtain ⟨ks₁, ks₂, rfl, h₁, h₂⟩ := List.map_eq_append_iff.1 hks.symm
  have hline : (⟨indent, .label (.ofLocal stem n)⟩ : Line).localLabel?
      = some (.ofLocal stem n) := by
    simp [Line.localLabel?]
  have hle := h.le
  refine ⟨Nat.le_of_succ_le hle, ks₁ ++ (stem, n) :: ks₂, ?_, ?_, ?_⟩
  · rw [List.filterMap_append, List.filterMap_cons_some hline, ← h₁, ← h₂, List.map_append,
      List.map_cons]
  · rw [List.map_append, List.map_cons]
    refine List.nodup_middle.2 (List.nodup_cons.2 ⟨?_, ?_⟩)
    · intro hmem
      rw [← List.map_append] at hmem
      obtain ⟨k, hk, rfl⟩ := List.mem_map.1 hmem
      exact Nat.not_succ_le_self _ (hrange k hk).1
    · rw [← List.map_append]
      exact hnodup
  · intro k hk
    rcases List.mem_cons.1 (List.perm_middle.mem_iff.1 hk) with rfl | hk
    · exact ⟨Nat.le_refl n, hle⟩
    · exact ⟨Nat.le_of_succ_le (hrange k hk).1, (hrange k hk).2⟩

/-- No local label is defined twice. -/
theorem nodup (h : FreshLabels n n' code) : (code.filterMap Line.localLabel?).Nodup := by
  obtain ⟨ks, hks, hnodup, -⟩ := h.numbers
  rw [hks]
  refine List.Nodup.map_on ?_ (List.Nodup.of_map _ hnodup)
  intro k hk k' hk' heq
  have hnumber : k.2 = k'.2 := Label.ofLocal_injective heq
  exact List.inj_on_of_nodup_map hnodup hk hk' hnumber

end FreshLabels
end RegisterLisp
