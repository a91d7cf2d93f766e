import RegisterLisp.Proofs.Lowering.TermEmission

/-!
# Labels of different names

The label of a global name spells out punctuation as words between underscores.  A name that has no
underscore of its own is read back from its label (`Label.unspell`): whatever stands between two
underscores is a word for one character.  So two names can get the same label only if one of them
has an underscore, and `a?` and `a_quest_` do.

All globals of a program, the methods of types included, are bound to the labels of their names.
-/

namespace RegisterLisp
namespace Label

/-! ## Reading names back -/

def meaning? (word : List Char) : Option Char :=
  (spellings.find? fun (_, spelling) => spelling.toList == '_' :: (word ++ ['_'])).map Prod.fst

/-- The characters of a name that has been spelled out.  After an underscore, `word` holds what has
been seen of a word, last first. -/
def unspell : Option (List Char) → List Char → List Char
  | _, [] => []
  | none, c :: cs => if c = '_' then unspell (some []) cs else c :: unspell none cs
  | some word, c :: cs =>
      if c = '_' then (meaning? word.reverse).toList ++ unspell none cs
      else unspell (some (c :: word)) cs

/-- A word between underscores is read as the character it stands for. -/
theorem unspell_word {word : List Char} (h : '_' ∉ word) (seen rest : List Char) :
    unspell (some seen) (word ++ '_' :: rest) =
      (meaning? (seen.reverse ++ word)).toList ++ unspell none rest := by
  induction word generalizing seen with
  | nil => simp [unspell]
  | cons c word ih =>
      simp only [List.mem_cons, not_or] at h
      simp [unspell, Ne.symm h.1, ih h.2]

/-- The words of the table stand between underscores, have none inside and are all different. -/
theorem exists_word_of_mem {p : Char × String} (h : p ∈ spellings) :
    ∃ word, p.2.toList = '_' :: (word ++ ['_']) ∧ '_' ∉ word ∧ meaning? word = some p.1 := by
  have htable : ∀ p ∈ spellings,
      p.2.toList = '_' :: (p.2.toList.tail.dropLast ++ ['_']) ∧
        '_' ∉ p.2.toList.tail.dropLast ∧ meaning? p.2.toList.tail.dropLast = some p.1 := by
    decide +kernel
  exact ⟨_, htable p h⟩

/-- How a character may stand in a label. -/
theorem spellChar_cases (c : Char) :
    (∃ spelling, (c, spelling) ∈ spellings ∧ spellChar c = spelling.toList) ∨
      spellChar c = [c] ∧ ∀ spelling, (c, spelling) ∉ spellings := by
  unfold spellChar
  split
  · rename_i c' spelling hfind
    obtain rfl : c' = c := by simpa using List.find?_some hfind
    exact Or.inl ⟨spelling, List.mem_of_find?_eq_some hfind, rfl⟩
  · rename_i hfind
    refine Or.inr ⟨rfl, fun spelling hmem => ?_⟩
    simpa using List.find?_eq_none.1 hfind _ hmem

/-- Spelling out a character other than an underscore can be undone. -/
theorem unspell_spellChar {c : Char} (hc : c ≠ '_') (rest : List Char) :
    unspell none (spellChar c ++ rest) = c :: unspell none rest := by
  rcases spellChar_cases c with ⟨spelling, hmem, heq⟩ | ⟨heq, -⟩
  · obtain ⟨word, hword, hfree, hmeaning⟩ := exists_word_of_mem hmem
    rw [heq, hword, List.cons_append, List.append_assoc, List.singleton_append, unspell,
      if_pos rfl, unspell_word hfree, List.reverse_nil, List.nil_append, hmeaning]
    rfl
  · simp [heq, unspell, hc]

/-- So can the spelling of a name without underscores. -/
theorem unspell_ofGlobal {name : String} (h : '_' ∉ name.toList) :
    unspell none (ofGlobal name).text.toList.tail = name.toList := by
  have hchars : ∀ cs : List Char, '_' ∉ cs →
      unspell none (cs.flatMap fun c => if c = '.' then ['.'] else spellChar c) = cs := by
    intro cs
    induction cs with
    | nil => simp [unspell]
    | cons c cs ih =>
        intro hcs
        simp only [List.mem_cons, not_or] at hcs
        rw [List.flatMap_cons]
        split
        · -- A point divides a type from its method and stands for itself.
          rename_i hpoint
          rw [hpoint, List.singleton_append, unspell, if_neg (by decide), ih hcs.2]
        · rw [unspell_spellChar (Ne.symm hcs.1), ih hcs.2]
  rw [ofGlobal, String.toList_ofList, List.tail_cons, hchars _ h]

/-- Two names with one label have an underscore in one of them. -/
theorem mem_underscore_of_ofGlobal_eq {a b : String} (hne : a ≠ b)
    (h : ofGlobal a = ofGlobal b) : '_' ∈ a.toList ∨ '_' ∈ b.toList := by
  by_contra hfree
  rw [not_or] at hfree
  have hread := unspell_ofGlobal hfree.1
  rw [h, unspell_ofGlobal hfree.2] at hread
  exact hne (String.toList_injective hread).symm

end Label

/-! ## The globals of a program -/

/-- Names that are bound to their own labels. -/
def OwnLabels (bindings : Bindings Label) : Prop :=
  ∀ b ∈ bindings, b.2 = .ofGlobal b.1.name

/-- Bindings put together are bound to their own labels if both parts are. -/
theorem ownLabels_append {new old : Bindings Label} :
    OwnLabels (new ++ old) ↔ OwnLabels new ∧ OwnLabels old := by
  simp only [OwnLabels, List.forall_mem_append]

namespace Term

theorem ownLabels_definedName (items : List Term) : OwnLabels (definedName items) := by
  unfold definedName
  split
  · split
    · split
      · simp [OwnLabels]
      · simp [OwnLabels]
    · simp [OwnLabels]
  · simp [OwnLabels]

theorem ownLabels_methodNames (type : Symbol) (methods : List (Symbol × Term)) :
    OwnLabels (methodNames type methods) := by
  intro b hb
  obtain ⟨m, -, rfl⟩ := List.mem_map.1 (List.mem_reverse.1 hb)
  rfl

mutual

/-- Every name that a term declares is bound to the label of that name. -/
theorem ownLabels_declared : ∀ t : Term, OwnLabels (declared t)
  | .atom _ => by simp [declared, OwnLabels]
  | .quoted _ => by simp [declared, OwnLabels]
  | .func _ body => by
      rw [declared]
      exact ownLabels_declaredAll body
  | .list items => by
      rw [declared]
      split
      · simp [OwnLabels]
      · exact ownLabels_append.2 ⟨ownLabels_declaredAll items, ownLabels_definedName items⟩
  | .typeDef name _ ctor methods => by
      have hname : OwnLabels [(name, .ofGlobal name.name)] := by simp [OwnLabels]
      have hbodies := ownLabels_append.2
        ⟨ownLabels_declaredMethods methods, ownLabels_declared ctor⟩
      have hmethods := ownLabels_append.2 ⟨hbodies, ownLabels_methodNames name methods⟩
      rw [declared]
      exact ownLabels_append.2 ⟨hmethods, hname⟩

theorem ownLabels_declaredAll : ∀ ts : List Term, OwnLabels (declaredAll ts)
  | [] => by simp [declaredAll, OwnLabels]
  | t :: ts => by
      rw [declaredAll]
      exact ownLabels_append.2 ⟨ownLabels_declaredAll ts, ownLabels_declared t⟩

theorem ownLabels_declaredMethods : ∀ ms : List (Symbol × Term), OwnLabels (declaredMethods ms)
  | [] => by simp [declaredMethods, OwnLabels]
  | (_, t) :: ms => by
      rw [declaredMethods]
      exact ownLabels_append.2 ⟨ownLabels_declaredMethods ms, ownLabels_declared t⟩

end

end Term

namespace Lowering

/-- A program that compiles has bound the names it declares. -/
theorem emits_lowerProgram (ts : List Term) :
    Emits (Term.declaredAll ts) (lowerProgram (Term.parts ts)) := by
  induction ts with
  | nil => exact Emits.pure _
  | cons t ts ih =>
      rw [Term.declaredAll, Term.parts, lowerProgram]
      refine Emits.after (Emits.comment _) fun _ => ?_
      exact Emits.bind (Term.emitting t).code fun _ => ih

/-- A program leaves every global bound to the label of its name. -/
theorem eq_ofGlobal_of_global? {ts : List Term} {s : Lowering} {name : Symbol} {l : Label}
    (hrun : lowerProgram (Term.parts ts) {} = (.ok (), s)) (h : s.scopes.global? name = some l) :
    l = .ofGlobal name.name := by
  obtain ⟨code, hemission⟩ := emits_lowerProgram ts _ _ _ hrun
  rw [Scopes.global?, hemission.globals, List.append_nil] at h
  obtain ⟨before, after, hbindings, -⟩ := List.lookup_eq_some_iff.1 h
  refine Term.ownLabels_declaredAll ts (name, l) ?_
  simp [hbindings]

end Lowering

namespace Label

/-- Two names get the same label only if one of them has an underscore.  So in every program that
has code, different globals without underscores, be they functions, types or methods, have different
labels. -/
theorem labels_collide_only_through_underscores :
    (∀ a b : String, a ≠ b → ofGlobal a = ofGlobal b → '_' ∈ a.toList ∨ '_' ∈ b.toList) ∧
      ∀ (ts : List Term) (s : Lowering), Lowering.lowerProgram (Term.parts ts) {} = (.ok (), s) →
        ∀ (a b : Symbol) (l l' : Label), s.scopes.global? a = some l →
          s.scopes.global? b = some l' → a ≠ b → '_' ∉ a.name.toList → '_' ∉ b.name.toList →
            l ≠ l' := by
  refine ⟨fun a b => mem_underscore_of_ofGlobal_eq, ?_⟩
  rintro ts s hrun ⟨a⟩ ⟨b⟩ l l' ha hb hne hfree hfree' rfl
  have hlabels : ofGlobal a = ofGlobal b :=
    (Lowering.eq_ofGlobal_of_global? hrun ha).symm.trans
      (Lowering.eq_ofGlobal_of_global? hrun hb)
  have hnames : a ≠ b := fun heq => hne (congrArg Symbol.mk heq)
  exact (mem_underscore_of_ofGlobal_eq hnames hlabels).elim hfree hfree'

/-- A type whose method has a name that differs from that of a function in its punctuation. -/
def dottedNames : List Term :=
  [.typeDef ⟨"p"⟩ [] (.func [] []) [(⟨"q?"⟩, .func [Symbol.this] [])],
    .list [.symbol Symbol.define, .symbol ⟨"p.q!"⟩, .func [] []]]

theorem labels_collide_only_through_underscores_sample :
    (ofGlobal "a?" = ofGlobal "a_quest_" ∧ ('_' ∈ "a?".toList ∨ '_' ∈ "a_quest_".toList)) ∧
      ∃ s l l', Lowering.lowerProgram (Term.parts dottedNames) {} = (.ok (), s) ∧
        s.scopes.global? ⟨"p.q?"⟩ = some l ∧ s.scopes.global? ⟨"p.q!"⟩ = some l' ∧ l ≠ l' := by
  have hequal : ofGlobal "a?" = ofGlobal "a_quest_" := by decide +kernel
  have hrun : (Lowering.lowerProgram (Term.parts dottedNames) {}).1 = .ok () := by
    decide +kernel
  have hmethod : (Lowering.lowerProgram (Term.parts dottedNames) {}).2.scopes.global? ⟨"p.q?"⟩ =
      some ⟨".p.q_quest_"⟩ := by
    decide +kernel
  have hfunction : (Lowering.lowerProgram (Term.parts dottedNames) {}).2.scopes.global? ⟨"p.q!"⟩ =
      some ⟨".p.q_bang_"⟩ := by
    decide +kernel
  refine ⟨⟨hequal, labels_collide_only_through_underscores.1 _ _ (by decide) hequal⟩,
    _, _, _, Steps.eq_ok_of_fst hrun, hmethod, hfunction, ?_⟩
  exact labels_collide_only_through_underscores.2 _ _ (Steps.eq_ok_of_fst hrun) _ _ _ _
    hmethod hfunction (by decide) (by decide +kernel) (by decide +kernel)

end Label
end RegisterLisp
