import RegisterLisp.Proofs.Lowering.Pieces

/-!
# Code that takes less room

A sink may be limited, so that generating code can fail for want of room.  Code in which some lines
are left out still fits.  `Fits x y` says so of two steps: `y` does what `x` does, except that it may
write less.  Leaving out a step is allowed if it does nothing but write (`OnlyWrites`).

Labels are not compared: two steps that make new labels are compared from the same state, by
`Covers`.
-/

namespace RegisterLisp
namespace Lowering

open Steps

variable {α β : Type}

/-! ## States with more room -/

/-- The sink of `s₁` takes what the sink of `s` takes, and but for the labels and the lines written
so far the states agree. -/
structure Roomier (s s₁ : Lowering) : Prop where
  scopes : s₁.scopes = s.scopes
  registers : s₁.registers = s.registers
  indent : s₁.listing.indent = s.listing.indent
  room : ∀ n, s₁.listing.room = some n → ∃ k, s.listing.room = some k ∧ k ≤ n

namespace Roomier

variable {s s₁ s₂ : Lowering}

theorem refl (s : Lowering) : Roomier s s :=
  ⟨rfl, rfl, rfl, fun n h => ⟨n, h, Nat.le_refl n⟩⟩

/-- More room is more room than less. -/
theorem trans (h : Roomier s s₁) (h' : Roomier s₁ s₂) : Roomier s s₂ := by
  refine ⟨h'.scopes.trans h.scopes, h'.registers.trans h.registers, h'.indent.trans h.indent, ?_⟩
  intro n hn
  obtain ⟨k, hk, hle⟩ := h'.room n hn
  obtain ⟨j, hj, hle'⟩ := h.room k hk
  exact ⟨j, hj, Nat.le_trans hle' hle⟩

end Roomier

def lineSize (indent : Nat) (statement : Statement) : Nat :=
  (Line.render ⟨indent, statement⟩).toUTF8.toList.length

def written (statement : Statement) (s : Lowering) : Lowering :=
  { s with listing := { s.listing with
    lines := ⟨s.listing.indent, statement⟩ :: s.listing.lines
    room := s.listing.room.map (· - lineSize s.listing.indent statement) } }

/-- A line that fits is written as a whole. -/
theorem write_of_fits {statement : Statement} {s : Lowering}
    (h : ∀ n, s.listing.room = some n → lineSize s.listing.indent statement ≤ n) :
    writing (Listing.write statement) s = (.ok (), written statement s) := by
  rw [writing, Listing.write_apply, Listing.writeLine_apply, written]
  cases hroom : s.listing.room with
  | none => rfl
  | some n =>
      have hle : (Line.render ⟨s.listing.indent, statement⟩).toUTF8.toList.length ≤ n := h n hroom
      dsimp only
      rw [if_pos hle]
      rfl

/-- A line that was written did fit. -/
theorem eq_written {statement : Statement} {s s' : Lowering} {u : Unit}
    (h : writing (Listing.write statement) s = (.ok u, s')) :
    s' = written statement s ∧
      ∀ n, s.listing.room = some n → lineSize s.listing.indent statement ≤ n := by
  have hfits : ∀ n, s.listing.room = some n → lineSize s.listing.indent statement ≤ n := by
    intro n hroom
    rw [writing, Listing.write_apply, Listing.writeLine_apply, hroom] at h
    dsimp only at h
    split at h
    · rename_i heq
      split at heq
      · rename_i hle
        exact hle
      · cases heq
    · cases h
  rw [write_of_fits hfits] at h
  cases h
  exact ⟨rfl, hfits⟩

/-- A symbol is looked up without any change. -/
theorem lookup_eq_ok {name : Symbol} {s s' : Lowering} {v : Value} :
    lookup name s = (.ok v, s') ↔ s.scopes.lookup name false = some v ∧ s' = s := by
  constructor
  · intro h
    obtain ⟨_, _, hget, h⟩ := bind_eq_ok.1 h
    cases hget
    cases hname : s.scopes.lookup name false with
    | none =>
        rw [hname] at h
        cases h
    | some value =>
        rw [hname] at h
        cases h
        exact ⟨rfl, rfl⟩
  · rintro ⟨hname, rfl⟩
    refine bind_eq_ok.2 ⟨s', s', rfl, ?_⟩
    rw [hname]
    rfl

/-! ## Steps that only write -/

/-- A step that does nothing but take room and make labels. -/
def OnlyWrites (x : LowerM α) : Prop :=
  ∀ s a s', x s = (.ok a, s') → Roomier s' s

namespace OnlyWrites

theorem pure (a : α) : OnlyWrites (pure a : LowerM α) := by
  intro s a' s' h
  cases h
  exact Roomier.refl s

/-- A failure of the first step is one of the whole. -/
theorem bind {x : LowerM α} {f : α → LowerM β} (hx : OnlyWrites x) (hf : ∀ a, OnlyWrites (f a)) :
    OnlyWrites (x >>= f) := by
  intro s b s' h
  obtain ⟨a, s₁, hxs, hfs⟩ := bind_eq_ok.1 h
  exact (hf a s₁ b s' hfs).trans (hx s a s₁ hxs)

theorem sequential : Sequential (@OnlyWrites) :=
  ⟨OnlyWrites.pure, OnlyWrites.bind⟩

/-- Writing takes room and changes nothing else. -/
theorem write (statement : Statement) : OnlyWrites (writing (Listing.write statement)) := by
  intro s u s' h
  obtain ⟨rfl, -⟩ := eq_written h
  refine ⟨rfl, rfl, rfl, ?_⟩
  intro n hn
  exact ⟨n - lineSize s.listing.indent statement, by rw [written, hn]; rfl, Nat.sub_le _ _⟩

/-- A label takes a number and no room. -/
theorem newLabel (stem : String) : OnlyWrites (newLabel stem) := by
  intro s l s' h
  cases h
  exact ⟨rfl, rfl, rfl, fun n hn => ⟨n, hn, Nat.le_refl n⟩⟩

theorem lookup (name : Symbol) : OnlyWrites (lookup name) := by
  intro s v s' h
  obtain ⟨-, rfl⟩ := lookup_eq_ok.1 h
  exact Roomier.refl s'

end OnlyWrites

/-! ## Steps that take less room -/

/-- Where `x` succeeds, `y` succeeds with the same answer if there is at least as much room, and
there is again afterwards. -/
def Fits (x y : LowerM α) : Prop :=
  ∀ s s₁ a s', Roomier s s₁ → x s = (.ok a, s') → ∃ s₁', y s₁ = (.ok a, s₁') ∧ Roomier s' s₁'

namespace Fits

theorem pure (a : α) : Fits (pure a : LowerM α) (pure a) := by
  intro s s₁ a' s' hroom h
  cases h
  exact ⟨s₁, rfl, hroom⟩

/-- Where one run succeeds, the other one does with at least as much room left. -/
theorem bind {x y : LowerM α} {f g : α → LowerM β} (hxy : Fits x y) (hfg : ∀ a, Fits (f a) (g a)) :
    Fits (x >>= f) (y >>= g) := by
  intro s s₁ b s' hroom h
  obtain ⟨a, s₂, hx, hf⟩ := bind_eq_ok.1 h
  obtain ⟨s₃, hy, hroom'⟩ := hxy s s₁ a s₂ hroom hx
  obtain ⟨s₄, hg, hroom''⟩ := hfg a s₂ s₃ b s' hroom' hf
  exact ⟨s₄, bind_eq_ok.2 ⟨a, s₃, hy, hg⟩, hroom''⟩

/-- A step that only writes can be left out. -/
theorem skip {x : LowerM α} {f : α → LowerM β} {y : LowerM β} (hx : OnlyWrites x)
    (hf : ∀ a, Fits (f a) y) : Fits (x >>= f) y := by
  intro s s₁ b s' hroom h
  obtain ⟨a, s₂, hxs, hfs⟩ := bind_eq_ok.1 h
  exact hf a s₂ s₁ b s' ((hx s a s₂ hxs).trans hroom) hfs

/-- What fits into less room fits into more. -/
theorem write (statement : Statement) :
    Fits (writing (Listing.write statement)) (writing (Listing.write statement)) := by
  intro s s₁ u s' hroom h
  obtain ⟨rfl, hfits⟩ := eq_written h
  have hfits' : ∀ n, s₁.listing.room = some n → lineSize s₁.listing.indent statement ≤ n := by
    intro n hn
    obtain ⟨k, hk, hle⟩ := hroom.room n hn
    rw [hroom.indent]
    exact Nat.le_trans (hfits k hk) hle
  refine ⟨_, write_of_fits hfits', hroom.scopes, hroom.registers, hroom.indent, ?_⟩
  intro n hn
  obtain ⟨m, hm, rfl⟩ := Option.map_eq_some_iff.1 hn
  obtain ⟨k, hk, hle⟩ := hroom.room m hm
  refine ⟨k - lineSize s.listing.indent statement, by rw [written, hk]; rfl, ?_⟩
  rw [hroom.indent]
  omega

/-- The scopes agree, so a symbol stands for the same. -/
theorem lookup (name : Symbol) : Fits (lookup name) (lookup name) := by
  intro s s₁ v s' hroom h
  obtain ⟨hname, rfl⟩ := lookup_eq_ok.1 h
  exact ⟨s₁, lookup_eq_ok.2 ⟨by rw [hroom.scopes, hname], rfl⟩, hroom⟩

/-- In a loop all that is done for some items may be left out. -/
theorem forM_filter {γ : Type} {f : γ → LowerM PUnit} (p : γ → Bool) :
    ∀ {xs : List γ}, (∀ x ∈ xs, Fits (f x) (f x)) → (∀ x ∈ xs, OnlyWrites (f x)) →
      Fits (xs.forM f) ((xs.filter p).forM f)
  | [], _, _ => Fits.pure _
  | x :: xs, hfits, hwrites => by
      have hrest : Fits (xs.forM f) ((xs.filter p).forM f) :=
        forM_filter p (fun y hy => hfits y (by simp [hy])) fun y hy => hwrites y (by simp [hy])
      cases hx : p x with
      | true =>
          rw [List.filter_cons_of_pos hx]
          exact Fits.bind (hfits x (by simp)) fun _ => hrest
      | false =>
          rw [List.filter_cons_of_neg (by simp [hx])]
          exact Fits.skip (hwrites x (by simp)) fun _ => hrest

end Fits

/-! ## Steps from the same state -/

/-- Where `x` succeeds, `y` succeeds with the same answer. -/
def Covers (x y : LowerM α) : Prop :=
  ∀ s a s', x s = (.ok a, s') → ∃ s₁', y s = (.ok a, s₁')

namespace Covers

/-- Enough room at the start is all that is asked for. -/
theorem of_fits {x y : LowerM α} (h : Fits x y) : Covers x y := by
  intro s a s' hx
  obtain ⟨s₁', hy, -⟩ := h s s a s' (Roomier.refl s) hx
  exact ⟨s₁', hy⟩

/-- Two steps may begin in the same way. -/
theorem bind {x : LowerM α} {f g : α → LowerM β} (h : ∀ a, Covers (f a) (g a)) :
    Covers (x >>= f) (x >>= g) := by
  intro s b s' hx
  obtain ⟨a, s₁, hxs, hf⟩ := bind_eq_ok.1 hx
  obtain ⟨s₁', hg⟩ := h a s₁ b s' hf
  exact ⟨s₁', bind_eq_ok.2 ⟨a, s₁, hxs, hg⟩⟩

/-- The same temporary is handed out in both runs. -/
theorem withTemporary {x y : Reg → LowerM α} (h : ∀ out, Covers (x out) (y out)) :
    Covers (withTemporary x) (withTemporary y) := by
  intro s a s' hx
  unfold Lowering.withTemporary at hx ⊢
  rcases hreserve : s.registers.save.reserve (.temporaries 1) with ⟨cause | regs, registers⟩
  · rw [withRegisters_of_error hreserve] at hx
    cases hx
  · rw [withRegisters_of_ok hreserve rfl] at hx
    -- Both begin in the same state and are given the same register.
    match regs with
    | [] => cases hx
    | out :: _ =>
        obtain ⟨s₁', hy⟩ := h out _ a _ (eq_ok_of_fst (congrArg Prod.fst hx))
        exact ⟨_, withRegisters_of_ok hreserve hy⟩

end Covers

/-! ## Plain steps -/

/-- A step that does nothing but write, and does so wherever there is enough room. -/
structure Plain (x : LowerM α) : Prop where
  fits : Fits x x
  onlyWrites : OnlyWrites x

namespace Plain

/-- Plain steps in sequence are plain. -/
theorem sequential : Sequential (@Plain) where
  pure a := ⟨Fits.pure a, OnlyWrites.pure a⟩
  bind hx hf :=
    ⟨Fits.bind hx.fits fun a => (hf a).fits, OnlyWrites.bind hx.onlyWrites fun a => (hf a).onlyWrites⟩

theorem emit (opcode : Opcode) (operands : List Operand) : Plain (emit opcode operands) :=
  ⟨Fits.write _, OnlyWrites.write _⟩

theorem defineLabel (l : Label) : Plain (defineLabel l) :=
  ⟨Fits.write _, OnlyWrites.write _⟩

theorem lookup (name : Symbol) : Plain (lookup name) :=
  ⟨Fits.lookup name, OnlyWrites.lookup name⟩

/-- Putting a value in its place only writes. -/
theorem putInto (out : Reg) (source : Source) : Plain (putInto out source) := by
  rcases source with i | (r | l)
  · exact emit _ _
  · change Plain (if r = out then _ else _)
    split
    · exact sequential.pure _
    · exact emit _ _
  · exact emit _ _

/-- An atom has no code of its own as an operand. -/
theorem source_ofAtom (a : Atom) : Plain (Part.ofAtom a).source := by
  cases a with
  | symbol name => exact sequential.bind (lookup name) fun _ => sequential.pure _
  | _ => exact sequential.pure _

end Plain
end Lowering
end RegisterLisp
