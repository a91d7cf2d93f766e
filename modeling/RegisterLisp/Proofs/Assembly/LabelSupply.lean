import RegisterLisp.Proofs.Lowering.Frame
import RegisterLisp.Proofs.Lowering.Labels

/-!
# The supply of new labels

A listing hands out local labels while it is being written.  Whatever else is done to it in between,
and whether the sink takes what is written or not, the labels of a run carry growing numbers.  A
number is read off the end of its label, so no two labels of a run are the same text, although stems
are arbitrary and may themselves end like a label.  And no label of a global name is among them.
-/

namespace RegisterLisp

/-- An operation on a listing. -/
inductive ListingStep
  | write (statement : Statement)
  | comment (text : String)
  | increaseIndent
  | decreaseIndent
  | newLabel (stem : String)

namespace ListingStep

open Listing (WriteM)
open Steps

/-- What an operation does, and the label that it makes. -/
def perform : ListingStep → WriteM (Option Label)
  | .write statement => do
      Listing.write statement
      return none
  | .comment text => do
      Listing.comment text
      return none
  | .increaseIndent => do
      modify Listing.increaseIndent
      return none
  | .decreaseIndent => do
      modify Listing.decreaseIndent
      return none
  | .newLabel stem => do
      return some (← Listing.newLabel stem)

/-- The listing after an operation, which the sink may have refused. -/
def after (step : ListingStep) (l : Listing) : Listing :=
  (step.perform l).2

def label? (step : ListingStep) (l : Listing) : Option Label :=
  (step.perform l).1.toOption.join

/-- The labels made by operations in order.  What follows a failed operation goes on with what that
has left. -/
def labels : List ListingStep → Listing → List Label
  | [], _ => []
  | step :: steps, l => (step.label? l).toList ++ labels steps (step.after l)

/-- The stem of the label that an operation is to make. -/
def stem? : ListingStep → Option String
  | .newLabel stem => some stem
  | _ => none

def stems (steps : List ListingStep) : List String :=
  steps.filterMap stem?

variable {step : ListingStep} {steps : List ListingStep} {l : Listing}

/-! ## One operation -/

/-- A new label takes the next number, whatever the sink has room for. -/
theorem after_newLabel (stem : String) (l : Listing) :
    after (.newLabel stem) l = { l with nextLabel := l.nextLabel + 1 } :=
  rfl

theorem label?_newLabel (stem : String) (l : Listing) :
    label? (.newLabel stem) l = some (.ofLocal stem l.nextLabel) :=
  rfl

/-- Operations that write or indent make no label, also if they fail. -/
theorem label?_of_stem? (h : step.stem? = none) (l : Listing) : step.label? l = none := by
  have hdone : ∀ x : WriteM Unit,
      ((x >>= fun _ => return none : WriteM (Option Label)) l).1.toOption.join = none := by
    intro x
    rw [bind_apply]
    rcases x l with ⟨r, l'⟩
    cases r with
    | ok _ => rfl
    | error _ => rfl
  cases step with
  | write statement => exact hdone (Listing.write statement)
  | comment text => exact hdone (Listing.comment text)
  | increaseIndent => exact hdone (modify Listing.increaseIndent)
  | decreaseIndent => exact hdone (modify Listing.decreaseIndent)
  | newLabel stem => cases h

/-- The only operation with a stem is the one that makes a label. -/
theorem eq_newLabel_of_stem? {stem : String} (h : step.stem? = some stem) :
    step = .newLabel stem := by
  cases step with
  | newLabel stem' =>
      cases h
      rfl
  | _ => cases h

/-- No operation takes numbers back. -/
theorem nextLabel_le_after (step : ListingStep) (l : Listing) :
    l.nextLabel ≤ (step.after l).nextLabel := by
  have hdone : ∀ x : WriteM Unit, Keeps Listing.Frame x →
      l.nextLabel ≤ ((x >>= fun _ => return none : WriteM (Option Label)) l).2.nextLabel := by
    intro x hx
    have hkeeps := Keeps.bind Listing.Frame.trans hx
      fun _ => Keeps.pure Listing.Frame.refl (none : Option Label)
    exact (hkeeps l).nextLabel
  cases step with
  | write statement => exact hdone _ (Listing.keeps_write statement)
  | comment text => exact hdone _ (Listing.keeps_comment text)
  | increaseIndent => exact le_rfl
  | decreaseIndent => exact le_rfl
  | newLabel stem => exact Nat.le_succ _

/-! ## Runs -/

/-- The labels of a run have the stems that were asked for, in order, and growing numbers. -/
theorem exists_numbers (steps : List ListingStep) (l : Listing) :
    ∃ ks : List (String × Nat), labels steps l = ks.map (fun k => Label.ofLocal k.1 k.2) ∧
      ks.map Prod.fst = stems steps ∧ (ks.map Prod.snd).Pairwise (· < ·) ∧
        ∀ n ∈ ks.map Prod.snd, l.nextLabel ≤ n := by
  induction steps generalizing l with
  | nil => exact ⟨[], rfl, rfl, .nil, by simp⟩
  | cons step steps ih =>
      obtain ⟨ks, hlabels, hstems, hgrowing, hfrom⟩ := ih (step.after l)
      cases hstem : step.stem? with
      | none =>
          refine ⟨ks, ?_, ?_, hgrowing, fun n hn => (nextLabel_le_after step l).trans (hfrom n hn)⟩
          · rw [labels, label?_of_stem? hstem, hlabels]
            rfl
          · rw [hstems, stems, stems, List.filterMap_cons_none hstem]
      | some stem =>
          obtain rfl := eq_newLabel_of_stem? hstem
          rw [after_newLabel] at hlabels hfrom
          -- The number of the new label is below all that are still to come.
          refine ⟨(stem, l.nextLabel) :: ks, ?_, ?_, List.pairwise_cons.2 ⟨hfrom, hgrowing⟩, ?_⟩
          · rw [labels, label?_newLabel, after_newLabel, hlabels]
            rfl
          · rw [List.map_cons, hstems, stems, stems, List.filterMap_cons_some hstem]
          · intro n hn
            rcases List.mem_cons.1 hn with rfl | hn
            · exact le_rfl
            · exact Nat.le_of_succ_le (hfrom n hn)

/-- However a listing is used, the labels that it makes are pairwise different texts, one for each
time that one is asked for, and none is the label of a global name. -/
theorem new_labels_are_unique (l : Listing) (steps : List ListingStep) :
    (labels steps l).length = (stems steps).length ∧ ((labels steps l).map Label.text).Nodup ∧
      ∀ label ∈ labels steps l, ∀ name, label.text ≠ (Label.ofGlobal name).text := by
  obtain ⟨ks, hlabels, hstems, hgrowing, -⟩ := exists_numbers steps l
  have hnodup : (ks.map Prod.snd).Nodup := hgrowing.imp Nat.ne_of_lt
  rw [hlabels, ← hstems]
  refine ⟨by simp, ?_, ?_⟩
  · rw [List.map_map]
    refine List.Nodup.map_on ?_ (List.Nodup.of_map _ hnodup)
    intro k hk k' hk' htext
    have hnumber : k.2 = k'.2 := Label.ofLocal_injective (congrArg Label.mk htext)
    exact List.inj_on_of_nodup_map hnodup hk hk' hnumber
  · intro label hlabel name htext
    obtain ⟨k, -, rfl⟩ := List.mem_map.1 hlabel
    have hsame : Label.ofLocal k.1 k.2 = .ofGlobal name := congrArg Label.mk htext
    -- The first character tells local and global labels apart.
    have hlocal := Label.isLocal_ofLocal k.1 k.2
    rw [hsame, Label.isLocal_ofGlobal] at hlocal
    cases hlocal

/-- Labels whose stems end like labels, made while the sink refuses a comment. -/
def crossedStems : List ListingStep :=
  [.newLabel "a_1__", .increaseIndent, .newLabel "a", .comment "x\ny", .newLabel "a_1",
    .write (.label (.ofLocal "a" 1)), .decreaseIndent, .newLabel ".f"]

theorem new_labels_are_unique_crossedStems :
    (labels crossedStems { room := some 4 }).map Label.text =
        ["@_a_1___0__", "@_a_1__", "@_a_1_2__", "@__dot_f_3__"] ∧
      ((labels crossedStems { room := some 4 }).map Label.text).Nodup ∧
        "@__dot_f_3__" ≠ (Label.ofGlobal "f").text := by
  have hlabels : labels crossedStems { room := some 4 } =
      [⟨"@_a_1___0__"⟩, ⟨"@_a_1__"⟩, ⟨"@_a_1_2__"⟩, ⟨"@__dot_f_3__"⟩] := by
    decide +kernel
  obtain ⟨-, hnodup, hglobal⟩ := new_labels_are_unique { room := some 4 } crossedStems
  exact ⟨by rw [hlabels]; rfl, hnodup, hglobal ⟨"@__dot_f_3__"⟩ (by simp [hlabels]) "f"⟩

end ListingStep
end RegisterLisp
