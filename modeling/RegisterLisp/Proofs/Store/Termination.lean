import RegisterLisp.Proofs.Store.Orderly

/-!
# Normalizing comes to an end

Normalizing goes down into the parts of cells, makes new cells and goes down into these as well,
also where references go round in a cycle.  It ends because a cell is only taken up if nothing is
known about it yet, and something is known about every new cell that could be met, but for the
constructor and the methods of a new type.  These are function literals, to which no rule applies.
So of the cells that are being worked on at one time, at least every second one was there at the
start, and twice the number of cells at the start is enough fuel.

`normalize_ends_taking_up_once` says that no fuel is ever missing and that no cell is taken up twice;
`normalize_links_parents` says what the parent links are afterwards.
-/

namespace RegisterLisp
namespace Store

variable {s : Store} {w w' w'' : Work} {root r : Ref} {sh : Shape Ref} {hidden : Nat → Prop}
  {go : Ref → WorkM Ref} {base fuel id : Nat} {α β : Type}

/-! ## Steps that come to an end -/

open Work (Orderly Open Extends)

/-- From the state `w` the step comes to an end, and no cell has been taken up twice.  If it succeeds
the work is orderly again, and the result has the property `Q`. -/
def Completes (base : Nat) (hidden : Nat → Prop) (w : Work) (x : WorkM α) (Q : Work → α → Prop) :
    Prop :=
  ∃ result w', x.run w = some (result, w') ∧ w'.takenUp.Nodup ∧
    ∀ a, result = .ok a → w.Extends w' ∧ w'.Orderly base hidden ∧ Q w' a

namespace Completes

variable {x : WorkM α} {f : α → WorkM β} {Q : Work → α → Prop} {R : Work → β → Prop}
  {hidden' : Nat → Prop}

theorem pure {a : α} (h : w.Orderly base hidden) (ha : Q w a) :
    Completes base hidden w (pure a) Q := by
  refine ⟨.ok a, w, rfl, h.once, ?_⟩
  rintro _ ⟨⟩
  exact ⟨.refl w, h, ha⟩

/-- A step that fails comes to an end. -/
theorem throw (h : w.Orderly base hidden) (cause : FormError) :
    Completes base hidden w (throw cause) Q := by
  refine ⟨.error cause, w, rfl, h.once, ?_⟩
  rintro _ ⟨⟩

/-- A step that succeeds and leads to an orderly state. -/
theorem of_run {a : α} (hrun : x.run w = some (.ok a, w')) (hext : w.Extends w')
    (h : w'.Orderly base hidden) (ha : Q w' a) : Completes base hidden w x Q := by
  refine ⟨.ok a, w', hrun, h.once, ?_⟩
  rintro _ ⟨⟩
  exact ⟨hext, h, ha⟩

/-- Steps that lead to another state, and what comes after them. -/
theorem of_run_eq {y : WorkM α} (hext : w.Extends w') (h : Completes base hidden w' x Q)
    (hrun : y.run w = x.run w') : Completes base hidden w y Q := by
  obtain ⟨result, w'', hx, honce, hok⟩ := h
  refine ⟨result, w'', hrun.trans hx, honce, fun a ha => ?_⟩
  obtain ⟨hext', hQ⟩ := hok a ha
  exact ⟨hext.trans hext', hQ⟩

/-- A step that looks at the state first. -/
theorem of_get {f : Work → WorkM α} (h : Completes base hidden w (f w) Q) :
    Completes base hidden w (get >>= f) Q :=
  h

/-- A step that says something in the log first. -/
theorem of_tell {records : List Record}
    (h : ∀ log, Completes base hidden { w with log } x Q) :
    Completes base hidden w (tell records >>= fun _ => x) Q :=
  of_run_eq (.withLog w _) (h (records.reverse ++ w.log)) rfl

/-- Less may be claimed of the result. -/
theorem imp {Q' : Work → α → Prop} (h : Completes base hidden w x Q)
    (himp : ∀ {w' a}, w.Extends w' → w'.Orderly base hidden → Q w' a →
      w'.Orderly base hidden' ∧ Q' w' a) : Completes base hidden' w x Q' := by
  obtain ⟨result, w', hrun, honce, hok⟩ := h
  refine ⟨result, w', hrun, honce, fun a ha => ?_⟩
  obtain ⟨hext, horderly, hQ⟩ := hok a ha
  exact ⟨hext, himp hext horderly hQ⟩

/-- Steps in sequence come to an end if each does. -/
theorem bind (h : Completes base hidden w x Q)
    (hf : ∀ {w' a}, w.Extends w' → w'.Orderly base hidden → Q w' a →
      Completes base hidden' w' (f a) R) : Completes base hidden' w (x >>= f) R := by
  obtain ⟨result, w', hrun, honce, hok⟩ := h
  cases result with
  | error cause =>
      refine ⟨.error cause, w', run_bind_error hrun, honce, ?_⟩
      rintro _ ⟨⟩
  | ok a =>
      obtain ⟨hext, horderly, hQ⟩ := hok a rfl
      obtain ⟨result', w'', hrun', honce', hok'⟩ := hf hext horderly hQ
      refine ⟨result', w'', (run_bind_ok hrun).trans hrun', honce', fun b hb => ?_⟩
      obtain ⟨hext', horderly', hR⟩ := hok' b hb
      exact ⟨hext.trans hext', horderly', hR⟩

/-- So does a step on each of several parts. -/
theorem mapM {f : β → WorkM α} {xs : List β} (h : w.Orderly base hidden)
    (hstable : ∀ {w w' a}, w.Extends w' → Q w a → Q w' a)
    (hf : ∀ x ∈ xs, ∀ {w'}, w.Extends w' → w'.Orderly base hidden →
      Completes base hidden w' (f x) Q) :
    Completes base hidden w (xs.mapM f) fun w' ys => ∀ y ∈ ys, Q w' y := by
  induction xs generalizing w with
  | nil => exact pure h (by simp)
  | cons x xs ih =>
      rw [List.mapM_cons]
      refine (hf x (by simp) (.refl w) h).bind fun hext horderly hy => ?_
      refine (ih horderly fun x hx w'' hext' =>
        hf x (List.mem_cons_of_mem _ hx) (hext.trans hext')).bind fun hext' horderly' hys => ?_
      exact pure horderly' (List.forall_mem_cons.2 ⟨hstable hext' hy, hys⟩)

end Completes

/-! ## Reducing parts -/

def Payable (base : Nat) (hidden : Nat → Prop) (fuel : Nat) (w : Work) : Ref → Prop
  | .atom _ => True
  | .cell id => ¬ hidden id ∧ id < w.store.size ∧ 2 * (w.unmet base).card ≤ fuel ∧
      (id < base ∨ w.Met id ∨ 2 * (w.unmet base).card < fuel)

theorem Payable.extends (h : Payable base hidden fuel w r) (hext : w.Extends w') :
    Payable base hidden fuel w' r := by
  cases r with
  | atom a => trivial
  | cell id =>
      have hcard : (w'.unmet base).card ≤ (w.unmet base).card := hext.card_unmet_le
      obtain ⟨hid, hlt, hfuel, hcases⟩ := h
      refine ⟨hid, hlt.trans_le hext.size_le, (Nat.mul_le_mul_left 2 hcard).trans hfuel, ?_⟩
      exact hcases.imp_right (Or.imp hext.met (Nat.mul_le_mul_left 2 hcard).trans_lt)

/-- A part that is there already stays payable when the next cell is hidden. -/
theorem Payable.hide (h : Payable base hidden fuel w r) :
    Payable base (fun i => hidden i ∨ i = w.store.size) fuel w r := by
  cases r with
  | atom a => trivial
  | cell id => exact ⟨not_or.2 ⟨h.1, h.2.1.ne⟩, h.2⟩

/-- An open part can be paid for if fuel is left for all unknown cells. -/
theorem Payable.of_open (h : w.Orderly base hidden) (hr : w.Open base hidden r)
    (hfuel : 2 * (w.unmet base).card ≤ fuel) : Payable base hidden fuel w r := by
  cases r with
  | atom a => trivial
  | cell id => exact ⟨hr.1, h.lt_size hr, hfuel, hr.2.imp_right Or.inl⟩

/-- Whatever part can be taken up with the fuel is reduced to an open part, and is open itself from
then on. -/
def Serves (base fuel : Nat) (go : Ref → WorkM Ref) : Prop :=
  ∀ {hidden w r}, w.Orderly base hidden → Payable base hidden fuel w r →
    Completes base hidden w (go r) fun w' r' => w'.Open base hidden r' ∧ w'.Open base hidden r

namespace Serves

theorem items {items : List Ref} (hgo : Serves base fuel go) (h : w.Orderly base hidden)
    (hitems : ∀ r ∈ items, Payable base hidden fuel w r) :
    Completes base hidden w (items.mapM go) fun w' rs => ∀ r ∈ rs, w'.Open base hidden r := by
  refine .mapM h (fun hext hr => hr.extends hext) fun r hr w' hext horderly => ?_
  exact (hgo horderly ((hitems r hr).extends hext)).imp fun _ horderly' hr' => ⟨horderly', hr'.1⟩

/-- A constructor or method comes to an end. -/
theorem slot (hgo : Serves base fuel go) (h : w.Orderly base hidden)
    (hr : Payable base hidden fuel w r) :
    Completes base hidden w (reduceSlot go r) fun w' r' => w'.Open base hidden r' := by
  refine (hgo h hr).bind fun {w' result} _ horderly hresult => ?_
  cases result with
  | atom a => exact .pure horderly hresult.2
  | cell id => exact .pure horderly hresult.1

/-- What is put in the place of a cell that has been met. -/
theorem replaced (h : w.Orderly base hidden) (hid : w.Met id)
    (hsh : ∀ r ∈ sh.parts, w.Open base hidden r) :
    Completes base hidden w (update (·.setShape id sh)) fun w' _ =>
      w'.store.shape id = sh ∧ ∀ r ∈ (w'.store.shape id).parts, w'.Open base hidden r := by
  have hshape : (w.store.setShape id sh).shape id = sh := shape_setShape_self (h.met_lt hid)
  refine .of_run rfl ⟨fun hmet => hmet, size_setShape.ge⟩ (h.setShape hid hsh) ⟨hshape, ?_⟩
  change ∀ r ∈ ((w.store.setShape id sh).shape id).parts, w.Open base hidden r
  rw [hshape]
  exact hsh

/-- The parts of a cell are reduced to open parts, and a function literal stays one. -/
theorem parts (hgo : Serves base fuel go) (h : w.Orderly base hidden) (hid : w.Met id)
    (hquoted : hidden id → (w.store.shape id).isQuoted = false)
    (hparts : ∀ r ∈ (w.store.shape id).parts, Payable base hidden fuel w r) :
    Completes base hidden w (reduceParts go (.cell id)) fun w' _ =>
      (∀ params body, w.store.shape id = .func params body →
        ∃ body', w'.store.shape id = .func params body') ∧
      ∀ r ∈ (w'.store.shape id).parts, w'.Open base hidden r := by
  change Completes base hidden w (get >>= _) _
  refine .of_get ?_
  cases hshape : w.store.shape id with
  | list items =>
      rw [hshape] at hparts
      refine (hgo.items h hparts).bind fun {_ items'} hext horderly hitems => ?_
      have hlist : ∀ r ∈ (Shape.list items').parts, Open base hidden _ r := hitems
      refine (replaced horderly (hext.met hid) hlist).imp fun _ horderly' hplace => ?_
      exact ⟨horderly', by simp, hplace.2⟩
  | quoted inner =>
      refine .pure h ⟨by simp, h.parts fun hhidden => ?_⟩
      simp [hshape, Shape.isQuoted] at hquoted
      exact hquoted hhidden
  | func params body =>
      rw [hshape] at hparts
      refine (hgo.items h hparts).bind fun {_ body'} hext horderly hbody => ?_
      have hfunc : ∀ r ∈ (Shape.func params body').parts, Open base hidden _ r := hbody
      refine (replaced horderly (hext.met hid) hfunc).imp fun _ horderly' hplace => ?_
      refine ⟨horderly', ?_, hplace.2⟩
      rintro _ _ ⟨⟩
      exact ⟨_, hplace.1⟩
  | typeDef name fields ctor methods =>
      rw [hshape] at hparts
      obtain ⟨hctor, hmethods⟩ := List.forall_mem_cons.1 hparts
      refine (hgo.slot h hctor).bind fun {w' _} hext horderly hctor => ?_
      have hslots : Completes base hidden w' (methods.mapM fun m => do
          return (m.1, ← reduceSlot go m.2)) fun w' ms => ∀ m ∈ ms, w'.Open base hidden m.2 := by
        refine .mapM horderly (fun hext hm => hm.extends hext) fun m hm w'' hext' horderly' => ?_
        have hm' := (hmethods m.2 (List.mem_map_of_mem hm)).extends (hext.trans hext')
        exact (hgo.slot horderly' hm').bind fun _ horderly'' hr => .pure horderly'' hr
      refine hslots.bind fun hext' horderly' hmethods => ?_
      have hopen : ∀ r ∈ (Shape.typeDef name fields _ _).parts, Open base hidden _ r :=
        List.forall_mem_cons.2 ⟨hctor.extends hext', List.forall_mem_map.2 hmethods⟩
      refine (replaced horderly' (hext'.met (hext.met hid)) hopen).imp fun _ horderly'' hplace => ?_
      exact ⟨horderly'', by simp, hplace.2⟩

end Serves

/-! ## Applying rules -/

theorem Work.Extends.alloc (w : Work) (sh : Shape Ref) :
    w.Extends { w with store := (w.store.alloc sh).2 } :=
  ⟨fun hmet => hmet, size_alloc.ge.trans' (Nat.le_succ _)⟩

/-- The state in which a replacement has been put in place, but has not been noted yet: it is a part
that was there before, or the latest cell. -/
inductive Installed (base : Nat) (hidden : Nat → Prop) (fuel : Nat) : Work → Ref → Prop
  | part {w : Work} {r : Ref} (h : w.Orderly base hidden) (hr : w.Open base hidden r) :
      Installed base hidden fuel w r
  | made {w : Work} {sh : Shape Ref} (h : w.Orderly base hidden) (hsh : sh.isQuoted = false)
      (hparts : ∀ r ∈ sh.parts, Payable base hidden fuel w r) :
      Installed base hidden fuel { w with store := (w.store.alloc sh).2 } (.cell w.store.size)

/-- A new function literal can be taken up if there is fuel to spare. -/
theorem completes_make_func {params : List Symbol} {body : List Ref} (h : w.Orderly base hidden)
    (hbody : ∀ r ∈ body, w.Open base hidden r) (hfuel : 2 * (w.unmet base).card < fuel) :
    Completes base hidden w (make (.func params body)) (Payable base hidden fuel) := by
  refine .of_run rfl (.alloc w _) (h.alloc hbody) ⟨h.not_hidden_size, size_alloc.ge, hfuel.le, ?_⟩
  exact Or.inr (Or.inr hfuel)

/-- A cell is made as the replacement, and something else follows. -/
theorem Completes.make {k : Ref → WorkM α} {Q : Work → α → Prop} (h : w.Orderly base hidden)
    (hsh : sh.isQuoted = false) (hparts : ∀ r ∈ sh.parts, Payable base hidden fuel w r)
    (hk : ∀ {w' r}, w.Extends w' → Installed base hidden fuel w' r →
      Completes base hidden w' (k r) Q) :
    Completes base hidden w (make sh >>= k) Q := by
  have hext := Extends.alloc w sh
  exact .of_run_eq hext (hk hext (.made h hsh hparts)) rfl

/-- A replacement is put in place, and something else follows. -/
theorem Completes.install {new : Replacement Ref} {k : Ref → WorkM α} {Q : Work → α → Prop}
    (h : w.Orderly base hidden) (hnew : ∀ r ∈ new.parts, w.Open base hidden r)
    (hfuel : 2 * (w.unmet base).card < fuel)
    (hk : ∀ {w' r}, w.Extends w' → Installed base hidden fuel w' r →
      Completes base hidden w' (k r) Q) :
    Completes base hidden w (install new >>= k) Q := by
  have hpayable : ∀ r ∈ new.parts, Payable base hidden fuel w r :=
    fun r hr => .of_open h (hnew r hr) hfuel.le
  cases new with
  | part r => exact hk (.refl w) (.part h (hnew r (by simp [Replacement.parts])))
  | list items => exact .make h rfl hpayable hk
  | func f => exact .make h rfl hpayable hk
  | typeDef d =>
      -- The constructor and the methods are made first, and nothing is noted about them.
      have hctor : ∀ r ∈ d.ctor.body, w.Open base hidden r :=
        fun r hr => hnew r (List.mem_append_left _ hr)
      have hmethods : ∀ m ∈ d.methods, ∀ r ∈ m.2.body, w.Open base hidden r :=
        fun m hm r hr => hnew r (List.mem_append_right _ (List.mem_flatMap.2 ⟨m, hm, hr⟩))
      simp only [Store.install, bind_assoc]
      refine (completes_make_func h hctor hfuel).bind fun {w₁ ctor} hext₁ h₁ hctor => ?_
      have hmake : Completes base hidden w₁ (d.methods.mapM fun m => do
          return (m.1, ← Store.make (.func m.2.params m.2.body)))
          fun w' ms => ∀ m ∈ ms, Payable base hidden fuel w' m.2 := by
        refine .mapM h₁ (fun hext hm => hm.extends hext) fun m hm w' hext h' => ?_
        have hext' := hext₁.trans hext
        have hbody := fun r hr => (hmethods m hm r hr).extends hext'
        exact (completes_make_func h' hbody (hext'.spare hfuel)).bind fun _ h'' hr => .pure h'' hr
      refine hmake.bind fun {w₂ methods} hext₂ h₂ hmethods => ?_
      have hparts : ∀ r ∈ (Shape.typeDef d.name d.fields ctor methods).parts,
          Payable base hidden fuel w₂ r :=
        List.forall_mem_cons.2 ⟨hctor.extends hext₂, List.forall_mem_map.2 hmethods⟩
      exact .make h₂ rfl hparts fun hext => hk ((hext₁.trans hext₂).trans hext)

/-- A replacement has been put in place and is noted.  Then its parts are reduced. -/
theorem Serves.installed {log : List Record} (hgo : Serves base fuel go)
    (h : Installed base hidden fuel w (.cell id)) (hfuel : 2 * (w.unmet base).card < fuel) :
    Completes base hidden (({ w with log } : Work).note id (.done (.cell id)))
      (reduceParts go (.cell id)) fun w' _ => w'.Open base hidden (.cell id) := by
  have hmet : (({ w with log } : Work).note id (.done (.cell id))).Met id := Work.met_note_self
  have hext := Extends.note { w with log } id (.done (.cell id))
  have hfuel' := hext.spare hfuel
  generalize hr : Ref.cell id = r at h
  cases h with
  | part h hopen =>
      subst hr
      have hnoted : (({ w with log } : Work).note id (.done (.cell id))).Orderly base hidden := by
        refine (h.withLog log).note hopen.1 (h.lt_size hopen) ?_ (by simp)
        rintro _ ⟨⟩
        exact ⟨hopen.1, Or.inr hmet⟩
      have hparts := fun r hr => Payable.of_open hnoted (hnoted.parts hopen.1 r hr) hfuel'.le
      refine (hgo.parts hnoted hmet (absurd · hopen.1) hparts).imp fun hext' h' _ => ?_
      exact ⟨h', hopen.1, Or.inr (hext'.met hmet)⟩
  | @made w sh h hsh hparts =>
      cases hr
      -- The new cell is hidden until its parts have been reduced.
      have hshape : (w.store.alloc sh).2.shape w.store.size = sh := shape_alloc_self
      refine (hgo.parts (h.alloc_hidden sh log) hmet ?_ ?_).imp fun hext' h' hparts' => ?_
      · intro _
        change ((w.store.alloc sh).2.shape w.store.size).isQuoted = false
        rwa [hshape]
      · change ∀ r ∈ ((w.store.alloc sh).2.shape w.store.size).parts, _
        rw [hshape]
        have hextends := ((Extends.alloc w sh).trans (.withLog _ log)).trans hext
        exact fun r hr => (hparts r hr).hide.extends hextends
      · exact ⟨h'.unhide hparts'.2 h.not_hidden_size, h.not_hidden_size, Or.inr (hext'.met hmet)⟩

/-- Rules lead from an open part to an open part. -/
theorem Serves.rules (hgo : Serves base fuel go) (depth : Nat) (rules : List Rule) :
    ∀ {w r}, w.Orderly base hidden → w.Open base hidden r → 2 * (w.unmet base).card < fuel →
      Completes base hidden w (applyRules go depth rules r) fun w' r' =>
        w'.Open base hidden r' := by
  induction rules with
  | nil => exact fun h hr _ => .pure h hr
  | cons rule rules ih =>
      intro w r h hr hfuel
      refine .of_get ?_
      dsimp only
      split
      · rename_i items hview
        have hitems : ∀ x ∈ items, w.Open base hidden x := h.handsOn.items hr (by rw [hview]; rfl)
        split
        · exact .throw h _
        · exact ih h hr hfuel
        · rename_i new happly
          -- The rule sees the items and what can be seen of them, all of it open.
          refine .install h (h.handsOn.of_apply hitems happly) hfuel fun {w₁ result} hext hinst => ?_
          have hfuel₁ := hext.spare hfuel
          refine .of_get (.of_tell fun log => ?_)
          cases result with
          | atom a =>
              have h₁ : w₁.Orderly base hidden := by
                cases hinst
                assumption
              exact ih (h₁.withLog log) trivial hfuel₁
          | cell id =>
              have hnote := Extends.note { w₁ with log } id (.done (.cell id))
              refine .of_run_eq hnote (.bind (hgo.installed hinst hfuel₁) fun hext' h' hr' => ?_) rfl
              have hext₂ := hnote.trans hext'
              exact ih h' hr' (hext₂.spare hfuel₁)
      · exact ih h hr hfuel

/-- No rule applies to a function literal. -/
theorem run_applyRules_func {params : List Symbol} {body : List Ref} {depth : Nat}
    (hshape : w.store.shape id = .func params body) (rules : List Rule) :
    (applyRules go depth rules (.cell id)).run w = some (.ok (.cell id), w) := by
  induction rules with
  | nil => rfl
  | cons rule rules ih =>
      rw [run_applyRules_of_pass (fun items hview => ?_), ih]
      simp [view, hshape] at hview

/-! ## Reducing -/

theorem run_reduce_done {depth : Nat} (hvisit : w.visit? id = some (.done r)) :
    (reduce fuel depth (.cell id)).run w = some (.ok r, w) := by
  rw [reduce.eq_def]
  change (get >>= _ : WorkM Ref).run w = _
  rw [run_get_bind, hvisit]
  rfl

theorem run_reduce_pending {depth : Nat} (hvisit : w.visit? id = some .pending) :
    (reduce fuel depth (.cell id)).run w = some (.ok (.cell id), w) := by
  rw [reduce.eq_def]
  change (get >>= _ : WorkM Ref).run w = _
  rw [run_get_bind, hvisit]
  rfl

/-- For a cell that has been met it does not matter how much fuel there is. -/
theorem run_reduce_met {fuel' depth : Nat} (hmet : w.Met id) :
    (reduce fuel depth (.cell id)).run w = (reduce fuel' depth (.cell id)).run w := by
  obtain ⟨v, hvisit⟩ := Option.ne_none_iff_exists'.1 hmet
  cases v with
  | pending => rw [run_reduce_pending hvisit, run_reduce_pending hvisit]
  | done r => rw [run_reduce_done hvisit, run_reduce_done hvisit]

/-- A cell about which nothing is known is worked on, and what became of it is noted. -/
theorem run_reduce_unmet {depth : Nat} (hvisit : w.visit? id = none) :
    (reduce (fuel + 1) depth (.cell id)).run w = (do
        reduceParts (reduce fuel (depth + 1)) (.cell id)
        let result ← applyRules (reduce fuel (depth + 1)) depth Rule.all (.cell id)
        note id (.done result)
        return result).run (w.note id .pending) := by
  rw [reduce, run_get_bind, hvisit]
  rfl

/-- A cell that has been met is not taken up again. -/
theorem completes_reduce_met {depth : Nat} (h : w.Orderly base hidden) (hid : ¬ hidden id)
    (hmet : w.Met id) :
    Completes base hidden w (reduce fuel depth (.cell id)) fun w' r' =>
      w'.Open base hidden r' ∧ w'.Open base hidden (.cell id) := by
  have hopen : w.Open base hidden (.cell id) := ⟨hid, Or.inr hmet⟩
  obtain ⟨v, hvisit⟩ := Option.ne_none_iff_exists'.1 hmet
  cases v with
  | pending => exact .of_run (run_reduce_pending hvisit) (.refl w) h ⟨hopen, hopen⟩
  | done r => exact .of_run (run_reduce_done hvisit) (.refl w) h ⟨h.done hid hvisit, hopen⟩

/-- The last step of working on a cell. -/
theorem completes_noteDone {result : Ref} (h : w.Orderly base hidden) (hid : ¬ hidden id)
    (hmet : w.Met id) (hresult : w.Open base hidden result) :
    Completes base hidden w (do note id (.done result); return result) fun w' r' =>
      w'.Open base hidden r' ∧ w'.Open base hidden (.cell id) := by
  have hext := Extends.note w id (.done result)
  have hnoted : (w.note id (.done result)).Orderly base hidden := by
    refine h.note hid (h.met_lt hmet) ?_ (by simp)
    rintro _ ⟨⟩
    exact hresult.extends hext
  exact .of_run rfl hext hnoted ⟨hresult.extends hext, hid, Or.inr (hext.met hmet)⟩

/-- Taking up a cell that was there at the start. -/
theorem Serves.takeUp_old {depth : Nat} (hgo : Serves base fuel (reduce fuel (depth + 1)))
    (h : w.Orderly base hidden) (hid : ¬ hidden id) (hbase : id < base)
    (hfuel : 2 * (w.unmet base).card ≤ fuel + 1) (hvisit : w.visit? id = none) :
    Completes base hidden w (reduce (fuel + 1) depth (.cell id)) fun w' r' =>
      w'.Open base hidden r' ∧ w'.Open base hidden (.cell id) := by
  have hmet : (w.note id .pending).Met id := Work.met_note_self
  have hnoted : (w.note id .pending).Orderly base hidden :=
    h.note hid (hbase.trans_le h.base_le) (by simp) fun _ => hvisit
  -- There is one cell less that can be taken up, so there is fuel to spare for new ones.
  have hspare : 2 * ((w.note id .pending).unmet base).card < fuel := by
    have hlt := Work.card_unmet_note_lt (v := .pending) hbase hvisit
    omega
  have hparts := fun r hr => Payable.of_open hnoted (hnoted.parts hid r hr) hspare.le
  refine .of_run_eq (.note w id .pending) ?_ (run_reduce_unmet hvisit)
  refine (hgo.parts hnoted hmet (absurd · hid) hparts).bind fun {w' _} hext h' _ => ?_
  have hopen : w'.Open base hidden (.cell id) := ⟨hid, Or.inl hbase⟩
  have hspare' := hext.spare hspare
  refine (hgo.rules depth Rule.all h' hopen hspare').bind fun hext' h'' hresult => ?_
  exact completes_noteDone h'' hid (hext'.met (hext.met hmet)) hresult

/-- Taking up a new cell.  It is a function literal. -/
theorem Serves.takeUp_new {depth : Nat} (hgo : Serves base fuel (reduce fuel (depth + 1)))
    (h : w.Orderly base hidden) (hid : ¬ hidden id) (hbase : base ≤ id) (hlt : id < w.store.size)
    (hfuel : 2 * (w.unmet base).card < fuel + 1) (hvisit : w.visit? id = none) :
    Completes base hidden w (reduce (fuel + 1) depth (.cell id)) fun w' r' =>
      w'.Open base hidden r' ∧ w'.Open base hidden (.cell id) := by
  have hext := Extends.note w id .pending
  have hmet : (w.note id .pending).Met id := Work.met_note_self
  have hnoted : (w.note id .pending).Orderly base hidden :=
    h.note hid hlt (by simp) fun _ => hvisit
  have hfuel' : 2 * ((w.note id .pending).unmet base).card ≤ fuel :=
    (Nat.mul_le_mul_left 2 hext.card_unmet_le).trans (Nat.le_of_lt_succ hfuel)
  have hparts := fun r hr => Payable.of_open hnoted (hnoted.parts hid r hr) hfuel'
  obtain ⟨params, body, hshape⟩ := h.fresh hbase hlt (not_not.2 hvisit)
  refine .of_run_eq hext ?_ (run_reduce_unmet hvisit)
  refine (hgo.parts hnoted hmet (absurd · hid) hparts).bind fun {w' _} hext' h' hplace => ?_
  obtain ⟨body', hshape'⟩ := hplace.1 params body hshape
  have hopen : w'.Open base hidden (.cell id) := ⟨hid, Or.inr (hext'.met hmet)⟩
  have hdone := completes_noteDone h' hid (hext'.met hmet) hopen
  exact .of_run_eq (.refl w') hdone (run_bind_ok (run_applyRules_func hshape' Rule.all))

/-- Reducing comes to an end with fuel for two rounds per unknown cell: one for the cell and one for
a new one in its place. -/
theorem serves_reduce (base fuel : Nat) : ∀ depth, Serves base fuel (reduce fuel depth) := by
  induction fuel with
  | zero =>
      intro depth hidden w r h hr
      cases r with
      | atom a => exact .of_run rfl (.refl w) h ⟨trivial, trivial⟩
      | cell id =>
          obtain ⟨hid, hlt, hfuel, hbase | hmet | hspare⟩ := hr
          · -- With nothing left to be taken up, the cell has been met.
            refine completes_reduce_met h hid fun hvisit => ?_
            have hpos := Finset.card_pos.2 ⟨id, Work.mem_unmet.2 ⟨hbase, hvisit⟩⟩
            omega
          · exact completes_reduce_met h hid hmet
          · omega
  | succ fuel ih =>
      intro depth hidden w r h hr
      cases r with
      | atom a => exact .of_run rfl (.refl w) h ⟨trivial, trivial⟩
      | cell id =>
          obtain ⟨hid, hlt, hfuel, hcases⟩ := hr
          by_cases hvisit : w.visit? id = none
          · by_cases hbase : id < base
            · exact Serves.takeUp_old (ih (depth + 1)) h hid hbase hfuel hvisit
            · have hspare := (hcases.resolve_left hbase).resolve_left (not_not.2 hvisit)
              exact Serves.takeUp_new (ih (depth + 1)) h hid (Nat.not_lt.1 hbase) hlt hspare hvisit
          · exact completes_reduce_met h hid hvisit

/-! ## More fuel -/

/-- Whatever comes to an end in one computation does so in the other, in the same way. -/
def Refines (x y : WorkM α) : Prop :=
  ∀ {w out}, x.run w = some out → y.run w = some out

namespace Refines

variable {go' : Ref → WorkM Ref}

theorem refl (x : WorkM α) : Refines x x :=
  fun h => h

/-- A computation with more fuel does the same in sequence. -/
theorem bind {x y : WorkM α} {f g : α → WorkM β} (h : Refines x y) (hf : ∀ a, Refines (f a) (g a)) :
    Refines (x >>= f) (y >>= g) := by
  intro w out hrun
  change (Option.bind (x.run w) fun p => ExceptT.bindCont f p.1 p.2) = some out at hrun
  obtain ⟨⟨result, w'⟩, hx, hrest⟩ := Option.bind_eq_some_iff.1 hrun
  cases result with
  | error cause => exact (run_bind_error (h hx)).trans hrest
  | ok a => exact (run_bind_ok (h hx)).trans (hf a hrest)

theorem mapM {f g : α → WorkM β} (h : ∀ a, Refines (f a) (g a)) (xs : List α) :
    Refines (xs.mapM f) (xs.mapM g) := by
  induction xs with
  | nil => exact refl _
  | cons x xs ih =>
      rw [List.mapM_cons, List.mapM_cons]
      exact bind (h x) fun y => bind ih fun ys => refl _

theorem reduceSlot (h : ∀ r, Refines (go r) (go' r)) (r : Ref) :
    Refines (reduceSlot go r) (reduceSlot go' r) :=
  bind (h r) fun _ => refl _

theorem reduceParts (h : ∀ r, Refines (go r) (go' r)) (r : Ref) :
    Refines (reduceParts go r) (reduceParts go' r) := by
  cases r with
  | atom a => exact refl _
  | cell id =>
      refine bind (refl get) fun w => ?_
      cases w.store.shape id with
      | list items => exact bind (mapM h items) fun _ => refl _
      | quoted inner => exact refl _
      | func params body => exact bind (mapM h body) fun _ => refl _
      | typeDef name fields ctor methods =>
          refine bind (reduceSlot h ctor) fun _ => bind (mapM (fun m => ?_) methods) fun _ => refl _
          exact bind (reduceSlot h m.2) fun _ => refl _

theorem applyRules (h : ∀ r, Refines (go r) (go' r)) (depth : Nat) (rules : List Rule) :
    ∀ r, Refines (applyRules go depth rules r) (applyRules go' depth rules r) := by
  induction rules with
  | nil => exact fun r => refl _
  | cons rule rules ih =>
      intro r
      refine bind (refl get) fun w => ?_
      dsimp only
      split
      · split
        · exact refl _
        · exact ih r
        · refine bind (refl _) fun result => bind (refl get) fun _ => bind (refl _) fun _ => ?_
          cases result with
          | atom a => exact bind (reduceParts h _) fun _ => ih _
          | cell id => exact bind (refl _) fun _ => bind (reduceParts h _) fun _ => ih _
      · exact ih r

/-- With more fuel the result stays the same. -/
theorem reduce {fuel' : Nat} (hle : fuel ≤ fuel') :
    ∀ depth r, Refines (reduce fuel depth r) (reduce fuel' depth r) := by
  induction fuel generalizing fuel' with
  | zero =>
      rintro depth (a | id) w out hrun
      · rwa [Store.reduce] at hrun ⊢
      · by_cases hvisit : w.visit? id = none
        · rw [Store.reduce, run_get_bind, hvisit] at hrun
          cases hrun
        · rwa [run_reduce_met hvisit] at hrun
  | succ fuel ih =>
      rintro depth (a | id) w out hrun
      · rwa [Store.reduce] at hrun ⊢
      · obtain ⟨fuel', rfl⟩ := Nat.exists_eq_add_of_le' hle
        rw [← Nat.add_assoc] at hle ⊢
        by_cases hvisit : w.visit? id = none
        · have hgo := ih (Nat.le_of_succ_le_succ hle) (depth + 1)
          rw [run_reduce_unmet hvisit] at hrun ⊢
          refine bind (reduceParts hgo _) (fun _ => ?_) hrun
          exact bind (applyRules hgo depth Rule.all _) fun _ => refl _
        · rwa [run_reduce_met hvisit] at hrun

end Refines

/-! ## The whole -/

/-- Before the first step nothing is hidden and nothing has been met. -/
theorem orderly_start (hclosed : s.IsClosed) :
    ({ store := s } : Work).Orderly s.size fun _ => False where
  base_le := Nat.le_refl _
  met_lt h := absurd rfl h
  hidden_visit h := h.elim
  parts {i} _ r hr := by
    cases r with
    | atom a => trivial
    | cell j => exact ⟨not_false, Or.inl (hclosed i j (holds_iff.2 hr))⟩
  done _ hvisit := by cases hvisit
  fresh hle hlt := absurd hlt hle.not_gt
  once := List.nodup_nil

theorem Work.card_unmet_start (s : Store) : (({ store := s } : Work).unmet s.size).card = s.size := by
  simp [unmet, visit?]

/-- Reducing a form of the store comes to an end with fuel for twice the number of cells. -/
theorem completes_reduce (hclosed : s.IsClosed) (hroot : s.Contains root)
    (hfuel : 2 * s.size ≤ fuel) :
    Completes s.size (fun _ => False) { store := s } (reduce fuel 1 root) fun w' r' =>
      w'.Open s.size (fun _ => False) r' := by
  have horderly := orderly_start hclosed
  have hopen : ({ store := s } : Work).Open s.size (fun _ => False) root := by
    cases root with
    | atom a => trivial
    | cell id => exact ⟨not_false, Or.inl hroot⟩
  have hpayable : Payable s.size (fun _ => False) fuel { store := s } root :=
    .of_open horderly hopen (by rwa [Work.card_unmet_start])
  exact (serves_reduce s.size fuel 1 horderly hpayable).imp fun _ h hresult => ⟨h, hresult.1⟩

/-- If nothing is hidden, all parts lead to cells of the store. -/
theorem Work.Orderly.isClosed (h : w.Orderly base fun _ => False) : w.store.IsClosed :=
  fun _ _ hij => h.lt_size (h.parts not_false _ (holds_iff.1 hij))

/-- What normalizing comes to: the fuel that it uses is enough for reducing. -/
theorem normalize_of_run {result : Except FormError Ref}
    (hrun : ∀ fuel ≥ 2 * s.size, (reduce fuel 1 root).run { store := s } = some (result, w)) :
    (s.normalize root).result = result ∧
      ∀ r, result = .ok r → (s.normalize root).store = w.store.relink r := by
  rw [normalize, hrun _ (Nat.le_add_right _ 2)]
  cases result with
  | error cause => exact ⟨rfl, by simp⟩
  | ok r =>
      refine ⟨rfl, ?_⟩
      rintro _ ⟨⟩
      rfl

/-- Reducing a form of the store ends with the same result, however much fuel there is, and leaves
a store whose references lead to its cells. -/
theorem reduce_ends (hclosed : s.IsClosed) (hroot : s.Contains root) :
    ∃ result w, (∀ fuel ≥ 2 * s.size,
        (reduce fuel 1 root).run { store := s } = some (result, w)) ∧ w.takenUp.Nodup ∧
      ∀ r, result = .ok r → w.store.IsClosed ∧ w.store.Contains r := by
  obtain ⟨result, w, hrun, honce, hok⟩ := completes_reduce hclosed hroot (Nat.le_refl _)
  refine ⟨result, w, fun fuel hfuel => Refines.reduce hfuel 1 root hrun, honce, fun r hr => ?_⟩
  obtain ⟨-, horderly, hopen⟩ := hok r hr
  refine ⟨horderly.isClosed, ?_⟩
  cases r with
  | atom a => trivial
  | cell id => exact horderly.lt_size hopen

/-- In every store, however its cells are shared and wherever references go round in a cycle,
normalizing comes to an end: from twice the number of cells on, all fuel leads to the same result,
and so does all fuel for the links of the result from the number of cells on.  No cell is taken up
twice, be it from the start or a new one. -/
theorem normalize_ends_taking_up_once (hclosed : s.IsClosed) (hroot : s.Contains root) :
    ∃ result w, (∀ fuel ≥ 2 * s.size,
        (reduce fuel 1 root).run { store := s } = some (result, w)) ∧
      (s.normalize root).result = result ∧
      (∀ id, result = .ok (.cell id) → ∀ fuel ≥ w.store.size,
        linkAll fuel [id] [id] (w.store.setParent id none) = (s.normalize root).store) ∧
      w.takenUp.Nodup := by
  obtain ⟨result, w, hrun, honce, hok⟩ := reduce_ends hclosed hroot
  obtain ⟨hresult, hstore⟩ := normalize_of_run hrun
  refine ⟨result, w, hrun, hresult, fun id hid fuel hfuel => ?_, honce⟩
  obtain ⟨hclosed', hcontains⟩ := hok _ hid
  rw [hstore _ hid]
  exact (linked_relink hclosed' hcontains).2 fuel hfuel

def knottedType : Store where
  cells := #[
    ⟨.list [.atom (.symbol Symbol.defType), .atom (.symbol ⟨"point"⟩), .cell 1, .cell 2, .cell 3],
      none⟩,
    ⟨.list [.atom (.symbol ⟨"x"⟩)], none⟩,
    ⟨.list [.atom (.symbol ⟨"g"⟩), .cell 0, .cell 2], none⟩,
    ⟨.list [.atom (.symbol ⟨"norm"⟩), .cell 4], none⟩,
    ⟨.list [.atom (.symbol Symbol.func), .cell 1, .cell 2], none⟩]

/-- The type definition, its constructor and its method are taken up once each, the last two after
the type has been made. -/
theorem normalize_ends_taking_up_once_knottedType :
    (knottedType.IsClosed ∧ knottedType.Contains (.cell 0)) ∧
    ∃ w, (∀ fuel ≥ 10, (reduce fuel 1 (.cell 0)).run { store := knottedType } =
        some (.ok (.cell 8), w)) ∧
      w.takenUp = [7, 6, 4, 3, 2, 1, 0] ∧ w.takenUp.Nodup := by
  have hclosed : knottedType.IsClosed := by decide
  have hroot : knottedType.Contains (.cell 0) := by decide
  obtain ⟨result, w, hrun, -, -, honce⟩ := normalize_ends_taking_up_once hclosed hroot
  have htaken : ((reduce 10 1 (.cell 0)).run { store := knottedType }).map
      (fun p => (p.1, p.2.takenUp)) = some (.ok (.cell 8), [7, 6, 4, 3, 2, 1, 0]) := by
    decide +kernel
  rw [hrun 10 (by decide), Option.map_some, Option.some_inj, Prod.mk.injEq] at htaken
  obtain ⟨rfl, htaken⟩ := htaken
  exact ⟨⟨hclosed, hroot⟩, w, hrun, htaken, honce⟩

/-! ## Links of the result -/

/-- Where normalizing succeeds with a cell, everything reachable from it is linked to a reachable
cell that holds it, in any store.  The result itself has no parent, unless it lies on a cycle. -/
theorem normalize_links_parents (hclosed : s.IsClosed) (hroot : s.Contains root)
    (hresult : (s.normalize root).result = .ok (.cell id)) :
    Linked id (s.normalize root).store := by
  obtain ⟨result, w, hrun, -, hok⟩ := reduce_ends hclosed hroot
  obtain ⟨hnormal, hstore⟩ := normalize_of_run hrun
  have hid : result = .ok (.cell id) := hnormal.symm.trans hresult
  obtain ⟨hclosed', hcontains⟩ := hok _ hid
  rw [hstore _ hid]
  exact (linked_relink hclosed' hcontains).1

/-- The body is shared by the constructor and the method of the new type, and linked to the first of
them.  The old definition is still reachable, through the body. -/
theorem normalize_links_parents_knottedType :
    (knottedType.IsClosed ∧ knottedType.Contains (.cell 0) ∧
      (knottedType.normalize (.cell 0)).result = .ok (.cell 8)) ∧
    Linked 8 (knottedType.normalize (.cell 0)).store ∧
    (List.range 9).map (knottedType.normalize (.cell 0)).store.parent? =
      [some 2, some 0, some 6, some 0, none, some 3, some 8, some 8, none] := by
  have hclosed : knottedType.IsClosed := by decide
  have hroot : knottedType.Contains (.cell 0) := by decide
  have hresult : (knottedType.normalize (.cell 0)).result = .ok (.cell 8) := by decide +kernel
  exact ⟨⟨hclosed, hroot, hresult⟩, normalize_links_parents hclosed hroot hresult,
    by decide +kernel⟩

end Store
end RegisterLisp
