import Folio.Proofs.Numbering.Ordered

/-!
# Runs of operations

A numbering is built by operations, one after the other, on any of its ranges. `Numbering.run`
applies a list of them, where an operation that fails leaves the numbering as it is. What no
operation breaks holds after every run (`Numbering.run_induction`). In particular links form a
forest at all times, and ids follow them (`Numbering.ordered_run`).

Some laws hold as long as the operations of a run keep to a rule of use, each in the numbering that
it meets. `Numbering.Along` says that they do.
-/

namespace Folio

/-- An operation on a numbering. -/
inductive Operation where
  | newRange (typ abbreviation : String) (lead : Option Lead)
  | next (range : RangeId)
  | sub (range : RangeId)
  | assign (range : RangeId) (level : Option Nat)
  | setRule (range : RangeId) (separator : String) (rule : Option LabelRule)
  | setWeight (range : RangeId) (weight : Option Nat)
  | setActive (active : List (String × RangeId))
  | createLabels (range : RangeId) (incoming : Option LabelRule)

namespace Numbering

/-- What an operation leads to. -/
def attempt (n : Numbering) : Operation → Except NumberingError Numbering
  | .newRange typ abbreviation lead => .ok (n.newRange typ abbreviation lead).2
  | .next range => (n.next range).map Prod.snd
  | .sub range => (n.sub range).map Prod.snd
  | .assign range level => (n.assign range level).map Prod.snd
  | .setRule range separator rule => .ok (n.setRule range separator rule)
  | .setWeight range weight => .ok (n.setWeight range weight)
  | .setActive active => .ok (n.setActive active)
  | .createLabels range incoming => n.createLabels range incoming

/-- The numbering after an operation, the same one if the operation fails. -/
def perform (n : Numbering) (op : Operation) : Numbering :=
  match n.attempt op with
  | .ok n' => n'
  | .error _ => n

/-- The numbering after a list of operations. -/
def run (n : Numbering) (ops : List Operation) : Numbering := ops.foldl perform n

/-- Each operation of a list meets a rule of use in the numbering that it is applied to. -/
def Along (P : Numbering → Operation → Prop) : Numbering → List Operation → Prop
  | _, [] => True
  | n, op :: ops => P n op ∧ Along P (n.perform op) ops

instance Along.decidable {P : Numbering → Operation → Prop} [∀ n op, Decidable (P n op)] :
    (n : Numbering) → (ops : List Operation) → Decidable (Along P n ops)
  | _, [] => .isTrue trivial
  | n, op :: ops => @instDecidableAnd _ _ _ (decidable (n.perform op) ops)

variable {n n' : Numbering} {op : Operation} {ops : List Operation} {range : RangeId}

@[simp]
theorem run_nil (n : Numbering) : n.run [] = n := rfl

@[simp]
theorem run_cons (n : Numbering) (op : Operation) (ops : List Operation) :
    n.run (op :: ops) = (n.perform op).run ops := rfl

@[simp]
theorem run_concat (n : Numbering) (ops : List Operation) (op : Operation) :
    n.run (ops ++ [op]) = (n.run ops).perform op := by
  simp [run]

theorem perform_of_error {e : NumberingError} (h : n.attempt op = .error e) : n.perform op = n := by
  rw [perform, h]

private theorem exists_of_map_eq_ok {α β : Type} {f : α → β} {x : Except NumberingError α} {b : β}
    (h : x.map f = .ok b) : ∃ a, x = .ok a ∧ f a = b := by
  cases x with
  | error e => cases h
  | ok a => exact ⟨a, rfl, Except.ok.inj h⟩

theorem createLabels_layout {incoming : Option LabelRule}
    (h : n.createLabels range incoming = .ok n') :
    n.layout.createLabels range incoming = .ok n'.layout ∧ n'.leads = n.leads := by
  obtain ⟨l, hl, rfl⟩ := exists_of_map_eq_ok h
  exact ⟨hl, rfl⟩

/-- To show that an operation keeps a property, one shows it for each that succeeds. -/
theorem perform_induction {I : Numbering → Prop} (h : I n)
    (newRange : ∀ typ abbreviation lead, op = .newRange typ abbreviation lead →
      I (n.newRange typ abbreviation lead).2)
    (next : ∀ range slot n', op = .next range → n.next range = .ok (slot, n') → I n')
    (sub : ∀ range below n', op = .sub range → n.sub range = .ok (below, n') → I n')
    (assign : ∀ range level handle n', op = .assign range level →
      n.assign range level = .ok (handle, n') → I n')
    (setRule : ∀ range separator rule, op = .setRule range separator rule →
      I (n.setRule range separator rule))
    (setWeight : ∀ range weight, op = .setWeight range weight → I (n.setWeight range weight))
    (setActive : ∀ active, op = .setActive active → I (n.setActive active))
    (createLabels : ∀ range incoming n', op = .createLabels range incoming →
      n.createLabels range incoming = .ok n' → I n') : I (n.perform op) := by
  cases hop : n.attempt op with
  | error e => rwa [perform_of_error hop]
  | ok n' =>
    have heq : n.perform op = n' := by rw [perform, hop]
    rw [heq]
    cases op with
    | newRange typ abbreviation lead =>
      cases hop
      exact newRange typ abbreviation lead rfl
    | next range =>
      obtain ⟨⟨slot, n''⟩, hn, rfl⟩ := exists_of_map_eq_ok hop
      exact next range slot n'' rfl hn
    | sub range =>
      obtain ⟨⟨below, n''⟩, hn, rfl⟩ := exists_of_map_eq_ok hop
      exact sub range below n'' rfl hn
    | assign range level =>
      obtain ⟨⟨handle, n''⟩, hn, rfl⟩ := exists_of_map_eq_ok hop
      exact assign range level handle n'' rfl hn
    | setRule range separator rule =>
      cases hop
      exact setRule range separator rule rfl
    | setWeight range weight =>
      cases hop
      exact setWeight range weight rfl
    | setActive active =>
      cases hop
      exact setActive active rfl
    | createLabels range incoming => exact createLabels range incoming n' rfl hop

/-- What every operation keeps holds after a run. -/
theorem run_induction {I : Numbering → Prop} (h : I n)
    (step : ∀ n op, I n → I (n.perform op)) (ops : List Operation) : I (n.run ops) := by
  induction ops generalizing n with
  | nil => exact h
  | cons op ops ih => exact ih (step n op h)

namespace Along

variable {P : Numbering → Operation → Prop}

theorem append_iff {ops' : List Operation} :
    Along P n (ops ++ ops') ↔ Along P n ops ∧ Along P (n.run ops) ops' := by
  induction ops generalizing n with
  | nil => simp [Along]
  | cons op ops ih => simp [Along, ih, and_assoc]

/-- What every operation keeps that meets the rule holds after a run that meets it. -/
theorem run_induction {I : Numbering → Prop} (hP : Along P n ops) (h : I n)
    (step : ∀ n op, P n op → I n → I (n.perform op)) : I (n.run ops) := by
  induction ops generalizing n with
  | nil => exact h
  | cons op ops ih => exact ih hP.2 (step n op hP.1 h)

end Along

end Numbering

/-! ## Order at all times -/

theorem Layout.Ordered.relabeled {l l' : Layout} (h : l.Ordered) (hl : l.Relabeled l') :
    l'.Ordered where
  toSound := hl.sound h.toSound
  sequence i r hr := by
    have hr' : l.range? i = some r := (hl.range? i).symm.trans hr
    refine (h.sequence i r hr').mono fun q s hs => ?_
    obtain ⟨label, hs'⟩ := hl.slot q s hs
    exact ⟨_, hs', rfl, rfl, rfl⟩
  next_id p s' q hs' hq := by
    obtain ⟨label, hs⟩ := hl.symm.slot p s' hs'
    obtain ⟨t, outer, k, ht, hparent, hid, hid'⟩ := h.next_id p _ q hs hq
    obtain ⟨label', ht'⟩ := hl.slot q t ht
    exact ⟨_, outer, k, ht', hparent, hid, hid'⟩

namespace Numbering

theorem ordered_perform {n : Numbering} (h : n.layout.Ordered) (op : Operation) :
    (n.perform op).layout.Ordered := by
  refine perform_induction (I := fun n => n.layout.Ordered) h ?_ ?_ ?_ ?_ ?_ ?_ ?_ ?_
  · exact fun typ abbreviation lead _ => h.newRange typ abbreviation lead
  · exact fun _ _ _ _ hn => h.next hn
  · exact fun _ _ _ _ hn => h.sub hn
  · exact fun _ _ _ _ _ hn => h.assign hn
  · exact fun range separator rule _ => h.setRule range separator rule
  · exact fun range weight _ => h.modify _ fun _ => ⟨rfl, rfl, rfl, rfl, rfl, rfl⟩
  · exact fun active _ => h.setActive active
  · intro range incoming n' _ hn
    obtain ⟨hl, -⟩ := createLabels_layout hn
    exact h.relabeled (Layout.createLabels_relabeled hl)

/-- After any run, links form a forest and ids follow them. -/
theorem ordered_run (ops : List Operation) : (run {} ops).layout.Ordered :=
  run_induction (I := fun n => n.layout.Ordered) .empty (fun _ op h => ordered_perform h op) ops

end Numbering

end Folio
