import Folio.Collection
import Mathlib.Tactic.Lemma

/-!
# Outcomes of steps

A step of a resolution or of a registration answers and leaves a state, or it fails. `Ends` says
what holds in the first case, and of the error in the second. `After` is for what does not look at
errors: it takes what a failure is worth as a parameter. With `True` it speaks about the steps that
succeed, with `False` it says in addition that the step does. So one statement about a step serves
both purposes. `Leaves` is about the state alone, which a step leaves also when it fails, and
`Concludes` says what holds of it in either case.

The lemmas of this file take programs apart. `Ends.bind_iff` is the one that everything rests on;
`Ends.forM`, `Ends.mapM` and `Ends.foldlM` turn a property that each round keeps into one of the
loop. Those about `After` are their cases in which all errors are worth the same.
-/

namespace Folio

variable {ε σ α β : Type}

/-- Answer and state after a step meet `Q`. If the step fails, the error meets `R`. -/
def Ends (R : ε → Prop) (m : EStateM ε σ α) (s : σ) (Q : α → σ → Prop) : Prop :=
  match m s with
  | .ok a s' => Q a s'
  | .error e _ => R e

/-- Answer and state after a step meet `Q`. A step that fails is worth `failing`. -/
def After (failing : Prop) (m : EStateM ε σ α) (s : σ) (Q : α → σ → Prop) : Prop :=
  match m s with
  | .ok a s' => Q a s'
  | .error _ _ => failing

theorem bind_of_ok {m : EStateM ε σ β} {k : β → EStateM ε σ α} {s s' : σ} {b : β}
    (h : m s = .ok b s') : (m >>= k) s = k b s' := by
  change EStateM.bind m k s = k b s'
  rw [EStateM.bind, h]

theorem bind_of_error {m : EStateM ε σ β} {k : β → EStateM ε σ α} {s s' : σ} {e : ε}
    (h : m s = .error e s') : (m >>= k) s = .error e s' := by
  change EStateM.bind m k s = .error e s'
  rw [EStateM.bind, h]

/-- A step that succeeds leaves a state that passes a check. -/
theorem exists_ok_and {m : EStateM ε σ α} {s : σ} {P : α → σ → Prop}
    [∀ a t, Decidable (P a t)]
    (h : (match m s with | .ok a t => decide (P a t) | .error _ _ => false) = true) :
    ∃ a t, m s = .ok a t ∧ P a t := by
  cases hm : m s with
  | ok a t => exact ⟨a, t, rfl, by simpa [hm] using h⟩
  | error e t => simp [hm] at h

/-- A step that fails does so with an error that passes a check. -/
theorem exists_error_and {m : EStateM ε σ α} {s : σ} {P : ε → Prop} [DecidablePred P]
    (h : (match m s with | .ok _ _ => false | .error e _ => decide (P e)) = true) :
    ∃ e t, m s = .error e t ∧ P e := by
  cases hm : m s with
  | ok a t => simp [hm] at h
  | error e t => exact ⟨e, t, rfl, by simpa [hm] using h⟩

/-- Steps that succeed one after the other succeed each. -/
theorem exists_of_bind_ok {m : EStateM ε σ β} {k : β → EStateM ε σ α} {s t : σ} {a : α}
    (h : (m >>= k) s = .ok a t) : ∃ b s', m s = .ok b s' ∧ k b s' = .ok a t := by
  cases hm : m s with
  | ok b s' => exact ⟨b, s', rfl, (bind_of_ok hm).symm.trans h⟩
  | error e s' => cases (bind_of_error hm).symm.trans h

/-- Only what follows a success matters behind a step. -/
theorem bind_congr_ok {m : EStateM ε σ β} {k k' : β → EStateM ε σ α} {s : σ}
    (h : ∀ b s', m s = .ok b s' → k b s' = k' b s') : (m >>= k) s = (m >>= k') s := by
  cases hm : m s with
  | ok b s' => rw [bind_of_ok hm, bind_of_ok hm, h b s' hm]
  | error e s' => rw [bind_of_error hm, bind_of_error hm]

/-- Rounds that do nothing are left out of a loop. -/
theorem forM_filterMap {xs : List α} {g : α → Option β} {f : β → EStateM ε σ PUnit}
    {k : α → EStateM ε σ PUnit} (hsome : ∀ x y, g x = some y → k x = f y)
    (hnone : ∀ x, g x = none → k x = Pure.pure ⟨⟩) : xs.forM k = (xs.filterMap g).forM f := by
  induction xs with
  | nil => rfl
  | cons x xs ih =>
    change (k x >>= fun _ => xs.forM k) = _
    cases h : g x with
    | none => rw [List.filterMap_cons_none h, hnone x h, pure_bind, ih]
    | some y =>
      rw [List.filterMap_cons_some h, hsome x y h, ih]
      rfl

namespace Ends

variable {R : ε → Prop} {s : σ} {Q : α → σ → Prop}

theorem of_ok {m : EStateM ε σ α} {a : α} {s' : σ} (h : Ends R m s Q) (hm : m s = .ok a s') :
    Q a s' := by
  simpa [Ends, hm] using h

theorem of_error {m : EStateM ε σ α} {e : ε} {s' : σ} (h : Ends R m s Q)
    (hm : m s = .error e s') : R e := by
  simpa [Ends, hm] using h

/-- What holds after a step that succeeds may be used together with the step itself. -/
theorem mono_ok {m : EStateM ε σ α} {Q' : α → σ → Prop} (h : Ends R m s Q)
    (hQ : ∀ a s', m s = .ok a s' → Q a s' → Q' a s') : Ends R m s Q' := by
  unfold Ends at *
  cases hm : m s with
  | ok a s' => exact hQ a s' hm (by simpa [hm] using h)
  | error e s' => simpa [hm] using h

theorem mono {m : EStateM ε σ α} {Q' : α → σ → Prop} (h : Ends R m s Q)
    (hQ : ∀ a s', Q a s' → Q' a s') : Ends R m s Q' :=
  h.mono_ok fun a s' _ => hQ a s'

/-- Less may be said of the errors. -/
theorem weaken {R' : ε → Prop} {m : EStateM ε σ α} (h : Ends R m s Q) (hR : ∀ e, R e → R' e) :
    Ends R' m s Q := by
  unfold Ends at *
  cases hm : m s with
  | ok a s' => simpa [hm] using h
  | error e s' => exact hR e (by simpa [hm] using h)

theorem and {m : EStateM ε σ α} {Q' : α → σ → Prop} (h : Ends R m s Q) (h' : Ends R m s Q') :
    Ends R m s fun a s' => Q a s' ∧ Q' a s' :=
  h.mono_ok fun _ _ hm hQ => ⟨hQ, h'.of_ok hm⟩

@[simp]
theorem pure_iff (a : α) : Ends R (Pure.pure a : EStateM ε σ α) s Q ↔ Q a s := Iff.rfl

@[simp]
theorem bind_iff {m : EStateM ε σ β} {k : β → EStateM ε σ α} :
    Ends R (m >>= k) s Q ↔ Ends R m s fun b s' => Ends R (k b) s' Q := by
  change Ends R (EStateM.bind m k) s Q ↔ _
  unfold Ends EStateM.bind
  cases m s <;> simp

@[simp]
theorem get_iff {Q : σ → σ → Prop} : Ends R (MonadState.get : EStateM ε σ σ) s Q ↔ Q s s := Iff.rfl

@[simp]
theorem set_iff {t : σ} {Q : PUnit → σ → Prop} :
    Ends R (MonadStateOf.set t : EStateM ε σ PUnit) s Q ↔ Q ⟨⟩ t := Iff.rfl

@[simp]
theorem modify_iff {f : σ → σ} {Q : PUnit → σ → Prop} :
    Ends R (modify f : EStateM ε σ PUnit) s Q ↔ Q ⟨⟩ (f s) := Iff.rfl

@[simp]
theorem throw_iff {e : ε} : Ends R (MonadExcept.throw e : EStateM ε σ α) s Q ↔ R e := Iff.rfl

@[simp]
theorem map_iff {m : EStateM ε σ β} {f : β → α} :
    Ends R (f <$> m) s Q ↔ Ends R m s fun b s' => Q (f b) s' := by
  change Ends R (EStateM.map f m) s Q ↔ _
  unfold Ends EStateM.map
  cases m s <;> simp

theorem ite_iff {c : Prop} [Decidable c] {m m' : EStateM ε σ α} :
    Ends R (if c then m else m') s Q ↔ (c → Ends R m s Q) ∧ (¬c → Ends R m' s Q) := by
  by_cases h : c <;> simp [h]

/-! ## Loops -/

@[simp]
theorem forM_cons {x : β} {xs : List β} {f : β → EStateM ε σ PUnit} {Q : PUnit → σ → Prop} :
    Ends R (List.forM (x :: xs) f) s Q ↔
      Ends R (f x) s fun _ s' => Ends R (xs.forM f) s' Q := by
  change Ends R (f x >>= fun _ => xs.forM f) s Q ↔ _
  rw [bind_iff]

theorem forM_append {xs ys : List β} {f : β → EStateM ε σ PUnit} {Q : PUnit → σ → Prop} :
    Ends R (List.forM (xs ++ ys) f) s Q ↔
      Ends R (xs.forM f) s fun _ s' => Ends R (ys.forM f) s' Q := by
  induction xs generalizing s with
  | nil => exact Iff.rfl
  | cons x xs ih => simp only [List.cons_append, forM_cons, ih]

/-- What every round keeps is kept by the loop. -/
theorem forM {xs : List β} {f : β → EStateM ε σ PUnit} {I : σ → Prop}
    (hf : ∀ x ∈ xs, ∀ s, I s → Ends R (f x) s fun _ s' => I s') (h : I s) :
    Ends R (xs.forM f) s fun _ s' => I s' := by
  induction xs generalizing s with
  | nil => exact h
  | cons x xs ih =>
    rw [forM_cons]
    refine (hf x (by simp) s h).mono fun _ s' h' => ?_
    exact ih (fun y hy => hf y (by simp [hy])) h'

/-- What every round keeps is kept by the loop; `J` is about the elements that are done and those
still to do. -/
theorem forM_split {xs : List β} {f : β → EStateM ε σ PUnit} {J : List β → List β → σ → Prop}
    (hf : ∀ pre x post s, pre ++ x :: post = xs → J pre (x :: post) s →
      Ends R (f x) s fun _ s' => J (pre ++ [x]) post s')
    (h : J [] xs s) : Ends R (xs.forM f) s fun _ s' => J xs [] s' := by
  suffices ∀ pre post s, pre ++ post = xs → J pre post s →
      Ends R (post.forM f) s fun _ s' => J xs [] s' from this [] xs s rfl h
  intro pre post
  induction post generalizing pre with
  | nil => rintro s rfl h; simpa using h
  | cons x post ih =>
    intro s hxs h
    rw [forM_cons]
    refine (hf pre x post s hxs h).mono fun _ s' h' => ?_
    exact ih (pre ++ [x]) s' (by simpa using hxs) h'

/-- Loops do the same if their rounds do, as far as `J` holds between them. -/
theorem forM_congr {xs : List β} {f g : β → EStateM ε σ PUnit} {J : List β → List β → σ → Prop}
    (hf : ∀ pre x post s, pre ++ x :: post = xs → J pre (x :: post) s →
      f x s = g x s ∧ Ends R (f x) s fun _ s' => J (pre ++ [x]) post s')
    (h : J [] xs s) : xs.forM f s = xs.forM g s := by
  suffices ∀ pre post s, pre ++ post = xs → J pre post s → post.forM f s = post.forM g s from
    this [] xs s rfl h
  intro pre post
  induction post generalizing pre with
  | nil => exact fun _ _ _ => rfl
  | cons x post ih =>
    intro s hxs h
    obtain ⟨heq, hends⟩ := hf pre x post s hxs h
    change (f x >>= fun _ => post.forM f) s = (g x >>= fun _ => post.forM g) s
    cases hx : f x s with
    | ok u s' =>
      rw [bind_of_ok hx, bind_of_ok (heq.symm.trans hx)]
      exact ih (pre ++ [x]) s' (by simpa using hxs) (hends.of_ok hx)
    | error e s' => rw [bind_of_error hx, bind_of_error (heq.symm.trans hx)]

/-- `forM_split` for a loop that collects answers; `J` is about the elements that are done and their
answers. -/
theorem mapM {xs : List β} {f : β → EStateM ε σ α} {J : List β → List α → σ → Prop}
    (hf : ∀ pre x post as s, pre ++ x :: post = xs → J pre as s →
      Ends R (f x) s fun a s' => J (pre ++ [x]) (as ++ [a]) s')
    (h : J [] [] s) : Ends R (xs.mapM f) s fun as s' => J xs as s' := by
  suffices ∀ pre post as s, pre ++ post = xs → J pre as s →
      Ends R (post.mapM f) s fun bs s' => J xs (as ++ bs) s' from this [] xs [] s rfl h
  intro pre post
  induction post generalizing pre with
  | nil => rintro as s rfl h; simpa using h
  | cons x post ih =>
    intro as s hxs h
    rw [List.mapM_cons, bind_iff]
    refine (hf pre x post as s hxs h).mono fun a s' h' => ?_
    rw [bind_iff]
    refine (ih (pre ++ [x]) (as ++ [a]) s' (by simpa using hxs) h').mono fun bs s'' h'' => ?_
    simpa using h''

/-- The same for a loop that carries an answer on. -/
theorem foldlM {xs : List β} {f : α → β → EStateM ε σ α} {a : α} {J : List β → α → σ → Prop}
    (hf : ∀ pre x post a s, pre ++ x :: post = xs → J pre a s →
      Ends R (f a x) s fun a' s' => J (pre ++ [x]) a' s')
    (h : J [] a s) : Ends R (xs.foldlM f a) s fun a' s' => J xs a' s' := by
  suffices ∀ pre post a s, pre ++ post = xs → J pre a s →
      Ends R (post.foldlM f a) s fun a' s' => J xs a' s' from this [] xs a s rfl h
  intro pre post
  induction post generalizing pre with
  | nil => rintro a s rfl h; simpa using h
  | cons x post ih =>
    intro a s hxs h
    rw [List.foldlM_cons, bind_iff]
    refine (hf pre x post a s hxs h).mono fun a' s' h' => ?_
    exact ih (pre ++ [x]) a' s' (by simpa using hxs) h'

end Ends

namespace After

variable {E : Prop} {s : σ} {Q : α → σ → Prop}

theorem of_ok {m : EStateM ε σ α} {a : α} {s' : σ} (h : After E m s Q) (hm : m s = .ok a s') :
    Q a s' := Ends.of_ok h hm

theorem iff_forall {m : EStateM ε σ α} :
    After True m s Q ↔ ∀ a s', m s = .ok a s' → Q a s' := by
  unfold After
  cases m s <;> simp

theorem mono {m : EStateM ε σ α} {Q' : α → σ → Prop} (h : After E m s Q)
    (hQ : ∀ a s', Q a s' → Q' a s') : After E m s Q' := Ends.mono h hQ

theorem and {m : EStateM ε σ α} {Q' : α → σ → Prop} (h : After E m s Q) (h' : After E m s Q') :
    After E m s fun a s' => Q a s' ∧ Q' a s' := Ends.and h h'

theorem trivial {m : EStateM ε σ α} (h : ∀ a s', m s = .ok a s' → Q a s') : After True m s Q :=
  iff_forall.2 h

theorem run_eq_ok_iff {m : EStateM ε σ Unit} {s' : σ} :
    m.run s = .ok () s' ↔ After False m s fun _ t => t = s' := by
  unfold After EStateM.run
  cases m s <;> simp

@[simp]
theorem pure_iff (a : α) : After E (Pure.pure a : EStateM ε σ α) s Q ↔ Q a s := Iff.rfl

@[simp]
theorem bind_iff {m : EStateM ε σ β} {k : β → EStateM ε σ α} :
    After E (m >>= k) s Q ↔ After E m s fun b s' => After E (k b) s' Q := Ends.bind_iff

@[simp]
theorem get_iff {Q : σ → σ → Prop} : After E (MonadState.get : EStateM ε σ σ) s Q ↔ Q s s := Iff.rfl

@[simp]
theorem set_iff {t : σ} {Q : PUnit → σ → Prop} :
    After E (MonadStateOf.set t : EStateM ε σ PUnit) s Q ↔ Q ⟨⟩ t := Iff.rfl

@[simp]
theorem modify_iff {f : σ → σ} {Q : PUnit → σ → Prop} :
    After E (modify f : EStateM ε σ PUnit) s Q ↔ Q ⟨⟩ (f s) := Iff.rfl

theorem ite_iff {c : Prop} [Decidable c] {m m' : EStateM ε σ α} :
    After E (if c then m else m') s Q ↔ (c → After E m s Q) ∧ (¬c → After E m' s Q) := Ends.ite_iff

/-! ## Loops -/

@[simp]
theorem forM_cons {x : β} {xs : List β} {f : β → EStateM ε σ PUnit} {Q : PUnit → σ → Prop} :
    After E (List.forM (x :: xs) f) s Q ↔
      After E (f x) s fun _ s' => After E (xs.forM f) s' Q := Ends.forM_cons

theorem forM_append {xs ys : List β} {f : β → EStateM ε σ PUnit} {Q : PUnit → σ → Prop} :
    After E (List.forM (xs ++ ys) f) s Q ↔
      After E (xs.forM f) s fun _ s' => After E (ys.forM f) s' Q := Ends.forM_append

/-- What every round keeps is kept by the loop. -/
theorem forM {xs : List β} {f : β → EStateM ε σ PUnit} {I : σ → Prop}
    (hf : ∀ x ∈ xs, ∀ s, I s → After E (f x) s fun _ s' => I s') (h : I s) :
    After E (xs.forM f) s fun _ s' => I s' := Ends.forM hf h

/-- What every round keeps is kept by the loop; `J` is about the elements that are done and those
still to do. -/
theorem forM_split {xs : List β} {f : β → EStateM ε σ PUnit} {J : List β → List β → σ → Prop}
    (hf : ∀ pre x post s, pre ++ x :: post = xs → J pre (x :: post) s →
      After E (f x) s fun _ s' => J (pre ++ [x]) post s')
    (h : J [] xs s) : After E (xs.forM f) s fun _ s' => J xs [] s' := Ends.forM_split hf h

/-- The same for a loop that carries an answer on. -/
theorem foldlM {xs : List β} {f : α → β → EStateM ε σ α} {a : α} {J : List β → α → σ → Prop}
    (hf : ∀ pre x post a s, pre ++ x :: post = xs → J pre a s →
      After E (f a x) s fun a' s' => J (pre ++ [x]) a' s')
    (h : J [] a s) : After E (xs.foldlM f a) s fun a' s' => J xs a' s' := Ends.foldlM hf h

end After

/-- What a step does when it succeeds may be used besides. -/
theorem Ends.inspect {R : ε → Prop} {m : EStateM ε σ α} {s : σ} {P Q : α → σ → Prop}
    (h : Ends R m s Q) (h' : After True m s P) : Ends R m s fun a s' => P a s' ∧ Q a s' :=
  h.mono_ok fun _ _ hm hQ => ⟨h'.of_ok hm, hQ⟩

/-- What is said of the errors is left out. -/
theorem Ends.after {R : ε → Prop} {m : EStateM ε σ α} {s : σ} {Q : α → σ → Prop}
    (h : Ends R m s Q) : After True m s Q :=
  show Ends (fun _ => True) m s Q from h.weaken fun _ _ => True.intro

/-! ## States that are left -/

/-- The state that a step leaves meets `I`, also if the step fails. -/
def Leaves (I : σ → Prop) (m : EStateM ε σ α) (s : σ) : Prop :=
  match m s with
  | .ok _ s' => I s'
  | .error _ s' => I s'

namespace Leaves

variable {I : σ → Prop} {s : σ}

theorem of_ok {m : EStateM ε σ α} {a : α} {s' : σ} (hm : m s = .ok a s') (h : I s') :
    Leaves I m s := by
  simpa [Leaves, hm] using h

theorem ok_or_error {m : EStateM ε σ α} {s' : σ} (h : Leaves (· = s') m s) :
    (∃ a, m s = .ok a s') ∨ ∃ e, m s = .error e s' := by
  unfold Leaves at h
  cases hm : m s with
  | ok a t =>
    rw [hm] at h
    exact .inl ⟨a, h ▸ rfl⟩
  | error e t =>
    rw [hm] at h
    exact .inr ⟨e, h ▸ rfl⟩

theorem elim {m : EStateM ε σ α} {s' : σ} (h : Leaves I m s) (hs : Leaves (· = s') m s) :
    I s' := by
  unfold Leaves at h
  obtain ⟨a, hm⟩ | ⟨e, hm⟩ := hs.ok_or_error
  · rwa [hm] at h
  · rwa [hm] at h

theorem bind {m : EStateM ε σ β} {k : β → EStateM ε σ α} (hm : Leaves I m s)
    (hk : ∀ b s', m s = .ok b s' → Leaves I (k b) s') : Leaves I (m >>= k) s := by
  change Leaves I (EStateM.bind m k) s
  unfold Leaves EStateM.bind at *
  cases h : m s with
  | ok b s' => simpa [h] using hk b s' h
  | error e s' => simpa [h] using hm

end Leaves

/-- Answer and state after a step meet `Q`. If the step fails, the error and the state that it
leaves meet `R`. -/
def Concludes (m : EStateM ε σ α) (s : σ) (Q : α → σ → Prop) (R : ε → σ → Prop) : Prop :=
  match m s with
  | .ok a s' => Q a s'
  | .error e s' => R e s'

namespace Concludes

variable {s : σ} {Q Q' : α → σ → Prop} {R R' : ε → σ → Prop}

theorem of_ok {m : EStateM ε σ α} {a : α} {s' : σ} (h : Concludes m s Q R) (hm : m s = .ok a s') :
    Q a s' := by
  simpa [Concludes, hm] using h

theorem of_error {m : EStateM ε σ α} {e : ε} {s' : σ} (h : Concludes m s Q R)
    (hm : m s = .error e s') : R e s' := by
  simpa [Concludes, hm] using h

theorem mono {m : EStateM ε σ α} (h : Concludes m s Q R) (hQ : ∀ a s', Q a s' → Q' a s')
    (hR : ∀ e s', R e s' → R' e s') : Concludes m s Q' R' := by
  unfold Concludes at *
  cases hm : m s with
  | ok a s' => exact hQ a s' (by simpa [hm] using h)
  | error e s' => exact hR e s' (by simpa [hm] using h)

/-- What holds in both cases holds of the state that is left. -/
theorem elim {m : EStateM ε σ α} {P : Prop} {s' : σ} (h : Concludes m s Q R)
    (hs : Leaves (· = s') m s) (hQ : ∀ a, Q a s' → P) (hR : ∀ e, R e s' → P) : P := by
  obtain ⟨a, hm⟩ | ⟨e, hm⟩ := hs.ok_or_error
  · exact hQ a (h.of_ok hm)
  · exact hR e (h.of_error hm)

@[simp]
theorem pure_iff (a : α) : Concludes (Pure.pure a : EStateM ε σ α) s Q R ↔ Q a s := Iff.rfl

@[simp]
theorem bind_iff {m : EStateM ε σ β} {k : β → EStateM ε σ α} :
    Concludes (m >>= k) s Q R ↔ Concludes m s (fun b s' => Concludes (k b) s' Q R) R := by
  change Concludes (EStateM.bind m k) s Q R ↔ _
  unfold Concludes EStateM.bind
  cases m s <;> simp

@[simp]
theorem get_iff {Q : σ → σ → Prop} :
    Concludes (MonadState.get : EStateM ε σ σ) s Q R ↔ Q s s := Iff.rfl

@[simp]
theorem set_iff {t : σ} {Q : PUnit → σ → Prop} :
    Concludes (MonadStateOf.set t : EStateM ε σ PUnit) s Q R ↔ Q ⟨⟩ t := Iff.rfl

@[simp]
theorem modify_iff {f : σ → σ} {Q : PUnit → σ → Prop} :
    Concludes (modify f : EStateM ε σ PUnit) s Q R ↔ Q ⟨⟩ (f s) := Iff.rfl

@[simp]
theorem throw_iff {e : ε} : Concludes (MonadExcept.throw e : EStateM ε σ α) s Q R ↔ R e s := Iff.rfl

end Concludes

end Folio
