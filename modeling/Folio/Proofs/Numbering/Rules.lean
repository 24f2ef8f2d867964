import Folio.Proofs.Numbering.Names
import Mathlib.Logic.Function.Iterate

/-!
# Labels below a label

The depth below a rule counts on from it: after `k` steps its id has the ordinal `k` behind the
ordinals of the rule (`LabelRule.id_sub`), and its name begins with the name of the rule
(`LabelRule.exists_name_sub`).

An own rule is glued behind the part of the rule that counts, `LabelRule.last`, and takes the place
of the depth below. It then counts below that part, not below the whole rule
(`LabelRule.id_compose`, `LabelRule.exists_name_compose`). For a rule that is not composed the two
are the same (`LabelRule.last_eq_iff`).
-/

namespace Folio

namespace Counter

theorem next_iterate (c : Counter) (k : Nat) : next^[k] c = { c with
    place := { c.place with ordinal := c.place.ordinal + k, shown := c.place.shown + k } } := by
  induction k with
  | zero => rfl
  | succ k ih =>
    rw [Function.iterate_succ_apply', ih]
    rfl

theorem id_sub_next (c : Counter) (k : Nat) : (next^[k] c.sub).id = c.id.sub k := by
  rw [next_iterate, id, id, LabelId.sub, ordinals_eq, ordinals_eq]
  simp [sub]

theorem numbers_ne_nil (c : Counter) : c.numbers ≠ [] := by
  rw [numbers_eq]
  simp

theorem outer_of_parent {c p : Counter} (h : c.parent? = some p) : c.outer = p.place :: p.outer := by
  obtain ⟨typ, place, outer⟩ := c
  cases outer <;> cases h
  rfl

theorem numbers_of_parent {c p : Counter} (h : c.parent? = some p) :
    c.numbers = p.numbers ++ [c.place.shown] := by
  rw [numbers_eq, numbers_eq, outer_of_parent h]
  simp

theorem length_numbers (c : Counter) : c.numbers.length = c.outer.length + 1 := by
  simp [numbers_eq]

theorem parent?_sub_next (c : Counter) (k : Nat) : (next^[k] c.sub).parent? = some c := by
  rw [next_iterate]
  rfl

/-- A point and the number of the depth stand behind the name of the depth above. -/
theorem decimalName_of_parent {c p : Counter} (h : c.parent? = some p) :
    c.decimalName = p.decimalName ++ "." ++ toString c.place.shown := by
  rw [decimalName, decimalName, numbers_of_parent h, List.map_append,
    String.intercalate_append_of_ne_nil (by simpa using p.numbers_ne_nil) (by simp)]
  rfl

theorem exists_decimalName_sub (c : Counter) (k : Nat) :
    ∃ rest, (next^[k] c.sub).decimalName = c.decimalName ++ rest :=
  ⟨_, (decimalName_of_parent (c.parent?_sub_next k)).trans (String.append_assoc ..)⟩

/-- The number of a further depth stands behind the name, with the separator of the depth above in
between if the name is not empty. -/
theorem extendName_concat (format : NumberFormat) (name : String) (ns : List Nat) (k : Nat) :
    extendName format name (ns ++ [k]) =
      if extendName format name ns = "" then (NumberFormat.sub^[ns.length + 1] format).format k
      else extendName format name ns ++ (NumberFormat.sub^[ns.length] format).separator ++
        (NumberFormat.sub^[ns.length + 1] format).format k := by
  induction ns generalizing format name with
  | nil => rfl
  | cons n ns ih => exact ih format.sub _

/-- The name goes on behind the name of the depth above. -/
theorem formattedName_of_parent {c p : Counter} (h : c.parent? = some p) (format : NumberFormat) :
    c.formattedName format =
      if p.formattedName format = "" then
        (NumberFormat.sub^[c.outer.length] format).format c.place.shown
      else p.formattedName format ++ (NumberFormat.sub^[p.outer.length] format).separator ++
        (NumberFormat.sub^[c.outer.length] format).format c.place.shown := by
  obtain ⟨n, ns, hn⟩ := List.exists_cons_of_ne_nil p.numbers_ne_nil
  have hlength : ns.length = p.outer.length := by simpa [hn] using p.length_numbers
  rw [formattedName, formattedName, numbers_of_parent h, hn, outer_of_parent h, List.length_cons,
    ← hlength]
  exact extendName_concat format _ ns _

theorem exists_formattedName_sub (format : NumberFormat) (c : Counter) (k : Nat) :
    ∃ rest, (next^[k] c.sub).formattedName format = c.formattedName format ++ rest := by
  rw [formattedName_of_parent (c.parent?_sub_next k)]
  split
  next hempty => exact ⟨_, by rw [hempty, String.empty_append]⟩
  next => exact ⟨_, String.append_assoc ..⟩

end Counter

namespace LabelRule

/-- The part of a rule that counts. -/
def last : LabelRule → LabelRule
  | count scheme counter => count scheme counter
  | composed _ _ current => current.last

/-- A rule before its first label. -/
def Fresh (rule : LabelRule) : Prop :=
  ∃ scheme typ level, rule = count scheme (.top typ level)

variable {rule own : LabelRule}

theorem next_iterate_count (scheme : Scheme) (c : Counter) (k : Nat) :
    next^[k] (count scheme c) = count scheme (Counter.next^[k] c) := by
  induction k with
  | zero => rfl
  | succ k ih =>
    rw [Function.iterate_succ_apply', Function.iterate_succ_apply', ih]
    rfl

theorem next_iterate_composed (base : LabelRule) (separator : String) (current : LabelRule)
    (k : Nat) : next^[k] (composed base separator current) =
      composed base separator (next^[k] current) := by
  induction k with
  | zero => rfl
  | succ k ih =>
    rw [Function.iterate_succ_apply', Function.iterate_succ_apply', ih]
    rfl

/-! ## The part that counts -/

theorem exists_last_eq (rule : LabelRule) : ∃ scheme c, rule.last = count scheme c := by
  induction rule with
  | count scheme c => exact ⟨scheme, c, rfl⟩
  | composed _ _ current _ ih => exact ih

theorem last_eq_iff : rule.last = rule ↔ rule.kind ≠ "composed" := by
  cases rule with
  | count scheme c => cases scheme <;> simp [last, kind]
  | composed base separator current =>
    obtain ⟨scheme, c, hlast⟩ := current.exists_last_eq
    simp [last, kind, hlast]

/-- One depth above the depth below is the part that counts. -/
theorem parent?_sub (rule : LabelRule) : rule.sub.parent? = some rule.last := by
  induction rule with
  | count scheme c => rfl
  | composed base separator current _ ih => rw [sub, parent?, ih, Option.some_or, last]

theorem last_path_length (rule : LabelRule) :
    rule.last.id.path.length ≤ rule.id.path.length := by
  induction rule with
  | count scheme c => exact Nat.le_refl _
  | composed base separator current _ ih =>
    have hlen : (composed base separator current).id.path.length =
        base.id.path.length + current.id.path.length := by
      simp [id, LabelId.extend]
    rw [hlen]
    exact Nat.le_trans ih (Nat.le_add_left _ _)

theorem path_ne_nil (rule : LabelRule) : rule.id.path ≠ [] := by
  induction rule with
  | count scheme c =>
    have hid : (count scheme c).id.path = c.places.map Place.ordinal := rfl
    rw [hid, Counter.ordinals_eq]
    simp
  | composed base separator current ih _ =>
    simp [id, LabelId.extend, ih]

/-- The part that counts has the id of the rule only if it is the rule. -/
theorem last_id_eq_iff : rule.last.id = rule.id ↔ rule.last = rule := by
  refine ⟨fun h => ?_, fun h => by rw [h]⟩
  cases rule with
  | count scheme c => rfl
  | composed base separator current =>
    have hlen : base.id.path.length + current.id.path.length = current.last.id.path.length := by
      rw [← List.length_append]
      exact (congrArg (fun id => id.path.length) h).symm
    have hle := current.last_path_length
    have hbase := List.length_pos_iff.2 base.path_ne_nil
    omega

/-! ## The depth below -/

theorem reset_sub (rule : LabelRule) : rule.sub.reset = rule.sub := by
  induction rule with
  | count scheme c => rfl
  | composed base separator current _ ih => rw [sub, reset, ih]

theorem id_sub (rule : LabelRule) (k : Nat) : (next^[k] rule.sub).id = rule.id.sub k := by
  induction rule with
  | count scheme c =>
    rw [sub, next_iterate_count]
    exact c.id_sub_next k
  | composed base separator current _ ih =>
    rw [sub, next_iterate_composed, id, ih]
    simp [id, LabelId.extend, LabelId.sub]

/-- What stands behind one of two glued texts stays behind them. -/
theorem exists_glue (left separator right rest : String) :
    ∃ rest', glue left separator (right ++ rest) = glue left separator right ++ rest' := by
  unfold glue
  by_cases hl : left = ""
  · exact ⟨rest, by simp [hl]⟩
  · by_cases hr : right = ""
    · by_cases hrest : rest = ""
      · exact ⟨"", by simp [hl, hr, hrest]⟩
      · exact ⟨separator ++ rest, by simp [hl, hr, hrest, String.append_assoc]⟩
    · exact ⟨rest, by simp [hl, hr, String.append_assoc]⟩

theorem exists_name_sub (rule : LabelRule) (k : Nat) :
    ∃ rest, (next^[k] rule.sub).name = rule.name ++ rest := by
  induction rule with
  | count scheme c =>
    rw [sub, next_iterate_count]
    cases scheme with
    | void => exact ⟨"", rfl⟩
    | numbered => exact c.exists_decimalName_sub k
    | freeForm format => exact c.exists_formattedName_sub format k
  | composed base separator current _ ih =>
    obtain ⟨rest, hrest⟩ := ih
    rw [sub, next_iterate_composed, name, hrest]
    exact exists_glue _ _ _ rest

/-! ## An own rule in place of the depth below -/

theorem Fresh.withLevel (h : own.Fresh) (level : Option Nat) : (own.withLevel level).Fresh := by
  obtain ⟨scheme, typ, l, rfl⟩ := h
  exact ⟨scheme, typ, level.or l, rfl⟩

theorem Fresh.path_next (h : own.Fresh) (k : Nat) : (next^[k] own).id.path = [k] := by
  obtain ⟨scheme, typ, level, rfl⟩ := h
  rw [next_iterate_count, Counter.next_iterate]
  simp [id, Counter.id, Counter.places, Counter.top]

theorem reset_compose (h : own.Fresh) (base : LabelRule) (separator : String) :
    (compose base separator own).reset = compose base separator own := by
  obtain ⟨scheme, typ, level, rfl⟩ := h
  rfl

theorem id_compose (h : own.Fresh) (base : LabelRule) (separator : String) (k : Nat) :
    (next^[k] (compose base separator own)).id = base.id.sub k := by
  rw [compose, next_iterate_composed, id, LabelId.extend, (h.withLevel _).path_next]
  rfl

theorem exists_name_compose (base : LabelRule) (separator : String) (own : LabelRule) (k : Nat) :
    ∃ rest, (next^[k] (compose base separator own)).name = base.name ++ rest := by
  rw [compose, next_iterate_composed, name]
  unfold glue
  generalize (next^[k] (own.withLevel _)).name = right
  by_cases hl : base.name = ""
  · exact ⟨right, by simp [hl]⟩
  · by_cases hr : right = ""
    · exact ⟨"", by simp [hl, hr]⟩
    · exact ⟨separator ++ right, by simp [hl, hr, String.append_assoc]⟩

end LabelRule

end Folio
