import Folio.Proofs.Numbering.Names

/-!
# Written ids

A label id is written with dashes: between its type and its ordinals, and between the ordinals. A
type may have dashes itself. So the type `a-1` and the ordinal 2 are written like the type `a` with
the ordinals 1 and 2 (`LabelId.text_text`). This is all that the written form leaves open: two ids
are written alike only if they are the same, or if the type of one is itself written like an id of
the type of the other (`LabelId.eq_or_of_text_eq`).
-/

namespace Folio

namespace LabelId

variable {id id' : LabelId} {typ typ' : String} {path path' : List Nat}

theorem toList_text (id : LabelId) :
    id.text.toList = id.typ.toList ++ '-' :: id.ordinals.toList := by
  simp [text]

/-- What stands between the dashes: that of the type, and the ordinals. -/
theorem splitOn_text (id : LabelId) (h : id.path ≠ []) :
    id.text.toList.splitOn '-' = id.typ.toList.splitOn '-' ++ id.path.map (Nat.toDigits 10) := by
  have hordinals : id.ordinals.toList.splitOn '-' = id.path.map (Nat.toDigits 10) :=
    splitOn_intercalate_toString rfl (by decide) h
  rw [toList_text, List.splitOn, List.splitOnP_append_cons _ _ (by decide)]
  exact congrArg _ hordinals

theorem splitOn_injective {s t : String} (h : s.toList.splitOn '-' = t.toList.splitOn '-') :
    s = t := by
  have hjoined := congrArg (['-'].intercalate ·) h
  simp only [List.intercalate_splitOn] at hjoined
  exact String.toList_injective hjoined

/-- An id of a type that is written like an id goes on with the ordinals of that one. -/
theorem text_text (h : path ≠ []) (h' : path' ≠ []) :
    text ⟨text ⟨typ, path⟩, path'⟩ = text ⟨typ, path ++ path'⟩ := by
  refine splitOn_injective ?_
  rw [splitOn_text _ h', splitOn_text ⟨typ, path⟩ h, splitOn_text _ (by simp [h]),
    List.map_append, List.append_assoc]

theorem eq_or_of_text_eq_of_length_le (h : id.path ≠ []) (h' : id'.path ≠ [])
    (ht : id.text = id'.text) (hle : id'.path.length ≤ id.path.length) :
    id = id' ∨ ∃ path, path ≠ [] ∧ id'.typ = text ⟨id.typ, path⟩ := by
  obtain ⟨typ, path⟩ := id
  obtain ⟨typ', path'⟩ := id'
  dsimp only at h h' hle ⊢
  have hsplit := splitOn_text ⟨typ, path⟩ h
  rw [ht, splitOn_text ⟨typ', path'⟩ h'] at hsplit
  -- the ordinals of the longer path that stand in the type of the other id
  obtain ⟨front, back, rfl, hback⟩ : ∃ front back, path = front ++ back ∧
      back.length = path'.length :=
    ⟨path.take (path.length - path'.length), path.drop (path.length - path'.length), by simp,
      by rw [List.length_drop]; omega⟩
  dsimp only at hsplit
  rw [List.map_append, ← List.append_assoc] at hsplit
  obtain ⟨hfront, hdigits⟩ := List.append_inj' hsplit (by simp [hback])
  obtain rfl : path' = back :=
    (List.map_inj_right fun _ _ => toDigits_injective).1 hdigits
  by_cases hnil : front = []
  · subst hnil
    rw [List.map_nil, List.append_nil] at hfront
    exact .inl (by rw [splitOn_injective hfront, List.nil_append])
  · refine .inr ⟨front, hnil, splitOn_injective ?_⟩
    rw [splitOn_text ⟨typ, front⟩ hnil]
    exact hfront

/-- Ids that are written alike are the same, or the type of one is written like an id of the type of
the other. -/
theorem eq_or_of_text_eq (h : id.path ≠ []) (h' : id'.path ≠ []) (ht : id.text = id'.text) :
    id = id' ∨ ∃ path, path ≠ [] ∧
      (id'.typ = text ⟨id.typ, path⟩ ∨ id.typ = text ⟨id'.typ, path⟩) := by
  rcases Nat.le_total id'.path.length id.path.length with hle | hle
  · obtain heq | ⟨path, hpath, htyp⟩ := eq_or_of_text_eq_of_length_le h h' ht hle
    · exact .inl heq
    · exact .inr ⟨path, hpath, .inl htyp⟩
  · obtain heq | ⟨path, hpath, htyp⟩ := eq_or_of_text_eq_of_length_le h' h ht.symm hle
    · exact .inl heq.symm
    · exact .inr ⟨path, hpath, .inr htyp⟩

theorem dash_mem_text (id : LabelId) : '-' ∈ id.text.toList := by
  rw [toList_text]
  exact List.mem_append_right _ (List.mem_cons_self ..)

end LabelId

end Folio
