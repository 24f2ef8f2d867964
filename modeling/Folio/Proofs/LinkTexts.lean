import Folio.Link
import Folio.Proofs.Pieces

/-!
# Links are written and read back

A text is read as a link by what stands on both sides of a mark `#` (`Link.read?_eq_ok_iff`). The
parts of a link hold no mark, and an anchor is absolute exactly if it is a tag, which has no path
(`Link.Legible`). Links like this are written with a mark and read back, whether or not texts without
a mark are anchors (`Link.Legible.read?_text`). Only a link to a whole document has a text without a
mark, and is read back where that is taken for a path.

The main statement is `Link.read?_text_spec`.
-/

namespace Folio.Link

variable {asAnchor : Bool} {s p a : String} {l : Link}

/-- The link to an anchor in the document at hand, or to a tag if the anchor is absolute. -/
def toAnchor (a : String) : Link := if Path.isAbs a then tag a else place "" a

/-! ## What is read -/

theorem read?_of_not_mem (h : '#' ∉ s.toList) : read? asAnchor s =
    if asAnchor then .ok (toAnchor s)
    else if s = "" then .error (.invalid s)
    else .ok (place s "") := by
  rw [read?, Text.pieces_of_not_mem h]
  rfl

theorem read?_pair (hp : '#' ∉ p.toList) (ha : '#' ∉ a.toList) : read? asAnchor (p ++ "#" ++ a) =
    if p = "" then .ok (toAnchor a)
    else if Path.isAbs a then .error (.anchorBehindPath a)
    else .ok (place p a) := by
  rw [read?, Text.pieces_pair rfl hp ha]
  rfl

/-- A text that is a link has no mark, or a mark between two parts. -/
theorem cases_of_read? (h : read? asAnchor s = .ok l) : '#' ∉ s.toList ∨
    ∃ p a, '#' ∉ p.toList ∧ '#' ∉ a.toList ∧ s = p ++ "#" ++ a := by
  have hpieces : "#".intercalate (Text.pieces '#' s) = s := Text.intercalate_pieces rfl s
  have hmark : ∀ t ∈ Text.pieces '#' s, '#' ∉ t.toList := fun _ => Text.not_mem_of_mem_pieces
  unfold read? at h
  split at h
  next only heq =>
    rw [heq, String.intercalate_singleton] at hpieces
    exact .inl (hpieces ▸ hmark only (by simp [heq]))
  next p a heq =>
    rw [heq, String.intercalate_cons_cons, String.intercalate_singleton] at hpieces
    exact .inr ⟨p, a, hmark p (by simp [heq]), hmark a (by simp [heq]), hpieces.symm⟩
  next => cases h

/-- The texts that are read as a link. -/
theorem read?_eq_ok_iff : read? asAnchor s = .ok l ↔
    ('#' ∉ s.toList ∧ ((asAnchor = true ∧ l = toAnchor s) ∨
      (asAnchor = false ∧ s ≠ "" ∧ l = place s ""))) ∨
    ∃ p a, '#' ∉ p.toList ∧ '#' ∉ a.toList ∧ s = p ++ "#" ++ a ∧
      ((p = "" ∧ l = toAnchor a) ∨ (p ≠ "" ∧ Path.isAbs a = false ∧ l = place p a)) := by
  constructor
  · intro h
    rcases cases_of_read? h with hs | ⟨p, a, hp, ha, rfl⟩
    · rw [read?_of_not_mem hs] at h
      refine .inl ⟨hs, ?_⟩
      cases asAnchor with
      | true => cases h; exact .inl ⟨rfl, rfl⟩
      | false =>
        rw [if_neg (by decide)] at h
        split at h <;> cases h
        next hne => exact .inr ⟨rfl, hne, rfl⟩
    · rw [read?_pair hp ha] at h
      refine .inr ⟨p, a, hp, ha, rfl, ?_⟩
      split at h
      next hempty => cases h; exact .inl ⟨hempty, rfl⟩
      next hne =>
        split at h <;> cases h
        next hrel => exact .inr ⟨hne, by simpa using hrel, rfl⟩
  · rintro (⟨hs, ⟨rfl, rfl⟩ | ⟨rfl, hne, rfl⟩⟩ | ⟨p, a, hp, ha, rfl, ⟨rfl, rfl⟩ | ⟨hne, hrel, rfl⟩⟩)
    · rw [read?_of_not_mem hs, if_pos rfl]
    · rw [read?_of_not_mem hs, if_neg (by decide), if_neg hne]
    · rw [read?_pair hp ha, if_pos rfl]
    · rw [read?_pair hp ha, if_neg hne, if_neg (by simp [hrel])]

/-! ## Links that are read back -/

/-- The parts of the link hold no mark, and the anchor is absolute exactly if it is a tag. -/
structure Legible (l : Link) : Prop where
  path : '#' ∉ l.path.toList
  anchor : '#' ∉ l.anchor.toList
  isAbs_anchor : Path.isAbs l.anchor = l.isTag

theorem toAnchor_of_isAbs (h : Path.isAbs a = true) : toAnchor a = tag a := if_pos h

theorem toAnchor_of_not_isAbs (h : Path.isAbs a = false) : toAnchor a = place "" a :=
  if_neg (by simp [h])

theorem legible_toAnchor (ha : '#' ∉ a.toList) : (toAnchor a).Legible := by
  cases habs : Path.isAbs a with
  | true => rw [toAnchor_of_isAbs habs]; exact ⟨by simp [Link.path], ha, habs⟩
  | false => rw [toAnchor_of_not_isAbs habs]; exact ⟨by simp [Link.path], ha, habs⟩

theorem legible_of_read? (h : read? asAnchor s = .ok l) : l.Legible := by
  rcases read?_eq_ok_iff.1 h with ⟨hs, ⟨-, rfl⟩ | ⟨-, -, rfl⟩⟩ |
    ⟨p, a, hp, ha, -, ⟨-, rfl⟩ | ⟨-, hrel, rfl⟩⟩
  · exact legible_toAnchor hs
  · exact ⟨hs, by simp [Link.anchor], rfl⟩
  · exact legible_toAnchor ha
  · exact ⟨hp, ha, hrel⟩

/-- An anchor behind a path is relative, and a tag is absolute. -/
theorem isAbs_anchor_of_read? (h : read? asAnchor s = .ok l) : Path.isAbs l.anchor = l.isTag :=
  (legible_of_read? h).isAbs_anchor

theorem text_of_anchor (h : l.anchor ≠ "") : l.text = l.path ++ "#" ++ l.anchor := by
  cases l with
  | tag name => simp [text, path, anchor]
  | place p a => exact if_neg h

@[simp]
theorem text_place_empty (p : String) : (place p "").text = p := rfl

theorem path_of_isTag (h : l.isTag = true) : l.path = "" := by
  cases l with
  | tag name => rfl
  | place p a => cases h

namespace Legible

theorem anchor_ne_empty (h : l.Legible) (htag : l.isTag = true) : l.anchor ≠ "" := by
  intro hempty
  have habs := h.isAbs_anchor.trans htag
  rw [hempty] at habs
  exact absurd habs (by decide)

/-- A link with an anchor is read back in both ways. -/
theorem read?_text (h : l.Legible) (hanchor : l.anchor ≠ "") (asAnchor : Bool) :
    read? asAnchor l.text = .ok l := by
  rw [text_of_anchor hanchor, read?_pair h.path h.anchor]
  cases l with
  | tag name =>
    rw [if_pos (by rfl)]
    exact congrArg Except.ok (toAnchor_of_isAbs h.isAbs_anchor)
  | place p a =>
    have hrel : Path.isAbs a = false := h.isAbs_anchor
    by_cases hp : p = ""
    · subst hp
      rw [if_pos (by rfl)]
      exact congrArg Except.ok (toAnchor_of_not_isAbs hrel)
    · exact (if_neg hp).trans (if_neg (by simpa [Link.anchor] using hrel))

/-- A link to a whole document is read back as a path. -/
theorem read?_text_of_path (h : l.Legible) (hanchor : l.anchor = "") (hpath : l.path ≠ "") :
    read? false l.text = .ok l := by
  cases l with
  | tag name => exact (hpath rfl).elim
  | place p a =>
    obtain rfl : a = "" := hanchor
    have hp : '#' ∉ p.toList := h.path
    rw [text_place_empty, read?_of_not_mem hp, if_neg (by decide)]
    exact if_neg hpath

end Legible

theorem isValid_iff : l.isValid = true ↔ l.isTag = true ∨ l.path ≠ "" ∨ l.anchor ≠ "" := by
  cases l <;> simp [isValid, isTag, path, anchor]

/-! ## The texts of links -/

theorem getLast?_ne_of_not_mem (h : '#' ∉ s.toList) : s.toList.getLast? ≠ some '#' :=
  fun hlast => h (List.mem_of_getLast? hlast)

theorem getLast?_append_ne (ha : '#' ∉ a.toList) (hne : a ≠ "") (front : String) :
    (front ++ a).toList.getLast? ≠ some '#' := by
  rw [String.toList_append, List.getLast?_append_of_ne_nil _ (by simpa using hne)]
  exact getLast?_ne_of_not_mem ha

theorem text_toAnchor (hne : a ≠ "") : (toAnchor a).text = "#" ++ a := by
  cases habs : Path.isAbs a with
  | true => rw [toAnchor_of_isAbs habs, text]
  | false => rw [toAnchor_of_not_isAbs habs, text, if_neg hne, String.empty_append]

theorem ne_empty_of_isTag_toAnchor (h : (toAnchor a).isTag = true) : a ≠ "" := by
  rintro rfl
  exact absurd h (by decide)

theorem isValid_toAnchor_empty : (toAnchor "").isValid = false := by decide

/-- A link that leads somewhere has the text that it was read from, but for a mark behind a path. -/
theorem text_of_read? (h : read? false s = .ok l) (hvalid : l.isValid = true) :
    if s.toList.getLast? = some '#' then s = l.text ++ "#" ∧ l = place l.text "" else s = l.text := by
  rcases read?_eq_ok_iff.1 h with ⟨hs, ⟨hmode, -⟩ | ⟨-, -, rfl⟩⟩ |
    ⟨p, a, hp, ha, rfl, ⟨rfl, rfl⟩ | ⟨hne, -, rfl⟩⟩
  · cases hmode
  · rw [if_neg (getLast?_ne_of_not_mem hs), text_place_empty]
  · have hne : a ≠ "" := by
      rintro rfl
      cases isValid_toAnchor_empty.symm.trans hvalid
    rw [if_neg (getLast?_append_ne ha hne _), text_toAnchor hne, String.empty_append]
  · by_cases hempty : a = ""
    · subst hempty
      rw [if_pos (by simp), text_place_empty, String.append_empty]
      exact ⟨rfl, rfl⟩
    · rw [if_neg (getLast?_append_ne ha hempty _), text, if_neg hempty]

/-- Nothing but the mark stands in front of a tag. -/
theorem text_of_isTag (h : read? asAnchor s = .ok l) (htag : l.isTag = true) :
    l.text = s ∨ asAnchor = true ∧ l.text = "#" ++ s := by
  rcases read?_eq_ok_iff.1 h with ⟨-, ⟨hmode, rfl⟩ | ⟨-, -, rfl⟩⟩ |
    ⟨p, a, -, -, rfl, ⟨rfl, rfl⟩ | ⟨-, -, rfl⟩⟩
  · exact .inr ⟨hmode, text_toAnchor (ne_empty_of_isTag_toAnchor htag)⟩
  · cases htag
  · exact .inl (by rw [text_toAnchor (ne_empty_of_isTag_toAnchor htag), String.empty_append])
  · cases htag

/-- A link that was read from a text is written and read back as the same link: in both ways if it
has an anchor or is a tag, and else as a path, if it leads anywhere. Its text is the one that it was
read from as a path, but for a mark behind the path. A tag has no path, and none stands in front of
it in the text. -/
theorem read?_text_spec (h : read? asAnchor s = .ok l) :
    (asAnchor = false → l.isValid = true → read? false l.text = .ok l ∧
      if s.toList.getLast? = some '#' then s = l.text ++ "#" ∧ l = place l.text ""
      else s = l.text) ∧
    (l.isTag = true ∨ l.anchor ≠ "" → ∀ mode, read? mode l.text = .ok l) ∧
    (l.isTag = true → l.path = "" ∧ (l.text = s ∨ asAnchor = true ∧ l.text = "#" ++ s)) := by
  have hlegible := legible_of_read? h
  have hboth (hanchor : l.isTag = true ∨ l.anchor ≠ "") : ∀ mode, read? mode l.text = .ok l :=
    hlegible.read?_text (hanchor.elim hlegible.anchor_ne_empty id)
  refine ⟨fun hmode hvalid => ⟨?_, ?_⟩, hboth, fun htag => ⟨path_of_isTag htag, text_of_isTag h htag⟩⟩
  · by_cases hanchor : l.anchor = ""
    · have hpath : l.path ≠ "" := by
        rcases isValid_iff.1 hvalid with htag | hpath | hne
        · exact (hlegible.anchor_ne_empty htag hanchor).elim
        · exact hpath
        · exact (hne hanchor).elim
      exact hlegible.read?_text_of_path hanchor hpath
    · exact hboth (.inr hanchor) false
  · subst hmode
    exact text_of_read? h hvalid

/-- A mark behind a path is not written, and a tag that was read without a mark is written with it. -/
theorem read?_text_spec_marked : read? false "doc#" = .ok (place "doc" "") ∧
    (place "doc" "").isValid = true ∧ read? false (place "doc" "").text = .ok (place "doc" "") ∧
    "doc#" = (place "doc" "").text ++ "#" ∧ read? true "/fig" = .ok (tag "/fig") ∧
    (tag "/fig").isTag = true ∧ (∀ mode, read? mode (tag "/fig").text = .ok (tag "/fig")) ∧
    (tag "/fig").text = "#" ++ "/fig" := by
  have hdoc : read? false "doc#" = .ok (place "doc" "") := by decide +kernel
  have hfig : read? true "/fig" = .ok (tag "/fig") := by decide +kernel
  have hvalid : (place "doc" "").isValid = true := by decide
  have hmark : "doc#".toList.getLast? = some '#' := by decide
  obtain ⟨hpath, -, -⟩ := read?_text_spec hdoc
  obtain ⟨-, hboth, htag⟩ := read?_text_spec hfig
  obtain ⟨hread, htext⟩ := hpath rfl hvalid
  rw [if_pos hmark] at htext
  obtain ⟨-, hsame | ⟨-, hmarked⟩⟩ := htag rfl
  · exact absurd hsame (by decide)
  · exact ⟨hdoc, hvalid, hread, htext.1, hfig, rfl, hboth (.inl rfl), hmarked⟩

end Folio.Link
