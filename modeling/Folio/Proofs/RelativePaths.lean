import Folio.Proofs.Paths

/-!
# Relative paths lead to their targets

An absolute path in normal form is the list of the names on the way from the root, `Path.names`. Two
such lists part at the deepest directory above both paths (`Path.Parting`). `Path.relative` climbs
up to that directory, one `..` for each name on its way, and goes down from there
(`Path.exists_parting`). Put behind the path it starts at, it is worked off to the path that it was
made for (`Path.join_relative`): each `..` takes back one name, and what comes then stands.
-/

namespace Folio.Path

variable {p : String} {kept parts : List String}

/-! ## Names on the way -/

/-- The names on the way from the root to an absolute path. -/
def names (p : String) : List String := normal true (segments p)

theorem stands_of_mem_names (h : p ∈ names q) : Stands true p := stands_of_mem_normal h

theorem slash_not_mem_of_mem_names (h : p ∈ names q) : '/' ∉ p.toList :=
  slash_not_mem_of_mem_normal (fun _ => slash_not_mem_of_mem_segments) h

theorem clean_eq_render (h : isAbs p = true) : clean p = render true (names p) := by
  rw [clean, h, names]

/-- Behind the slash at its front, a path has its names as segments. -/
theorem segments_render_true (h : ∀ s ∈ parts, '/' ∉ s.toList) :
    segments (render true parts) = "" :: if parts = [] then [""] else parts := by
  have hfront := segments_append "" ("/".intercalate parts)
  rw [String.empty_append, segments_empty] at hfront
  rw [render, if_pos rfl, hfront]
  by_cases hnil : parts = []
  · subst hnil
    decide +kernel
  · rw [segments_intercalate hnil h, if_neg hnil]
    rfl

theorem filter_segments_clean (h : isAbs p = true) :
    (segments (clean p)).filter (· ≠ "") = names p := by
  rw [clean_eq_render h, segments_render_true fun _ => slash_not_mem_of_mem_names]
  by_cases hnil : names p = []
  · simp [hnil]
  · rw [if_neg hnil, List.filter_cons_of_neg (by simp), List.filter_eq_self]
    intro s hs
    simpa using (stands_of_mem_names hs).1

/-! ## Where two paths part -/

/-- The names of two paths part behind the directory `above`, the deepest one above both. The first
path goes on with `up`, and the second one with `down`. -/
structure Parting (origin target : String) (above up down : List String) : Prop where
  names_origin : names origin = above ++ up
  names_target : names target = above ++ down
  deepest : ∀ common, common <+: names origin → common <+: names target → common <+: above

theorem dropCommon_spec (as bs : List String) : ∃ above, as = above ++ (dropCommon as bs).1 ∧
    bs = above ++ (dropCommon as bs).2 ∧
    ∀ common, common <+: as → common <+: bs → common <+: above := by
  fun_induction dropCommon as bs with
  | case1 as a bs ih =>
    obtain ⟨above, has, hbs, hdeepest⟩ := ih
    refine ⟨a :: above, congrArg (a :: ·) has, congrArg (a :: ·) hbs, fun common hc hc' => ?_⟩
    cases common with
    | nil => exact List.nil_prefix
    | cons c common =>
      obtain ⟨rfl, hrest⟩ := List.cons_prefix_cons.1 hc
      exact List.cons_prefix_cons.2 ⟨rfl, hdeepest common hrest (List.cons_prefix_cons.1 hc').2⟩
  | case2 a as b bs hne =>
    refine ⟨[], rfl, rfl, fun common hc hc' => ?_⟩
    cases common with
    | nil => exact List.nil_prefix
    | cons c common =>
      obtain ⟨rfl, -⟩ := List.cons_prefix_cons.1 hc
      exact (hne (List.cons_prefix_cons.1 hc').1).elim
  | case3 as bs hends =>
    refine ⟨[], rfl, rfl, fun common hc hc' => ?_⟩
    cases as with
    | nil => exact hc
    | cons a as =>
      cases bs with
      | nil => exact hc'
      | cons b bs => exact (hends a as b bs rfl rfl).elim

/-- A relative path climbs to the deepest directory above both paths, and goes down from there. -/
theorem exists_parting {f t : String} (hf : isAbs f = true) (ht : isAbs t = true) :
    ∃ above up down, Parting f t above up down ∧
      relative f t = render false (List.replicate up.length ".." ++ down) := by
  obtain ⟨above, hf', ht', hdeepest⟩ := dropCommon_spec (names f) (names t)
  refine ⟨above, _, _, ⟨hf', ht', hdeepest⟩, ?_⟩
  rw [relative, filter_segments_clean hf, filter_segments_clean ht]
  dsimp only
  rw [List.map_const']

namespace Parting

variable {origin target : String} {above up down : List String}

theorem stands_up (h : Parting origin target above up down) : ∀ s ∈ up, Stands true s :=
  fun _ hs => stands_of_mem_names (h.names_origin ▸ List.mem_append_right _ hs)

theorem stands_down (h : Parting origin target above up down) : ∀ s ∈ down, Stands true s :=
  fun _ hs => stands_of_mem_names (h.names_target ▸ List.mem_append_right _ hs)

end Parting

/-! ## Going there -/

/-- Names that stand are put behind what is there. -/
theorem foldl_step_of_stands {b : Bool} (h : ∀ s ∈ parts, Stands true s) (kept : List String) :
    parts.foldl (step b) kept = parts.reverse ++ kept := by
  induction parts generalizing kept with
  | nil => rfl
  | cons s parts ih =>
    obtain ⟨hne, hdot, hup⟩ := h s (by simp)
    have hstep : step b kept s = s :: kept := by simp [step, hne, hdot, hup rfl]
    rw [List.foldl_cons, hstep, ih fun s hs => h s (List.mem_cons_of_mem _ hs)]
    simp

/-- As many `..` as there are names take them all back. -/
theorem foldl_step_up (parts : List String) (h : ∀ s ∈ parts, Stands true s) (kept : List String) :
    (List.replicate parts.length "..").foldl (step true) (parts ++ kept) = kept := by
  induction parts with
  | nil => rfl
  | cons s parts ih =>
    have hstep : step true (s :: (parts ++ kept)) ".." = parts ++ kept := by
      simp [step, (h s (by simp)).2.2 rfl]
    rw [List.length_cons, List.replicate_succ, List.cons_append, List.foldl_cons, hstep]
    exact ih fun s hs => h s (List.mem_cons_of_mem _ hs)

/-- From its origin, a relative path leads to its target. -/
theorem join_relative {f t : String} (hf : isAbs f = true) (ht : isAbs t = true) :
    join f (relative f t) = clean t := by
  obtain ⟨above, up, down, hp, hrelative⟩ := exists_parting hf ht
  have hne : ∀ s ∈ List.replicate up.length ".." ++ down, s ≠ "" := by
    intro s hs
    rcases List.mem_append.1 hs with hs | hs
    · rw [List.eq_of_mem_replicate hs]
      decide
    · exact (hp.stands_down s hs).1
  have hslash : ∀ s ∈ List.replicate up.length ".." ++ down, '/' ∉ s.toList := by
    intro s hs
    rcases List.mem_append.1 hs with hs | hs
    · rw [List.eq_of_mem_replicate hs]
      decide
    · exact slash_not_mem_of_mem_names (hp.names_target ▸ List.mem_append_right _ hs)
  -- the way there, in the order in which names are kept
  have hway : (List.replicate up.length ".." ++ down).foldl (step true) (names f).reverse =
      (names t).reverse := by
    rw [hp.names_origin, hp.names_target, List.reverse_append, List.reverse_append,
      List.foldl_append]
    have hback := foldl_step_up up.reverse
      (fun s hs => hp.stands_up s (List.mem_reverse.1 hs)) above.reverse
    rw [List.length_reverse] at hback
    rw [hback, foldl_step_of_stands hp.stands_down]
  have habs : isAbs (f ++ "/" ++ relative f t) = true := by
    rw [String.append_assoc, isAbs_append (ne_empty_of_isAbs hf), hf]
  rw [join_of_ne_empty (ne_empty_of_isAbs hf) (hrelative ▸ render_ne_empty hne),
    clean_eq_render habs, clean_eq_render ht]
  refine congrArg (render true) (List.reverse_injective ?_)
  rw [← hway, names, normal, List.reverse_reverse, segments_append, List.foldl_append, hrelative,
    foldl_segments_render hslash, names, normal, List.reverse_reverse]

end Folio.Path
