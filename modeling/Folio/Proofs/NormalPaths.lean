import Folio.Proofs.RelativePaths

/-!
# Clean paths

A path is in normal form if nothing in it can be worked off (`Path.IsNormal`): it is the root, the
directory at hand, or has names between its slashes, behind the root or behind some `..`. These are
the paths that `Path.clean` leaves alone (`Path.clean_eq_self_iff`). What is kept while a relative
path is worked off has this shape at every step, the last segment first (`Path.Climbing.step`): a
`..` takes back a name, and where no name is left there is nothing but `..` below it.

`Path.clean_isNormal` says in addition what a normal form is good for. It starts where the path does
and stands for it behind every other path, so relative paths can be joined in any order.
-/

namespace Folio.Path

variable {p segment : String} {kept parts : List String}

/-- A segment that stands wherever it is put. -/
def IsName (segment : String) : Prop := segment ≠ "" ∧ segment ≠ "." ∧ segment ≠ ".."

/-- A path in normal form. An absolute path has an empty segment before its first slash. -/
inductive IsNormal (p : String) : Prop
  | root (h : p = "/")
  | here (h : p = ".")
  | absolute (names : List String) (hne : names ≠ []) (hn : ∀ s ∈ names, IsName s)
    (h : segments p = "" :: names)
  | relative (ups : Nat) (names : List String) (hne : 0 < ups ∨ names ≠ [])
    (hn : ∀ s ∈ names, IsName s) (h : segments p = List.replicate ups ".." ++ names)

theorem isName_iff_stands : IsName segment ↔ Stands true segment := by
  simp [IsName, Stands]

/-! ## What is kept -/

/-- Names behind some `..`, the last one first. -/
def Climbing (kept : List String) : Prop :=
  ∃ ups names, (∀ s ∈ names, IsName s) ∧ kept = names ++ List.replicate ups ".."

theorem Climbing.step (h : Climbing kept) (segment : String) :
    Climbing (step false kept segment) := by
  obtain ⟨ups, names, hn, rfl⟩ := h
  by_cases hblank : segment = "" ∨ segment = "."
  · exact ⟨ups, names, hn, by simp [Path.step, hblank]⟩
  by_cases hup : segment = ".."
  · subst hup
    cases names with
    | nil =>
      refine ⟨ups + 1, [], by simp, ?_⟩
      cases ups <;> simp [Path.step, List.replicate_succ]
    | cons last names =>
      -- the name is taken back
      have hlast := (hn last (by simp)).2.2
      exact ⟨ups, names, fun s hs => hn s (List.mem_cons_of_mem _ hs), by simp [Path.step, hlast]⟩
  · refine ⟨ups, segment :: names, fun s hs => ?_, by simp [Path.step, hblank, hup]⟩
    rcases List.mem_cons.1 hs with rfl | hs
    · exact ⟨fun h => hblank (.inl h), fun h => hblank (.inr h), hup⟩
    · exact hn s hs

theorem Climbing.foldl (h : Climbing kept) (parts : List String) :
    Climbing (parts.foldl (Path.step false) kept) := by
  induction parts generalizing kept with
  | nil => exact h
  | cons segment rest ih => exact ih (h.step segment)

/-- What stands of a relative path are names behind some `..`. -/
theorem exists_normal_eq (parts : List String) : ∃ ups names, (∀ s ∈ names, IsName s) ∧
    normal false parts = List.replicate ups ".." ++ names := by
  have hstart : Climbing [] := ⟨0, [], by simp, rfl⟩
  obtain ⟨ups, names, hn, hkept⟩ := hstart.foldl parts
  refine ⟨ups, names.reverse, fun s hs => hn s (List.mem_reverse.1 hs), ?_⟩
  rw [normal, hkept, List.reverse_append, List.reverse_replicate]

/-! ## Normal forms are what is left alone -/

theorem intercalate_segments (p : String) : "/".intercalate (segments p) = p :=
  Text.intercalate_pieces rfl p

theorem foldl_step_replicate (ups : Nat) :
    (List.replicate ups "..").foldl (step false) [] = List.replicate ups ".." := by
  induction ups with
  | zero => rfl
  | succ ups ih =>
    rw [List.replicate_succ', List.foldl_append, ih, ← List.replicate_succ']
    cases ups <;> simp [step, List.replicate_succ]

theorem IsNormal.clean_eq (h : IsNormal p) : clean p = p := by
  have hp := intercalate_segments p
  have hslash : ∀ s ∈ segments p, '/' ∉ s.toList := fun _ => slash_not_mem_of_mem_segments
  cases h with
  | root h => rw [h]; decide +kernel
  | here h => rw [h]; decide +kernel
  | absolute names hne hn h =>
    obtain ⟨name, rest, rfl⟩ := List.exists_cons_of_ne_nil hne
    rw [h, String.intercalate_cons_cons, String.empty_append] at hp
    have habs : isAbs p = true := by
      rw [← hp, isAbs_append (by decide)]
      rfl
    have hstep : step true [] "" = [] := by simp [step]
    have hnames : Path.names p = name :: rest := by
      rw [Path.names, h, normal, List.foldl_cons, hstep,
        foldl_step_of_stands fun s hs => isName_iff_stands.1 (hn s hs)]
      simp
    rw [clean_eq_render habs, hnames, render, if_pos rfl, hp]
  | relative ups names hne hn h =>
    have hnormal : normal false (segments p) = segments p := by
      rw [h, normal, List.foldl_append, foldl_step_replicate,
        foldl_step_of_stands fun s hs => isName_iff_stands.1 (hn s hs)]
      simp
    have hsegments : segments p ≠ [] := by
      rw [h]
      rcases hne with hups | hnames
      · simp [hups.ne']
      · simp [hnames]
    have hrel : isAbs p = false := by
      obtain ⟨first, rest, hfirst⟩ := List.exists_cons_of_ne_nil hsegments
      have hmem : first ∈ List.replicate ups ".." ++ names := h ▸ hfirst ▸ List.mem_cons_self ..
      have hnonempty : first ≠ "" := by
        rcases List.mem_append.1 hmem with hmem | hmem
        · rw [List.eq_of_mem_replicate hmem]
          decide
        · exact (hn first hmem).1
      rw [← hp, hfirst]
      exact isAbs_intercalate hnonempty (hslash first (hfirst ▸ List.mem_cons_self ..)) rest
    rw [clean, hrel, hnormal, render, if_neg (by decide), if_neg hsegments, hp]

theorem isNormal_clean (p : String) : IsNormal (clean p) := by
  have hslash : ∀ s ∈ normal (isAbs p) (segments p), '/' ∉ s.toList := fun _ =>
    slash_not_mem_of_mem_normal fun _ => slash_not_mem_of_mem_segments
  cases habs : isAbs p with
  | true =>
    rw [clean_eq_render habs]
    by_cases hnil : names p = []
    · exact .root (by rw [hnil]; rfl)
    · refine .absolute (names p) hnil (fun s hs => isName_iff_stands.2 (stands_of_mem_names hs)) ?_
      rw [segments_render_true fun _ => slash_not_mem_of_mem_names, if_neg hnil]
  | false =>
    rw [habs] at hslash
    obtain ⟨ups, names, hn, hnormal⟩ := exists_normal_eq (segments p)
    rw [hnormal] at hslash
    rw [clean, habs, hnormal]
    by_cases hnil : List.replicate ups ".." ++ names = []
    · exact .here (by rw [hnil]; rfl)
    · refine .relative ups names ?_ hn ?_
      · by_contra hnone
        obtain ⟨hups, hnames⟩ := not_or.1 hnone
        exact hnil (by simp [Nat.eq_zero_of_not_pos hups, not_not.1 hnames])
      · rw [render, if_neg (by decide), if_neg hnil, segments_intercalate hnil hslash]

/-- Exactly the paths in normal form are left alone. -/
theorem clean_eq_self_iff (p : String) : clean p = p ↔ IsNormal p :=
  ⟨fun h => h ▸ isNormal_clean p, IsNormal.clean_eq⟩

/-- The normal form of a path starts where the path does, has nothing to be worked off, and is its
own normal form. A relative path can be put behind other paths in its normal form, and relative
paths can be joined in any order. -/
theorem clean_isNormal (p : String) :
    isAbs (clean p) = isAbs p ∧ IsNormal (clean p) ∧ clean (clean p) = clean p ∧
    (clean p = p ↔ IsNormal p) ∧
    (isAbs p = false → ∀ a, a ≠ "" → clean (a ++ "/" ++ p) = clean (a ++ "/" ++ clean p)) ∧
    ∀ a b c, b ≠ "" → isAbs b = false → c ≠ "" → isAbs c = false →
      join (join a b) c = join a (join b c) :=
  ⟨isAbs_clean p, isNormal_clean p, clean_clean p, clean_eq_self_iff p,
    fun hrel _ ha => (clean_append_clean_right ha hrel).symm,
    fun a _ _ hb hrel hc _ => join_assoc a hb hrel hc⟩

/-- A path that leads up is worked off before it is put behind a directory. -/
theorem clean_isNormal_up : isAbs "x/../../y/." = false ∧ "/g/i" ≠ "" ∧
    clean "x/../../y/." = "../y" ∧ IsNormal "../y" ∧ clean "/g/i/x/../../y/." = "/g/y" ∧
    join (join "/g/i" "x/../../y/.") "../z" = join "/g/i" (join "x/../../y/." "../z") := by
  have hclean : clean "x/../../y/." = "../y" := by decide +kernel
  have hplace : clean "/g/i/../y" = "/g/y" := by decide +kernel
  obtain ⟨-, hnormal, -, -, hbehind, hjoin⟩ := clean_isNormal "x/../../y/."
  have hbehind := hbehind (by decide +kernel) "/g/i" (by decide)
  rw [hclean] at hnormal hbehind
  refine ⟨by decide +kernel, by decide, hclean, hnormal, hbehind.trans hplace, ?_⟩
  exact hjoin "/g/i" "x/../../y/." "../z" (by decide) (by decide +kernel) (by decide)
    (by decide +kernel)

end Folio.Path
