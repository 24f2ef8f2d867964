import Folio.Path
import Folio.Proofs.Pieces

/-!
# Paths in normal form

A path is worked off segment by segment, and `Path.clean` writes down the segments that stand in the
end. They can stand for the path wherever it goes on (`Path.clean_append_clean_left`) and, if it is
relative, wherever it starts (`Path.clean_append_clean_right`): working off what stands has the same
effect on what came before as working off the path itself (`Path.foldl_step_normal`). So `clean` is
idempotent, and `join` is associative on relative paths.
-/

namespace Folio

namespace Path

/-! ## Segments -/

theorem segments_append (a b : String) : segments (a ++ "/" ++ b) = segments a ++ segments b := by
  have hl : (a ++ "/" ++ b).toList = a.toList ++ '/' :: b.toList := by simp
  simp only [segments, Text.pieces_eq]
  rw [hl, List.splitOn, List.splitOnP_append_cons _ _ (by decide), List.map_append, List.splitOn,
    List.splitOn]

theorem segments_empty : segments "" = [""] := by decide +kernel

/-- Behind a slash at the end, there is an empty segment. -/
theorem segments_append_slash (a : String) : segments (a ++ "/") = segments a ++ [""] := by
  have h := segments_append a ""
  rwa [String.append_empty, segments_empty] at h

theorem slash_not_mem_of_mem_segments {p s : String} (h : s ∈ segments p) : '/' ∉ s.toList :=
  Text.not_mem_of_mem_pieces h

theorem segments_intercalate {parts : List String} (hne : parts ≠ [])
    (h : ∀ s ∈ parts, '/' ∉ s.toList) : segments ("/".intercalate parts) = parts :=
  Text.pieces_intercalate rfl hne h

/-! ## What stands -/

/-- A segment that is not worked off. At the root, `..` has nothing to take back. -/
def Stands (rooted : Bool) (s : String) : Prop :=
  s ≠ "" ∧ s ≠ "." ∧ (rooted = true → s ≠ "..")

variable {rooted : Bool} {kept parts : List String} {segment p : String}

theorem stands_of_mem_step (hk : ∀ q ∈ kept, Stands rooted q)
    (hp : p ∈ step rooted kept segment) : Stands rooted p := by
  unfold step at hp
  split at hp
  · exact hk p hp
  next hs =>
    split at hp
    · cases kept with
      | nil =>
        cases rooted
        · cases List.mem_singleton.1 hp
          exact ⟨by decide, by decide, fun h => by cases h⟩
        · cases hp
      | cons last rest =>
        dsimp only at hp
        split at hp
        · exact hk p (List.mem_cons_of_mem _ hp)
        · split at hp
          · exact hk p hp
          next hr =>
            rcases List.mem_cons.1 hp with rfl | hp
            · exact ⟨by decide, by decide, fun h => (hr h).elim⟩
            · exact hk p hp
    next hup =>
      rcases List.mem_cons.1 hp with rfl | hp
      · exact ⟨fun h => hs (.inl h), fun h => hs (.inr h), fun _ => hup⟩
      · exact hk p hp

theorem stands_of_mem_foldl (hk : ∀ q ∈ kept, Stands rooted q)
    (hp : p ∈ parts.foldl (step rooted) kept) : Stands rooted p := by
  induction parts generalizing kept with
  | nil => exact hk p hp
  | cons segment rest ih => exact ih (fun q hq => stands_of_mem_step hk hq) hp

theorem stands_of_mem_normal (hp : p ∈ normal rooted parts) : Stands rooted p :=
  stands_of_mem_foldl (by simp) (List.mem_reverse.1 hp)

/-- What stands was there, or leads up. -/
theorem mem_of_mem_step (hp : p ∈ step rooted kept segment) :
    p ∈ kept ∨ p = segment ∨ p = ".." := by
  unfold step at hp
  split at hp
  · exact .inl hp
  · split at hp
    · cases kept with
      | nil => cases rooted <;> simp_all
      | cons last rest =>
        dsimp only at hp
        split at hp
        · exact .inl (List.mem_cons_of_mem _ hp)
        · split at hp
          · exact .inl hp
          · exact (List.mem_cons.1 hp).elim (fun h => .inr (.inr h)) .inl
    · exact (List.mem_cons.1 hp).elim (fun h => .inr (.inl h)) .inl

theorem slash_not_mem_of_mem_normal (h : ∀ s ∈ parts, '/' ∉ s.toList)
    (hp : p ∈ normal rooted parts) : '/' ∉ p.toList := by
  suffices hfold : ∀ kept : List String, (∀ q ∈ kept, '/' ∉ q.toList) →
      ∀ q ∈ parts.foldl (step rooted) kept, '/' ∉ q.toList from
    hfold [] (by simp) p (List.mem_reverse.1 hp)
  clear hp
  induction parts with
  | nil => exact fun _ hk => hk
  | cons segment rest ih =>
    intro kept hk
    refine ih (fun s hs => h s (List.mem_cons_of_mem _ hs)) _ fun q hq => ?_
    rcases mem_of_mem_step hq with hq | rfl | rfl
    · exact hk q hq
    · exact h q (by simp)
    · decide

/-- One more segment after those that stand has the effect it has on those. -/
theorem foldl_reverse_step {b : Bool} {base : List String} (hk : ∀ q ∈ kept, Stands rooted q)
    (hb : rooted = true → b = true ∧ base = []) :
    (step rooted kept segment).reverse.foldl (step b) base =
      step b (kept.reverse.foldl (step b) base) segment := by
  have hpush : ∀ s, (s :: kept).reverse.foldl (step b) base =
      step b (kept.reverse.foldl (step b) base) s := fun s => by simp
  by_cases hs : segment = "" ∨ segment = "."
  · simp [step, hs]
  · by_cases hup : segment = ".."
    · subst hup
      cases kept with
      | nil =>
        cases rooted with
        | false => exact hpush ".."
        | true =>
          obtain ⟨rfl, rfl⟩ := hb rfl
          rfl
      | cons last rest =>
        obtain ⟨hne, hdot, hroot⟩ := hk last (by simp)
        by_cases hlast : last = ".."
        · have hrooted : rooted = false := Bool.eq_false_iff.2 fun h => hroot h hlast
          have hstep : step rooted (last :: rest) ".." = ".." :: last :: rest := by
            simp [step, hlast, hrooted]
          rw [hstep, hpush]
        · -- `..` takes back what the segment before it has put there
          have hstep : step rooted (last :: rest) ".." = rest := by simp [step, hlast]
          have hput : (last :: rest).reverse.foldl (step b) base =
              last :: rest.reverse.foldl (step b) base := by
            simp [step, hne, hdot, hlast]
          rw [hstep, hput]
          simp [step, hlast]
    · have hstep : step rooted kept segment = segment :: kept := by simp [step, hs, hup]
      rw [hstep, hpush]

/-- What stands of some segments has the effect of all of them. At the root, that is so only if
nothing is there yet. -/
theorem foldl_step_normal {b : Bool} {base : List String}
    (hb : rooted = true → b = true ∧ base = []) (parts : List String) :
    (normal rooted parts).foldl (step b) base = parts.foldl (step b) base := by
  induction parts using List.reverseRecOn with
  | nil => rfl
  | append_singleton parts segment ih =>
    unfold normal at ih ⊢
    rw [List.foldl_append, List.foldl_append, List.foldl_cons, List.foldl_nil, List.foldl_cons,
      List.foldl_nil, ← ih]
    exact foldl_reverse_step (fun q => stands_of_mem_foldl (by simp)) hb

/-! ## Written paths -/

theorem foldl_segments_render {b : Bool} {base : List String}
    (h : ∀ s ∈ parts, '/' ∉ s.toList) :
    (segments (render rooted parts)).foldl (step b) base = parts.foldl (step b) base := by
  have hrest : (segments ("/".intercalate parts)).foldl (step b) base =
      parts.foldl (step b) base := by
    by_cases hnil : parts = []
    · subst hnil
      have hsegments : segments ("/".intercalate []) = [""] := by decide +kernel
      rw [hsegments]
      rfl
    · rw [segments_intercalate hnil h]
  unfold render
  split
  · -- the slash at the front has an empty segment before it
    have hsegments := segments_append "" ("/".intercalate parts)
    rw [String.empty_append] at hsegments
    have hempty : segments "" = [""] := by decide +kernel
    rw [hsegments, hempty, List.foldl_append, ← hrest]
    rfl
  · split
    next hnil =>
      have hsegments : segments "." = ["."] := by decide +kernel
      rw [hsegments, hnil]
      rfl
    · exact hrest

theorem isAbs_append {a : String} (h : a ≠ "") (b : String) : isAbs (a ++ b) = isAbs a := by
  unfold isAbs
  rw [String.toList_append, List.head?_append_of_ne_nil]
  simpa using h

theorem isAbs_intercalate (hp : p ≠ "") (hs : '/' ∉ p.toList) (rest : List String) :
    isAbs ("/".intercalate (p :: rest)) = false := by
  have hrel : isAbs p = false := by
    unfold isAbs
    rw [beq_eq_false_iff_ne]
    exact fun h => hs (List.mem_of_mem_head? (Option.mem_def.2 h))
  cases rest with
  | nil => simpa using hrel
  | cons q rest =>
    rw [String.intercalate_cons_cons, String.append_assoc, isAbs_append hp, hrel]

/-- The normal form of a path starts where the path does. -/
theorem isAbs_clean (p : String) : isAbs (clean p) = isAbs p := by
  have hne : ∀ q ∈ normal (isAbs p) (segments p), q ≠ "" := fun q hq => (stands_of_mem_normal hq).1
  have hslash : ∀ q ∈ normal (isAbs p) (segments p), '/' ∉ q.toList := fun q =>
    slash_not_mem_of_mem_normal fun s => slash_not_mem_of_mem_segments
  unfold clean render
  split
  next habs => rw [habs, isAbs_append (by decide)]; rfl
  next hrel =>
    rw [Bool.eq_false_iff.2 hrel] at hne hslash ⊢
    cases hn : normal false (segments p) with
    | nil => rfl
    | cons q rest =>
      rw [hn] at hne hslash
      rw [if_neg (List.cons_ne_nil q rest)]
      exact isAbs_intercalate (hne q (by simp)) (hslash q (by simp)) rest

theorem render_ne_empty (h : ∀ p ∈ parts, p ≠ "") : render rooted parts ≠ "" := by
  unfold render
  split
  · simp
  · cases parts with
    | nil => decide
    | cons p rest =>
      have hp := h p (by simp)
      cases rest with
      | nil => simpa using hp
      | cons q rest => simp [hp]

theorem clean_ne_empty (p : String) : clean p ≠ "" :=
  render_ne_empty fun _ hq => (stands_of_mem_normal hq).1

/-- The segments of a normal form have the effect of those of the path. -/
theorem foldl_segments_clean {b : Bool} {base : List String}
    (hb : isAbs p = true → b = true ∧ base = []) :
    (segments (clean p)).foldl (step b) base = (segments p).foldl (step b) base := by
  rw [clean, foldl_segments_render fun q => slash_not_mem_of_mem_normal
    fun s => slash_not_mem_of_mem_segments, foldl_step_normal hb]

/-- Paths that start at the same place and have the same effect have the same normal form. -/
theorem clean_congr {p q : String} (ha : isAbs p = isAbs q)
    (h : (segments p).foldl (step (isAbs q)) [] = (segments q).foldl (step (isAbs q)) []) :
    clean p = clean q := by
  rw [clean, clean, normal, normal, ha, h]

theorem clean_clean (p : String) : clean (clean p) = clean p :=
  clean_congr (isAbs_clean p) (foldl_segments_clean fun h => ⟨h, rfl⟩)

theorem clean_append_clean_left {a : String} (h : a ≠ "") (b : String) :
    clean (clean a ++ "/" ++ b) = clean (a ++ "/" ++ b) := by
  have hleft : isAbs (clean a ++ "/" ++ b) = isAbs a := by
    rw [String.append_assoc, isAbs_append (clean_ne_empty a), isAbs_clean]
  have hright : isAbs (a ++ "/" ++ b) = isAbs a := by
    rw [String.append_assoc, isAbs_append h]
  refine clean_congr (hleft.trans hright.symm) ?_
  rw [segments_append, segments_append, List.foldl_append, List.foldl_append, hright,
    foldl_segments_clean fun ha => ⟨ha, rfl⟩]

theorem clean_append_clean_right {a b : String} (h : a ≠ "") (hb : isAbs b = false) :
    clean (a ++ "/" ++ clean b) = clean (a ++ "/" ++ b) := by
  refine clean_congr ?_ ?_
  · rw [String.append_assoc, String.append_assoc, isAbs_append h, isAbs_append h]
  · rw [segments_append, segments_append, List.foldl_append, List.foldl_append,
      foldl_segments_clean fun ha => ?_]
    rw [hb] at ha
    cases ha

/-! ## Paths behind each other -/

theorem join_empty_left (h : p ≠ "") : join "" p = clean p := by
  rw [join, if_neg fun hp => h hp.2, if_pos rfl]

theorem join_of_ne_empty {a b : String} (ha : a ≠ "") (hb : b ≠ "") :
    join a b = clean (a ++ "/" ++ b) := by
  rw [join, if_neg fun h => ha h.1, if_neg ha, if_neg hb]

theorem join_ne_empty (a : String) {b : String} (hb : b ≠ "") : join a b ≠ "" := by
  unfold join
  rw [if_neg fun h => hb h.2, if_neg hb]
  split <;> exact clean_ne_empty _

theorem isAbs_join {a b : String} (ha : a ≠ "") (hb : b ≠ "") : isAbs (join a b) = isAbs a := by
  rw [join_of_ne_empty ha hb, isAbs_clean, String.append_assoc, isAbs_append ha]

theorem ne_empty_of_isAbs (h : isAbs p = true) : p ≠ "" := by
  rintro rfl
  cases h

/-- Relative paths can be put behind any path one by one or together. -/
theorem join_assoc (a : String) {b c : String} (hb : b ≠ "") (hbr : isAbs b = false) (hc : c ≠ "") :
    join (join a b) c = join a (join b c) := by
  rw [join_of_ne_empty (join_ne_empty a hb) hc]
  by_cases ha : a = ""
  · subst ha
    rw [join_empty_left hb, join_empty_left (join_ne_empty b hc), clean_append_clean_left hb,
      join_of_ne_empty hb hc, clean_clean]
  · have hbc : isAbs (b ++ "/" ++ c) = false := by
      rw [String.append_assoc, isAbs_append hb, hbr]
    have hne : a ++ "/" ++ b ≠ "" := by simp [ha]
    rw [join_of_ne_empty ha hb, join_of_ne_empty ha (join_ne_empty b hc), join_of_ne_empty hb hc,
      clean_append_clean_left hne, clean_append_clean_right ha hbc]
    simp only [String.append_assoc]

theorem foldr_join_ne_empty (names : List String) (hp : p ≠ "") : names.foldr join p ≠ "" := by
  induction names with
  | nil => exact hp
  | cons n rest ih => exact join_ne_empty n ih

theorem isAbs_foldr_join {names : List String} (hn : ∀ n ∈ names, n ≠ "" ∧ isAbs n = false)
    (hp : p ≠ "") (hrel : isAbs p = false) : isAbs (names.foldr join p) = false := by
  cases names with
  | nil => exact hrel
  | cons n rest =>
    obtain ⟨hne, hname⟩ := hn n (by simp)
    rw [List.foldr_cons, isAbs_join hne (foldr_join_ne_empty rest hp), hname]

/-- Relative paths can be put behind a path one by one from the front, or each in front of those
behind it. -/
theorem join_foldl (a : String) {names : List String}
    (hn : ∀ n ∈ names, n ≠ "" ∧ isAbs n = false) (hp : p ≠ "") :
    join (names.foldl join a) p = join a (names.foldr join p) := by
  induction names generalizing a with
  | nil => rfl
  | cons n rest ih =>
    obtain ⟨hne, hrel⟩ := hn n (by simp)
    rw [List.foldl_cons, List.foldr_cons,
      ih (join a n) fun m hm => hn m (List.mem_cons_of_mem n hm),
      join_assoc a hne hrel (foldr_join_ne_empty rest hp)]

theorem join_empty_foldr {names : List String} (hne : names ≠ []) (hn : ∀ n ∈ names, n ≠ "")
    (hp : p ≠ "") : join "" (names.foldr join p) = names.foldr join p := by
  rw [join_empty_left (foldr_join_ne_empty names hp)]
  cases names with
  | nil => exact (hne rfl).elim
  | cons n rest =>
    rw [List.foldr_cons, join_of_ne_empty (hn n (by simp)) (foldr_join_ne_empty rest hp),
      clean_clean]

end Path

end Folio
