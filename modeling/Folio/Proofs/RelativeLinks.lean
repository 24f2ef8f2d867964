import Folio.Proofs.DeterminedLinks

/-!
# Relative links

A relative link starts at the directory of the document that it stands in, and has to stay below the
root. Whether it does is a question of its segments (`Path.climbsOut`). `Link.abs?` looks at a text
in its place: it puts the link behind the directory as if that were relative, and rejects what
starts with a dot. What climbs out does, since a `..` is left at the front
(`Path.getLast?_foldl_of_climbsOut`). But so does what leads to the root itself, or to a name with a
dot in front, though it is below the root (`Link.abs?_relative`).
-/

namespace Folio

namespace Path

/-! ## Climbing out -/

/-- Do the segments lead above the root, from a directory that is `depth` names below it? -/
def climbsOut : Nat → List String → Bool
  | _, [] => false
  | depth, segment :: rest =>
    if segment = "" ∨ segment = "." then climbsOut depth rest
    else if segment = ".." then depth == 0 || climbsOut (depth - 1) rest
    else climbsOut (depth + 1) rest

variable {kept parts : List String} {p base : String}

theorem climbsOut_eq_false (h : ".." ∉ parts) (depth : Nat) : climbsOut depth parts = false := by
  induction parts generalizing depth with
  | nil => rfl
  | cons segment rest ih =>
    obtain ⟨hup, hrest⟩ := not_or.1 (List.mem_cons.not.1 h)
    rw [climbsOut, if_neg (Ne.symm hup), ih hrest, ih hrest, ite_self]

/-- Segments that do not climb out have the same effect with a root and without one. -/
theorem foldl_step_of_climbsOut_eq_false (hk : ".." ∉ kept)
    (h : climbsOut kept.length parts = false) :
    parts.foldl (step false) kept = parts.foldl (step true) kept := by
  induction parts generalizing kept with
  | nil => rfl
  | cons segment rest ih =>
    rw [List.foldl_cons, List.foldl_cons]
    rw [climbsOut] at h
    by_cases hblank : segment = "" ∨ segment = "."
    · rw [if_pos hblank] at h
      simpa [step, hblank] using ih hk h
    rw [if_neg hblank] at h
    by_cases hup : segment = ".."
    · rw [if_pos hup] at h
      cases kept with
      | nil => simp at h
      | cons last kept =>
        obtain ⟨hlast, hkept⟩ := not_or.1 (List.mem_cons.not.1 hk)
        simpa [step, hup, Ne.symm hlast] using ih hkept (by simpa using h)
    · rw [if_neg hup] at h
      have hk' : ".." ∉ segment :: kept := by simp [Ne.symm hup, hk]
      simpa [step, hblank, hup] using ih hk' h

/-- What leads up at the very front stays there. -/
theorem getLast?_step (h : kept.getLast? = some "..") (segment : String) :
    (step false kept segment).getLast? = some ".." := by
  cases kept with
  | nil => cases h
  | cons last rest =>
    unfold step
    split
    · exact h
    split
    · dsimp only
      split
      next hlast =>
        cases rest with
        | nil => exact (hlast (Option.some.inj h)).elim
        | cons next rest => rwa [List.getLast?_cons_cons] at h
      · exact h
    · rwa [List.getLast?_cons_cons]

theorem getLast?_foldl (h : kept.getLast? = some "..") (parts : List String) :
    (parts.foldl (step false) kept).getLast? = some ".." := by
  induction parts generalizing kept with
  | nil => exact h
  | cons segment rest ih => exact ih (getLast?_step h segment)

/-- Segments that climb out leave a `..` at the front, if there is no root. -/
theorem getLast?_foldl_of_climbsOut (hk : ".." ∉ kept) (h : climbsOut kept.length parts = true) :
    (parts.foldl (step false) kept).getLast? = some ".." := by
  induction parts generalizing kept with
  | nil => cases h
  | cons segment rest ih =>
    rw [List.foldl_cons]
    rw [climbsOut] at h
    by_cases hblank : segment = "" ∨ segment = "."
    · rw [if_pos hblank] at h
      simpa [step, hblank] using ih hk h
    rw [if_neg hblank] at h
    by_cases hup : segment = ".."
    · rw [if_pos hup] at h
      cases kept with
      | nil => exact getLast?_foldl (by simp [step, hup]) rest
      | cons last kept =>
        obtain ⟨hlast, hkept⟩ := not_or.1 (List.mem_cons.not.1 hk)
        simpa [step, hup, Ne.symm hlast] using ih hkept (by simpa using h)
    · rw [if_neg hup] at h
      have hk' : ".." ∉ segment :: kept := by simp [Ne.symm hup, hk]
      simpa [step, hblank, hup] using ih hk' h

/-! ## Directories -/

/-- What stands up to the last slash. -/
def upToSlash (p : String) : String :=
  String.ofList (p.toList.reverse.dropWhile (· ≠ '/')).reverse

theorem dir_eq_clean (p : String) : dir p = clean (upToSlash p) := rfl

theorem upToSlash_append (p : String) : upToSlash ("/" ++ p) = "/" ++ upToSlash p := by
  refine String.toList_injective ?_
  have hlist : ("/" ++ p).toList = '/' :: p.toList := by simp
  simp only [upToSlash, String.toList_ofList, String.toList_append, hlist, List.reverse_cons,
    List.dropWhile_append]
  split
  next h =>
    rw [List.isEmpty_iff.1 h]
    rfl
  next => simp

/-- A text is cut behind its last slash, if it has one. -/
theorem upToSlash_eq (p : String) : upToSlash p = "" ∨
    ∃ front rest, p = front ++ "/" ++ rest ∧ upToSlash p = front ++ "/" := by
  have hcut := List.takeWhile_append_dropWhile (p := (· ≠ '/')) (l := p.toList.reverse)
  cases hback : p.toList.reverse.dropWhile (· ≠ '/') with
  | nil => exact .inl (by rw [upToSlash, hback]; rfl)
  | cons c back =>
    obtain rfl : c = '/' := by
      have hhead := List.head?_dropWhile_not (· ≠ '/') p.toList.reverse
      rw [hback] at hhead
      simpa using hhead
    rw [hback] at hcut
    refine .inr ⟨String.ofList back.reverse,
      String.ofList (p.toList.reverse.takeWhile (· ≠ '/')).reverse, ?_, ?_⟩
    · refine String.toList_injective (List.reverse_injective ?_)
      simpa using hcut.symm
    · rw [upToSlash, hback]
      exact String.toList_injective (by simp)

theorem mem_segments_of_upToSlash {segment : String} (h : segment ∈ segments (upToSlash p)) :
    segment = "" ∨ segment ∈ segments p := by
  rcases upToSlash_eq p with hp | ⟨front, rest, hp, hfront⟩
  · rw [hp, segments_empty] at h
    exact .inl (List.mem_singleton.1 h)
  · rw [hfront, segments_append_slash] at h
    rw [hp, segments_append]
    rcases List.mem_append.1 h with h | h
    · exact .inr (List.mem_append_left _ h)
    · exact .inl (List.mem_singleton.1 h)

theorem isAbs_upToSlash (h : isAbs p = false) : isAbs (upToSlash p) = false := by
  rcases upToSlash_eq p with hp | ⟨front, rest, hp, hfront⟩
  · rw [hp]
    rfl
  · rw [hfront]
    rwa [hp, isAbs_append (by simp)] at h

/-- Behind the slash at its front, an absolute path in normal form is relative, and nothing in it
leads up. -/
theorem exists_below_root (habs : isAbs p = true) (hclean : clean p = p) :
    ∃ below, p = "/" ++ below ∧ isAbs below = false ∧ ".." ∉ segments below := by
  refine ⟨"/".intercalate (names p), ?_, ?_, ?_⟩
  · rw [clean_eq_render habs, render, if_pos rfl] at hclean
    exact hclean.symm
  · cases hn : names p with
    | nil => rfl
    | cons name rest =>
      have hmem : name ∈ names p := hn ▸ List.mem_cons_self ..
      exact isAbs_intercalate (stands_of_mem_names hmem).1 (slash_not_mem_of_mem_names hmem) rest
  · by_cases hnil : names p = []
    · rw [hnil]
      decide
    · rw [segments_intercalate hnil fun _ => slash_not_mem_of_mem_names]
      exact fun h => (stands_of_mem_names h).2.2 rfl rfl

/-- A relative path starts as its first segment does. -/
theorem head?_render (h : ∀ s ∈ parts, s ≠ "") :
    (render false parts).toList.head? = parts.head?.elim (some '.') (·.toList.head?) := by
  cases parts with
  | nil => rfl
  | cons s rest =>
    have hs : s.toList ≠ [] := by simpa using h s (List.mem_cons_self ..)
    cases rest with
    | nil => simp [render]
    | cons t rest => simp [render, List.head?_append_of_ne_nil _ hs]

/-! ## Where a link leads -/

/-- Is the path the root, or does the first name on the way to it start with a dot? -/
def isDotted (p : String) : Bool := (names p).head?.all (·.toList.head? = some '.')

/-- The names on the way to a path behind another one. -/
theorem names_join {a : String} (ha : a ≠ "") (hp : p ≠ "") :
    names (join a p) = ((segments p).foldl (step true) (names a).reverse).reverse := by
  rw [join_of_ne_empty ha hp, names, normal, foldl_segments_clean fun _ => ⟨rfl, rfl⟩,
    segments_append, List.foldl_append, names, normal, List.reverse_reverse]

theorem names_dir (below : String) :
    names (dir ("/" ++ below)) = normal true (segments (upToSlash below)) := by
  have hfront := segments_append "" (upToSlash below)
  rw [String.empty_append, segments_empty] at hfront
  have hstep : step true [] "" = [] := by simp [step]
  rw [dir_eq_clean, upToSlash_append, names, normal, foldl_segments_clean fun _ => ⟨rfl, rfl⟩,
    hfront, List.singleton_append, List.foldl_cons, hstep, normal]

/-- Without a root, the same segments stand in the directory of a document. -/
theorem join_dir_below {below : String} (hbelow : isAbs below = false)
    (hup : ".." ∉ segments below) (hp : p ≠ "") : join (dir below) p = render false
      ((segments p).foldl (step false) (names (dir ("/" ++ below))).reverse).reverse := by
  have hrel : isAbs (upToSlash below) = false := isAbs_upToSlash hbelow
  have hjoin : isAbs (clean (upToSlash below) ++ "/" ++ p) = false := by
    rw [String.append_assoc, isAbs_append (clean_ne_empty _), isAbs_clean, hrel]
  have hplain : (segments (upToSlash below)).foldl (step false) [] =
      (segments (upToSlash below)).foldl (step true) [] := by
    refine foldl_step_of_climbsOut_eq_false (by simp) (climbsOut_eq_false (fun h => ?_) _)
    rcases mem_segments_of_upToSlash h with h | h
    · exact absurd h (by decide)
    · exact hup h
  rw [dir_eq_clean below, join_of_ne_empty (clean_ne_empty _) hp, clean, hjoin, normal,
    segments_append, List.foldl_append, foldl_segments_clean (by simp [hrel]), hplain, names_dir,
    normal, List.reverse_reverse]

/-- A path behind the directory of a document starts with a dot, if the document is taken without
its root, where the path climbs out, and where it leads to the root or to a dotted name. -/
theorem head?_join_dir {below : String} (hbelow : isAbs below = false)
    (hup : ".." ∉ segments below) (hp : p ≠ "") :
    (join (dir below) p).toList.head? = some '.' ↔
      climbsOut (names (dir ("/" ++ below))).length (segments p) ∨
        isDotted (join (dir ("/" ++ below)) p) := by
  have hdir : dir ("/" ++ below) ≠ "" := clean_ne_empty _
  have htarget := names_join hdir hp
  rw [join_dir_below hbelow hup hp, isDotted, htarget, ← List.length_reverse]
  have hstands : ∀ s ∈ (names (dir ("/" ++ below))).reverse, Stands true s := fun _ hs =>
    stands_of_mem_names (List.mem_reverse.1 hs)
  generalize (names (dir ("/" ++ below))).reverse = kept at hstands
  have hkept : ".." ∉ kept := fun h => (hstands _ h).2.2 rfl rfl
  have hstands : ∀ s ∈ kept, Stands false s := fun s hs =>
    ⟨(hstands s hs).1, (hstands s hs).2.1, by simp⟩
  have hne : ∀ s ∈ ((segments p).foldl (step false) kept).reverse, s ≠ "" := fun s hs =>
    (stands_of_mem_foldl hstands (List.mem_reverse.1 hs)).1
  rw [head?_render hne, List.head?_reverse, List.head?_reverse]
  cases hclimbs : climbsOut kept.length (segments p) with
  | true => simp [getLast?_foldl_of_climbsOut hkept hclimbs]
  | false =>
    rw [foldl_step_of_climbsOut_eq_false hkept hclimbs]
    cases ((segments p).foldl (step true) kept).getLast? <;> simp

end Path

namespace Link

variable {base p : String}

/-- A relative link leads to the path behind the directory of its document, which is absolute and in
normal form. It is rejected if it climbs out, and if it leads to the root or to a place whose first
name has a dot in front. -/
theorem abs?_relative (habs : Path.isAbs base = true) (hclean : Path.clean base = base)
    (hp : p ≠ "") (hrel : Path.isAbs p = false) (anchor : String) (global : Bool) :
    let target := Path.join (Path.dir base) p
    (abs? base global (place p anchor) =
      if Path.climbsOut (Path.names (Path.dir base)).length (Path.segments p) ||
          Path.isDotted target then .error (.outsideTree p base)
      else .ok (place target anchor)) ∧
    Path.isAbs target = true ∧ Path.clean target = target := by
  obtain ⟨below, rfl, hbelow, hup⟩ := Path.exists_below_root habs hclean
  have hdir : Path.dir ("/" ++ below) ≠ "" := Path.clean_ne_empty _
  refine ⟨?_, ?_, ?_⟩
  · have hbase : abs?.relativeBase ("/" ++ below) = below := by
      have hlist : ("/" ++ below).toList = '/' :: below.toList := by simp
      rw [abs?.relativeBase, hlist]
      exact String.ofList_toList
    have hiff := Path.head?_join_dir hbelow hup hp
    rw [abs?, if_neg (by simp [hrel]), if_neg hp, hbase]
    exact if_congr (by simpa using hiff) rfl rfl
  · rw [Path.isAbs_join hdir hp, Path.isAbs_dir habs]
  · rw [Path.join_of_ne_empty hdir hp, Path.clean_clean]

/-- From a directory below the root, a link can lead up to the root and down again. -/
theorem abs?_relative_up : Path.isAbs "/guide/intro" = true ∧
    Path.clean "/guide/intro" = "/guide/intro" ∧ "../notes/x" ≠ "" ∧
    Path.isAbs "../notes/x" = false ∧
    abs? "/guide/intro" false (place "../notes/x" "y") = .ok (place "/notes/x" "y") := by
  have hclean : Path.clean "/guide/intro" = "/guide/intro" := by decide +kernel
  have htarget : Path.join (Path.dir "/guide/intro") "../notes/x" = "/notes/x" := by decide +kernel
  have hdepth : (Path.names (Path.dir "/guide/intro")).length = 1 := by decide +kernel
  have hinside : (Path.climbsOut 1 (Path.segments "../notes/x") || Path.isDotted "/notes/x") =
      false := by
    decide +kernel
  have hlink := (abs?_relative (by decide) hclean (p := "../notes/x") (by decide) (by decide) "y"
    false).1
  rw [htarget, hdepth, hinside] at hlink
  exact ⟨by decide, hclean, by decide, by decide, hlink⟩

/-- A link that does not climb out can be rejected. -/
theorem not_forall_abs?_relative : ¬ ∀ (base p anchor : String) (global : Bool),
    Path.isAbs base = true → Path.clean base = base → p ≠ "" → Path.isAbs p = false →
    let climbs := Path.climbsOut (Path.names (Path.dir base)).length (Path.segments p)
    ((∃ cause, abs? base global (place p anchor) = .error cause) ↔ climbs = true) ∧
    (climbs = false →
      abs? base global (place p anchor) = .ok (place (Path.join (Path.dir base) p) anchor)) := by
  intro h
  have hclean : Path.clean "/a" = "/a" := by decide +kernel
  have hinside : Path.climbsOut (Path.names (Path.dir "/a")).length (Path.segments ".hidden") =
      false := by
    decide +kernel
  have hlink := (h "/a" ".hidden" "x" false (by decide) hclean (by decide) (by decide)).2 hinside
  have hbase : abs?.relativeBase "/a" = "a" := by decide +kernel
  have hdot : (Path.join (Path.dir "a") ".hidden").toList.head? = some '.' := by decide +kernel
  rw [abs?, if_neg (by decide), if_neg (by decide), hbase, if_pos hdot] at hlink
  cases hlink

end Link

end Folio
