import Folio.Collection
import Folio.Proofs.DeclaredLevels
import Folio.Proofs.NormalPaths
import Folio.Proofs.Queries
import Folio.Proofs.RelativeLinks

/-!
# Directories and names of documents

`Path.dir` and `Path.base` cut a path behind its last slash, each in its own way: `dir` writes down
the normal form of what stands up to the slash, `base` puts slashes at the end aside first. If a
path does not end in a slash, both parts joined are its normal form (`Path.join_dir_base`). Of the
paths in normal form, only the root ends in one.

The path of a document that is added as a text is in normal form, so its attributes `docdir` and
`docname` make up `docpath`. Main statement: `Collection.docpath_addText`.
-/

namespace Folio

namespace Path

variable {p : String}

/-! ## Behind the last slash -/

/-- What stands behind the last slash. -/
def behindSlash (p : String) : String :=
  String.ofList (p.toList.reverse.takeWhile (· ≠ '/')).reverse

theorem upToSlash_append_behindSlash (p : String) : upToSlash p ++ behindSlash p = p := by
  refine String.toList_injective (List.reverse_injective ?_)
  simp [upToSlash, behindSlash]

theorem isAbs_behindSlash (p : String) : isAbs (behindSlash p) = false := by
  rw [isAbs, beq_eq_false_iff_ne]
  intro h
  have hmem := List.mem_of_mem_head? (Option.mem_def.2 h)
  rw [behindSlash, String.toList_ofList, List.mem_reverse] at hmem
  simpa using List.mem_takeWhile_imp hmem

/-- If a path does not end in a slash, there is none to be put aside. -/
theorem base_eq_behindSlash (h : behindSlash p ≠ "") : base p = behindSlash p := by
  cases hlast : p.toList.reverse with
  | nil => simp [behindSlash, hlast] at h
  | cons c rest =>
    have hc : c ≠ '/' := by
      rintro rfl
      simp [behindSlash, hlast] at h
    have hp : p ≠ "" := by
      rintro rfl
      cases hlast
    have htrimmed : p.toList.reverse.dropWhile (· = '/') = p.toList.reverse := by
      rw [hlast, List.dropWhile_cons_of_neg (by simpa using hc)]
    rw [base, htrimmed, if_neg hp, if_neg (by simp [hlast]), behindSlash]

/-- Of the paths in normal form, only the root ends in a slash. -/
theorem IsNormal.behindSlash_ne_empty (h : IsNormal p) (hp : p ≠ "/") : behindSlash p ≠ "" := by
  intro hempty
  have hfront := upToSlash_append_behindSlash p
  rw [hempty, String.append_empty] at hfront
  -- what ends in a slash has an empty segment at its end, as has the empty path
  have hlast : (segments p).getLast? = some "" := by
    rcases upToSlash_eq p with hnone | ⟨front, rest, -, hcut⟩
    · rw [← hfront, hnone, segments_empty]
      rfl
    · rw [← hfront, hcut, segments_append_slash, List.getLast?_concat]
  cases h with
  | root h => exact hp h
  | here h =>
    rw [h] at hlast
    exact absurd hlast (by decide)
  | absolute names hne hn h =>
    rw [h, List.getLast?_cons, List.getLast?_eq_some_getLast hne] at hlast
    exact (hn _ (List.getLast_mem hne)).1 (Option.some.inj hlast)
  | relative ups names hne hn h =>
    rw [h] at hlast
    rcases List.mem_append.1 (List.mem_of_getLast? hlast) with hup | hname
    · exact absurd (List.eq_of_mem_replicate hup) (by decide)
    · exact (hn _ hname).1 rfl

/-! ## Both parts together -/

/-- A second slash between two paths changes nothing. -/
theorem clean_append_slash (a b : String) :
    clean (a ++ "/" ++ "/" ++ b) = clean (a ++ "/" ++ b) := by
  have hsegments : segments (a ++ "/" ++ "/" ++ b) = segments a ++ "" :: segments b := by
    rw [segments_append, segments_append_slash, List.append_assoc, List.singleton_append]
  have hfront : ∀ c, isAbs (a ++ "/" ++ c) = isAbs (a ++ "/") := isAbs_append (by simp)
  refine clean_congr ?_ ?_
  · exact (congrArg isAbs String.append_assoc).trans ((hfront _).trans (hfront _).symm)
  · have hstep : ∀ rooted kept, step rooted kept "" = kept := fun _ _ => if_pos (.inl rfl)
    rw [hsegments, segments_append, List.foldl_append, List.foldl_append, List.foldl_cons, hstep]

/-- The directory at hand in front of a relative path changes nothing. -/
theorem clean_here_append (h : isAbs p = false) : clean ("." ++ "/" ++ p) = clean p := by
  have hhere : segments "." = ["."] := rfl
  refine clean_congr ?_ ?_
  · rw [String.append_assoc, isAbs_append (by decide), h]
    rfl
  · have hstep : ∀ rooted kept, step rooted kept "." = kept := fun _ _ => if_pos (.inr rfl)
    rw [segments_append, hhere, List.singleton_append, List.foldl_cons, hstep]

/-- A path that does not end in a slash leads where its directory and its name lead. -/
theorem join_dir_base (h : behindSlash p ≠ "") : join (dir p) (base p) = clean p := by
  have hparts := upToSlash_append_behindSlash p
  rw [base_eq_behindSlash h, dir_eq_clean, join_of_ne_empty (clean_ne_empty _) h]
  rcases upToSlash_eq p with hnone | ⟨front, rest, -, hcut⟩
  · have hhere : clean "" = "." := rfl
    rw [hnone, hhere, clean_here_append (isAbs_behindSlash p)]
    rw [hnone, String.empty_append] at hparts
    rw [hparts]
  · rw [hcut] at hparts ⊢
    rw [clean_append_clean_left (by simp), clean_append_slash, hparts]

/-- A path in normal form is made up of its directory and its name. -/
theorem join_dir_base_of_clean (h : clean p = p) : join (dir p) (base p) = p := by
  by_cases hroot : p = "/"
  · rw [hroot]
    rfl
  · rw [join_dir_base (((clean_eq_self_iff p).1 h).behindSlash_ne_empty hroot), h]

end Path

/-- A document that is read has the path that it is read for. -/
theorem Document.path_of_read? {path text : String} {d : Document}
    (h : read? path text = .ok d) : d.path = path := by
  unfold read? at h
  split at h
  · exact (numbered_of_ofDescription? h).1
  · cases h

namespace Collection

/-- The path of a document is in normal form, if the document is added as a text. Then the
attributes `docdir` and `docname` make up `docpath`, wherever the document is worked on, as the
directory and the name of each path in normal form make up the path. -/
theorem docpath_addText :
    (∀ p, Path.clean p = p → Path.join (Path.dir p) (Path.base p) = p) ∧
    ∀ (c c' : Collection) (path text : String), c.addText path text = .ok c' →
      ∃ d, c'.documents.lookup (fullPath path) = some d ∧ d.path = fullPath path ∧
        ∀ (s : Resolution) (f : FrameId), s.documentOf f = d.path →
          ∃ dir name, s.attribute? f "docdir" = some dir ∧ s.attribute? f "docname" = some name ∧
            s.attribute? f "docpath" = some d.path ∧ Path.join dir name = d.path := by
  refine ⟨fun p => Path.join_dir_base_of_clean, fun c c' path text h => ?_⟩
  obtain ⟨d, hread, hadd⟩ := exists_of_bind_eq_ok h
  obtain ⟨-, rfl⟩ := Gathered.add_eq_ok hadd
  have hpath : d.path = fullPath path := Document.path_of_read? hread
  refine ⟨d, ?_, hpath, fun s f hf => ⟨Path.dir d.path, Path.base d.path, ?_, ?_, ?_, ?_⟩⟩
  · rw [Table.lookup_put, if_pos hpath.symm]
  · rw [← hf]
    rfl
  · rw [← hf]
    rfl
  · rw [← hf]
    rfl
  · rw [hpath]
    exact Path.join_dir_base_of_clean (Path.clean_clean _)

/-- A path that leads up, and a document that is added with a slash too many and worked on in the
first frame. -/
theorem docpath_addText_guide :
    let s : Resolution := {
      options := {}
      registry := { rootType := "section" }
      frames := #[⟨none, "/guide/intro", ⟨0⟩, .document []⟩] }
    Path.clean "../../a/b" = "../../a/b" ∧
    Path.join (Path.dir "../../a/b") (Path.base "../../a/b") = "../../a/b" ∧
    ∃ c' d, ({} : Collection).addText "guide//intro" "nodes: []" = .ok c' ∧
      c'.documents.lookup "/guide/intro" = some d ∧ s.documentOf ⟨0⟩ = d.path ∧
      s.attribute? ⟨0⟩ "docdir" = some "/guide" ∧ s.attribute? ⟨0⟩ "docname" = some "intro" ∧
      s.attribute? ⟨0⟩ "docpath" = some d.path ∧ Path.join "/guide" "intro" = d.path := by
  intro s
  obtain ⟨hpaths, hadded⟩ := docpath_addText
  have hclean : Path.clean "../../a/b" = "../../a/b" := rfl
  have hfull : fullPath "guide//intro" = "/guide/intro" := rfl
  obtain ⟨c', hc'⟩ : ∃ c', ({} : Collection).addText "guide//intro" "nodes: []" = .ok c' := by
    have hok : (({} : Collection).addText "guide//intro" "nodes: []").isOk = true := by
      decide +kernel
    cases h : ({} : Collection).addText "guide//intro" "nodes: []" with
    | ok c' => exact ⟨c', rfl⟩
    | error e =>
      rw [h] at hok
      cases hok
  obtain ⟨d, hd, hpath, hattributes⟩ := hadded {} c' _ _ hc'
  rw [hfull] at hd hpath
  obtain ⟨dir, name, hdir, hname, hdoc, hjoin⟩ := hattributes s ⟨0⟩ hpath.symm
  have hdir' : s.attribute? ⟨0⟩ "docdir" = some "/guide" :=
    congrArg some (show Path.dir "/guide/intro" = "/guide" from rfl)
  have hname' : s.attribute? ⟨0⟩ "docname" = some "intro" :=
    congrArg some (show Path.base "/guide/intro" = "intro" by decide)
  cases hdir'.symm.trans hdir
  cases hname'.symm.trans hname
  exact ⟨hclean, hpaths _ hclean, c', d, hc', hd, hpath.symm, hdir', hname', hdoc, hjoin⟩

end Collection

end Folio
