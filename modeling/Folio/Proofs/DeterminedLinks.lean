import Folio.Proofs.Anchors
import Folio.Proofs.RelativePaths

/-!
# Determined links lead to their targets

Where a link leads is written down as a path from the directory of the document that it stands in,
and an anchor behind it. All that the index of all documents leads to lies in documents that are
there (`Registry.Situated`), and these have absolute paths. So the path leads to the document of the
target, and it is empty if this is the document at hand (`Collection.Gathered.determineLink_leads`).
-/

namespace Folio

/-- The directory of an absolute path is one as well. -/
theorem Path.isAbs_dir {p : String} (h : isAbs p = true) : isAbs (dir p) = true := by
  obtain ⟨cs, hcs⟩ : ∃ cs, p.toList = '/' :: cs :=
    List.head?_eq_some_iff.1 (by simpa [isAbs] using h)
  -- the slash at the front is not behind the last slash
  have hkept : ∀ (cs : List Char),
      ∃ kept, (cs.reverse ++ ['/']).dropWhile (· ≠ '/') = kept ++ ['/'] := fun cs => by
    induction cs.reverse with
    | nil => exact ⟨[], rfl⟩
    | cons c cs ih =>
      rw [List.cons_append, List.dropWhile_cons]
      split
      · exact ih
      · exact ⟨c :: cs, rfl⟩
  obtain ⟨kept, hkept⟩ := hkept cs
  rw [dir, isAbs_clean, isAbs, String.toList_ofList, hcs, List.reverse_cons, hkept]
  simp

namespace Registry

variable {r r' : Registry}

/-- The index leads to documents that are there. -/
def Situated (r : Registry) : Prop :=
  ∀ link address, r.address? link = some address → (r.documentScope? address.document).isSome

theorem Situated.empty (rootType : String) : Situated { rootType } := by
  intro link address h
  simp [address?] at h

theorem Aside.situated (ha : Aside r r') (h : r.Situated) : r'.Situated := by
  intro link address haddress
  rw [address?, ha.addresses] at haddress
  rw [documentScope?, ha.documents]
  exact h link address haddress

theorem Documented.situated {document : String} {top : Scope} (hd : Documented r r' document top)
    (h : r.Situated) : r'.Situated := by
  intro link address haddress
  rw [hd.address] at haddress
  rw [hd.documents]
  split at haddress
  · cases haddress
    rw [if_pos rfl, Option.isSome_some]
  · split
    · rfl
    · exact h link address haddress

theorem Entered.situated {scopes : List ScopeId} {e : Entry} {id : EntryId} {out : List String}
    (he : Entered r r' scopes e id out) (hs : r.Synced) {τ : ScopeId}
    (hl : LeadsUp r scopes e.document τ) (h : r.Situated) : r'.Situated := by
  intro link address haddress
  rw [he.address] at haddress
  rw [documentScope?, he.documents]
  split at haddress
  · obtain ⟨top, hτ, hp, hdocument⟩ := hl.top
    cases haddress
    exact Option.isSome_iff_exists.2 ⟨τ, hdocument ▸ (hs.top τ top hτ hp).2.2⟩
  · exact h link address haddress

theorem Move.situated (hm : Move r r') (hs : r.Synced) (h : r.Situated) : r'.Situated := by
  cases hm with
  | @document document _ _ =>
    obtain ⟨top, hd⟩ := r.addDocument_documented document
    exact hd.situated h
  | scope name _ _ => exact h
  | name hn => exact (Aside.nextName hn).situated h
  | child hc => exact (Aside.addChild hc).situated h
  | @entry σ sc e tags explicit id _ hσ hd htags hok =>
    obtain ⟨τ, hl⟩ := hs.leadsUp hσ
    obtain ⟨out, he⟩ := (registerEntry_entered explicit hl.nodup htags).of_ok hok
    exact he.situated hs (hd ▸ hl) h
  | tag hok => exact ((registerTag_aside _ _ _ _ _ r).of_ok hok).situated h
  | block hs hok => exact ((registerBlock_aside _ _ hs).of_ok hok).situated h
  | value binding => exact (Aside.addValue r binding).situated h
  | setValue σ name value => exact (Aside.setValue r σ name value).situated h
  | found e hf => exact (Aside.found e hf).situated h

theorem Reached.situated (h : r.Reached) : r.Situated := by
  obtain ⟨rootType, hm⟩ := h
  induction hm with
  | refl => exact .empty rootType
  | tail hms hm ih => exact hm.situated (Reached.synced ⟨rootType, hms⟩) ih

/-- What is addressed lies in a document with an absolute path. -/
theorem Situated.isAbs (h : r.Situated) (hs : r.Synced) {link : Link} {address : Address}
    (haddress : r.address? link = some address) : Path.isAbs address.document = true := by
  obtain ⟨σ, hσ⟩ := Option.isSome_iff_exists.1 (h link address haddress)
  exact (hs.document _ σ hσ).1

end Registry

/-- What a determined link is made of. -/
theorem Resolution.determineLink_eq_ok {s : Resolution} {d text : String} {link : Link}
    (h : s.determineLink d link = .ok text) : ∃ target address path,
      link.abs? d true = .ok target ∧ s.registry.address? target = some address ∧
        text = path ++ (if address.anchor = "" then "" else "#" ++ address.anchor) ∧
        path = if address.document = d then "" else
          Path.relative (Path.dir d) (address.document ++ s.options.linkSuffix) := by
  unfold determineLink at h
  cases hlink : link.abs? d true with
  | error cause =>
    rw [hlink] at h
    cases h
  | ok target =>
    rw [hlink] at h
    dsimp only [bind, Except.bind] at h
    cases haddress : s.registry.address? target with
    | none =>
      rw [haddress] at h
      cases h
    | some address =>
      rw [haddress] at h
      refine ⟨target, address, _, rfl, haddress, ?_, rfl⟩
      rw [← Except.ok.inj h]
      split
      · rw [String.append_empty]
      · rw [String.append_assoc]

namespace Collection

variable {c : Collection} {s : Resolution}

theorem Gathered.situated (h : c.Gathered) (hs : c.resolve = .ok () s) : s.registry.Situated := by
  obtain ⟨⟨r, hreached, haside⟩, -⟩ := h.registered hs
  exact haside.situated hreached.situated

/-- From an absolute path, the relative path to another one climbs to the deepest directory above
both, goes down from there, and leads to the target. So the path of a determined link leads from
the directory of the document at hand to the document of the target, if this is another one, and is
empty otherwise. The anchor of the target stands behind it, if there is one. -/
theorem Gathered.determineLink_leads (h : c.Gathered) (hs : c.resolve = .ok () s) :
    (∀ f t : String, Path.isAbs f = true → Path.isAbs t = true →
      Path.join f (Path.relative f t) = Path.clean t ∧
      ∃ above up down, Path.Parting f t above up down ∧
        Path.clean f = Path.render true (above ++ up) ∧
        Path.clean t = Path.render true (above ++ down) ∧ ".." ∉ down ∧
        Path.relative f t = Path.render false (List.replicate up.length ".." ++ down)) ∧
    ∀ d info link text, s.info? d = some info → s.determineLink d link = .ok text →
      ∃ target address path, link.abs? d true = .ok target ∧
        s.registry.address? target = some address ∧
        text = path ++ (if address.anchor = "" then "" else "#" ++ address.anchor) ∧
        (address.document = d → path = "") ∧
        (address.document ≠ d → Path.join (Path.dir d) path =
          Path.clean (address.document ++ s.options.linkSuffix)) := by
  refine ⟨fun f t hf ht => ⟨Path.join_relative hf ht, ?_⟩, fun d info link text hinfo htext => ?_⟩
  · obtain ⟨above, up, down, hp, hrelative⟩ := Path.exists_parting hf ht
    refine ⟨above, up, down, hp, ?_, ?_, fun hup => (hp.stands_down _ hup).2.2 rfl rfl, hrelative⟩
    · rw [Path.clean_eq_render hf, hp.names_origin]
    · rw [Path.clean_eq_render ht, hp.names_target]
  · obtain ⟨target, address, path, htarget, haddress, rfl, hpath⟩ :=
      Resolution.determineLink_eq_ok htext
    obtain ⟨hsynced, hfiled⟩ := h.synced hs
    refine ⟨target, address, path, htarget, haddress, rfl, fun hd => ?_, fun hd => ?_⟩
    · rw [hpath, if_pos hd]
    · have hdir := Path.isAbs_dir (hsynced.document d _ (hfiled d info hinfo)).1
      have hdocument := (h.situated hs).isAbs hsynced haddress
      rw [hpath, if_neg hd, Path.join_relative hdir]
      rw [Path.isAbs_append (Path.ne_empty_of_isAbs hdocument), hdocument]

/-- Two documents in different directories, the second one with a section that has a tag. -/
def twoDirectories : Collection where
  documents :=
    [("/guide/a", plainDocument "/guide/a" [sectionAt "/guide/a" 1 1 0 "X" []]),
    ("/ref/b", plainDocument "/ref/b" [sectionAt "/ref/b" 1 1 0 "Y" []])]

theorem twoDirectories_gathered : twoDirectories.Gathered := by
  have ha : Gathered { documents := [("/guide/a", plainDocument "/guide/a"
      [sectionAt "/guide/a" 1 1 0 "X" []])] } :=
    .add "/guide/a" { nodes := [.heading none "X" []] } (.start {}) rfl rfl
  exact .add "/ref/b" { nodes := [.heading none "Y" []] } ha rfl rfl

/-- From `/guide/a`, the way to the section of `/ref/b` goes up once, and the way to its own section
has no path. -/
theorem determineLink_leads_twoDirectories : ∃ s, twoDirectories.resolve = .ok () s ∧
    s.determineLink "/guide/a" (.place "../ref/b" "section-1") = .ok "../ref/b.md#section-1" ∧
    (Link.place "../ref/b" "section-1").abs? "/guide/a" true = .ok (.place "/ref/b" "section-1") ∧
    Path.join (Path.dir "/guide/a") "../ref/b.md" = Path.clean "/ref/b.md" ∧
    s.determineLink "/guide/a" (.place "" "section-1") = .ok "#section-1" := by
  obtain ⟨s, hs, hinfo, hsuffix, haddress, hother, hown⟩ := twoDirectories.exists_resolve_and
    (P := fun s => (s.info? "/guide/a").isSome ∧ s.options.linkSuffix = ".md" ∧
      (s.registry.address? (.place "/ref/b" "section-1")).map
        (fun address => (address.document, address.anchor)) = some ("/ref/b", "section-1") ∧
      s.determineLink "/guide/a" (.place "../ref/b" "section-1") = .ok "../ref/b.md#section-1" ∧
      s.determineLink "/guide/a" (.place "" "section-1") = .ok "#section-1") (by decide +kernel)
  obtain ⟨info, hinfo⟩ := Option.isSome_iff_exists.1 hinfo
  have habs : (Link.place "../ref/b" "section-1").abs? "/guide/a" true =
    .ok (.place "/ref/b" "section-1") := by decide +kernel
  refine ⟨s, hs, hother, habs, ?_, hown⟩
  obtain ⟨target, address, path, htarget, hfound, htext, -, hleads⟩ :=
    (twoDirectories_gathered.determineLink_leads hs).2 "/guide/a" info _ _ hinfo hother
  cases habs.symm.trans htarget
  rw [hfound, Option.map_some, Option.some.injEq, Prod.mk.injEq] at haddress
  obtain ⟨hdocument, hanchor⟩ := haddress
  have hpath : path = "../ref/b.md" := by
    rw [hanchor, if_neg (by decide)] at htext
    exact String.append_left_inj "#section-1" |>.1 htext.symm
  rw [hpath, hdocument, hsuffix] at hleads
  exact hleads (by decide)

end Collection

end Folio
