import Folio.Proofs.Resolution.Masters

/-!
# Masters come first

Binding labels to the slots of an entry binds them to those of its master before, unless that has
been done. Types count as done before their masters are seen to, so the list of them keeps apart
neither the types that are under way from those that are finished, nor a cycle from a type that
comes up again. If masters are known and form no cycle, it does not have to: a type that comes up
again is finished (`Run.bindLabels_eq`).

So binding comes to taking the entries of a root in some order, each of them once and after its
master (`RangeEntry.MastersFirst`, `Run.bindEntries_eq`). Whatever the entries are, a cycle is never
reported here (`Run.bindEntries_no_cycle`).
-/

namespace Folio

namespace RangeEntry

/-- All entries in an order in which each one comes after that of its master. -/
structure MastersFirst (entries order : List RangeEntry) : Prop where
  perm : order.Perm entries
  first : ∀ pre e post, order = pre ++ e :: post → ∀ master, e.master = some master →
    master ∈ pre.map RangeEntry.typ

/-- Entries that can be taken one after the other. The type of each is new then, and its master is
finished. -/
inductive Schedule (entries : List RangeEntry) : (String → Prop) → List RangeEntry → Prop
  | nil {finished : String → Prop} : Schedule entries finished []
  | cons {finished : String → Prop} {e : RangeEntry} {order : List RangeEntry} (he : e ∈ entries)
    (hnew : ¬finished e.typ) (hm : ∀ master, e.master = some master → finished master)
    (hrest : Schedule entries (fun typ => finished typ ∨ typ = e.typ) order) :
    Schedule entries finished (e :: order)

namespace Schedule

variable {entries order order' : List RangeEntry} {finished finished' : String → Prop}

theorem append (h : Schedule entries finished order) (h' : Schedule entries finished' order')
    (hf : ∀ typ, finished' typ ↔ finished typ ∨ typ ∈ order.map RangeEntry.typ) :
    Schedule entries finished (order ++ order') := by
  induction h with
  | @nil finished =>
    have heq : finished' = finished := funext fun typ => propext ((hf typ).trans (by simp))
    exact heq ▸ h'
  | cons he hnew hm _ ih =>
    exact .cons he hnew hm (ih fun typ => (hf typ).trans (by simp [or_assoc]))

theorem mem (h : Schedule entries finished order) {e : RangeEntry} (he : e ∈ order) :
    e ∈ entries ∧ ¬finished e.typ := by
  induction h with
  | nil => cases he
  | cons hin hnew _ _ ih =>
    rcases List.mem_cons.1 he with rfl | he
    · exact ⟨hin, hnew⟩
    · exact (ih he).imp_right fun hnot hfin => hnot (.inl hfin)

theorem nodup (h : Schedule entries finished order) : (order.map RangeEntry.typ).Nodup := by
  induction h with
  | nil => exact .nil
  | cons _ _ _ hrest ih =>
    refine List.nodup_cons.2 ⟨fun hmem => ?_, ih⟩
    obtain ⟨e', he', htyp⟩ := List.mem_map.1 hmem
    exact (hrest.mem he').2 (.inr htyp)

theorem first (h : Schedule entries finished order) {pre post : List RangeEntry} {e : RangeEntry}
    (hsplit : order = pre ++ e :: post) {master : String} (hm : e.master = some master) :
    finished master ∨ master ∈ pre.map RangeEntry.typ := by
  induction h generalizing pre with
  | nil => simp at hsplit
  | cons _ _ hfirst _ ih =>
    cases pre with
    | nil =>
      cases hsplit
      exact .inl (hfirst master hm)
    | cons e' pre =>
      obtain ⟨rfl, rfl⟩ := List.cons.inj hsplit
      simpa [or_assoc] using ih rfl

/-- A schedule of all entries, when nothing is finished at first. -/
theorem mastersFirst (h : Schedule entries (fun _ => False) order)
    (hnodup : (entries.map RangeEntry.typ).Nodup)
    (hall : ∀ e ∈ entries, e.typ ∈ order.map RangeEntry.typ) : MastersFirst entries order where
  perm := by
    refine (List.perm_ext_iff_of_nodup h.nodup.of_map hnodup.of_map).2 fun e => ?_
    refine ⟨fun he => (h.mem he).1, fun he => ?_⟩
    obtain ⟨e', he', htyp⟩ := List.mem_map.1 (hall e he)
    rwa [← eq_of_typ_eq hnodup (h.mem he').1 he htyp]
  first pre e post hsplit master hm := (h.first hsplit hm).resolve_left id

end Schedule

end RangeEntry

namespace Run

open RangeEntry

variable {entries : List RangeEntry}

/-- Binds labels to the slots of the range of an entry, and to all slots below them. -/
def bindEntry (entry : RangeEntry) : Run Unit := do
  let s ← get
  match s.numbering.createLabels entry.range none with
  | .ok numbering => set { s with numbering }
  | .error cause => fail entry.location (.numbering cause)

private theorem bindEntry_bind (entry : RangeEntry) (done : List String) :
    (do
      let s ← get
      match s.numbering.createLabels entry.range none with
      | .ok numbering => set { s with numbering }
      | .error cause => fail entry.location (.numbering cause)
      return done : Run (List String)) = do
        bindEntry entry
        return done := by
  unfold bindEntry
  rw [bind_assoc]
  refine bind_congr fun s => ?_
  cases s.numbering.createLabels entry.range none <;> rfl

private theorem forM_append_eq (order order' : List RangeEntry) :
    (order ++ order').forM bindEntry = (do order.forM bindEntry; order'.forM bindEntry) :=
  List.forM_append

private theorem forM_singleton_eq (entry : RangeEntry) : [entry].forM bindEntry = bindEntry entry :=
  bind_pure_unit

section Succ

variable {fuel : Nat} {trail : Trail} {done : List String} {entry : RangeEntry}

theorem bindLabels_of_mem (h : entry.typ ∈ done) :
    bindLabels entries (fuel + 1) trail done entry = pure done := by
  simp [bindLabels, h]

theorem bindLabels_of_none (h : entry.typ ∉ done) (hm : entry.master = none) :
    bindLabels entries (fuel + 1) trail done entry = (do
      let _ ← followMaster trail entry
      bindEntry entry
      return entry.typ :: done) := by
  rw [bindLabels]
  simp only [h, if_false, List.contains_iff_mem, hm, pure_bind]
  exact bind_congr fun _ => bindEntry_bind ..

theorem bindLabels_of_some (h : entry.typ ∉ done) {master : String}
    (hm : entry.master = some master) :
    bindLabels entries (fuel + 1) trail done entry = (do
      let trail ← followMaster trail entry
      let entry' ← masterEntry entries entry master
      let done ← bindLabels entries fuel trail (entry.typ :: done) entry'
      bindEntry entry
      return done) := by
  rw [bindLabels]
  simp only [h, if_false, List.contains_iff_mem, hm]
  exact bind_congr fun _ => bind_congr fun _ => bind_congr fun _ => bindEntry_bind ..

end Succ

/-- A type that is not on the way yet comes to its end. -/
theorem exists_followMaster {trail : Trail} {entry : RangeEntry}
    (h : entry.typ ∉ trail.entries) : ∃ trail' : Trail, followMaster trail entry = pure trail' ∧
      trail'.entries = trail.entries ++ [entry.typ] := by
  unfold followMaster Trail.add?
  rw [dif_neg h]
  exact ⟨_, rfl, rfl⟩

theorem exists_masterEntry (entry : RangeEntry) {master : String}
    (h : master ∈ entries.map RangeEntry.typ) :
    ∃ entry' ∈ entries, entry'.typ = master ∧ masterEntry entries entry master = pure entry' := by
  obtain ⟨e, he, rfl⟩ := List.mem_map.1 h
  obtain ⟨entry', hfind⟩ := Option.isSome_iff_exists.1
    (List.find?_isSome (p := fun e' => decide (e'.typ = e.typ)).2 ⟨e, he, by simp⟩)
  refine ⟨entry', List.mem_of_find?_eq_some hfind, by simpa using List.find?_some hfind, ?_⟩
  rw [masterEntry, hfind, orFail]

/-- If masters are known and form no cycle, binding the labels of an entry comes to binding those of
the entries above it that are not finished, each after its master, and its own ones. Types that are
done are under way or finished. -/
theorem bindLabels_eq (hknown : MastersKnown entries) (hacyclic : MastersAcyclic entries)
    (fuel : Nat) (trail : Trail) (done : List String) (finished : String → Prop)
    {entry : RangeEntry} (he : entry ∈ entries)
    (ht : trail.entries ⊆ entries.map RangeEntry.typ)
    (hup : ∀ typ ∈ trail.entries, Relation.TransGen (Follows entries) typ entry.typ)
    (hdone : ∀ typ, typ ∈ done ↔ typ ∈ trail.entries ∨ finished typ)
    (hfuel : entries.length < fuel + trail.entries.length) :
    ∃ order done', bindLabels entries fuel trail done entry = (do
        order.forM bindEntry
        return done') ∧
      Schedule entries finished order ∧ (∀ e ∈ order, e.typ ∉ trail.entries) ∧
      (finished entry.typ ∨ entry.typ ∈ order.map RangeEntry.typ) ∧
      ∀ typ, typ ∈ done' ↔ typ ∈ done ∨ typ ∈ order.map RangeEntry.typ := by
  induction fuel generalizing trail done entry with
  | zero =>
    have := length_le_of_subset ht
    omega
  | succ fuel ih =>
    have hoff : entry.typ ∉ trail.entries := fun hmem => hacyclic _ (hup _ hmem)
    by_cases hin : entry.typ ∈ done
    · exact ⟨[], done, bindLabels_of_mem hin, .nil, by simp,
        .inl (((hdone _).1 hin).resolve_left hoff), by simp⟩
    obtain ⟨trail', hfollow, htrail⟩ := exists_followMaster hoff
    have hfresh : ¬finished entry.typ := fun h => hin ((hdone _).2 (.inr h))
    cases hm : entry.master with
    | none =>
      refine ⟨[entry], entry.typ :: done, ?_, ?_, by simpa using hoff, by simp, by simp [or_comm]⟩
      · rw [bindLabels_of_none hin hm, hfollow, pure_bind, forM_singleton_eq]
      · exact .cons he hfresh (fun master h => by cases hm.symm.trans h) .nil
    | some master =>
      obtain ⟨entry', he', rfl, hmaster⟩ :=
        exists_masterEntry entry (hknown _ _ ⟨entry, he, rfl, hm⟩)
      have hfollows : Follows entries entry.typ entry'.typ := ⟨entry, he, rfl, hm⟩
      have hsub : trail'.entries ⊆ entries.map RangeEntry.typ := by
        rw [htrail]
        exact List.append_subset.2 ⟨ht, by simpa using ⟨entry, he, rfl⟩⟩
      have hup' : ∀ typ ∈ trail'.entries, Relation.TransGen (Follows entries) typ entry'.typ := by
        intro typ htyp
        rw [htrail] at htyp
        rcases List.mem_append.1 htyp with htyp | htyp
        · exact (hup typ htyp).tail hfollows
        · exact List.mem_singleton.1 htyp ▸ .single hfollows
      obtain ⟨order, done', hrun, hsched, hoff', hend, hdone'⟩ := ih trail' (entry.typ :: done)
        he' hsub hup' (fun typ => by simp [htrail, hdone, or_left_comm, or_assoc])
        (by simp [htrail]; omega)
      have hnew : entry.typ ∉ order.map RangeEntry.typ := fun hmem => by
        obtain ⟨e, hmem, htyp⟩ := List.mem_map.1 hmem
        exact hoff' e hmem (by simp [htrail, htyp])
      refine ⟨order ++ [entry], done', ?_, ?_, fun e hmem => ?_, by simp, fun typ => ?_⟩
      · rw [bindLabels_of_some hin hm, hfollow, pure_bind, hmaster, pure_bind, hrun,
          forM_append_eq, forM_singleton_eq]
        simp only [bind_assoc, pure_bind]
      · refine hsched.append (.cons he (fun h => ?_) (fun master h => ?_) .nil) fun _ => Iff.rfl
        · exact h.elim hfresh hnew
        · cases hm.symm.trans h
          exact hend
      · rcases List.mem_append.1 hmem with hmem | hmem
        · exact fun h => hoff' e hmem (by simp [htrail, h])
        · rwa [List.mem_singleton.1 hmem]
      · rw [hdone']
        simp [or_comm, or_left_comm, or_assoc]

/-- Binding the labels of all entries of a root comes to binding them one entry after the other,
each after its master. -/
theorem bindEntries_eq (hnodup : (entries.map RangeEntry.typ).Nodup) (hknown : MastersKnown entries)
    (hacyclic : MastersAcyclic entries) : ∃ order done, MastersFirst entries order ∧
      entries.foldlM (bindLabels entries (entries.length + 1) {}) [] = (do
        order.forM bindEntry
        return done) := by
  suffices h : ∀ (rest : List RangeEntry) (done : List String), rest ⊆ entries →
      ∃ order done', rest.foldlM (bindLabels entries (entries.length + 1) {}) done = (do
          order.forM bindEntry
          return done') ∧
        Schedule entries (· ∈ done) order ∧
        (∀ e ∈ rest, e.typ ∈ done ∨ e.typ ∈ order.map RangeEntry.typ) by
    obtain ⟨order, done', hrun, hsched, hall⟩ := h entries [] (List.Subset.refl _)
    refine ⟨order, done', Schedule.mastersFirst ?_ hnodup fun e he => ?_, hrun⟩
    · simpa using hsched
    · simpa using hall e he
  intro rest
  induction rest with
  | nil => exact fun done _ => ⟨[], done, rfl, .nil, by simp⟩
  | cons entry rest ih =>
    intro done hsub
    obtain ⟨order, done₁, hrun, hsched, -, hend, hdone⟩ := bindLabels_eq hknown hacyclic
      (entries.length + 1) {} done (· ∈ done)
      (hsub (List.mem_cons_self ..)) (List.nil_subset _) (by simp) (by simp) (Nat.lt_succ_self _)
    obtain ⟨order', done', hrun', hsched', hall⟩ := ih done₁ fun e he =>
      hsub (List.mem_cons_of_mem _ he)
    refine ⟨order ++ order', done', ?_, hsched.append hsched' hdone, fun e he => ?_⟩
    · rw [List.foldlM_cons, hrun, forM_append_eq]
      simp only [bind_assoc, pure_bind]
      exact bind_congr fun _ => hrun'
    · rw [List.map_append, List.mem_append, ← or_assoc]
      rcases List.mem_cons.1 he with rfl | he
      · exact .inl hend
      · exact (hall e he).imp_left (hdone _).1

/-- A type that comes up again counts as done. So binding labels reports no cycle, even if there is
one. -/
theorem bindLabels_no_cycle {s : Resolution} (fuel : Nat) {trail : Trail} {done : List String}
    (entry : RangeEntry) (ht : trail.entries ⊆ done) :
    Ends (fun e => ∀ location cycle, e ≠ .located location (.masterCycle cycle))
      (bindLabels entries fuel trail done entry) s fun done' _ => done ⊆ done' := by
  induction fuel generalizing trail done entry s with
  | zero => exact fun _ _ h => by cases h
  | succ fuel ih =>
    by_cases hin : entry.typ ∈ done
    · rw [bindLabels_of_mem hin]
      exact List.Subset.refl _
    have hbind : ∀ (done' : List String) (t : Resolution), done ⊆ done' →
        Ends (fun e => ∀ location cycle, e ≠ .located location (.masterCycle cycle))
          (do bindEntry entry; return done' : Run (List String)) t fun done' _ => done ⊆ done' := by
      intro done' t hsub
      unfold bindEntry
      rw [Ends.bind_iff, Ends.bind_iff, Ends.get_iff]
      cases t.numbering.createLabels entry.range none with
      | ok n => exact hsub
      | error cause => exact fun _ _ h => by cases h
    obtain ⟨trail', hfollow, htrail⟩ :=
      exists_followMaster fun hmem : entry.typ ∈ trail.entries => hin (ht hmem)
    cases hm : entry.master with
    | none =>
      rw [bindLabels_of_none hin hm, hfollow, pure_bind]
      exact hbind _ s (List.subset_cons_self ..)
    | some master =>
      rw [bindLabels_of_some hin hm, hfollow, pure_bind, Ends.bind_iff, masterEntry,
        ends_orFail_iff]
      refine ⟨fun entry' _ => ?_, fun _ _ _ h => by cases h⟩
      rw [Ends.bind_iff]
      refine (ih entry' ?_).mono fun done' t hsub => hbind done' t fun typ htyp => ?_
      · rw [htrail]
        exact List.append_subset.2 ⟨fun typ htyp => List.mem_cons_of_mem _ (ht htyp), by simp⟩
      · exact hsub (List.mem_cons_of_mem _ htyp)

theorem bindEntries_no_cycle (entries : List RangeEntry) (fuel : Nat) (s : Resolution) :
    Ends (fun e => ∀ location cycle, e ≠ .located location (.masterCycle cycle))
      (entries.foldlM (bindLabels entries fuel {}) []) s fun _ _ => True :=
  Ends.foldlM (J := fun _ _ _ => True) (fun _ entry _ _ _ _ _ =>
    (bindLabels_no_cycle fuel entry (List.nil_subset _)).mono fun _ _ _ => trivial) trivial

end Run

end Folio
