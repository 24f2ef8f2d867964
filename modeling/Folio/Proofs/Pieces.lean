import Folio.Text.Pieces
import Mathlib.Data.List.Induction
import Mathlib.Data.String.Basic

/-!
# Texts in pieces

A text is cut at a separator into pieces that do not hold it (`Text.not_mem_of_mem_pieces`). The
pieces with the separator between them are the text again (`Text.intercalate_pieces`), and such
pieces are all that it can be cut into (`Text.pieces_intercalate`).
-/

namespace Folio.Text

variable {p : Char → Bool} {σ : Char} {separator s t : String} {ts : List String}

theorem cut_eq_splitOnP (p : Char → Bool) (cs : List Char) : cut p cs = cs.splitOnP p := by
  induction cs with
  | nil => rfl
  | cons c cs ih => rw [cut, List.splitOnP_cons_eq_if_modifyHead, ih]

theorem pieces_eq (σ : Char) (s : String) :
    pieces σ s = (s.toList.splitOn σ).map String.ofList := by
  rw [pieces, cut_eq_splitOnP, List.splitOn]

theorem ofList_map_toList (ts : List String) : (ts.map String.toList).map String.ofList = ts := by
  simp [List.map_map, Function.comp_def]

/-! ## From texts to pieces -/

theorem not_of_mem_cut {cs l : List Char} (hl : l ∈ cut p cs) : ∀ c ∈ l, ¬p c := by
  induction cs generalizing l with
  | nil => simp_all [cut]
  | cons c cs ih =>
    obtain ⟨head, rest, hcut⟩ := List.exists_cons_of_ne_nil (cut_ne_nil p cs)
    rw [hcut] at ih
    unfold cut at hl
    rw [hcut] at hl
    split at hl
    · rcases List.mem_cons.1 hl with rfl | hl
      · simp
      · exact ih hl
    next hc =>
      rcases List.mem_cons.1 hl with rfl | hl
      · exact List.forall_mem_cons.2 ⟨hc, ih (List.mem_cons_self ..)⟩
      · exact ih (List.mem_cons_of_mem _ hl)

theorem not_mem_of_mem_pieces (h : t ∈ pieces σ s) : σ ∉ t.toList := by
  obtain ⟨l, hl, rfl⟩ := List.mem_map.1 h
  rw [String.toList_ofList]
  exact fun hσ => not_of_mem_cut hl σ hσ (beq_self_eq_true σ)

theorem intercalate_pieces (hs : separator.toList = [σ]) (s : String) :
    separator.intercalate (pieces σ s) = s := by
  refine String.toList_injective ?_
  rw [String.toList_intercalate, hs, pieces_eq, List.map_map]
  have hlist : String.toList ∘ String.ofList = id := funext fun _ => String.toList_ofList
  rw [hlist, List.map_id]
  exact List.intercalate_splitOn σ

/-! ## From pieces to texts -/

theorem pieces_intercalate (hs : separator.toList = [σ]) (hne : ts ≠ [])
    (h : ∀ t ∈ ts, σ ∉ t.toList) : pieces σ (separator.intercalate ts) = ts := by
  rw [pieces_eq, String.toList_intercalate, hs,
    List.splitOn_intercalate σ (by simpa using h) (by simpa using hne), ofList_map_toList]

/-- A text without the separator is one piece. -/
theorem pieces_of_not_mem (h : σ ∉ s.toList) : pieces σ s = [s] := by
  have hs : (String.singleton σ).toList = [σ] := by simp
  simpa using pieces_intercalate hs (List.cons_ne_nil s []) (by simpa using h)

theorem pieces_pair (hs : separator.toList = [σ]) (h : σ ∉ s.toList) (h' : σ ∉ t.toList) :
    pieces σ (s ++ separator ++ t) = [s, t] := by
  have hpair : separator.intercalate [s, t] = s ++ separator ++ t := by
    simp [String.intercalate_cons_cons]
  rw [← hpair]
  exact pieces_intercalate hs (by simp) (by simp [h, h'])

end Folio.Text
