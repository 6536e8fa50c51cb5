import GrammarTables.Text.Align
import Mathlib.Algebra.GroupWithZero.Nat
import Mathlib.Data.List.TakeWhile

/-!
# Proofs/Text/Align — an aligned text tells its cells

Three separators stand in an aligned text: line ends, bars and the blanks before a cell.  A
separator that no part contains is found again, so equal texts have equal parts (`intercalate_inj`),
and the blanks before a cell are told from the cell when this begins with none.

* **Lines** (`splitOn_alignRows`).  Every cell is as wide as its column, so with as many cells in
  each row all lines have the same length (`length_of_mem_splitOn_alignRows`).
* **Cells** (`alignRows_inj`).  The head of a table may have bars in it; the rows below it are told
  by the text all the same, and so are rows that stood in columns of other widths.
-/

namespace GrammarTables.Text

variable {c : Char} {cs cs' rest rest' pre post : List Char} {parts parts' : List (List Char)}
  {s t : String} {row row' head head' : List String} {rows rows' : List (List String)}
  {n width width' : Nat} {lengths lengths' widths widths' : List Nat}

/-! ## Parts and separators -/

/-- Lists are told by their images, when members are. -/
theorem eq_of_map_eq_map {α β : Type} {f g : α → β} {as bs : List α}
    (hinj : ∀ a ∈ as, ∀ b ∈ bs, f a = g b → a = b) (h : as.map f = bs.map g) : as = bs := by
  induction as generalizing bs with
  | nil => exact (List.map_eq_nil_iff.mp h.symm).symm
  | cons a as ih =>
    cases bs with
    | nil => exact List.map_eq_nil_iff.mp h
    | cons b bs =>
      obtain ⟨hfirst, hrest⟩ := List.cons.inj h
      rw [hinj a List.mem_cons_self b List.mem_cons_self hfirst, ih (fun a ha b hb =>
        hinj a (List.mem_cons_of_mem _ ha) b (List.mem_cons_of_mem _ hb)) hrest]

/-- The text before a character that it does not have is told by the whole. -/
theorem append_cons_inj (hcs : c ∉ cs) (hcs' : c ∉ cs') (h : cs ++ c :: rest = cs' ++ c :: rest') :
    cs = cs' ∧ rest = rest' := by
  induction cs generalizing cs' with
  | nil =>
    cases cs' with
    | nil => exact ⟨rfl, List.tail_eq_of_cons_eq h⟩
    | cons d cs' => exact absurd (List.head_eq_of_cons_eq h ▸ List.mem_cons_self) hcs'
  | cons d cs ih =>
    cases cs' with
    | nil => exact absurd (List.head_eq_of_cons_eq h ▸ List.mem_cons_self) hcs
    | cons d' cs' =>
      obtain ⟨rfl, htail⟩ := List.cons.inj h
      obtain ⟨rfl, hrest⟩ := ih (List.not_mem_of_not_mem_cons hcs)
        (List.not_mem_of_not_mem_cons hcs') htail
      exact ⟨rfl, hrest⟩

theorem of_mem_intercalate {sep : List Char} (h : c ∈ sep.intercalate parts) :
    c ∈ sep ∨ ∃ part ∈ parts, c ∈ part := by
  induction parts with
  | nil => exact absurd h List.not_mem_nil
  | cons part parts ih =>
    cases parts with
    | nil =>
      rw [List.intercalate_singleton] at h
      exact Or.inr ⟨part, List.mem_cons_self, h⟩
    | cons next parts =>
      rw [List.intercalate_cons_cons, List.mem_append, List.mem_append] at h
      rcases h with (h | h) | h
      · exact Or.inr ⟨part, List.mem_cons_self, h⟩
      · exact Or.inl h
      · exact (ih h).imp_right fun ⟨other, hother, h⟩ =>
          ⟨other, List.mem_cons_of_mem part hother, h⟩

/-- **Parts are told by the joined text**, when the separator has a character that no part has. -/
theorem intercalate_inj (hpre : c ∉ pre) (hparts : ∀ part ∈ parts, c ∉ part)
    (hparts' : ∀ part ∈ parts', c ∉ part) (hnil : parts = [] ↔ parts' = [])
    (h : (pre ++ c :: post).intercalate parts = (pre ++ c :: post).intercalate parts') :
    parts = parts' := by
  have hmem (cs rest : List Char) : c ∈ cs ++ (pre ++ c :: post) ++ rest := by simp
  induction parts generalizing parts' with
  | nil => exact (hnil.mp rfl).symm
  | cons part parts ih =>
    obtain ⟨part', parts', rfl⟩ := List.exists_cons_of_ne_nil fun h =>
      List.cons_ne_nil part parts (hnil.mpr h)
    obtain ⟨hpart, hparts⟩ := List.forall_mem_cons.mp hparts
    obtain ⟨hpart', hparts'⟩ := List.forall_mem_cons.mp hparts'
    cases parts with
    | nil =>
      cases parts' with
      | nil => simpa using h
      | cons next' parts' =>
        rw [List.intercalate_singleton, List.intercalate_cons_cons] at h
        exact absurd (h ▸ hmem part' _) hpart
    | cons next parts =>
      cases parts' with
      | nil =>
        rw [List.intercalate_singleton, List.intercalate_cons_cons] at h
        exact absurd (h ▸ hmem part _) hpart'
      | cons next' parts' =>
        rw [List.intercalate_cons_cons, List.intercalate_cons_cons] at h
        have hcut : (part ++ pre) ++ c :: (post ++ (pre ++ c :: post).intercalate (next :: parts)) =
            (part' ++ pre) ++ c :: (post ++ (pre ++ c :: post).intercalate (next' :: parts')) := by
          simpa using h
        obtain ⟨hfirst, hrest⟩ :=
          append_cons_inj (by simp [hpart, hpre]) (by simp [hpart', hpre]) hcut
        rw [List.append_cancel_right hfirst,
          ih hparts hparts' (by simp) (List.append_cancel_left hrest)]

/-- The length of a joined text depends on the lengths of its parts only. -/
theorem length_intercalate (sep : List Char) (parts : List (List Char)) :
    (sep.intercalate parts).length =
      (parts.map List.length).sum + (parts.length - 1) * sep.length := by
  induction parts with
  | nil => simp
  | cons part parts ih =>
    cases parts with
    | nil => simp
    | cons next parts =>
      rw [List.intercalate_cons_cons, List.length_append, List.length_append, ih]
      simp only [List.map_cons, List.sum_cons, List.length_cons, Nat.add_sub_cancel, Nat.add_mul,
        Nat.one_mul]
      omega

/-! ## Cells -/

theorem toList_padLeft (width : Nat) (s : String) :
    (padLeft width s).toList = List.replicate (width - s.length) ' ' ++ s.toList := by
  rw [padLeft, String.toList_append, String.toList_ofList]

theorem length_padLeft (width : Nat) (s : String) :
    (padLeft width s).length = max s.length width := by
  rw [← String.length_toList, toList_padLeft, List.length_append, List.length_replicate,
    String.length_toList]
  omega

/-- What a padded cell has in it. -/
theorem of_mem_padLeft (h : c ∈ (padLeft width s).toList) : c = ' ' ∨ c ∈ s.toList := by
  rw [toList_padLeft, List.mem_append] at h
  exact h.imp_left List.eq_of_mem_replicate

/-- What a cell has to be so that it can be found in its column again. -/
structure IsCell (s : String) : Prop where
  not_newline : '\n' ∉ s.toList
  not_bar : '|' ∉ s.toList
  /-- The padding ends where the cell begins. -/
  head?_ne : s.toList.head? ≠ some ' '

/-- **A cell is told by its padded text**, whatever it was padded to. -/
theorem padLeft_inj (hs : IsCell s) (ht : IsCell t) (h : padLeft width s = padLeft width' t) :
    s = t := by
  have hdrop (width : Nat) {s : String} (hs : IsCell s) :
      (padLeft width s).toList.dropWhile (· = ' ') = s.toList := by
    rw [toList_padLeft, List.dropWhile_append_of_pos fun c hc => by
      simp [List.eq_of_mem_replicate hc], List.dropWhile_eq_self_iff]
    intro hlt hblank
    refine hs.head?_ne ?_
    rw [List.head?_eq_getElem?, List.getElem?_eq_getElem hlt, of_decide_eq_true hblank]
  exact String.toList_inj.mp (by rw [← hdrop width hs, h, hdrop width' ht])

/-! ## Columns -/

/-- There is a column for each of the lengths, and it is as wide. -/
inductive Covers : List Nat → List Nat → Prop
  | nil (widths : List Nat) : Covers widths []
  | cons {n width : Nat} {lengths widths : List Nat} (h : n ≤ width)
    (hrest : Covers widths lengths) : Covers (width :: widths) (n :: lengths)

theorem covers_refl (lengths : List Nat) : Covers lengths lengths := by
  induction lengths with
  | nil => exact .nil []
  | cons n lengths ih => exact .cons (Nat.le_refl n) ih

theorem covers_widest_left (lengths widths : List Nat) :
    Covers (widest lengths widths) lengths := by
  fun_induction widest lengths widths with
  | case1 widths => exact .nil widths
  | case2 lengths => exact covers_refl lengths
  | case3 n lengths width widths ih => exact .cons (Nat.le_max_left n width) ih

/-- Columns that get wider still cover. -/
theorem Covers.widest (h : Covers widths lengths) (lengths' : List Nat) :
    Covers (widest lengths' widths) lengths := by
  induction h generalizing lengths' with
  | nil => exact .nil _
  | @cons n width lengths widths hle hrest ih =>
    cases lengths' with
    | nil => exact .cons hle hrest
    | cons n' lengths' => exact .cons (hle.trans (Nat.le_max_right n' width)) (ih lengths')

/-- **The columns of a table cover its rows.** -/
theorem covers_columnWidths (h : row ∈ rows) :
    Covers (columnWidths rows) (row.map String.length) := by
  induction rows with
  | nil => exact absurd h List.not_mem_nil
  | cons first rows ih =>
    rw [columnWidths, List.foldr_cons, ← columnWidths]
    rcases List.mem_cons.mp h with rfl | h
    · exact covers_widest_left _ _
    · exact (ih h).widest _

/-- A column that only one side has is kept, so there are as many as on the longer side. -/
theorem length_widest (lengths widths : List Nat) :
    (widest lengths widths).length = max lengths.length widths.length := by
  fun_induction widest lengths widths with
  | case1 widths => exact (Nat.zero_max widths.length).symm
  | case2 lengths => exact (Nat.max_zero lengths.length).symm
  | case3 n lengths width widths ih =>
    rw [List.length_cons, ih, List.length_cons, List.length_cons, Nat.succ_max_succ]

/-- There are no more columns than cells in a row. -/
theorem length_columnWidths (hne : rows ≠ []) (h : ∀ row ∈ rows, row.length = n) :
    (columnWidths rows).length = n := by
  induction rows with
  | nil => exact absurd rfl hne
  | cons row rows ih =>
    obtain ⟨hrow, hrows⟩ := List.forall_mem_cons.mp h
    rw [columnWidths, List.foldr_cons, ← columnWidths, length_widest, List.length_map, hrow]
    cases rows with
    | nil => exact Nat.max_zero n
    | cons next rows => rw [ih (List.cons_ne_nil _ _) hrows, Nat.max_self]

/-- A padded row is as wide as its columns. -/
theorem map_length_zipWith_padLeft (h : Covers widths (row.map String.length))
    (hlength : widths.length = row.length) :
    (List.zipWith padLeft widths row).map String.length = widths := by
  induction row generalizing widths with
  | nil => rw [List.length_eq_zero_iff.mp hlength]; rfl
  | cons s row ih =>
    cases h with
    | @cons _ width _ widths hle hrest =>
      rw [List.zipWith_cons_cons, List.map_cons, length_padLeft, Nat.max_eq_right hle,
        ih hrest (Nat.succ.inj hlength)]

/-- **A row is told by its padded cells**, when its columns cover it. -/
theorem zipWith_padLeft_inj (h : Covers widths (row.map String.length))
    (h' : Covers widths' (row'.map String.length)) (hrow : ∀ s ∈ row, IsCell s)
    (hrow' : ∀ s ∈ row', IsCell s)
    (heq : List.zipWith padLeft widths row = List.zipWith padLeft widths' row') : row = row' := by
  induction row generalizing widths row' widths' with
  | nil =>
    cases row' with
    | nil => rfl
    | cons s' row' =>
      cases h'
      rw [List.zipWith_nil_right, List.zipWith_cons_cons] at heq
      cases heq
  | cons s row ih =>
    cases h with
    | cons _ hrest =>
      cases row' with
      | nil =>
        rw [List.zipWith_nil_right, List.zipWith_cons_cons] at heq
        cases heq
      | cons s' row' =>
        cases h' with
        | cons _ hrest' =>
          rw [List.zipWith_cons_cons, List.zipWith_cons_cons] at heq
          obtain ⟨hcell, htail⟩ := List.cons.inj heq
          obtain ⟨hs, hrow⟩ := List.forall_mem_cons.mp hrow
          obtain ⟨hs', hrow'⟩ := List.forall_mem_cons.mp hrow'
          rw [padLeft_inj hs hs' hcell, ih hrest hrest' hrow hrow' htail]

/-! ## Lines -/

/-- A line of an aligned text. -/
def alignedLine (widths : List Nat) (row : List String) : List Char :=
  [' ', '|', ' '].intercalate ((List.zipWith padLeft widths row).map String.toList)

/-- **An aligned text is its lines**, joined by line ends. -/
theorem toList_alignRows (rows : List (List String)) : (alignRows rows).toList =
    ['\n'].intercalate (rows.map (alignedLine (columnWidths rows))) := by
  rw [alignRows, String.toList_intercalate, List.map_map]
  refine congrArg _ (List.map_congr_left fun row _ => ?_)
  rw [Function.comp_apply, String.toList_intercalate, alignedLine]
  rfl

/-- What a line has in it. -/
theorem of_mem_alignedLine (h : c ∈ alignedLine widths row) :
    c = ' ' ∨ c = '|' ∨ ∃ s ∈ row, c ∈ s.toList := by
  rcases of_mem_intercalate h with h | ⟨part, hpart, h⟩
  · simp only [List.mem_cons, List.not_mem_nil, or_false] at h
    rcases h with h | h | h
    · exact Or.inl h
    · exact Or.inr (Or.inl h)
    · exact Or.inl h
  · obtain ⟨padded, hpadded, rfl⟩ := List.mem_map.mp hpart
    rw [← List.map_uncurry_zip_eq_zipWith] at hpadded
    obtain ⟨⟨width, s⟩, hzip, rfl⟩ := List.mem_map.mp hpadded
    exact (of_mem_padLeft h).imp_right fun h => Or.inr ⟨s, (List.of_mem_zip hzip).2, h⟩

theorem newline_notMem_alignedLine (h : ∀ s ∈ row, '\n' ∉ s.toList) :
    '\n' ∉ alignedLine widths row := by
  intro hmem
  rcases of_mem_alignedLine hmem with hc | hc | ⟨s, hs, hc⟩
  · exact absurd hc (by decide)
  · exact absurd hc (by decide)
  · exact h s hs hc

/-- **The lines of an aligned text are those of its rows**, when no cell has a line end. -/
theorem splitOn_alignRows (hne : rows ≠ []) (h : ∀ row ∈ rows, ∀ s ∈ row, '\n' ∉ s.toList) :
    (alignRows rows).toList.splitOn '\n' = rows.map (alignedLine (columnWidths rows)) := by
  rw [toList_alignRows]
  refine List.splitOn_intercalate _ (fun line hline => ?_) (mt List.map_eq_nil_iff.mp hne)
  obtain ⟨row, hrow, rfl⟩ := List.mem_map.mp hline
  exact newline_notMem_alignedLine (h row hrow)

/-- **All lines of an aligned text have the same length**, when all rows have as many cells. -/
theorem length_of_mem_splitOn_alignRows (hne : rows ≠ [])
    (h : ∀ row ∈ rows, ∀ s ∈ row, '\n' ∉ s.toList) (hlength : ∀ row ∈ rows, row.length = n)
    (hcs : cs ∈ (alignRows rows).toList.splitOn '\n') :
    cs.length = (columnWidths rows).sum + (n - 1) * 3 := by
  rw [splitOn_alignRows hne h] at hcs
  obtain ⟨row, hrow, rfl⟩ := List.mem_map.mp hcs
  have hcolumns := length_columnWidths hne hlength
  have hpadded := map_length_zipWith_padLeft (covers_columnWidths hrow)
    (hcolumns.trans (hlength row hrow).symm)
  have hlist : ((List.zipWith padLeft (columnWidths rows) row).map String.toList).map List.length =
      columnWidths rows := by
    rw [List.map_map]
    exact hpadded
  rw [alignedLine, length_intercalate, hlist, List.length_map, List.length_zipWith, hcolumns,
    hlength row hrow, Nat.min_self]
  rfl

/-! ## Tables -/

/-- A row of a table: there is a cell in it, and every cell can be found again. -/
structure IsRow (row : List String) : Prop where
  ne_nil : row ≠ []
  isCell : ∀ s ∈ row, IsCell s

/-- **A row is told by its line**, when its columns cover it. -/
theorem alignedLine_inj (h : Covers widths (row.map String.length))
    (h' : Covers widths' (row'.map String.length)) (hrow : IsRow row) (hrow' : IsRow row')
    (heq : alignedLine widths row = alignedLine widths' row') : row = row' := by
  have not_bar {widths : List Nat} {row : List String} (hrow : IsRow row) :
      ∀ part ∈ (List.zipWith padLeft widths row).map String.toList, '|' ∉ part := by
    intro part hpart hmem
    obtain ⟨padded, hpadded, rfl⟩ := List.mem_map.mp hpart
    rw [← List.map_uncurry_zip_eq_zipWith] at hpadded
    obtain ⟨⟨width, s⟩, hzip, rfl⟩ := List.mem_map.mp hpadded
    rcases of_mem_padLeft hmem with hc | hmem
    · exact absurd hc (by decide)
    · exact (hrow.isCell s (List.of_mem_zip hzip).2).not_bar hmem
  have ne_nil {widths : List Nat} {row : List String} (h : Covers widths (row.map String.length))
      (hrow : IsRow row) : (List.zipWith padLeft widths row).map String.toList ≠ [] := by
    obtain ⟨s, row, rfl⟩ := List.exists_cons_of_ne_nil hrow.ne_nil
    cases h
    exact List.cons_ne_nil _ _
  have hbar : '|' ∉ [' '] := by decide
  have hparts := intercalate_inj hbar (not_bar hrow) (not_bar hrow')
    (iff_of_false (ne_nil h hrow) (ne_nil h' hrow')) heq
  exact zipWith_padLeft_inj h h' hrow.isCell hrow'.isCell
    (eq_of_map_eq_map (fun _ _ _ _ heq => String.toList_inj.mp heq) hparts)

/-- **The rows below the head are told by the aligned text.** -/
theorem alignRows_inj (hhead : ∀ s ∈ head, '\n' ∉ s.toList) (hhead' : ∀ s ∈ head', '\n' ∉ s.toList)
    (hrows : ∀ row ∈ rows, IsRow row) (hrows' : ∀ row ∈ rows', IsRow row)
    (h : alignRows (head :: rows) = alignRows (head' :: rows')) : rows = rows' := by
  have hlines {head : List String} {rows : List (List String)}
      (hhead : ∀ s ∈ head, '\n' ∉ s.toList) (hrows : ∀ row ∈ rows, IsRow row) :
      (alignRows (head :: rows)).toList.splitOn '\n' =
        (head :: rows).map (alignedLine (columnWidths (head :: rows))) :=
    splitOn_alignRows (List.cons_ne_nil _ _) (List.forall_mem_cons.mpr
      ⟨hhead, fun row hrow s hs => ((hrows row hrow).isCell s hs).not_newline⟩)
  have hcut := hlines hhead hrows
  rw [h, hlines hhead' hrows', List.map_cons, List.map_cons] at hcut
  have htail := (List.cons.inj hcut).2
  refine (eq_of_map_eq_map (fun row' hrow' row hrow heq => ?_) htail).symm
  exact alignedLine_inj (covers_columnWidths (List.mem_cons_of_mem _ hrow'))
    (covers_columnWidths (List.mem_cons_of_mem _ hrow)) (hrows' row' hrow') (hrows row hrow) heq

end GrammarTables.Text
