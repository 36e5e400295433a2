import QubitAllocation.Text.Blank
import Mathlib.Data.List.TakeWhile
import Mathlib.Tactic

/-!
# Sheets

A sheet is a text with one row of fields to a line. Before the first field there may be blanks,
between two fields there are separators, and after the last there may be more of them; blank lines
and comments may stand between the rows, before the first and after the last (`Sheet`). The fields
of its content lines are its rows (`Sheet.fields_contentLines`), provided that no field is empty or
has a separator in it and that no row looks like a comment (`ReadsAsRow`).
-/

set_option autoImplicit false

namespace QubitAllocation.Text

variable {sep : Char → Bool} {c : Char} {cs xs ys gap line : List Char} {row : List (List Char)}

/-- Visible ASCII characters are not blank. -/
theorem isBlank_eq_false (hlow : 32 < c.toNat) (hhigh : c.toNat < 127) : isBlank c = false := by
  simp only [isBlank, Bool.or_eq_false_iff, Bool.and_eq_false_iff, decide_eq_false_iff_not,
    beq_eq_false_iff_ne]
  omega

/-! ## Fields -/

theorem cutAt_eq_splitOnP (sep : Char → Bool) (cs : List Char) : cutAt sep cs = cs.splitOnP sep := by
  induction cs with
  | nil => rfl
  | cons c cs ih =>
    have hstep : cutAt sep (c :: cs) = cutStep sep c (cutAt sep cs) := rfl
    obtain ⟨piece, rest, hcut⟩ := List.exists_cons_of_ne_nil (ih ▸ List.splitOnP_ne_nil sep cs)
    rw [List.splitOnP_cons_eq_if_modifyHead, ← ih, hstep, hcut]
    by_cases hc : sep c = true <;> simp [cutStep, hc]

/-- Fields on the two sides of a separator are apart. -/
theorem fieldsBy_append_cons (hc : sep c = true) :
    fieldsBy sep (xs ++ c :: ys) = fieldsBy sep xs ++ fieldsBy sep ys := by
  simp only [fieldsBy, cutAt_eq_splitOnP, List.splitOnP_append_cons xs ys hc, List.filter_append]

theorem fieldsBy_gap_append (h : ∀ c ∈ gap, sep c = true) :
    fieldsBy sep (gap ++ cs) = fieldsBy sep cs := by
  induction gap with
  | nil => rfl
  | cons c gap ih =>
    rw [List.forall_mem_cons] at h
    have hcons : fieldsBy sep ([] ++ c :: (gap ++ cs)) =
        fieldsBy sep [] ++ fieldsBy sep (gap ++ cs) := fieldsBy_append_cons h.1
    rw [List.cons_append, ← ih h.2]
    exact hcons

theorem fieldsBy_append_gap (h : ∀ c ∈ gap, sep c = true) :
    fieldsBy sep (cs ++ gap) = fieldsBy sep cs := by
  cases gap with
  | nil => rw [List.append_nil]
  | cons c gap =>
    rw [List.forall_mem_cons] at h
    have hgap : fieldsBy sep (gap ++ []) = [] := fieldsBy_gap_append h.2
    rw [fieldsBy_append_cons h.1, ← List.append_nil gap, hgap, List.append_nil]

theorem fieldsBy_append_gap_append (hne : gap ≠ []) (h : ∀ c ∈ gap, sep c = true) :
    fieldsBy sep (xs ++ (gap ++ ys)) = fieldsBy sep xs ++ fieldsBy sep ys := by
  cases gap with
  | nil => exact absurd rfl hne
  | cons c gap =>
    rw [List.forall_mem_cons] at h
    rw [List.cons_append, fieldsBy_append_cons h.1, fieldsBy_gap_append h.2]

/-! ## Trimmed lines -/


/-- What is dropped at the end satisfies the predicate. -/
theorem dropEndWhile_append (p : Char → Bool) (cs : List Char) :
    ∃ dropped, cs = dropEndWhile p cs ++ dropped ∧ ∀ c ∈ dropped, p c = true := by
  refine ⟨(cs.reverse.takeWhile p).reverse, ?_, fun c hc => ?_⟩
  · rw [dropEndWhile, ← List.reverse_append, List.takeWhile_append_dropWhile, List.reverse_reverse]
  · exact List.mem_takeWhile_imp (List.mem_reverse.1 hc)

theorem dropEndWhile_append_of_pos {p : Char → Bool} (h : ∀ c ∈ ys, p c = true) :
    dropEndWhile p (xs ++ ys) = dropEndWhile p xs := by
  have hpos : ∀ c ∈ ys.reverse, p c = true := fun c hc => h c (List.mem_reverse.1 hc)
  rw [dropEndWhile, List.reverse_append, List.dropWhile_append_of_pos hpos, dropEndWhile]

theorem dropEndWhile_of_forall_neg {p : Char → Bool} (hne : ys ≠ []) (h : ∀ c ∈ ys, p c = false) :
    dropEndWhile p (xs ++ ys) = xs ++ ys := by
  obtain ⟨init, last, rfl⟩ := (List.eq_nil_or_concat' ys).resolve_left hne
  have hlast : p last = false := h last (by simp)
  simp [dropEndWhile, hlast]

theorem dropEndWhile_cons {p : Char → Bool} (hc : p c = false) :
    dropEndWhile p (c :: cs) = c :: dropEndWhile p cs := by
  rw [dropEndWhile, List.reverse_cons, List.dropWhile_append]
  split_ifs with hempty
  · rw [List.isEmpty_iff] at hempty
    simp [dropEndWhile, hempty, hc]
  · simp [dropEndWhile]

/-- Every blank separates. -/
def SeparatesBlanks (sep : Char → Bool) : Prop := ∀ c, isBlank c = true → sep c = true

/-- Trimming a line keeps its fields. -/
theorem fieldsBy_trim (hsep : SeparatesBlanks sep) (cs : List Char) :
    fieldsBy sep (trim cs) = fieldsBy sep cs := by
  obtain ⟨dropped, hsplit, hdropped⟩ := dropEndWhile_append isBlank (cs.dropWhile isBlank)
  calc fieldsBy sep (trim cs)
      = fieldsBy sep (trim cs ++ dropped) :=
        (fieldsBy_append_gap fun c hc => hsep c (hdropped c hc)).symm
    _ = fieldsBy sep (cs.dropWhile isBlank) := by rw [trim, ← hsplit]
    _ = fieldsBy sep (cs.takeWhile isBlank ++ cs.dropWhile isBlank) :=
        (fieldsBy_gap_append fun c hc => hsep c (List.mem_takeWhile_imp hc)).symm
    _ = fieldsBy sep cs := by rw [List.takeWhile_append_dropWhile]

/-- The first character of a trimmed line is the first one that is not blank. -/
theorem trim_gap_append_cons (hgap : ∀ c ∈ gap, isBlank c = true) (hc : isBlank c = false) :
    trim (gap ++ c :: cs) = c :: dropEndWhile isBlank cs := by
  rw [trim, List.dropWhile_append_of_pos hgap, List.dropWhile_cons_of_neg (by simp [hc]),
    dropEndWhile_cons hc]

theorem trim_of_gap (hgap : ∀ c ∈ gap, isBlank c = true) : trim gap = [] := by
  rw [trim, List.dropWhile_eq_nil_iff.2 hgap]
  rfl

/-! ## Rows -/

/-- Separators within a line. -/
def Gap (sep : Char → Bool) (gap : List Char) : Prop := ∀ c ∈ gap, sep c = true ∧ c ≠ '\n'

instance (sep : Char → Bool) (gap : List Char) : Decidable (Gap sep gap) :=
  List.decidableBAll (fun c => sep c = true ∧ c ≠ '\n') gap

/-- The fields one after another, with separators between them and perhaps after the last. -/
inductive Spread (sep : Char → Bool) : List (List Char) → List Char → Prop
  | last {field trail : List Char} : Gap sep trail → Spread sep [field] (field ++ trail)
  | more {field gap rest : List Char} {row : List (List Char)} : Gap sep gap → gap ≠ [] →
      Spread sep row rest → Spread sep (field :: row) (field ++ (gap ++ rest))

/-- A line with the fields on it, perhaps after blanks. -/
def ShowsRow (sep : Char → Bool) (row : List (List Char)) (line : List Char) : Prop :=
  ∃ lead rest, Gap isBlank lead ∧ Spread sep row rest ∧ line = lead ++ rest

theorem showsRow_pair {a b : List Char} (lead gap trail : List Char) (hlead : Gap isBlank lead)
    (hgap : Gap sep gap ∧ gap ≠ []) (htrail : Gap sep trail) :
    ShowsRow sep [a, b] (lead ++ (a ++ (gap ++ (b ++ trail)))) :=
  ⟨lead, _, hlead, .more hgap.1 hgap.2 (.last htrail), rfl⟩

/-- A line of blanks, or with a comment after blanks. -/
def Idle (line : List Char) : Prop :=
  Gap isBlank line ∨ ∃ lead rest, Gap isBlank lead ∧ '\n' ∉ rest ∧ line = lead ++ '#' :: rest

/-- The rows in order, one to a line, with idle lines anywhere. -/
inductive ShowsRows (sep : Char → Bool) : List (List (List Char)) → List (List Char) → Prop
  | nil : ShowsRows sep [] []
  | idle {rows : List (List (List Char))} {line : List Char} {lines : List (List Char)} :
      Idle line → ShowsRows sep rows lines → ShowsRows sep rows (line :: lines)
  | row {row : List (List Char)} {rows : List (List (List Char))} {line : List Char}
      {lines : List (List Char)} :
      ShowsRow sep row line → ShowsRows sep rows lines → ShowsRows sep (row :: rows) (line :: lines)

/-- A text whose lines show the rows. -/
def Sheet (sep : Char → Bool) (rows : List (List (List Char))) (text : String) : Prop :=
  ∃ lines, ShowsRows sep rows lines ∧ text.toList = ['\n'].intercalate lines

/-- Characters that read as one field. -/
structure IsField (sep : Char → Bool) (field : List Char) : Prop where
  ne_nil : field ≠ []
  not_sep : ∀ c ∈ field, sep c = false

instance (sep : Char → Bool) (field : List Char) : Decidable (IsField sep field) :=
  decidable_of_iff (field ≠ [] ∧ field.any sep = false)
    ⟨fun ⟨hne, hsep⟩ => ⟨hne, by simpa using hsep⟩, fun ⟨hne, hsep⟩ => ⟨hne, by simpa using hsep⟩⟩

theorem IsField.fieldsBy_eq {field : List Char} (h : IsField sep field) :
    fieldsBy sep field = [field] := by
  simp [fieldsBy, cutAt_eq_splitOnP, List.splitOnP_eq_singleton h.not_sep, h.ne_nil]

/-- The fields can be told apart, and the first one does not start a comment. -/
structure ReadsAsRow (sep : Char → Bool) (row : List (List Char)) : Prop where
  field : ∀ f ∈ row, IsField sep f
  no_comment : ∀ f ∈ row.head?, f.head? ≠ some '#'

theorem readsAsRow_cons {field : List Char} (hfield : IsField sep field)
    (hcomment : field.head? ≠ some '#') (hrow : ∀ f ∈ row, IsField sep f) :
    ReadsAsRow sep (field :: row) where
  field := List.forall_mem_cons.2 ⟨hfield, hrow⟩
  no_comment := by simpa using hcomment

theorem Spread.fieldsBy_eq (h : Spread sep row line)
    (hrow : ∀ f ∈ row, IsField sep f) : fieldsBy sep line = row := by
  induction h with
  | @last field trail htrail =>
    rw [fieldsBy_append_gap fun c hc => (htrail c hc).1, (hrow field List.mem_cons_self).fieldsBy_eq]
  | @more field gap rest row hgap hgapne _ ih =>
    rw [List.forall_mem_cons] at hrow
    rw [fieldsBy_append_gap_append hgapne fun c hc => (hgap c hc).1,
      hrow.1.fieldsBy_eq, ih hrow.2, List.singleton_append]

/-- A line of fields starts with its first field. -/
theorem Spread.eq_append (h : Spread sep row line) :
    ∃ field fields rest, row = field :: fields ∧ line = field ++ rest := by
  cases h with
  | last => exact ⟨_, _, _, rfl, rfl⟩
  | more => exact ⟨_, _, _, rfl, rfl⟩

theorem Spread.newline_not_mem (h : Spread sep row line) (hrow : ∀ f ∈ row, '\n' ∉ f) :
    '\n' ∉ line := by
  induction h with
  | @last field trail htrail =>
    simp only [List.mem_append, not_or]
    exact ⟨hrow field List.mem_cons_self, fun hmem => (htrail _ hmem).2 rfl⟩
  | @more field gap rest row hgap _ _ ih =>
    rw [List.forall_mem_cons] at hrow
    simp only [List.mem_append, not_or]
    exact ⟨hrow.1, fun hmem => (hgap _ hmem).2 rfl, ih hrow.2⟩

section Row

variable (hsep : SeparatesBlanks sep)
include hsep

theorem ReadsAsRow.newline_not_mem (hrow : ReadsAsRow sep row) : ∀ f ∈ row, '\n' ∉ f := by
  intro f hf hmem
  have hfalse := (hrow.field f hf).not_sep '\n' hmem
  rw [hsep '\n' (by decide)] at hfalse
  cases hfalse

theorem ShowsRow.newline_not_mem (h : ShowsRow sep row line) (hrow : ReadsAsRow sep row) :
    '\n' ∉ line := by
  obtain ⟨lead, rest, hlead, hspread, rfl⟩ := h
  simp only [List.mem_append, not_or]
  exact ⟨fun hmem => (hlead _ hmem).2 rfl, hspread.newline_not_mem (hrow.newline_not_mem hsep)⟩

theorem ShowsRow.fieldsBy_trim (h : ShowsRow sep row line) (hrow : ReadsAsRow sep row) :
    fieldsBy sep (trim line) = row := by
  obtain ⟨lead, rest, hlead, hspread, rfl⟩ := h
  rw [Text.fieldsBy_trim hsep, fieldsBy_gap_append fun c hc => hsep c (hlead c hc).1,
    hspread.fieldsBy_eq hrow.field]

theorem ShowsRow.hasContent (h : ShowsRow sep row line) (hrow : ReadsAsRow sep row) (n : Nat) :
    (Line.mk n (trim line)).hasContent = true := by
  obtain ⟨lead, rest, hlead, hspread, rfl⟩ := h
  obtain ⟨field, fields, tail, rfl, rfl⟩ := hspread.eq_append
  -- the first character of the first field is what trimming leaves in front
  obtain ⟨hne, hfield⟩ := hrow.field field List.mem_cons_self
  obtain ⟨c, cs, rfl⟩ := List.exists_cons_of_ne_nil hne
  have hblank : isBlank c = false := by
    by_contra hc
    rw [Bool.not_eq_false] at hc
    have hfalse := hfield c List.mem_cons_self
    rw [hsep c hc] at hfalse
    cases hfalse
  have hcomment : c ≠ '#' := by
    rintro rfl
    exact hrow.no_comment ('#' :: cs) rfl rfl
  rw [List.cons_append, trim_gap_append_cons (fun x hx => (hlead x hx).1) hblank]
  exact bne_iff_ne.2 hcomment

end Row

theorem Idle.hasContent (h : Idle line) (n : Nat) :
    (Line.mk n (trim line)).hasContent = false := by
  rcases h with hgap | ⟨lead, rest, hlead, -, rfl⟩
  · rw [trim_of_gap fun c hc => (hgap c hc).1]
    rfl
  · rw [trim_gap_append_cons (fun c hc => (hlead c hc).1) (by decide)]
    rfl

theorem Idle.newline_not_mem (h : Idle line) : '\n' ∉ line := by
  rcases h with hgap | ⟨lead, rest, hlead, hrest, rfl⟩
  · exact fun hmem => (hgap _ hmem).2 rfl
  · simp only [List.mem_append, List.mem_cons, not_or]
    exact ⟨fun hmem => (hlead _ hmem).2 rfl, by decide, hrest⟩

/-- A content line is a line of the text, trimmed and with its number counted from one. -/
theorem exists_of_mem_contentLines {line : Line} (h : line ∈ contentLines cs) :
    ∃ k raw, (cs.splitOn '\n')[k]? = some raw ∧ line = ⟨k + 1, trim raw⟩ := by
  rw [contentLines, numberedLines, cutAt_eq_splitOnP] at h
  obtain ⟨⟨raw, k⟩, hpiece, rfl⟩ := List.mem_map.1 (List.mem_filter.1 h).1
  exact ⟨k, raw, List.mem_zipIdx_iff_getElem?.1 hpiece, rfl⟩

/-! ## Sheets -/

/-- The lines with content among lines that are numbered from `k`. -/
theorem ShowsRows.map_fieldsBy_filter {rows : List (List (List Char))} {lines : List (List Char)}
    (h : ShowsRows sep rows lines) (hsep : SeparatesBlanks sep)
    (hrows : ∀ row ∈ rows, ReadsAsRow sep row) (k : Nat) :
    (((lines.zipIdx k).map fun piece => Line.mk (piece.2 + 1) (trim piece.1)).filter
      Line.hasContent).map (fun line => fieldsBy sep line.text) = rows := by
  induction h generalizing k with
  | nil => rfl
  | idle hidle _ ih =>
    rw [List.zipIdx_cons, List.map_cons, List.filter_cons_of_neg (by simp [hidle.hasContent])]
    exact ih hrows (k + 1)
  | @row row rows line lines hshows _ ih =>
    rw [List.forall_mem_cons] at hrows
    rw [List.zipIdx_cons, List.map_cons,
      List.filter_cons_of_pos (hshows.hasContent hsep hrows.1 _), List.map_cons,
      hshows.fieldsBy_trim hsep hrows.1, ih hrows.2 (k + 1)]

theorem ShowsRows.newline_not_mem {rows : List (List (List Char))} {lines : List (List Char)}
    (h : ShowsRows sep rows lines) (hsep : SeparatesBlanks sep)
    (hrows : ∀ row ∈ rows, ReadsAsRow sep row) : ∀ line ∈ lines, '\n' ∉ line := by
  induction h with
  | nil => exact List.forall_mem_nil _
  | idle hidle _ ih => exact List.forall_mem_cons.2 ⟨hidle.newline_not_mem, ih hrows⟩
  | row hshows _ ih =>
    rw [List.forall_mem_cons] at hrows
    exact List.forall_mem_cons.2 ⟨hshows.newline_not_mem hsep hrows.1, ih hrows.2⟩

/-- **The fields of the content lines of a sheet are its rows.** -/
theorem Sheet.fields_contentLines {rows : List (List (List Char))} {text : String}
    (h : Sheet sep rows text) (hsep : SeparatesBlanks sep)
    (hrows : ∀ row ∈ rows, ReadsAsRow sep row) :
    (contentLines text.toList).map (fun line => fieldsBy sep line.text) = rows := by
  obtain ⟨lines, hshows, htext⟩ := h
  rw [htext, contentLines, numberedLines, cutAt_eq_splitOnP]
  by_cases hne : lines = []
  · -- no line at all is the same text as one empty line
    subst hne
    cases hshows
    rfl
  · have hlines : List.splitOnP (· == '\n') (['\n'].intercalate lines) = lines :=
      List.splitOn_intercalate '\n' (hshows.newline_not_mem hsep hrows) hne
    rw [hlines]
    exact hshows.map_fieldsBy_filter hsep hrows 0

end QubitAllocation.Text
