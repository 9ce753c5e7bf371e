import Mykonos.Display.Sheet

/-! # Wrapping

The rows of a text are its lines, cut where they are longer than the display is wide. After
any calls of `print`, the lines of the screen buffer are the last rows of all the text.
-/

namespace Mykonos.Display

/-- The rows of a text that goes on from the row begun. A full row ends only when another
    character comes. -/
def wrap (columns : Nat) : List UInt8 → List UInt8 → List (List UInt8)
  | begun, [] => [begun]
  | begun, c :: text =>
      if c = Console.newline then begun :: wrap columns [] text
      else if begun.length = columns then begun :: wrap columns [c] text
      else wrap columns (begun ++ [c]) text

/-- The row of the screen that is shown at the line. -/
def shownRow (lines : Nat) (rows : List (List UInt8)) (l : Nat) : List UInt8 :=
  (rows.drop (rows.length - lines)).getD l []

theorem shownRow_eq (lines : Nat) (rows : List (List UInt8)) (l : Nat) :
    shownRow lines rows l = (rows[rows.length - lines + l]?).getD [] := by
  rw [shownRow, List.getD_eq_getElem?_getD, List.getElem?_drop]

theorem shownRow_append (lines : Nat) (rows : List (List UInt8)) (row : List UInt8) (l : Nat) :
    shownRow lines (rows ++ [row]) l =
      if rows.length + 1 - lines + l = rows.length then row
      else (rows[rows.length + 1 - lines + l]?).getD [] := by
  rw [shownRow_eq, List.length_append, List.length_singleton, List.getElem?_append]
  split
  · rename_i below
    rw [if_neg (Nat.ne_of_lt below)]
  · rename_i above
    split
    · rename_i last
      rw [last, Nat.sub_self]
      rfl
    · rw [List.getElem?_eq_none (by rw [List.length_singleton]; omega),
        List.getElem?_eq_none (Nat.le_of_not_lt above)]

namespace Sheet

variable {columns lines : Nat} {sheet : Sheet} {done : List (List UInt8)} {begun : List UInt8}

/-- The sheet shows the end of the rows, with the cursor behind the last of them. -/
structure Ends (lines : Nat) (done : List (List UInt8)) (begun : List UInt8)
    (sheet : Sheet) : Prop where
  line : sheet.line = min done.length (lines - 1)
  column : sheet.column = begun.length
  rows : ∀ l < lines, sheet.rows l = shownRow lines (done ++ [begun]) l

theorem ends_empty (lines : Nat) : Sheet.Ends lines [] [] {} := by
  refine ⟨(Nat.zero_min _).symm, rfl, fun l below => ?_⟩
  rw [shownRow_append]
  split
  · rfl
  · rfl

theorem Ends.nextLine (ends : sheet.Ends lines done begun) (positive : 0 < lines) :
    (sheet.nextLine lines).Ends lines (done ++ [begun]) [] := by
  have line := ends.line
  have length : (done ++ [begun]).length = done.length + 1 := List.length_append
  have last (l : Nat) : shownRow lines (done ++ [begun] ++ [[]]) l =
      ((done ++ [begun])[done.length + 2 - lines + l]?).getD [] := by
    rw [shownRow_append, length]
    split
    · rename_i behind
      rw [List.getElem?_eq_none (by omega)]
      rfl
    · rfl
  rw [Sheet.nextLine]
  split
  · rename_i room
    refine ⟨by dsimp only; omega, rfl, fun l below => ?_⟩
    dsimp only
    rw [ends.rows l below, last, shownRow_eq, length, Nat.sub_eq_zero_of_le (by omega),
      Nat.sub_eq_zero_of_le (by omega)]
  · rename_i bottom
    refine ⟨by dsimp only; omega, rfl, fun l below => ?_⟩
    dsimp only
    rw [last, scrolledRows]
    split
    · rename_i higher
      have place : done.length + 1 - lines + (l + 1) = done.length + 2 - lines + l := by omega
      rw [ends.rows (l + 1) higher, shownRow_eq, length, place]
    · rw [List.getElem?_eq_none (by omega)]
      rfl

theorem Ends.put (ends : sheet.Ends lines done begun) (positive : 0 < lines) {c : UInt8}
    (filled : c ≠ 0) :
    (sheet.put c).Ends lines done (begun ++ [c]) := by
  have line := ends.line
  have column : sheet.column + 1 = (begun ++ [c]).length := by
    rw [ends.column, List.length_append, List.length_singleton]
  refine ⟨ends.line, column, fun l below => ?_⟩
  rw [Sheet.put, shownRow_append]
  dsimp only
  by_cases same : l = sheet.line
  · have shown := ends.rows l below
    rw [shownRow_append, if_pos (by omega)] at shown
    rw [same] at shown ⊢
    rw [Function.update_self, if_pos (by omega), shown, putAt, if_pos ⟨ends.column.symm, filled⟩]
  · rw [Function.update_of_ne same, ends.rows l below, shownRow_append, if_neg (by omega),
      if_neg (by omega)]

/-- A character of the text, and the rows that it leads to. -/
theorem Ends.type (ends : sheet.Ends lines done begun) (positive : 0 < lines)
    (fits : begun.length ≤ columns) {c : UInt8} (filled : c ≠ 0) (text : List UInt8) :
    ∃ done' begun', (sheet.type columns lines c).Ends lines done' begun' ∧
      done ++ wrap columns begun (c :: text) = done' ++ wrap columns begun' text := by
  have column := ends.column
  rw [Sheet.type, Sheet.makeRoom, wrap]
  by_cases ended : c = Console.newline
  · rw [if_pos ended, if_pos (.inr ended), if_pos ended]
    exact ⟨done ++ [begun], [], ends.nextLine positive, (List.append_assoc done [begun] _).symm⟩
  · rw [if_neg ended, if_neg ended]
    by_cases full : begun.length = columns
    · rw [if_pos (.inl (by omega)), if_pos full]
      exact ⟨done ++ [begun], [c], (ends.nextLine positive).put positive filled,
        (List.append_assoc done [begun] _).symm⟩
    · have room : ¬ (columns ≤ sheet.column ∨ c = Console.newline) := by
        rintro (le | same)
        · omega
        · exact ended same
      rw [if_neg room, if_neg full]
      exact ⟨done, begun ++ [c], ends.put positive filled, rfl⟩

theorem Ends.types (ends : sheet.Ends lines done begun) (valid : sheet.Valid columns lines)
    (positive : 0 < columns) {text : List UInt8} (plain : 0 ∉ text) :
    ∃ done' begun', (text.foldl (Sheet.type columns lines) sheet).Ends lines done' begun' ∧
      done ++ wrap columns begun text = done' ++ [begun'] := by
  induction text generalizing sheet done begun with
  | nil => exact ⟨done, begun, ends, rfl⟩
  | cons c text ih =>
      rw [List.mem_cons, not_or] at plain
      have fits : begun.length ≤ columns := ends.column ▸ valid.column_le
      obtain ⟨done₁, begun₁, ends₁, first⟩ :=
        ends.type (Nat.zero_lt_of_lt valid.line_lt) fits (Ne.symm plain.1) text
      obtain ⟨done', begun', ends', rest⟩ := ih ends₁ (valid.type positive c) plain.2
      exact ⟨done', begun', ends', first.trans rest⟩

end Sheet

section Calls

variable {δ : Type} {screen : Screen δ}

theorem typed_fst (screen : Screen δ) (text : List UInt8) (page : Sheet × δ) :
    (text.foldl screen.typed page).1 =
      text.foldl (Sheet.type screen.columns screen.lines) page.1 := by
  induction text generalizing page with
  | nil => rfl
  | cons c text ih => exact ih (screen.typed page c)

/-- After any calls of `print` on a display with room for a character. The calls never leave
    the screen buffer, whatever the bytes are, and leave what one call with all the text would
    have left; without zero bytes in the text, the lines of the screen buffer are the last
    rows of the text. -/
theorem print_wraps (screen : Screen δ) (suitable : screen.Suitable)
    (fresh : Nat → UInt8) (display : δ) (text : List UInt8) (texts : List (List UInt8)) :
    ∃ s, (text :: texts).foldlM (Console.print screen fresh) (Screen.start display) = some s ∧
      Console.print screen fresh (Screen.start display) (text :: texts).flatten = some s ∧
      s.lines = screen.getHeight / screen.fontHeight ∧
      s.columns = screen.getWidth / screen.fontWidth ∧
      s.screenBuffer.size = s.lines * (s.columns + 1) ∧ s.line < s.lines ∧ s.column ≤ s.columns ∧
      (∀ a b, (Console.print screen fresh s a).bind (Console.print screen fresh · b) =
        Console.print screen fresh s (a ++ b)) ∧
      (0 ∉ (text :: texts).flatten →
        (∀ l < s.lines, Reads s.screenBuffer.bytes (l * (s.columns + 1))
          (shownRow s.lines (wrap s.columns [] (text :: texts).flatten) l)) ∧
        s.line + 1 = min (wrap s.columns [] (text :: texts).flatten).length s.lines ∧
        s.column = ((wrap s.columns [] (text :: texts).flatten).getLastD []).length) := by
  obtain ⟨s, joined, printed, shows⟩ := suitable.prints fresh display text texts
  have whole : ∀ a b, (Console.print screen fresh s a).bind (Console.print screen fresh · b) =
      Console.print screen fresh s (a ++ b) := by
    intro a b
    obtain ⟨s', taken, _, further⟩ := shows.print suitable fresh a
    rw [taken, further]
    rfl
  rw [typed_fst] at shows
  obtain ⟨valid, bytes, rfl, all⟩ := shows
  refine ⟨_, joined, printed, rfl, rfl, Nat.mul_comm .., valid.line_lt, valid.column_le, whole,
    fun plain => ?_⟩
  obtain ⟨done, begun, ends, rows⟩ :=
    (Sheet.ends_empty screen.lines).types suitable.valid_empty suitable.columns_pos plain
  rw [List.nil_append] at rows
  dsimp only [Screen.console]
  rw [rows]
  refine ⟨fun l below => ?_, ?_, ?_⟩
  · rw [← ends.rows l below]
    exact (all l below).2
  · have positive := suitable.lines_pos
    rw [ends.line, List.length_append, List.length_singleton]
    omega
  · rw [ends.column, List.getLastD_concat]

/-- A display of 720 by 400 pixels and characters of 8 by 16, on which nothing is drawn. -/
def textScreen : Screen Unit where
  getWidth := 720
  getHeight := 400
  fontWidth := 8
  fontHeight := 16
  writeCharacter _ _ _ display := display
  removeCharacter _ _ display := display
  copyRegion _ _ _ _ _ _ display := display

theorem print_wraps_lines :
    ∃ s, [[72, 105], [10], [33]].foldlM (Console.print textScreen fun _ => 255) (Screen.start ()) =
      some s ∧
      s.line = 1 ∧ s.column = 1 ∧ Reads s.screenBuffer.bytes 0 [72, 105] ∧
      Reads s.screenBuffer.bytes 91 [33] := by
  have suitable : textScreen.Suitable :=
    ⟨by decide, by decide, by decide, by decide, by decide, by decide, by decide⟩
  obtain ⟨s, printed, _, lines, columns, _, _, _, _, rows⟩ :=
    print_wraps textScreen suitable (fun _ => 255) () [72, 105] [[10], [33]]
  obtain ⟨shown, line, column⟩ := rows (by decide)
  rw [lines, columns] at shown line
  rw [columns] at column
  exact ⟨s, printed, Nat.succ.inj line, column, shown 0 (by decide), shown 1 (by decide)⟩

end Calls

end Mykonos.Display
