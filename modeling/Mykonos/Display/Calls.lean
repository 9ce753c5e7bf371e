import Mykonos.Display.Sheet

/-! # What the console asks of the display

A screen that only writes down how it is called. The console calls every screen of the same
sizes alike, so that what it does to a display can be had back from the calls.
-/

namespace Mykonos.Display

/-- A call of the display. -/
inductive Call where
  | writeCharacter (x y : Nat) (c : UInt8)
  | removeCharacter (x y : Nat)
  | copyRegion (x y width height newX newY : Nat)
  deriving Repr, DecidableEq

variable {δ : Type}

def Call.perform (screen : Screen δ) : Call → δ → δ
  | .writeCharacter x y c => screen.writeCharacter x y c
  | .removeCharacter x y => screen.removeCharacter x y
  | .copyRegion x y width height newX newY => screen.copyRegion x y width height newX newY

namespace Screen

/-- The screen that writes down the calls, the last one at the end. -/
def recorder (screen : Screen δ) : Screen (List Call) where
  getWidth := screen.getWidth
  getHeight := screen.getHeight
  fontWidth := screen.fontWidth
  fontHeight := screen.fontHeight
  writeCharacter x y c log := log ++ [.writeCharacter x y c]
  removeCharacter x y log := log ++ [.removeCharacter x y]
  copyRegion x y width height newX newY log := log ++ [.copyRegion x y width height newX newY]

def replay (screen : Screen δ) (log : List Call) (display : δ) : δ :=
  log.foldl (fun display call => call.perform screen display) display

variable {screen : Screen δ}

@[simp] theorem replay_concat (log : List Call) (call : Call) (display : δ) :
    screen.replay (log ++ [call]) display = call.perform screen (screen.replay log display) := by
  rw [replay, List.foldl_append]
  rfl

theorem Suitable.recorder (suitable : screen.Suitable) : screen.recorder.Suitable :=
  ⟨suitable.fontWidth_pos, suitable.fontHeight_pos, suitable.wide, suitable.high, suitable.width_lt,
    suitable.height_lt, suitable.allocated⟩

/-! ## Replayed calls -/

theorem replay_removeCharacters (fontWidth y count x : Nat) (log : List Call) (display : δ) :
    screen.replay (Console.removeCharacters screen.recorder fontWidth y count x log) display =
      Console.removeCharacters screen fontWidth y count x (screen.replay log display) := by
  induction count generalizing x log with
  | zero => rfl
  | succ count ih =>
      rw [Console.removeCharacters, ih, Console.removeCharacters]
      congr 1
      exact replay_concat log (.removeCharacter x y) display

theorem replay_scrollRow (rows : Nat → List UInt8) (k : Nat) (log : List Call) (display : δ) :
    screen.replay (screen.recorder.scrollRow rows k log) display =
      screen.scrollRow rows k (screen.replay log display) := by
  rw [scrollRow, scrollRow, ← replay_removeCharacters]
  exact replay_concat _ (.copyRegion ..) display

theorem replay_scrollRows (rows : Nat → List UInt8) (count k : Nat) (log : List Call)
    (display : δ) :
    screen.replay (screen.recorder.scrollRows rows count k log) display =
      screen.scrollRows rows count k (screen.replay log display) := by
  induction count generalizing k log with
  | zero => rfl
  | succ count ih => rw [scrollRows, ih, replay_scrollRow, scrollRows]

theorem replay_scrolled (rows : Nat → List UInt8) (log : List Call) (display : δ) :
    screen.replay (screen.recorder.scrolled rows log) display =
      screen.scrolled rows (screen.replay log display) := by
  rw [scrolled, replay_removeCharacters, replay_scrollRows]
  rfl

theorem replay_drawRoom (sheet : Sheet) (c : UInt8) (log : List Call) (display : δ) :
    screen.replay (screen.recorder.drawRoom sheet c log) display =
      screen.drawRoom sheet c (screen.replay log display) := by
  by_cases full : screen.columns ≤ sheet.column ∨ c = Console.newline
  · rw [drawRoom, drawRoom, if_pos full, drawNextLine, drawNextLine]
    refine (congrArg (screen.replay · display) (if_pos full)).trans ?_
    by_cases above : sheet.line + 1 < screen.lines
    · rw [if_pos above]
      exact congrArg (screen.replay · display) (if_pos above)
    · rw [if_neg above, ← replay_scrolled]
      exact congrArg (screen.replay · display) (if_neg above)
  · rw [drawRoom, drawRoom, if_neg full]
    exact congrArg (screen.replay · display) (if_neg full)

theorem replay_draw (sheet : Sheet) (c : UInt8) (log : List Call) (display : δ) :
    screen.replay (screen.recorder.draw sheet c log) display =
      screen.draw sheet c (screen.replay log display) := by
  rw [draw, draw]
  split
  · exact replay_drawRoom sheet c log display
  · rw [← replay_drawRoom]
    exact replay_concat _ (.writeCharacter ..) display

theorem replay_typed (text : List UInt8) (sheet : Sheet) (log : List Call) (display : δ) :
    (text.foldl screen.typed (sheet, screen.replay log display)).2 =
      screen.replay (text.foldl screen.recorder.typed (sheet, log)).2 display := by
  induction text generalizing sheet log with
  | nil => rfl
  | cons c text ih =>
      rw [List.foldl_cons, List.foldl_cons, typed, typed, ← replay_draw]
      exact ih _ _

/-- Printing leaves the display that the recorded calls leave. -/
theorem Suitable.prints_replay (suitable : screen.Suitable) (fresh : Nat → UInt8) (display : δ)
    (text : List UInt8) (texts : List (List UInt8)) :
    ∃ s log, (text :: texts).foldlM (Console.print screen fresh) (start display) = some s ∧
      (text :: texts).foldlM (Console.print screen.recorder fresh) (start []) = some log ∧
      s.display = screen.replay log.display display := by
  obtain ⟨s, printed, _, _, _, rfl, _⟩ := suitable.prints fresh display text texts
  obtain ⟨log, recorded, _, _, _, rfl, _⟩ := suitable.recorder.prints fresh [] text texts
  exact ⟨_, _, printed, recorded, replay_typed _ {} [] display⟩

/-! ## What holds of the display while it is drawn -/

section Induction

variable {P : δ → Prop} {sheet : Sheet}

theorem removeCharacters_induction {fontWidth y count x : Nat} {display : δ}
    (removed : 0 < count → ∀ display x y, P display → P (screen.removeCharacter x y display))
    (first : P display) :
    P (Console.removeCharacters screen fontWidth y count x display) := by
  induction count generalizing x display with
  | zero => exact first
  | succ count ih =>
      exact ih (fun _ => removed (Nat.zero_lt_succ _))
        (removed (Nat.zero_lt_succ _) display x y first)

/-- Rows that are not empty are removed, and rows are copied. -/
theorem scrolled_induction {rows : Nat → List UInt8} {display : δ}
    (copied : ∀ display x y width height newX newY, P display →
      P (screen.copyRegion x y width height newX newY display))
    (removed : ∀ l, rows l ≠ [] → ∀ display x y, P display → P (screen.removeCharacter x y display))
    (first : P display) : P (screen.scrolled rows display) := by
  have row (l count : Nat) (some_character : count ≤ (rows l).length) {y x : Nat} {display : δ}
    (holds : P display) :
      P (Console.removeCharacters screen screen.fontWidth y count x display) :=
    removeCharacters_induction
      (fun positive => removed l fun none => by rw [none, List.length_nil] at some_character; omega)
      holds
  have rounds (count k : Nat) {display : δ} (holds : P display) :
      P (screen.scrollRows rows count k display) := by
    induction count generalizing k display with
    | zero => exact holds
    | succ count ih => exact ih (k + 1) (copied _ _ _ _ _ _ _ (row k _ (Nat.sub_le ..) holds))
  exact row _ _ (Nat.le_refl _) (rounds _ 0 first)

/-- Drawing a character removes characters if there are some, copies rows, and writes the
    character if it is not the newline. -/
theorem draw_induction {c : UInt8} {display : δ}
    (copied : ∀ display x y width height newX newY, P display →
      P (screen.copyRegion x y width height newX newY display))
    (removed : ∀ l, sheet.rows l ≠ [] → ∀ display x y, P display →
      P (screen.removeCharacter x y display))
    (written : c ≠ Console.newline → ∀ display x y, P display →
      P (screen.writeCharacter x y c display))
    (first : P display) : P (screen.draw sheet c display) := by
  have room : P (screen.drawRoom sheet c display) := by
    rw [drawRoom]
    split
    · rw [drawNextLine]
      split
      · exact first
      · exact scrolled_induction copied removed first
    · exact first
  rw [draw]
  split
  · exact room
  · rename_i plain
    exact written plain _ _ _ room

end Induction

/-- A recorded call stays. -/
theorem mem_draw {sheet : Sheet} {c : UInt8} {log : List Call} {call : Call}
    (recorded : call ∈ log) :
    call ∈ screen.recorder.draw sheet c log :=
  draw_induction (fun _ _ _ _ _ _ _ => List.mem_append_left _)
    (fun _ _ _ _ _ => List.mem_append_left _) (fun _ _ _ _ => List.mem_append_left _) recorded

theorem mem_typed {text : List UInt8} {page : Sheet × List Call} {call : Call}
    (recorded : call ∈ page.2) :
    call ∈ (text.foldl screen.recorder.typed page).2 := by
  induction text generalizing page with
  | nil => exact recorded
  | cons c text ih => exact ih (mem_draw recorded)

/-- Each character but the newline is written. -/
theorem exists_written {text : List UInt8} {page : Sheet × List Call} {c : UInt8}
    (member : c ∈ text) (plain : c ≠ Console.newline) :
    ∃ x y, .writeCharacter x y c ∈ (text.foldl screen.recorder.typed page).2 := by
  obtain ⟨before, behind, rfl⟩ := List.append_of_mem member
  rw [List.foldl_append, List.foldl_cons]
  generalize before.foldl screen.recorder.typed page = page'
  have drawn : ∃ x y, .writeCharacter x y c ∈ (screen.recorder.typed page' c).2 := by
    rw [typed, draw, if_neg plain]
    exact ⟨_, _, List.mem_append_right _ List.mem_cons_self⟩
  obtain ⟨x, y, written⟩ := drawn
  exact ⟨x, y, mem_typed written⟩

end Screen

/-! ## Characters that can be removed -/

/-- Some character of the text stays on the display. -/
def Filled (text : List UInt8) : Prop :=
  ∃ c ∈ text, c ≠ Console.newline ∧ c ≠ 0

theorem Sheet.nextLine_rows {sheet : Sheet} {lines l : Nat}
    (filled : (sheet.nextLine lines).rows l ≠ []) :
    ∃ l, sheet.rows l ≠ [] := by
  rw [nextLine] at filled
  split at filled
  · exact ⟨l, filled⟩
  · dsimp only [scrolledRows] at filled
    split at filled
    · exact ⟨_, filled⟩
    · exact absurd rfl filled

theorem Sheet.type_rows {sheet : Sheet} {columns lines l : Nat} {c : UInt8}
    (filled : (sheet.type columns lines c).rows l ≠ []) :
    (∃ l, sheet.rows l ≠ []) ∨ c ≠ Console.newline ∧ c ≠ 0 := by
  have room {l : Nat} (filled : (sheet.makeRoom columns lines c).rows l ≠ []) :
      ∃ l, sheet.rows l ≠ [] := by
    rw [makeRoom] at filled
    split at filled
    · exact nextLine_rows filled
    · exact ⟨l, filled⟩
  rw [type] at filled
  split at filled
  · exact .inl (room filled)
  · rename_i plain
    by_cases zero : c = 0
    · rw [put] at filled
      dsimp only at filled
      rw [Function.update_apply] at filled
      split at filled
      · rw [putAt, if_neg fun both => both.2 zero] at filled
        exact .inl (room filled)
      · exact .inl (room filled)
    · exact .inr ⟨plain, zero⟩

namespace Screen

variable {screen : Screen δ}

/-- What holds of all calls that are recorded for a text: characters are removed only when
    something stands in a row. -/
theorem typed_calls {good : Call → Prop} {text : List UInt8} {page : Sheet × List Call}
    (recorded : ∀ call ∈ page.2, good call)
    (copied : ∀ x y width height newX newY, good (.copyRegion x y width height newX newY))
    (written : ∀ c ∈ text, c ≠ Console.newline → ∀ x y, good (.writeCharacter x y c))
    (removed : (∃ l, page.1.rows l ≠ []) ∧ text ≠ [] ∨ Filled text.dropLast →
      ∀ x y, good (.removeCharacter x y)) :
    ∀ call ∈ (text.foldl screen.recorder.typed page).2, good call := by
  induction text generalizing page with
  | nil => exact recorded
  | cons c text ih =>
      have append {log : List Call} {last : Call} (all : ∀ call ∈ log, good call)
        (next : good last) :
          ∀ call ∈ log ++ [last], good call := by
        rw [List.forall_mem_append, List.forall_mem_singleton]
        exact ⟨all, next⟩
      refine ih ?_ (fun d member => written d (List.mem_cons_of_mem c member)) fun some_row =>
        removed ?_
      · exact draw_induction (P := fun log => ∀ call ∈ log, good call)
          (fun _ _ _ _ _ _ _ all => append all (copied _ _ _ _ _ _))
          (fun l row _ x y all => append all (removed (.inl ⟨⟨l, row⟩, List.cons_ne_nil _ _⟩) x y))
          (fun plain _ x y all => append all (written c List.mem_cons_self plain x y)) recorded
      · rcases some_row with ⟨⟨l, row⟩, more⟩ | ⟨d, member, filled⟩
        · rcases Sheet.type_rows row with row' | filled
          · exact .inl ⟨row', List.cons_ne_nil _ _⟩
          · rw [List.dropLast_cons_of_ne_nil more]
            exact .inr ⟨c, List.mem_cons_self, filled⟩
        · have more : text ≠ [] := by
            rintro rfl
            exact absurd member List.not_mem_nil
          rw [List.dropLast_cons_of_ne_nil more]
          exact .inr ⟨d, List.mem_cons_of_mem c member, filled⟩

end Screen

end Mykonos.Display
