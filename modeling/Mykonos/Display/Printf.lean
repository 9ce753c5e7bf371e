import Mykonos.Display.Numbers

/-! # Formatted printing

`printf` walks over a format string with `findBefore`, `findNext` and `subString` and prints
its parts one by one, numbers through `print` for a number. The text of a format and its
arguments is described character by character.
-/

namespace Mykonos.Display

open Lib

/-- An argument of `printf`. -/
inductive Argument where
  | int (value : BitVec 32)
  | long (value : BitVec 64)
  | pointer (address : BitVec 64)
  deriving Repr, DecidableEq

/-! ## The code -/

section Code

variable {σ : Type} (memory stack : Nat → UInt8) (print : σ → List UInt8 → Option σ)

/-- `va_arg` for an `int`. -/
def vaInt : List Argument → Option (BitVec 32 × List Argument)
  | .int value :: args => some (value, args)
  | _ => none

def vaLong : List Argument → Option (BitVec 64 × List Argument)
  | .long value :: args => some (value, args)
  | _ => none

def vaPointer : List Argument → Option (BitVec 64 × List Argument)
  | .pointer address :: args => some (address, args)
  | _ => none

/-- The text of a number of 64 bits. -/
def unsignedText (value : BitVec 64) (base : Nat) : Option (List UInt8) :=
  Console.formatNumber stack value.toNat base

/-- The `switch` of `printf`. An `int` that becomes `unsigned long` keeps its sign bits. -/
def specifier (c : UInt8) (args : List Argument) (s : σ) : Option (List Argument × σ) :=
  if c = ascii 'n' then some (args, s)
  else if c = ascii '%' then do
    some (args, ← print s (literal "%"))
  else if c = ascii 'c' then do
    let (c, args) ← vaInt args
    some (args, ← print s [UInt8.ofNat c.toNat])
  else if c = ascii 'd' then do
    let (n, args) ← vaInt args
    some (args, ← print s (← unsignedText stack (n.signExtend 64) 10))
  else if c = ascii 'l' then do
    let (l, args) ← vaLong args
    some (args, ← print s (← unsignedText stack l 10))
  else if c = ascii 'o' then do
    let (l, args) ← vaLong args
    some (args, ← print s (← unsignedText stack l 8))
  else if c = ascii 'p' then do
    let (ptr, args) ← vaPointer args
    let s ← print s (literal "0x")
    some (args, ← print s (← unsignedText stack ptr 16))
  else if c = ascii 's' then do
    let (str, args) ← vaPointer args
    let str ← Fs.String.ofCString memory str.toNat
    some (args, ← print s (str.bytes memory))
  else if c = ascii 'x' then do
    let (l, args) ← vaLong args
    some (args, ← print s (← unsignedText stack l 16))
  else do
    some (args, ← print s (literal "<unknown type specifier>"))

/-- `printf` while it holds the lock of the console, for so many rounds of its loop. -/
def printf : Nat → Fs.String → List Argument → σ → Option (List Argument × σ)
  | 0, _, _, _ => none
  | fuel + 1, format, args, s =>
      if format.length > 0 then
        if format.get memory 0 = ascii '%' then do
          let format := format.subStringFrom 1
          let (args, s) ← specifier memory stack print (format.get memory 0) args s
          printf fuel (format.subStringFrom 1) args s
        else do
          let s ← print s ((format.findBefore memory (ascii '%')).bytes memory)
          printf fuel (format.findNext memory (ascii '%')) args s
      else some (args, s)

end Code

/-! ## The text of a format -/

/-- What a specifier stands for. -/
inductive Conversion where
  | text (bytes : List UInt8)
  | character
  | int (base : Nat)
  | long (base : Nat)
  | pointer
  | string
  deriving Repr, DecidableEq

/-- The conversion for the character behind a percent sign, if there is one. -/
def conversion (c : Option UInt8) : Conversion :=
  if c = some (ascii 'n') then .text []
  else if c = some (ascii '%') then .text (literal "%")
  else if c = some (ascii 'c') then .character
  else if c = some (ascii 'd') then .int 10
  else if c = some (ascii 'l') then .long 10
  else if c = some (ascii 'o') then .long 8
  else if c = some (ascii 'p') then .pointer
  else if c = some (ascii 's') then .string
  else if c = some (ascii 'x') then .long 16
  else .text (literal "<unknown type specifier>")

/-- A number in a base, with the digits of the alphabet. -/
def digits (base value : Nat) : List UInt8 :=
  (numeral base value).map digitCharacter

/-- The characters in front of the first zero byte. -/
def cString (memory : Nat → UInt8) (address : Nat) : Option (List UInt8) :=
  (Fs.strlen memory address (2 ^ 31)).map (bytesAt memory address)

/-- The text of a conversion, and the arguments that are left. -/
def Conversion.write (memory : Nat → UInt8) :
    Conversion → List Argument → Option (List UInt8 × List Argument)
  | .text bytes, args => some (bytes, args)
  | .character, .int value :: args => some ([UInt8.ofNat value.toNat], args)
  | .int base, .int value :: args => some (digits base (value.signExtend 64).toNat, args)
  | .long base, .long value :: args => some (digits base value.toNat, args)
  | .pointer, .pointer address :: args => some (literal "0x" ++ digits 16 address.toNat, args)
  | .string, .pointer address :: args => (cString memory address.toNat).map fun text => (text, args)
  | _, _ => none

/-- The text of a format with its arguments, and the arguments that are left. -/
def expand (memory : Nat → UInt8) : List UInt8 → List Argument → Option (List UInt8 × List Argument)
  | [], args => some ([], args)
  | c :: format, args =>
      if c = ascii '%' then
        match format with
        | [] => (conversion none).write memory args
        | c :: format => do
            let (text, args) ← (conversion (some c)).write memory args
            let (rest, args) ← expand memory format args
            some (text ++ rest, args)
      else do
        let (rest, args) ← expand memory format args
        some (c :: rest, args)

/-! ## What is printed -/

section Prints

variable {memory stack : Nat → UInt8} {args rest : List Argument} {text : List UInt8} {base : Nat}

theorem unsignedText_eq (stack : Nat → UInt8) (value : BitVec 64) (least : 1 < base)
    (most : base ≤ 64) :
    unsignedText stack value base = some (digits base value.toNat) :=
  Console.formatNumber_eq stack value.isLt least most

theorem write_character (written : Conversion.character.write memory args = some (text, rest)) :
    ∃ value, args = .int value :: rest ∧ text = [UInt8.ofNat value.toNat] := by
  cases args with
  | nil => cases written
  | cons argument args =>
      cases argument with
      | int value =>
          cases written
          exact ⟨value, rfl, rfl⟩
      | long | pointer => cases written

theorem write_int (written : (Conversion.int base).write memory args = some (text, rest)) :
    ∃ value, args = .int value :: rest ∧ text = digits base (value.signExtend 64).toNat := by
  cases args with
  | nil => cases written
  | cons argument args =>
      cases argument with
      | int value =>
          cases written
          exact ⟨value, rfl, rfl⟩
      | long | pointer => cases written

theorem write_long (written : (Conversion.long base).write memory args = some (text, rest)) :
    ∃ value, args = .long value :: rest ∧ text = digits base value.toNat := by
  cases args with
  | nil => cases written
  | cons argument args =>
      cases argument with
      | long value =>
          cases written
          exact ⟨value, rfl, rfl⟩
      | int | pointer => cases written

theorem write_pointer (written : Conversion.pointer.write memory args = some (text, rest)) :
    ∃ address, args = .pointer address :: rest ∧
    text = literal "0x" ++ digits 16 address.toNat := by
  cases args with
  | nil => cases written
  | cons argument args =>
      cases argument with
      | pointer address =>
          cases written
          exact ⟨address, rfl, rfl⟩
      | int | long => cases written

theorem write_string (written : Conversion.string.write memory args = some (text, rest)) :
    ∃ address, args = .pointer address :: rest ∧ cString memory address.toNat = some text := by
  cases args with
  | nil => cases written
  | cons argument args =>
      cases argument with
      | pointer address =>
          obtain ⟨found, read, same⟩ := Option.map_eq_some_iff.mp written
          cases same
          exact ⟨address, rfl, read⟩
      | int | long => cases written

/-- Pieces of the text are printed one after the other, and the arguments are left. -/
def PrintsPieces (run : (σ : Type) → (σ → List UInt8 → Option σ) → σ → Option (List Argument × σ))
    (text : List UInt8) (rest : List Argument) : Prop :=
  ∃ pieces : List (List UInt8), pieces.flatten = text ∧
    ∀ (σ : Type) (print : σ → List UInt8 → Option σ) (s : σ),
      run σ print s = (pieces.foldlM print s).map fun s => (rest, s)

theorem PrintsPieces.congr
    {run run' : (σ : Type) → (σ → List UInt8 → Option σ) → σ → Option (List Argument × σ)}
    (same : ∀ σ print s, run σ print s = run' σ print s) (prints : PrintsPieces run' text rest) :
    PrintsPieces run text rest := by
  obtain ⟨pieces, flat, printed⟩ := prints
  exact ⟨pieces, flat, fun σ print s => (same σ print s).trans (printed σ print s)⟩

theorem PrintsPieces.one (text : List UInt8) (rest : List Argument) :
    PrintsPieces (fun _ print s => do some (rest, ← print s text)) text rest := by
  refine ⟨[text], List.append_nil text, fun σ print s => ?_⟩
  dsimp only
  rw [List.foldlM_cons]
  cases print s text with
  | none => rfl
  | some s => rfl

theorem PrintsPieces.cons
    {run : (σ : Type) → (σ → List UInt8 → Option σ) → σ → Option (List Argument × σ)}
    (prints : PrintsPieces run text rest) (first : List UInt8) :
    PrintsPieces (fun σ print s => (print s first).bind (run σ print)) (first ++ text) rest := by
  obtain ⟨pieces, rfl, printed⟩ := prints
  refine ⟨first :: pieces, rfl, fun σ print s => ?_⟩
  dsimp only
  rw [List.foldlM_cons]
  cases print s first with
  | none => rfl
  | some s => exact printed σ print s

theorem PrintsPieces.append
    {run : (σ : Type) → (σ → List UInt8 → Option σ) → σ → Option (List Argument × σ)}
    {next : (σ : Type) → (σ → List UInt8 → Option σ) → List Argument → σ →
      Option (List Argument × σ)}
    {more : List UInt8} (prints : PrintsPieces run text args)
    (prints' : PrintsPieces (fun σ print s => next σ print args s) more rest) :
    PrintsPieces (fun σ print s => (run σ print s).bind fun result =>
      next σ print result.1 result.2) (text ++ more)
      rest := by
  obtain ⟨pieces, rfl, printed⟩ := prints
  obtain ⟨pieces', rfl, printed'⟩ := prints'
  refine ⟨pieces ++ pieces', List.flatten_append, fun σ print s => ?_⟩
  dsimp only
  rw [printed, List.foldlM_append]
  cases pieces.foldlM print s with
  | none => rfl
  | some s => exact printed' σ print s

/-- What the `switch` does. -/
theorem specifier_prints (stack : Nat → UInt8) {c : UInt8}
    (written : (conversion (some c)).write memory args = some (text, rest)) :
    PrintsPieces (fun _ print s => specifier memory stack print c args s) text rest := by
  rw [conversion] at written
  simp only [Option.some.injEq] at written
  unfold specifier
  split at written
  · rename_i n
    cases written
    simp only [if_pos n]
    exact ⟨[], rfl, fun _ _ _ => rfl⟩
  rename_i not_n
  simp only [if_neg not_n]
  split at written
  · rename_i percent
    cases written
    simp only [if_pos percent]
    exact .one _ _
  rename_i not_percent
  simp only [if_neg not_percent]
  split at written
  · rename_i character
    obtain ⟨value, rfl, rfl⟩ := write_character written
    simp only [if_pos character]
    exact .one _ _
  rename_i not_character
  simp only [if_neg not_character]
  split at written
  · rename_i decimal
    obtain ⟨value, rfl, rfl⟩ := write_int written
    simp only [if_pos decimal, vaInt, unsignedText_eq stack _ (show 1 < 10 by decide) (by decide)]
    exact .one _ _
  rename_i not_decimal
  simp only [if_neg not_decimal]
  split at written
  · rename_i long
    obtain ⟨value, rfl, rfl⟩ := write_long written
    simp only [if_pos long, vaLong, unsignedText_eq stack _ (show 1 < 10 by decide) (by decide)]
    exact .one _ _
  rename_i not_long
  simp only [if_neg not_long]
  split at written
  · rename_i octal
    obtain ⟨value, rfl, rfl⟩ := write_long written
    simp only [if_pos octal, vaLong, unsignedText_eq stack _ (show 1 < 8 by decide) (by decide)]
    exact .one _ _
  rename_i not_octal
  simp only [if_neg not_octal]
  split at written
  · rename_i pointer
    obtain ⟨address, rfl, rfl⟩ := write_pointer written
    simp only [if_pos pointer, vaPointer,
      unsignedText_eq stack _ (show 1 < 16 by decide) (by decide)]
    exact .cons (.one _ _) _
  rename_i not_pointer
  simp only [if_neg not_pointer]
  split at written
  · rename_i string
    obtain ⟨address, rfl, read⟩ := write_string written
    obtain ⟨length, measured, rfl⟩ := Option.map_eq_some_iff.mp read
    have found : Fs.String.ofCString memory address.toNat = some ⟨address.toNat, length⟩ := by
      rw [Fs.String.ofCString, measured]
      rfl
    simp only [if_pos string, vaPointer, Option.bind_eq_bind, Option.bind_some, found]
    exact .one _ _
  rename_i not_string
  simp only [if_neg not_string]
  split at written
  · rename_i hexadecimal
    obtain ⟨value, rfl, rfl⟩ := write_long written
    simp only [if_pos hexadecimal, vaLong,
      unsignedText_eq stack _ (show 1 < 16 by decide) (by decide)]
    exact .one _ _
  · rename_i unknown
    cases written
    simp only [if_neg unknown]
    exact .one _ _

/-- A stretch without a percent sign is copied. -/
theorem expand_literal {stretch : List UInt8} (plain : ascii '%' ∉ stretch) (format : List UInt8)
    (args : List Argument) :
    expand memory (stretch ++ format) args =
      (expand memory format args).map fun result => (stretch ++ result.1, result.2) := by
  induction stretch with
  | nil =>
      rw [List.nil_append]
      cases expand memory format args with
      | none => rfl
      | some result => rfl
  | cons c stretch ih =>
      obtain ⟨first, others⟩ := not_or.mp (List.mem_cons.not.mp plain)
      rw [List.cons_append, expand.eq_def]
      dsimp only
      rw [if_neg (Ne.symm first), ih others]
      cases expand memory format args with
      | none => rfl
      | some result => rfl

theorem bytes_subStringFrom_one (format : Fs.String) :
    (format.subStringFrom 1).bytes memory = (format.bytes memory).tail := by
  by_cases empty : format.length = 0
  · have none : format.bytes memory = [] := by
      rw [← List.length_eq_zero_iff, Fs.String.bytes_length, empty]
    rw [none, Fs.String.subStringFrom, Fs.String.subString, if_pos (by omega)]
    rfl
  · rw [Fs.String.bytes_subStringFrom _ (by omega), List.drop_one]

section Rounds

variable {σ : Type} {print : σ → List UInt8 → Option σ} {s : σ} {format : Fs.String} {c : UInt8}
  {behind : List UInt8} {fuel : Nat}

theorem length_pos_of_bytes (bytes : format.bytes memory = c :: behind) : format.length > 0 := by
  have length : (format.bytes memory).length = format.length := format.bytes_length
  rw [bytes, List.length_cons] at length
  omega

/-- A round of the loop at a percent sign. -/
theorem printf_percent (bytes : format.bytes memory = ascii '%' :: behind) :
    printf memory stack print (fuel + 1) format args s =
      (specifier memory stack print (behind.getD 0 0) args s).bind fun result =>
        printf memory stack print fuel ((format.subStringFrom 1).subStringFrom 1)
          result.1 result.2 := by
  have next : (format.subStringFrom 1).get memory 0 = behind.getD 0 0 := by
    rw [Fs.String.get_eq, bytes_subStringFrom_one, bytes, List.tail_cons]
  rw [printf, if_pos (length_pos_of_bytes bytes), if_pos (by rw [Fs.String.get_eq, bytes]; rfl)]
  dsimp only
  rw [next]
  rfl

/-- A round of the loop at another character. -/
theorem printf_literal (bytes : format.bytes memory = c :: behind) (plain : c ≠ ascii '%') :
    printf memory stack print (fuel + 1) format args s =
      (print s (c :: behind.takeWhile (· ≠ ascii '%'))).bind fun s =>
        printf memory stack print fuel (format.findNext memory (ascii '%')) args s := by
  have before : (format.findBefore memory (ascii '%')).bytes memory =
      c :: behind.takeWhile (· ≠ ascii '%') := by
    rw [Fs.String.bytes_findBefore _ (by decide), bytes]
    rfl
  rw [printf, if_pos (length_pos_of_bytes bytes),
    if_neg (by rw [Fs.String.get_eq, bytes]; exact plain), before]
  rfl

end Rounds

/-- `printf` prints the text of the format piece by piece, and takes the arguments that the
    format asks for. -/
theorem printf_prints (stack : Nat → UInt8) {fuel : Nat} {format : Fs.String}
    (supplied : expand memory (format.bytes memory) args = some (text, rest))
    (enough : format.length < fuel) :
    PrintsPieces (fun _ print s => printf memory stack print fuel format args s) text rest := by
  induction fuel generalizing format args text with
  | zero => exact absurd enough (Nat.not_lt_zero _)
  | succ fuel ih =>
      have length : (format.bytes memory).length = format.length := format.bytes_length
      cases bytes : format.bytes memory with
      | nil =>
          rw [bytes] at supplied length
          cases supplied
          refine ⟨[], rfl, fun σ print s => ?_⟩
          dsimp only
          rw [printf, if_neg (by rw [← length]; exact Nat.not_lt_zero _)]
          rfl
      | cons c behind =>
          rw [bytes] at supplied length
          rw [List.length_cons] at length
          by_cases percent : c = ascii '%'
          · subst percent
            refine .congr (fun _ _ _ => printf_percent bytes) ?_
            have later : ((format.subStringFrom 1).subStringFrom 1).bytes memory = behind.tail := by
              rw [bytes_subStringFrom_one, bytes_subStringFrom_one, bytes, List.tail_cons]
            have shorter : (((format.subStringFrom 1).subStringFrom 1).bytes memory).length = _ :=
              Fs.String.bytes_length _
            rw [later, List.length_tail] at shorter
            have fewer : ((format.subStringFrom 1).subStringFrom 1).length < fuel := by omega
            cases behind with
            | nil =>
                have ending : (conversion (some 0)).write memory args = some (text, rest) :=
                  supplied
                have printed :=
                  (specifier_prints stack ending).append (ih (by rw [later]; rfl) fewer)
                rwa [List.append_nil] at printed
            | cons d format' =>
                obtain ⟨⟨first, args'⟩, written, supplied⟩ := Option.bind_eq_some_iff.mp supplied
                obtain ⟨⟨more, rest'⟩, expanded, same⟩ := Option.bind_eq_some_iff.mp supplied
                cases same
                exact (specifier_prints stack written).append
                  (ih (by rw [later]; exact expanded) fewer)
          · refine .congr (fun _ _ _ => printf_literal bytes percent) ?_
            have later : (format.findNext memory (ascii '%')).bytes memory =
                behind.dropWhile (· ≠ ascii '%') := by
              rw [Fs.String.bytes_findNext _ (by decide), bytes, List.tail_cons]
            have shorter : ((format.findNext memory (ascii '%')).bytes memory).length = _ :=
              Fs.String.bytes_length _
            have suffix := (List.dropWhile_suffix (l := behind) (· ≠ ascii '%')).length_le
            rw [later] at shorter
            have plain : ascii '%' ∉ c :: behind.takeWhile (· ≠ ascii '%') := by
              rw [List.mem_cons, not_or]
              refine ⟨Ne.symm percent, fun member => ?_⟩
              exact absurd (List.mem_takeWhile_imp member) (by simp)
            have parts : c :: behind =
                (c :: behind.takeWhile (· ≠ ascii '%')) ++ behind.dropWhile (· ≠ ascii '%') := by
              rw [List.cons_append, List.takeWhile_append_dropWhile]
            rw [parts, expand_literal plain, Option.map_eq_some_iff] at supplied
            obtain ⟨⟨more, rest'⟩, expanded, same⟩ := supplied
            cases same
            exact (ih (by rw [later]; exact expanded) (by omega)).cons _

/-- `printf` returns and prints the text of the format, whatever prints the pieces; on a
    console it does what printing the text does. -/
theorem printf_expands (stack : Nat → UInt8) {fuel : Nat} {format : Fs.String}
    (supplied : expand memory (format.bytes memory) args = some (text, rest))
    (enough : format.length < fuel) :
    PrintsPieces (fun _ print s => printf memory stack print fuel format args s) text rest ∧
    ∀ (δ : Type) (screen : Screen δ) (sheet : Sheet) (display : δ) (s : Console δ),
      screen.Suitable → screen.Shows sheet display s → ∀ fresh,
        printf memory stack (Console.print screen fresh) fuel format args s =
          (Console.print screen fresh s text).map fun s => (rest, s) := by
  have prints := printf_prints stack supplied enough
  refine ⟨prints, fun δ screen sheet display s suitable shows fresh => ?_⟩
  obtain ⟨pieces, rfl, printed⟩ := prints
  rw [← shows.prints suitable]
  exact printed _ _ s

/-- A format of eight characters that ends with a percent sign, and a string. -/
def formatMemory : Nat → UInt8 :=
  Util.overwrite (Util.overwrite (fun _ => 0) 16 (literal "n=%d %s%")) 64 (literal "ok")

theorem printf_minus_one :
    PrintsPieces
      (fun _ print s => printf formatMemory (fun _ => 255) print 9 ⟨16, 8⟩ [.int (-1),
        .pointer 64, .long 5] s)
      (literal "n=18446744073709551615 ok<unknown type specifier>") [.long 5] := by
  have supplied :
      expand formatMemory (Fs.String.bytes formatMemory ⟨16, 8⟩) [.int (-1), .pointer 64, .long 5] =
        some (literal "n=18446744073709551615 ok<unknown type specifier>", [.long 5]) := by
    decide +kernel
  exact (printf_expands _ supplied (by decide)).1

end Prints

end Mykonos.Display
