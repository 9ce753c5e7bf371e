import Mykonos.Acpi.Loading
import Mykonos.Heap.Additions

/-! # What loading leaves mapped

Loading a table on a machine: the mappings and the objects come from the heap, and a byte
behind a pointer is found by the page tables of that moment. The windows of a table are
opened and closed in several places. All of them pair, but for the header of a table that
declares too small a length.
-/

namespace Mykonos.Acpi

open Lib Relation
open Paging (Machine Kernel Outside page walk_absent)
open Heap (Adds Fed Sane Spanned Window physical span block)

/-! ## Loading on a machine -/

/-- `sizeof` of the managers. -/
def managerSize : TableType → Nat
  | .rsdt => 32
  | .madt => 360
  | .hpet => 32
  | .mcfg => 400

/-- A function of the heap, as long as it returns and no table was denied a frame. -/
def heapCall (call : Kernel Nat) : StateT Machine Option Nat := fun s =>
  match call s with
  | .ok answer t => if 0 ∈ t.tableFrames then none else some (answer, t)
  | .error _ _ => none

/-- Carry out a call. The bytes of tables are not in frames that the kernel writes to,
    and the writes to the arrays of managers change no mapping. A run is not followed
    further when the block table is full as a range comes back. -/
def carry (memory : Nat → UInt8) : Call → StateT Machine Option Nat
  | .mapAddress physicalAddress size cacheable =>
    heapCall (Heap.mapAddress physicalAddress size cacheable)
  | .unmapMemory ptr size => fun s =>
      if s.virtualMemory.numBlocks < Memory.blockMapSize then
        heapCall (do Heap.unmapMemory ptr size; return 0) s
      else none
  | .newManager type => heapCall (Heap.kmalloc (managerSize type))
  | .newChildren numChildren => heapCall (Heap.kmalloc (8 * numChildren))
  | .read header offset => fun s => (physical s ((header + offset) % 2 ^ 64)).map fun a =>
      ((memory a).toNat, s)
  | .assign _ _ _ => fun s => some (0, s)

variable {memory : Nat → UInt8} {s t u : Machine} {table header ptr n v : Nat} {α β : Type}

theorem heapCall_eq {call : Kernel Nat} :
    heapCall call s = some (v, t) ↔ call s = .ok v t ∧ Fed call s := by
  rw [heapCall, Fed, Kernel.after]
  cases call s with
  | ok answer t' =>
      simp only [EStateM.Result.ok.injEq]
      split_ifs with denied
      · simp [denied]
      · simp [denied]
  | error fault t' => simp

section Calls

variable (sane : Sane s)

include sane

theorem runs_mapAddress {cacheable : Bool} (bounded : table < 2 ^ 64)
    (fits : table % 4096 + n + 4095 < 2 ^ 64)
    (runs : (mapAddress table n cacheable).Runs (carry memory) s ptr t) :
    ptr = 0 ∧ Adds s t ∅ ∨ Spanned ptr n ∧ Adds s t (span ptr n) ∧ Window t ptr table n := by
  obtain ⟨got, fed⟩ := heapCall_eq.mp (Program.runs_perform.mp runs)
  exact Heap.mapAddress_adds sane bounded fits fed got

theorem runs_newManager {type : TableType}
    (runs : (Program.perform (.newManager type)).Runs (carry memory) s ptr t) :
    Adds s t (block ptr (managerSize type)) := by
  obtain ⟨got, fed⟩ := heapCall_eq.mp (Program.runs_perform.mp runs)
  refine Heap.kmalloc_adds sane ?_ fed got
  cases type <;> decide

theorem runs_newChildren {numChildren : Nat} (small : 8 * numChildren + 4103 < 2 ^ 64)
    (runs : (Program.perform (.newChildren numChildren)).Runs (carry memory) s ptr t) :
    Adds s t (block ptr (8 * numChildren)) := by
  obtain ⟨got, fed⟩ := heapCall_eq.mp (Program.runs_perform.mp runs)
  exact Heap.kmalloc_adds sane small fed got

end Calls

/-- What was taken since a range was opened is left when the range is closed. -/
theorem runs_unmapMemory {area : Set Nat} (sane : Sane s) (opened : Adds s t (span ptr n))
    (spanned : Spanned ptr n) (inner : Adds t u area) {w : Machine}
    (runs : (unmapMemory ptr n).Runs (carry memory) u v w) :
    Adds s w area := by
  have carried : carry memory (.unmapMemory ptr n) u = some (v, w) := Program.runs_perform.mp runs
  simp only [carry] at carried
  split_ifs at carried with room
  obtain ⟨got, -⟩ := heapCall_eq.mp carried
  have whole : Adds s u (area ∪ span ptr n) := by
    rw [Set.union_comm]
    exact opened.trans inner
  refine whole.unmapMemory sane (opened.apart inner).symm spanned (fun full => room.ne full.full) ?_
  cases ended : Heap.unmapMemory ptr n u with
  | ok a w' =>
      rw [show (do Heap.unmapMemory ptr n; return 0 : Kernel Nat) u = .ok 0 w'
        from Paging.bind_ok ended _] at got
      injection got with _ machine
      rw [machine]
  | error fault w' =>
      rw [show (do Heap.unmapMemory ptr n; return 0 : Kernel Nat) u = .error fault w' from
        Paging.bind_error ended _] at got
      exact nomatch got

/-! ## Programs that only read -/

/-- The program leaves the machine as it is. -/
def Quiet (memory : Nat → UInt8) (x : Loading α) : Prop :=
  ∀ s a t, x.Runs (carry memory) s a t → s = t

section Reading

theorem runs_byte {offset : Nat} :
    (Program.perform (.read header offset)).Runs (carry memory) s v t ↔
    (∃ a, physical s ((header + offset) % 2 ^ 64) = some a ∧ (memory a).toNat = v) ∧ s = t := by
  simp only [Program.runs_perform, carry, Option.map_eq_some_iff, Prod.mk.injEq, ← and_assoc,
    exists_and_right]

theorem quiet_pure (a : α) : Quiet memory (pure a : Loading α) :=
  fun _ _ _ runs => (Program.runs_pure.mp runs).2

theorem Quiet.bind {x : Loading α} {f : α → Loading β} (first : Quiet memory x)
    (second : ∀ a, Quiet memory (f a)) :
    Quiet memory (x >>= f) := by
  intro s b t runs
  obtain ⟨a, u, early, late⟩ := Program.runs_bind.mp runs
  exact (first s a u early).trans (second a u b t late)

theorem quiet_read (header offset count : Nat) : Quiet memory (read header offset count) := by
  induction count generalizing offset with
  | zero => exact quiet_pure 0
  | succ count ih =>
      have first : Quiet memory (Program.perform (.read header offset)) :=
        fun _ _ _ runs => (runs_byte.mp runs).2
      exact first.bind fun low => (ih (offset + 1)).bind fun high => quiet_pure _

theorem quiet_assign (header : Nat) (array : TableArray) (index : Nat) :
    Quiet memory (assign header array index) := by
  intro s a t runs
  have carried : some (0, s) = some (a, t) := Program.runs_perform.mp runs
  exact (Prod.mk.inj (Option.some.inj carried)).2

theorem runs_read_lt {offset count : Nat}
    (runs : (read header offset count).Runs (carry memory) s v t) :
    v < 256 ^ count := by
  induction count generalizing offset s v t with
  | zero =>
      obtain ⟨rfl, -⟩ := Program.runs_pure.mp runs
      exact Nat.one_pos
  | succ count ih =>
      simp only [read, Program.runs_bind, Program.runs_pure, runs_byte] at runs
      obtain ⟨low, u, ⟨⟨a, -, rfl⟩, -⟩, high, w, rest, rfl, -⟩ := runs
      have small := (memory a).toNat_lt
      have below := ih rest
      rw [Nat.pow_succ]
      omega

/-- Inside a window a number of the table is read. -/
theorem runs_read {offset count : Nat} (window : Window s header table n)
    (inside : offset + count ≤ n) :
    (read header offset count).Runs (carry memory) s v t ↔
      number memory table offset count = v ∧ s = t := by
  induction count generalizing offset v with
  | zero => simp [read, number, readLittleEndian]
  | succ count ih =>
      have low : physical s ((header + offset) % 2 ^ 64) = some ((table + offset) % 2 ^ 64) :=
        (window offset (by omega)).2
      have byte {v : Nat} {t : Machine} :
          (Program.perform (.read header offset)).Runs (carry memory) s v t ↔
          (behind memory table offset).toNat = v ∧ s = t := by
        rw [runs_byte, low]
        simp [behind]
      simp only [read, Program.runs_bind, Program.runs_pure, byte]
      constructor
      · rintro ⟨low, u, ⟨rfl, rfl⟩, high, w, rest, rfl, rfl⟩
        obtain ⟨rfl, rfl⟩ := (ih (by omega)).mp rest
        exact ⟨rfl, rfl⟩
      · rintro ⟨rfl, rfl⟩
        exact ⟨_, s, ⟨rfl, rfl⟩, _, s, (ih (by omega)).mpr ⟨rfl, rfl⟩, rfl, rfl⟩

theorem runs_length (window : Window s header table n) (long : headerSize ≤ n) :
    (length header).Runs (carry memory) s v t ↔ declared memory table = v ∧ s = t :=
  runs_read window (show 4 + 4 ≤ n from le_trans (by decide) long)

theorem runs_checksumLoop {count i sum : Nat} (window : Window s header table n)
    (inside : i + count ≤ n) :
    (checksumLoop header count i sum).Runs (carry memory) s v t ↔
      byteSum memory table count i sum = v ∧ s = t := by
  induction count generalizing i sum with
  | zero => simp [checksumLoop, byteSum]
  | succ count ih =>
      have byte {v : Nat} {t : Machine} : (read header i 1).Runs (carry memory) s v t ↔
          number memory table i 1 = v ∧ s = t := runs_read window (by omega)
      simp only [checksumLoop, Program.runs_bind, byte, byteSum]
      rw [← ih (by omega)]
      constructor
      · rintro ⟨byte, u, ⟨rfl, rfl⟩, rest⟩
        exact rest
      · exact fun rest => ⟨_, s, ⟨rfl, rfl⟩, rest⟩

/-- The checksum is over the whole window. -/
theorem runs_doChecksum {passes : Bool} (window : Window s header table (declared memory table))
    (long : headerSize ≤ declared memory table) :
    (doChecksum header).Runs (carry memory) s passes t ↔
      decide (Passes memory table) = passes ∧ s = t := by
  have sum {v : Nat} {t : Machine} :
      (checksumLoop header (declared memory table) 0 0).Runs (carry memory) s v t ↔
      byteSum memory table (declared memory table) 0 0 = v ∧ s = t :=
    runs_checksumLoop window (Nat.zero_add _).le
  simp only [doChecksum, Program.runs_bind, runs_length window long, Program.runs_pure]
  constructor
  · rintro ⟨length, u, ⟨rfl, rfl⟩, total, w, summed, rfl, rfl⟩
    obtain ⟨rfl, rfl⟩ := sum.mp summed
    exact ⟨rfl, rfl⟩
  · rintro ⟨rfl, rfl⟩
    exact ⟨_, s, ⟨rfl, rfl⟩, _, s, sum.mpr ⟨rfl, rfl⟩, rfl, rfl⟩

theorem runs_readSignature {found : List Nat} (window : Window s header table n)
    (long : headerSize ≤ n) :
    (readSignature header).Runs (carry memory) s found t ↔
      signature memory table = found ∧ s = t := by
  have byte {i : Nat} (low : i < 4) {v : Nat} {t : Machine} :
      (read header i 1).Runs (carry memory) s v t ↔
      number memory table i 1 = v ∧ s = t :=
    runs_read window (by simp only [headerSize] at long; omega)
  simp only [readSignature, Program.runs_bind, Program.runs_pure, signature]
  constructor
  · rintro ⟨_, _, first, _, _, second, _, _, third, _, _, fourth, rfl, rfl⟩
    obtain ⟨rfl, rfl⟩ := (byte (by decide)).mp first
    obtain ⟨rfl, rfl⟩ := (byte (by decide)).mp second
    obtain ⟨rfl, rfl⟩ := (byte (by decide)).mp third
    obtain ⟨rfl, rfl⟩ := (byte (by decide)).mp fourth
    exact ⟨rfl, rfl⟩
  · rintro ⟨rfl, rfl⟩
    exact ⟨_, s, (byte (by decide)).mpr ⟨rfl, rfl⟩, _, s, (byte (by decide)).mpr ⟨rfl, rfl⟩, _, s,
      (byte (by decide)).mpr ⟨rfl, rfl⟩, _, s, (byte (by decide)).mpr ⟨rfl, rfl⟩, rfl, rfl⟩

/-- Nothing can be read behind a null header. -/
theorem not_runs_length_null (lowest : s.walk 0 = none) :
    ¬(length 0).Runs (carry memory) s v t := by
  intro runs
  simp only [length, read, Program.runs_bind, runs_byte] at runs
  obtain ⟨-, -, ⟨⟨a, found, -⟩, -⟩, -⟩ := runs
  rw [Heap.physical_absent (show s.walk (page ((0 + 4) % 2 ^ 64)) = none from lowest)] at found
  cases found

end Reading

section Walks

theorem quiet_madtEntry (header entry : Nat) (m : MadtTableManager) :
    Quiet memory (madtEntry header entry m) := by
  refine (quiet_read _ _ _).bind fun type => ?_
  split_ifs
  · refine (quiet_read _ _ _).bind fun flags => ?_
    split_ifs
    · exact (quiet_assign _ _ _).bind fun _ => (quiet_read _ _ _).bind fun apicId => quiet_pure _
    · exact quiet_pure m
  · rw [madtIoApic]
    split_ifs
    · exact (quiet_assign _ _ _).bind fun _ => (quiet_read _ _ _).bind fun gsiBase =>
        (quiet_read _ _ _).bind fun physicalAddress => quiet_pure _
    · exact quiet_pure m
  · rw [madtGsiOverride]
    split_ifs
    · exact (quiet_assign _ _ _).bind fun _ => (quiet_read _ _ _).bind fun flags =>
        (quiet_read _ _ _).bind fun source =>
          (quiet_read _ _ _).bind fun destination => quiet_pure _
    · exact quiet_pure m
  · exact quiet_pure m

theorem quiet_madtLoop (header tableLength fuel entry : Nat) (m : MadtTableManager) :
    Quiet memory (madtLoop header tableLength fuel entry m) := by
  induction fuel generalizing entry m with
  | zero => exact fun _ _ _ runs => (Program.not_runs_later runs).elim
  | succ fuel ih =>
      rw [madtLoop]
      split_ifs
      · exact (quiet_madtEntry header entry m).bind fun m =>
          (quiet_read _ _ _).bind fun entryLength => ih _ m
      · exact quiet_pure m

end Walks

/-! ## What managers keep -/

/-- The window of an entry, if it was mapped. -/
def McfgEntry.kept (entry : McfgEntry) : Set Nat :=
  if entry.address = 0 then ∅
  else span entry.address (windowSize entry.firstBusNumber entry.lastBusNumber)

def keptWindows : List McfgEntry → Set Nat
  | [] => ∅
  | entry :: rest => entry.kept ∪ keptWindows rest

mutual

/-- The object of a manager, with the windows of a MCFG, and with the array and the
    children of a list of tables. -/
def TableManager.kept : TableManager → Set Nat
  | .rsdt this array children =>
      block this (managerSize .rsdt) ∪ (block array (8 * children.length) ∪ keptChildren children)
  | .madt this _ => block this (managerSize .madt)
  | .hpet this _ => block this (managerSize .hpet)
  | .mcfg this entries => block this (managerSize .mcfg) ∪ keptWindows entries

/-- Null keeps nothing. -/
def keptResult : Option TableManager → Set Nat
  | none => ∅
  | some manager => manager.kept

def keptChildren : List (Option TableManager) → Set Nat
  | [] => ∅
  | child :: rest => keptResult child ∪ keptChildren rest

end

/-- The kept addresses are what the heap lacks, and only their pages have been edited. -/
structure Leaves (s t : Machine) (kept : Set Nat) : Prop where
  pages : ∀ k, Outside k → k ∉ page '' kept → t.walk k = s.walk k
  ranges : t.virtualMemory.free = s.virtualMemory.free \ kept

/-- The kept addresses have been taken, and no others exactly when it was a clean
    matter. -/
def Gains (s t : Machine) (kept : Set Nat) (clean : Prop) : Prop :=
  ∃ lost, Adds s t (kept ∪ lost) ∧ Disjoint kept lost ∧ (lost = ∅ ↔ clean)

section Gaining

variable {kept more : Set Nat} {clean neat : Prop}

theorem gains_of_adds (added : Adds s t kept) : Gains s t kept True :=
  ⟨∅, by rwa [Set.union_empty], Set.disjoint_empty kept, iff_of_true rfl trivial⟩

theorem Gains.congr (h : Gains s t kept clean) (same : clean ↔ neat) : Gains s t kept neat := by
  rwa [← propext same]

theorem Gains.adds (h : Gains s t kept clean) : ∃ area, Adds s t area :=
  ⟨_, h.choose_spec.1⟩

theorem Gains.trans (first : Gains s t kept clean) (second : Gains t u more neat) :
    Gains s u (kept ∪ more) (clean ∧ neat) := by
  obtain ⟨lost, early, apart, clean⟩ := first
  obtain ⟨gone, late, apart', neat⟩ := second
  have elsewhere := early.apart late
  refine ⟨lost ∪ gone, ?_, ?_, by rw [Set.union_empty_iff, clean, neat]⟩
  · rw [Set.union_union_union_comm]
    exact early.trans late
  · simp only [Set.disjoint_union_left, Set.disjoint_union_right] at elsewhere ⊢
    exact ⟨⟨apart, elsewhere.1.2.symm⟩, elsewhere.2.1, apart'⟩

theorem Gains.leaves_iff (h : Gains s t kept clean) : Leaves s t kept ↔ clean := by
  obtain ⟨lost, added, apart, clean⟩ := h
  rw [← clean]
  constructor
  · intro leaves
    by_contra some
    obtain ⟨a, gone⟩ := Set.nonempty_iff_ne_empty.mpr some
    have free : a ∈ s.virtualMemory.free \ kept :=
      ⟨added.taken (.inr gone), Set.disjoint_right.mp apart gone⟩
    rw [← leaves.ranges, added.free] at free
    exact free.2 (.inr gone)
  · rintro rfl
    rw [Set.union_empty] at added
    exact ⟨added.walk, added.free⟩

end Gaining

/-! ## Managers -/

/-- Every table that loading comes to declares at least its header. -/
def WellSized (memory : Nat → UInt8) (address : Nat) : Prop :=
  ∀ table, ReflTransGen (Lists memory) address table → headerSize ≤ declared memory table

theorem wellSized_iff : WellSized memory table ↔
    headerSize ≤ declared memory table ∧ ∀ address, Lists memory table address →
    WellSized memory address := by
  constructor
  · exact fun all => ⟨all table .refl, fun address lists other path => all other (.head lists path)⟩
  · rintro ⟨here, listed⟩ other path
    cases path.cases_head with
    | inl same => exact same ▸ here
    | inr path =>
        obtain ⟨address, lists, rest⟩ := path
        exact listed address lists other rest

/-- A table that is not a list lists nothing. -/
theorem not_lists {type : TableType} (handled : Handled memory table type) (other : type ≠ .rsdt)
    (address : Nat) :
    ¬Lists memory table address := by
  rintro ⟨listing, -⟩
  have same := listing.handled
  rw [handled.handled] at same
  exact other (Option.some.inj same)

theorem windowSize_le (firstBusNumber lastBusNumber : Nat) :
    windowSize firstBusNumber lastBusNumber + 2 ^ 20 ≤ 2 ^ 64 := by
  simp only [windowSize]
  omega

theorem mcfgLoop_adds {count i : Nat} {entries : List McfgEntry} (sane : Sane s)
    (runs : (mcfgLoop header count i).Runs (carry memory) s entries t) :
    Adds s t (keptWindows entries) := by
  induction count generalizing i s entries with
  | zero =>
      obtain ⟨rfl, rfl⟩ := Program.runs_pure.mp runs
      exact .refl sane
  | succ count ih =>
      simp only [mcfgLoop, Program.runs_bind, Program.runs_pure] at runs
      obtain ⟨address, _, first, last, _, second, bus, _, third, mapped, u, mapping, segment, _,
        fourth, _, _, written, rest, _, later, rfl, rfl⟩ := runs
      obtain rfl := quiet_read _ _ _ _ _ _ first
      obtain rfl := quiet_read _ _ _ _ _ _ second
      obtain rfl := quiet_read _ _ _ _ _ _ third
      obtain rfl := quiet_read _ _ _ _ _ _ fourth
      obtain rfl := quiet_assign _ _ _ _ _ _ written
      have bounded : address < 2 ^ 64 := runs_read_lt first
      have size := windowSize_le bus last
      have early : Adds s u (McfgEntry.kept ⟨mapped, segment, bus, last⟩) := by
        rcases runs_mapAddress sane bounded (by omega) mapping with ⟨rfl, added⟩ |
          ⟨spanned, added, -⟩
        · exact added
        · rw [McfgEntry.kept, if_neg spanned.nonnull]
          exact added
      exact early.trans (ih early.sane later)

/-- Loading from any machine in order gains what the result keeps. -/
def LoadsWell (memory : Nat → UInt8) (load : Nat → Loading (Option TableManager)) : Prop :=
  ∀ {s t : Machine} {address : Nat} {result : Option TableManager}, Sane s → s.walk 0 = none →
    address < 2 ^ 64 → (load address).Runs (carry memory) s result t →
    Gains s t (keptResult result) (WellSized memory address)

section Loads

variable {load : Nat → Loading (Option TableManager)}

theorem entrySizeOf_le (memory : Nat → UInt8) (table : Nat) : entrySizeOf memory table ≤ 8 := by
  unfold entrySizeOf
  split_ifs <;> decide

theorem loadChildren_gains {numChildren count i : Nat} {children : List (Option TableManager)}
    (loads : LoadsWell memory load) (sane : Sane s) (lowest : s.walk 0 = none)
    (window : Window s header table n)
    (inside : headerSize + (i + count) * entrySizeOf memory table ≤ n)
    (runs : (loadChildren load header (entrySizeOf memory table) numChildren count i).Runs
      (carry memory) s
      children t) :
    children.length = count ∧ Gains s t (keptChildren children) (∀ j < count,
      WellSized memory (number memory table (headerSize + (i + j) * entrySizeOf memory table)
        (entrySizeOf memory table))) := by
  induction count generalizing i s children with
  | zero =>
      obtain ⟨rfl, rfl⟩ := Program.runs_pure.mp runs
      exact ⟨rfl, (gains_of_adds (.refl sane)).congr (by simp)⟩
  | succ count ih =>
      simp only [loadChildren, Program.runs_bind, Program.runs_pure] at runs
      obtain ⟨address, _, reading, child, u, loading, _, _, written, rest, _, later, rfl, rfl⟩ :=
        runs
      have next : i + (count + 1) = i + 1 + count := by omega
      rw [next] at inside
      have here : headerSize + i * entrySizeOf memory table + entrySizeOf memory table ≤ n := by
        refine le_trans ?_ inside
        rw [Nat.add_assoc, ← Nat.succ_mul]
        exact Nat.add_le_add_left (Nat.mul_le_mul_right _ (Nat.le_add_right _ _)) _
      obtain ⟨rfl, rfl⟩ := (runs_read window here).mp reading
      obtain rfl := quiet_assign _ _ _ _ _ _ written
      have bounded : number memory table (headerSize + i * entrySizeOf memory table)
        (entrySizeOf memory table) <
          2 ^ 64 :=
        (readLittleEndian_lt _ _ _).trans_le
          (Nat.pow_le_pow_right (by decide) (entrySizeOf_le memory table))
      have first := loads sane lowest bounded loading
      obtain ⟨area, added⟩ := first.adds
      obtain ⟨count, second⟩ :=
        ih added.sane ((added.walk_zero sane).trans lowest) (window.adds sane added) inside
        later
      refine ⟨congrArg (· + 1) count, (first.trans second).congr ?_⟩
      rw [Nat.forall_lt_succ_left]
      have further : ∀ j, i + 1 + j = i + (j + 1) := fun j => by omega
      simp only [further, Nat.add_zero]

/-- The whole table has been mapped, and nothing besides. -/
structure Mapped (memory : Nat → UInt8) (s t : Machine) (header table : Nat) : Prop where
  sane : Sane s
  lowest : s.walk 0 = none
  long : headerSize ≤ declared memory table
  spanned : Spanned header (declared memory table)
  opened : Adds s t (span header (declared memory table))
  window : Window t header table (declared memory table)

namespace Mapped

variable {area : Set Nat} {w w' : Machine} {type : TableType}

/-- Every constructor ends by closing the window, whose size it reads from the table. -/
theorem close {kept : Set Nat} {clean : Prop} {size : Nat} (h : Mapped memory s t header table)
    (inner : Gains t u kept clean) (reading : (length header).Runs (carry memory) u size w)
    (runs : (unmapMemory header size).Runs (carry memory) w v w') : Gains s w' kept clean := by
  obtain ⟨lost, added, apart, clean⟩ := inner
  obtain ⟨rfl, rfl⟩ := (runs_length (h.window.adds h.opened.sane added) h.long).mp reading
  exact ⟨lost, runs_unmapMemory h.sane h.opened h.spanned added runs, apart, clean⟩

/-- A table that is not a list is clean. -/
theorem close_leaf (h : Mapped memory s t header table) {size : Nat}
    (handled : Handled memory table type) (other : type ≠ .rsdt) (added : Adds t u area)
    (reading : (length header).Runs (carry memory) u size w)
    (runs : (unmapMemory header size).Runs (carry memory) w v w') :
    Gains s w' area (∀ address, Lists memory table address → WellSized memory address) :=
  (h.close (gains_of_adds added) reading runs).congr
    (iff_of_true trivial fun address lists => (not_lists handled other address lists).elim)

theorem madt (h : Mapped memory s t header table) (handled : Handled memory table .madt)
    (added : Adds t u area) {fuel : Nat} {m : MadtTableManager}
    (runs : (madtTableManager fuel header).Runs (carry memory) u m w) :
    Gains s w area (∀ address, Lists memory table address → WellSized memory address) := by
  simp only [madtTableManager, Program.runs_bind, Program.runs_pure] at runs
  obtain ⟨_, _, first, _, _, second, _, _, third, _, _, walk, size, _, reading, _, _, closing,
    rfl, rfl⟩ := runs
  obtain rfl := quiet_read _ _ _ _ _ _ first
  obtain rfl := quiet_read _ _ _ _ _ _ second
  obtain rfl := quiet_read _ _ _ _ _ _ third
  obtain rfl := quiet_madtLoop _ _ _ _ _ _ _ _ walk
  exact h.close_leaf handled (by decide) added reading closing

theorem hpet (h : Mapped memory s t header table) (handled : Handled memory table .hpet)
    (added : Adds t u area) {m : HpetTableManager}
    (runs : (hpetTableManager header).Runs (carry memory) u m w) :
    Gains s w area (∀ address, Lists memory table address → WellSized memory address) := by
  simp only [hpetTableManager, Program.runs_bind] at runs
  obtain ⟨space, _, first, runs⟩ := runs
  obtain rfl := quiet_read _ _ _ _ _ _ first
  split_ifs at runs with elsewhere
  · simp only [Program.runs_bind, Program.runs_pure] at runs
    obtain ⟨_, _, ⟨rfl, rfl⟩, size, _, reading, _, _, closing, rfl, rfl⟩ := runs
    exact h.close_leaf handled (by decide) added reading closing
  · simp only [Program.runs_bind, Program.runs_pure] at runs
    obtain ⟨_, _, second, _, _, third, _, _, ⟨rfl, rfl⟩, size, _, reading, _, _, closing,
      rfl, rfl⟩ := runs
    obtain rfl := quiet_read _ _ _ _ _ _ second
    obtain rfl := quiet_read _ _ _ _ _ _ third
    exact h.close_leaf handled (by decide) added reading closing

theorem mcfg (h : Mapped memory s t header table) (handled : Handled memory table .mcfg)
    (added : Adds t u area) {entries : List McfgEntry}
    (runs : (mcfgTableManager header).Runs (carry memory) u entries w) :
    Gains s w (area ∪ keptWindows entries)
      (∀ address, Lists memory table address → WellSized memory address) := by
  simp only [mcfgTableManager, Program.runs_bind, Program.runs_pure] at runs
  obtain ⟨_, _, first, entries, _, windows, size, _, reading, _, _, closing, rfl, rfl⟩ := runs
  obtain rfl := quiet_read _ _ _ _ _ _ first
  exact h.close_leaf handled (by decide) (added.trans (mcfgLoop_adds added.sane windows))
    reading closing

/-- All children are inside the table. -/
theorem children_inside (h : Mapped memory s t header table) :
    headerSize + (declared memory table - headerSize) / entrySizeOf memory table *
      entrySizeOf memory table ≤
      declared memory table :=
  Nat.add_le_of_le_sub' h.long (Nat.div_mul_le_self _ _)

theorem rsdt (loads : LoadsWell memory load) (h : Mapped memory s t header table)
    (handled : Handled memory table .rsdt) (added : Adds t u area) {array : Nat}
    {children : List (Option TableManager)}
    (runs : (rsdtTableManager load header).Runs (carry memory) u (array, children) w) :
    Gains s w (area ∪ (block array (8 * children.length) ∪ keptChildren children))
      (∀ address, Lists memory table address → WellSized memory address) := by
  simp only [rsdtTableManager, Program.runs_bind, Program.runs_pure] at runs
  obtain ⟨first, _, reading, tableLength, _, sizing, array, v, making, children, _, loading, size,
    _, again, _, _, closing, same, rfl⟩ := runs
  obtain ⟨rfl, rfl⟩ := Prod.mk.inj same
  have window := h.window.adds h.opened.sane added
  have start : 0 + 1 ≤ declared memory table := (show 0 + 1 ≤ headerSize by decide).trans h.long
  obtain ⟨rfl, rfl⟩ := (runs_read window start).mp reading
  obtain ⟨rfl, rfl⟩ := (runs_length window h.long).mp sizing
  have low := declared_lt memory table
  have count := rsdtNumChildren_eq h.long (low.trans (by decide)) (entrySizeOf memory table)
  have few : (declared memory table - headerSize) / entrySizeOf memory table < 2 ^ 32 :=
    (Nat.div_le_self _ _).trans_lt ((Nat.sub_le _ _).trans_lt low)
  have fold : (if number memory table 0 1 = 0x58 then 8 else 4) = entrySizeOf memory table := rfl
  rw [fold, count] at making loading
  have arrayed := runs_newChildren added.sane (by omega) making
  have lowest : v.walk 0 = none := by
    rw [arrayed.walk_zero added.sane, added.walk_zero h.opened.sane,
      h.opened.walk_zero h.sane, h.lowest]
  have inside := h.children_inside
  rw [← Nat.zero_add (_ / _)] at inside
  obtain ⟨length, gains⟩ :=
    loadChildren_gains loads arrayed.sane lowest (window.adds added.sane arrayed) inside loading
  rw [← length] at arrayed
  have inner := (gains_of_adds added).trans ((gains_of_adds arrayed).trans gains)
  refine (h.close inner again closing).congr ?_
  simp only [true_and, Nat.zero_add]
  constructor
  · rintro all address ⟨-, i, below, rfl⟩
    exact all i below
  · exact fun all i below => all _ ⟨handled, i, below, rfl⟩

theorem create {fuel : Nat} {manager : TableManager} (loads : LoadsWell memory load)
    (h : Mapped memory s t header table) (handled : Handled memory table type)
    (runs : (create load fuel header type).Runs (carry memory) t manager u) :
    Gains s u manager.kept (WellSized memory table) := by
  simp only [Acpi.create, Program.runs_bind] at runs
  obtain ⟨this, v, making, runs⟩ := runs
  have object := runs_newManager h.opened.sane making
  rw [wellSized_iff, and_iff_right h.long]
  cases type with
  | rsdt =>
      simp only [Program.runs_bind, Program.runs_pure] at runs
      obtain ⟨⟨array, children⟩, _, building, rfl, rfl⟩ := runs
      exact h.rsdt loads handled object building
  | madt =>
      simp only [Program.runs_bind, Program.runs_pure] at runs
      obtain ⟨m, _, building, rfl, rfl⟩ := runs
      exact h.madt handled object building
  | hpet =>
      simp only [Program.runs_bind, Program.runs_pure] at runs
      obtain ⟨m, _, building, rfl, rfl⟩ := runs
      exact h.hpet handled object building
  | mcfg =>
      simp only [Program.runs_bind, Program.runs_pure] at runs
      obtain ⟨entries, _, building, rfl, rfl⟩ := runs
      exact h.mcfg handled object building

/-- A table with a wrong checksum or an unknown signature is unmapped again. -/
theorem rejected (h : Mapped memory s t header table)
    (rejected : ∀ type, ¬Handled memory table type)
    (runs : (unmapMemory header (declared memory table)).Runs (carry memory) t v u) :
    Gains s u (keptResult none) (WellSized memory table) := by
  have closed := runs_unmapMemory h.sane h.opened h.spanned (.refl h.opened.sane) runs
  refine (gains_of_adds closed).congr
    (iff_of_true trivial (wellSized_iff.mpr ⟨h.long, fun address lists => ?_⟩))
  exact (rejected .rsdt lists.1).elim

end Mapped

end Loads

/-! ## Loading -/

/-- The header of a table that is too small stays mapped. -/
theorem gains_of_short (short : declared memory table < headerSize)
    (opened : Adds s t (span header headerSize)) :
    Gains s t (keptResult none) (WellSized memory table) := by
  refine ⟨span header headerSize, ?_, Set.empty_disjoint _, iff_of_false ?_ fun all => ?_⟩
  · rw [keptResult, Set.empty_union]
    exact opened
  · exact (Heap.span_nonempty (by decide)).ne_empty
  · exact absurd (all table .refl) (Nat.not_le.mpr short)

/-- The header is mapped, and unmapped again when it declares enough. -/
theorem loadTable_loadsWell (memory : Nat → UInt8) (fuel : Nat) :
    LoadsWell memory (loadTable fuel) := by
  induction fuel with
  | zero => exact fun _ _ _ runs => (Program.not_runs_later runs).elim
  | succ fuel ih =>
      intro s t table result sane lowest bounded runs
      simp only [loadTable, Program.runs_bind] at runs
      obtain ⟨header, _, mapping, size, _, sizing, runs⟩ := runs
      obtain ⟨rfl, added⟩ | ⟨spanned, opened, window⟩ :=
        runs_mapAddress sane bounded (by simp only [headerSize]; omega) mapping
      · exact (not_runs_length_null ((added.walk_zero sane).trans lowest) sizing).elim
      · obtain ⟨rfl, rfl⟩ := (runs_length window le_rfl).mp sizing
        split_ifs at runs with short
        · obtain ⟨rfl, rfl⟩ := Program.runs_pure.mp runs
          exact gains_of_short short opened
        · have low := declared_lt memory table
          simp only [Program.runs_bind] at runs
          obtain ⟨_, u, closing, header, _, mapping, passes, _, checking, runs⟩ := runs
          have closed : Adds s u ∅ :=
            runs_unmapMemory sane opened spanned (.refl opened.sane) closing
          suffices late : Gains u t (keptResult result) (WellSized memory table) by
            have both := (gains_of_adds closed).trans late
            rw [Set.empty_union] at both
            exact both.congr (and_iff_right trivial)
          have lowest := (closed.walk_zero sane).trans lowest
          obtain ⟨rfl, added⟩ | ⟨spanned, opened, window⟩ :=
            runs_mapAddress closed.sane bounded (by omega) mapping
          · simp only [doChecksum, Program.runs_bind] at checking
            obtain ⟨_, _, sizing, -⟩ := checking
            exact (not_runs_length_null ((added.walk_zero closed.sane).trans lowest) sizing).elim
          · have mapped : Mapped memory u _ header table :=
              ⟨closed.sane, lowest, Nat.le_of_not_lt short, spanned, opened, window⟩
            obtain ⟨rfl, rfl⟩ := (runs_doChecksum window mapped.long).mp checking
            split_ifs at runs with passes
            · simp only [Program.runs_bind] at runs
              obtain ⟨found, _, signing, runs⟩ := runs
              obtain ⟨rfl, rfl⟩ := (runs_readSignature window mapped.long).mp signing
              cases handled : findHandler (signature memory table) with
              | none =>
                  simp only [handled, Program.runs_bind, Program.runs_pure] at runs
                  obtain ⟨_, _, closing, rfl, rfl⟩ := runs
                  refine mapped.rejected (fun type other => ?_) closing
                  exact absurd (handled.symm.trans other.handled) (Option.some_ne_none type).symm
              | some type =>
                  simp only [handled, Program.runs_bind, Program.runs_pure] at runs
                  obtain ⟨manager, _, creating, rfl, rfl⟩ := runs
                  exact mapped.create ih ⟨mapped.long, of_decide_eq_true passes, handled⟩ creating
            · simp only [Program.runs_bind, Program.runs_pure] at runs
              obtain ⟨_, _, sizing, _, _, closing, rfl, rfl⟩ := runs
              obtain ⟨rfl, rfl⟩ := (runs_length window mapped.long).mp sizing
              exact mapped.rejected (fun type other => passes (decide_eq_true other.passes)) closing

/-- A call that returns leaves mapped what its result keeps, and nothing for null,
    exactly when every table it comes to declares at least its header. -/
theorem loadTable_leaves_iff {fuel address : Nat} {result : Option TableManager} (sane : Sane s)
    (lowest : s.walk 0 = none) (bounded : address < 2 ^ 64)
    (returned : (loadTable fuel address).Runs (carry memory) s result t) :
    Leaves s t (keptResult result) ↔ WellSized memory address :=
  (loadTable_loadsWell memory fuel sane lowest bounded returned).leaves_iff

/-- A list of tables with a HPET that is in memory. -/
def listedHpet : Nat → UInt8 := fun a =>
  if a < 0x2000 then memoryAt 0x1000 (sealed [0x52, 0x53, 0x44, 0x54] (littleEndian 0x2000 4)) a
  else memoryAt 0x2000 (sealed [0x48, 0x50, 0x45, 0x54] (List.replicate 20 0)) a

theorem listedHpet_wellSized : WellSized listedHpet 0x1000 := by
  have hpet : Handled listedHpet 0x2000 .hpet :=
    ⟨by decide +kernel, by decide +kernel, by decide +kernel⟩
  have count : (declared listedHpet 0x1000 - headerSize) / entrySizeOf listedHpet 0x1000 = 1 := by
    decide +kernel
  have child : number listedHpet 0x1000 (headerSize + 0 * entrySizeOf listedHpet 0x1000)
      (entrySizeOf listedHpet 0x1000) = 0x2000 := by decide +kernel
  refine wellSized_iff.mpr ⟨by decide +kernel, ?_⟩
  rintro address ⟨-, i, below, rfl⟩
  rw [count, Nat.lt_one_iff] at below
  subst below
  rw [child]
  exact wellSized_iff.mpr ⟨hpet.long,
    fun address lists => (not_lists hpet (by decide) address lists).elim⟩

/-- The managers of both tables stay, their windows do not. -/
theorem listedHpet_leaves : ∃ t manager,
    (loadTable 2 0x1000).Runs (carry listedHpet) Heap.Session.freshMachine (some manager) t ∧
      Leaves Heap.Session.freshMachine t manager.kept := by
  have ends :
      (((loadTable 2 0x1000).exec (carry listedHpet) Heap.Session.freshMachine).map fun step =>
      step.1.map Option.isSome) = some (some true) := by decide +kernel
  obtain ⟨result, t, runs, found⟩ := Program.exists_runs ends
  obtain ⟨manager, rfl⟩ := Option.isSome_iff_exists.mp found
  have sane := Heap.Session.freshMachine_initial.sound.sane
  have lowest : Heap.Session.freshMachine.walk 0 = none := by decide +kernel
  exact ⟨t, manager, runs,
    (loadTable_leaves_iff sane lowest (by decide) runs).mpr listedHpet_wellSized⟩

/-- A table of zeros is rejected, and its header stays mapped. -/
theorem zeroTable_stays : Sane Heap.Session.freshMachine ∧ Heap.Session.freshMachine.walk 0 = none ∧
    ∃ t, (loadTable 1 0x100000).Runs (carry fun _ => 0) Heap.Session.freshMachine none t ∧
      ¬Leaves Heap.Session.freshMachine t (keptResult none) := by
  have ends :
      (((loadTable 1 0x100000).exec (carry fun _ => 0) Heap.Session.freshMachine).map fun step =>
      step.1.map Option.isSome) = some (some false) := by decide +kernel
  obtain ⟨result, t, runs, found⟩ := Program.exists_runs ends
  obtain rfl := Option.not_isSome_iff_eq_none.mp (Bool.eq_false_iff.mp found)
  have sane := Heap.Session.freshMachine_initial.sound.sane
  have lowest : Heap.Session.freshMachine.walk 0 = none := by decide +kernel
  refine ⟨sane, lowest, t, runs, fun leaves => ?_⟩
  have all := (loadTable_loadsWell _ 1 sane lowest (by decide) runs).leaves_iff.mp leaves
  exact absurd (all 0x100000 .refl) (by decide +kernel)

end Mykonos.Acpi
