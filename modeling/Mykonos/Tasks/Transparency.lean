import Mykonos.Lib.Run
import Mykonos.Tasks.Multiplexing

/-! # Tasks do not notice each other

What a task left in its registers and on its stack stands while it is stopped, so that the
processor goes on with it where it was. Sharing the processor is like every task having
its own.
-/

namespace Mykonos.Tasks.Multiplexing

open Lib Interrupts Interrupts.Entry
open Switch (Register Flags Calls Registers registersSize cr3Offset ripOffset rflagsOffset)

/-! ## Registers in memory -/

theorem at_congr {memory other : Store} {address : Word}
    (same : ∀ x, (x - address).toNat < registersSize → other x = memory x) :
    Registers.at other address = Registers.at memory address := by
  have field (offset : Word) (inside : offset.toNat + 8 ≤ registersSize) :
      other.read (address + offset) = memory.read (address + offset) := by
    refine Store.read_congr fun x near => same x ?_
    have regroup : x - address = x - (address + offset) + offset := by grind
    rw [regroup, BitVec.toNat_add]
    exact Nat.lt_of_le_of_lt (Nat.mod_le _ _) (by omega)
  exact Registers.ext (funext fun name => field _ (by cases name <;> decide)) (field _ (by decide))
    (field _ (by decide)) (field _ (by decide))

theorem imageWords_addresses (address : Word) (image : Registers) :
    (imageWords address image).map Prod.fst = Switch.fieldOffsets.map (address + ·) := rfl

theorem imageWords_stand (memory : Store) (address : Word) (image : Registers) :
    Registers.at (memory.writeAll (imageWords address image)) address = image := by
  have fields : Switch.fieldOffsets.Pairwise fun one other => Apart one 8 other 8 := by
    decide +kernel
  have placed : ((imageWords address image).map Prod.fst).Pairwise fun one other =>
      Apart one 8 other 8 := by
    rw [imageWords_addresses, List.pairwise_map]
    exact fields.imp fun beside => (apart_add _).mpr beside
  have stands : ∀ entry ∈ imageWords address image,
      (memory.writeAll (imageWords address image)).read entry.1 = entry.2 :=
    fun _ member => Store.read_writeAll_of_mem _ (List.pairwise_map.mp placed) member
  refine Registers.ext (funext fun name => stands (_, _) ?_) (stands (_, image.cr3) ?_)
    (stands (_, image.rip) ?_) (stands (_, image.rflags) ?_)
  · refine List.mem_append_left _ (List.mem_append_right _ (List.mem_map.mpr ⟨name, ?_, rfl⟩))
    cases name <;> decide
  · exact List.mem_append_right _ (List.mem_singleton_self _)
  · exact List.mem_append_left _ (List.mem_append_left _ List.mem_cons_self)
  · exact List.mem_append_left _
      (List.mem_append_left _ (List.mem_cons_of_mem _ List.mem_cons_self))

theorem imageWords_outside (memory : Store) {address x : Word} (image : Registers)
    (outside : registersSize ≤ (x - address).toNat) :
    memory.writeAll (imageWords address image) x = memory x := by
  refine Switch.writeAll_outside (fun entry member => ?_) memory
  have listed := List.mem_map_of_mem (f := Prod.fst) member
  rw [imageWords_addresses, List.mem_map] at listed
  obtain ⟨offset, field, here⟩ := listed
  have inside := Switch.fieldOffset_inside field
  have regroup : x - (address + offset) = x - address - offset := by grind
  rw [← here, regroup, BitVec.toNat_sub_of_le (by rw [BitVec.le_def]; omega)]
  omega

/-! ## From one task to another -/

variable {T : Type}

/-- The task is in the C++ code that was entered at `p`, at the call of `swapRegisters`. -/
structure Held (k : Code T) (task : T) (way : Way) (toTask : T) (p : Switch.Processor)
    (memory : Store) : Prop where
  image : Registers.at memory (k.registers task) = Registers.atCall (k.enter way task toTask p)
  frame : ∀ x, Dead (k.stack task) (p.register .rsp) x →
    ¬Dead (k.stack task) ((k.enter way task toTask p).register .rsp + 8) x →
    memory x = (k.enter way task toTask p).memory x

section Switch

variable {k : Code T} {depth : Nat} {shared : Word → Prop} {services : BitVec 8 → Store → Store}
  {effect : Way → T → T → Store → Store} {locks : Switch.Function → Word → Store → Store}
  {alive : T → Prop} {way : Way} {fromTask toTask : T} {p : Switch.Processor} {base : Word}

theorem switched_confined (obeys : Obeys k depth shared services effect locks) (way : Way)
    (fromTask toTask : T) :
    Confined shared (switched k effect locks way fromTask toTask) :=
  (obeys.locked _ _).comp ((obeys.locked _ _).comp (obeys.effects way fromTask toTask))

/-- Where the stack pointer comes back to after the call. -/
theorem entered_rsp (obeys : Obeys k depth shared services effect locks) (way : Way)
    (fromTask toTask : T) (room : 2 * depth ≤ (p.register .rsp - base).toNat) :
    ∃ amount, amount + 8 ≤ depth ∧
      ((k.enter way fromTask toTask p).register .rsp + 8 - base).toNat =
        (p.register .rsp - base).toNat - amount := by
  obtain ⟨amount, least, most, down⟩ := obeys.down way fromTask toTask p
  have up : (k.enter way fromTask toTask p).register .rsp + 8 =
      p.register .rsp - BitVec.ofNat 64 (amount - 8) := by
    have split : BitVec.ofNat 64 amount = BitVec.ofNat 64 (amount - 8) + 8 := by
      rw [show (8 : Word) = BitVec.ofNat 64 8 from rfl, ← BitVec.ofNat_add,
        Nat.sub_add_cancel least]
    rw [down, split]
    grind
  refine ⟨amount - 8, by omega, ?_⟩
  rw [up]
  exact toNat_lower (by omega)

/-- What is below the stack pointer that comes back is below the return address, too. -/
theorem le_of_returned {pointer x : Word} (enough : 8 ≤ (pointer + 8 - base).toNat)
    (live : ¬Dead base (pointer + 8) x) : 8 ≤ (x - pointer).toNat := by
  have outside : 8 ≤ (x - (pointer + 8 - BitVec.ofNat 64 8)).toNat := le_of_live enough live
  rwa [show pointer + 8 - BitVec.ofNat 64 8 = pointer by grind] at outside

theorem Code.Layout.mono {fewer : T → Prop} (layout : k.Layout shared alive)
    (among : ∀ task, fewer task → alive task) :
    k.Layout shared fewer where
  small task here := layout.small task (among task here)
  apart task other here there := layout.apart task other (among task here) (among other there)
  image task here := layout.image task (among task here)
  shared task here := layout.shared task (among task here)

/-- What is below the stack pointer of a task is none of its registers. -/
theorem Code.Layout.beside (layout : k.Layout shared alive) {task : T} (here : alive task)
    {pointer : Word} {amount : Nat} (below : amount ≤ (pointer - k.stack task).toNat)
    (within : (pointer - k.stack task).toNat ≤ k.stackSize task) (positive : 0 < amount) :
    Apart (pointer - BitVec.ofNat 64 amount) amount (k.registers task) registersSize := by
  refine Switch.Apart.of_disjoint (fun x near => layout.image task here x ?_) positive (by decide)
  have lower := toNat_lower below
  have regroup : x - k.stack task =
      x - (pointer - BitVec.ofNat 64 amount) +
        (pointer - BitVec.ofNat 64 amount - k.stack task) := by
    grind
  rw [regroup, BitVec.toNat_add]
  exact Nat.lt_of_le_of_lt (Nat.mod_le _ _) (by omega)

/-- A task is held while nothing of it is written to. -/
theorem Held.congr {memory other : Store} (held : Held k fromTask way toTask p memory)
    (inside : (p.register .rsp - k.stack fromTask).toNat ≤ k.stackSize fromTask)
    (same : ∀ x, k.Owns fromTask x → other x = memory x) : Held k fromTask way toTask p other := by
  refine ⟨(at_congr fun x near => same x (.inr near)).trans held.image, fun x dead live => ?_⟩
  rw [same x (.inl (Nat.lt_of_lt_of_le dead inside)), held.frame x dead live]

/-- The two calls between saving and loading. -/
theorem calls_spec (obeys : Obeys k depth shared services effect locks) {u l f : Switch.Processor}
    {pointer x : Word} (room : depth ≤ (pointer - base).toNat) (uTop : u.register .rsp = pointer)
    (lTop : l.register .rsp = pointer) (unlocked : l.memory = (k.calls .unlockTask u).memory)
    (locked : f.memory = (k.calls .lockTask l).memory) (live : ¬Dead base pointer x) :
    l.memory x = locks .unlockTask (u.register .rdi) u.memory x ∧
      f.memory x = locks .lockTask (l.register .rdi) l.memory x := by
  constructor
  · rw [← uTop] at room live
    rw [unlocked]
    exact obeys.called .unlockTask u base room x live
  · rw [← lTop] at room live
    rw [locked]
    exact obeys.called .lockTask l base room x live

/-- The old task is held before the new one's registers are loaded. -/
theorem saved_spec (way : Way) (toTask : T) (obeys : Obeys k depth shared services effect locks)
    (layout : k.Layout shared alive) (here : alive fromTask)
    (room : 2 * depth ≤ (p.register .rsp - k.stack fromTask).toNat)
    (inside : (p.register .rsp - k.stack fromTask).toNat ≤ k.stackSize fromTask) :
    ∃ f, Switch.swapRegisters k.calls (k.enter way fromTask toTask p) =
        Switch.run k.calls Switch.loadCode none f ∧
      f.register .rdi = k.registers toTask ∧
      (f.cr3 = p.cr3 ∨ f.cr3 = (Registers.at f.memory (k.registers toTask)).cr3) ∧
      Held k fromTask way toTask p f.memory ∧
      ∀ x, ¬Dead (k.stack fromTask) (p.register .rsp) x → ¬k.Image fromTask x →
        f.memory x = switched k effect locks way fromTask toTask p.memory x := by
  obtain ⟨q, entering⟩ : ∃ q, q = k.enter way fromTask toTask p := ⟨_, rfl⟩
  obtain ⟨rdi, rsi⟩ := obeys.arguments way fromTask toTask p
  obtain ⟨amount, most, down⟩ := entered_rsp obeys way fromTask toTask room
  have cr3 := obeys.cr3 way fromTask toTask p
  have entered := obeys.entered way fromTask toTask p (k.stack fromTask) (by omega)
  rw [← entering] at rdi rsi down cr3 entered
  obtain ⟨u, l, f, uTop, uTask, saved, lTop, lTask, unlocked, locked, fTask, fCr3, swapping⟩ :=
    Switch.swapRegisters_run obeys.abi q
  rw [rdi] at uTask
  rw [rsi] at lTask fTask fCr3
  -- the stack, the registers and what is shared
  have low : ∀ x, Dead (k.stack fromTask) (q.register .rsp + 8) x →
      Dead (k.stack fromTask) (p.register .rsp) x := by
    intro x dead
    unfold Dead at dead ⊢
    omega
  have stacked : ∀ x, Dead (k.stack fromTask) (p.register .rsp) x →
      (x - k.stack fromTask).toNat < k.stackSize fromTask :=
        fun x dead => Nat.lt_of_lt_of_le dead inside
  have private' : ∀ x, Dead (k.stack fromTask) (p.register .rsp) x ∨
      k.Image fromTask x → ¬shared x :=
    fun x mine => layout.shared fromTask here x (mine.imp (stacked x) id)
  -- what the two calls do to memory
  have calls : ∀ x, ¬Dead (k.stack fromTask) (q.register .rsp + 8) x →
      l.memory x = locks .unlockTask (k.registers fromTask) u.memory x ∧
        f.memory x = locks .lockTask (k.registers toTask) l.memory x := by
    intro x live
    have both := calls_spec obeys (by omega) uTop lTop unlocked locked live
    rwa [uTask, lTask] at both
  have kept : ∀ x, ¬Dead (k.stack fromTask) (q.register .rsp + 8) x → ¬shared x →
      f.memory x = u.memory x := by
    intro x live mine
    obtain ⟨unlocks, locks'⟩ := calls x live
    rw [locks', (obeys.locked _ _).only _ x mine, unlocks, (obeys.locked _ _).only _ x mine]
  have saves : ∀ x, ¬Dead (k.stack fromTask) (q.register .rsp + 8) x → ¬k.Image fromTask x →
      u.memory x = q.memory x := by
    intro x live away
    rw [saved]
    exact Switch.savedWords_outside q (le_of_returned (by omega) live)
      (by rw [rdi]; exact Nat.not_lt.mp away)
  refine ⟨f, by rw [← entering, swapping], fTask, cr3 ▸ fCr3, ⟨?_, ?_⟩, fun x live away => ?_⟩
  · have apart : Apart (q.register .rsp) 8 (q.register .rdi) registersSize := by
      have beside :
          Apart (q.register .rsp + 8 - BitVec.ofNat 64 8) 8 (k.registers fromTask) registersSize :=
        layout.beside here (by omega) (by omega) (by decide)
      rwa [rdi, ← show q.register .rsp + 8 - BitVec.ofNat 64 8 = q.register .rsp by grind]
    have standing := Switch.savedWords_stand q apart
    rw [rdi, ← saved] at standing
    rw [← entering, ← standing]
    refine at_congr fun x near => kept x (fun dead => ?_) (private' x (.inr near))
    exact layout.image fromTask here x (stacked x (low x dead)) near
  · intro x dead live
    rw [← entering] at live ⊢
    rw [kept x live (private' x (.inl dead)),
      saves x live (layout.image fromTask here x (stacked x dead))]
  · -- one effect after the other
    have first : ∀ y, ¬(Dead (k.stack fromTask) (p.register .rsp) y ∨ k.Image fromTask y) →
        u.memory y = effect way fromTask toTask p.memory y := by
      intro y outside
      obtain ⟨above, beside⟩ := not_or.mp outside
      rw [saves y (fun dead => above (low y dead)) beside, entered y above]
    have second : ∀ y, ¬(Dead (k.stack fromTask) (p.register .rsp) y ∨ k.Image fromTask y) →
        l.memory y = locks .unlockTask (k.registers fromTask)
          (effect way fromTask toTask p.memory) y := by
      intro y outside
      rw [(calls y fun dead => outside (.inl (low y dead))).1]
      exact (obeys.locked _ _).agree private' first outside
    rw [(calls x fun dead => live (low x dead)).2]
    exact (obeys.locked _ _).agree private' second (not_or.mpr ⟨live, away⟩)

/-- The new task's registers are loaded, and the old task is held. -/
theorem swap_spec (way : Way) (obeys : Obeys k depth shared services effect locks)
    (layout : k.Layout shared alive) (here : alive fromTask) (there : alive toTask)
    (other : fromTask ≠ toTask) (room : 2 * depth ≤ (p.register .rsp - k.stack fromTask).toNat)
    (inside : (p.register .rsp - k.stack fromTask).toNat ≤ k.stackSize fromTask) {image : Registers}
    (stands : Registers.at p.memory (k.registers toTask) = image)
    (below : 16 ≤ (image.register .rsp - k.stack toTask).toNat)
    (within : (image.register .rsp - k.stack toTask).toNat ≤ k.stackSize toTask)
    (same : p.cr3 = image.cr3) :
    ∃ r, Switch.swapRegisters k.calls (k.enter way fromTask toTask p) = r ∧
      r.register = image.register ∧ r.rip = image.rip ∧ r.rflags = Flags.load image.rflags ∧
      r.cr3 = image.cr3 ∧
      Held k fromTask way toTask p r.memory ∧
      ∀ x, ¬Dead (k.stack fromTask) (p.register .rsp) x → ¬k.Image fromTask x →
        ¬Dead (k.stack toTask) (image.register .rsp) x →
        r.memory x = switched k effect locks way fromTask toTask p.memory x := by
  obtain ⟨f, swapping, rdi, cr3, held, seen⟩ := saved_spec way toTask obeys layout here room inside
  have loaded : Registers.at f.memory (f.register .rdi) = image := by
    rw [rdi, ← stands]
    refine at_congr fun x near => ?_
    have foreign : ¬k.Owns fromTask x :=
      fun ours => layout.apart fromTask toTask here there other x ours (.inr near)
    rw [seen x (fun dead => foreign (.inl (Nat.lt_of_lt_of_le dead inside))) fun ours =>
      foreign (.inr ours), (switched_confined obeys _ _ _).only _ x
        (layout.shared toTask there x (.inr near))]
  have beside : Apart (image.register .rsp - 16) 16 (f.register .rdi) registersSize := by
    rw [rdi]
    exact layout.beside there below within (by decide)
  obtain ⟨r, loading, register, rCr3, rip, rflags⟩ := Switch.run_loadCode k.calls f loaded beside
  have written : ∀ x, ¬Dead (k.stack toTask) (image.register .rsp) x → r.memory x = f.memory x := by
    intro x live
    rw [← loading]
    refine Switch.run_loadCode_memory k.calls f ?_
    rw [loaded]
    exact le_of_live below live
  refine ⟨r, swapping.trans loading, register, rip, rflags, ?_, held.congr inside fun x ours => ?_,
    fun x live away low => ?_⟩
  · rw [rdi] at loaded
    rw [rCr3]
    rcases cr3 with old | new
    · rw [old, same]
    · rw [new, loaded]
  · refine written x fun dead => layout.apart fromTask toTask here there other x ours (.inl ?_)
    exact Nat.lt_of_lt_of_le dead within
  · rw [written x low, seen x live away]

end Switch

/-! ## Where a stopped task goes on -/

/-- The address space and the segments that all tasks have. -/
structure Plain (root : Word) (ss : BitVec 16) (c : Cpu) : Prop where
  cr3 : c.cr3 = root
  cs : c.cs = 8
  ss : c.ss = ss

/-- What stands in memory for a task that is stopped. -/
inductive Ready (k : Code T) (depth : Nat) (root : Word) (ss : BitVec 16) (task : T)
    (memory : Store) : Stop → Prop where
  | created {image : Registers} (stands : Registers.at memory (k.registers task) = image)
      (cr3 : image.cr3 = root) (room : 16 ≤ (image.register .rsp - k.stack task).toNat) :
        Ready k depth root ss task memory (.created image)
  | interrupted {c e : Cpu} {number : Word} {toTask : T} (plain : Plain root ss c)
      (room : 15 + 8 * 16 + 2 * depth ≤ (c.register .rsp - k.stack task).toNat)
      (rsp : e.register .rsp = c.low none [number]) (cr3 : e.cr3 = root)
      (kept : ∀ name ∈ [Register.rbx, .r12, .r13, .r14, .r15], e.register name = c.register name)
      (words : memory.Stacked (c.low none [number]) (c.words none [number]).reverse)
      (held : Held k task .handleInterrupt toTask e.toProcessor memory) :
      Ready k depth root ss task memory (.interrupted (context c))
  | yielded {c : Cpu} {toTask : T} {returnAddress : Word} (plain : Plain root ss c)
      (room : 2 * depth ≤ (c.register .rsp - k.stack task).toNat)
      (small : (c.register .rsp - k.stack task).toNat + 8 < 2 ^ 64)
      (top : memory.read (c.register .rsp) = returnAddress)
      (held : Held k task .yield toTask c.toProcessor memory) :
      Ready k depth root ss task memory (.yielded (context c) returnAddress)

section Ready

variable {k : Code T} {depth : Nat} {shared : Word → Prop} {services : BitVec 8 → Store → Store}
  {effect : Way → T → T → Store → Store} {locks : Switch.Function → Word → Store → Store}
  {root : Word} {ss : BitVec 16} {task : T} {memory other : Store} {stop : Stop}

theorem toNat_above {base pointer : Word} (small : (pointer - base).toNat + 8 < 2 ^ 64) :
    (pointer + 8 - base).toNat = (pointer - base).toNat + 8 := by
  have regroup : pointer + 8 - base = pointer - base + 8 := by grind
  rw [regroup, BitVec.toNat_add_of_lt (by simpa using small)]
  rfl

/-- The room of an interrupted task, as `toNat_low` wants it. -/
theorem low_room {c : Cpu} {base : Word} (number : Word)
    (room : 15 + 8 * 16 + 2 * depth ≤ (c.register .rsp - base).toNat) :
    15 + 8 * (c.words none [number]).length ≤ (c.register .rsp - base).toNat ∧
      2 * depth ≤ (c.low none [number] - base).toNat := by
  have sixteen : (c.words none [number]).length = 16 := rfl
  have enough : 15 + 8 * (c.words none [number]).length ≤ (c.register .rsp - base).toNat := by omega
  obtain ⟨gap, small, -, low⟩ := toNat_low enough
  exact ⟨enough, by omega⟩

/-- The registers to be loaded. -/
theorem Ready.image (obeys : Obeys k depth shared services effect locks)
    (ready : Ready k depth root ss task memory stop) :
    16 ≤ ((Registers.at memory (k.registers task)).register .rsp - k.stack task).toNat ∧
      ((Registers.at memory (k.registers task)).register .rsp - k.stack task).toNat ≤
        (stop.rsp - k.stack task).toNat ∧
      (Registers.at memory (k.registers task)).cr3 = root := by
  cases ready with
  | created stands cr3 room =>
      rw [stands]
      exact ⟨room, Nat.le_refl _, cr3⟩
  | @interrupted c e number toTask plain room rsp cr3 kept words held =>
      obtain ⟨enough, deep⟩ := low_room number room
      obtain ⟨gap, small, -, low⟩ := toNat_low enough
      rw [← rsp] at deep low
      obtain ⟨amount, most, down⟩ := entered_rsp obeys .handleInterrupt task toTask deep
      rw [held.image]
      change 16 ≤ ((k.enter .handleInterrupt task toTask e.toProcessor).register .rsp + 8 -
        k.stack task).toNat ∧
        ((k.enter .handleInterrupt task toTask e.toProcessor).register .rsp + 8 -
          k.stack task).toNat ≤
          (c.register .rsp - k.stack task).toNat ∧
          (k.enter .handleInterrupt task toTask e.toProcessor).cr3 = root
      exact ⟨by omega, by omega, (obeys.cr3 _ _ _ _).trans cr3⟩
  | @yielded c toTask returnAddress plain room small top held =>
      obtain ⟨amount, most, down⟩ := entered_rsp obeys .yield task toTask room
      rw [held.image]
      change 16 ≤ ((k.enter .yield task toTask c.toProcessor).register .rsp + 8 -
        k.stack task).toNat ∧
        ((k.enter .yield task toTask c.toProcessor).register .rsp + 8 - k.stack task).toNat ≤
          (c.register .rsp + 8 - k.stack task).toNat ∧
          (k.enter .yield task toTask c.toProcessor).cr3 = root
      exact ⟨by omega, by rw [toNat_above small]; omega, (obeys.cr3 _ _ _ _).trans plain.cr3⟩

/-- The word at the stack pointer is below the word after it. -/
theorem dead_word {base pointer x : Word} (small : (pointer - base).toNat + 8 < 2 ^ 64)
    (near : (x - pointer).toNat < 8) : Dead base (pointer + 8) x ∧ ¬Dead base pointer x := by
  have regroup : x - base = x - pointer + (pointer - base) := by grind
  have sum : (x - base).toNat = (x - pointer).toNat + (pointer - base).toNat := by
    rw [regroup, BitVec.toNat_add_of_lt (by omega)]
  unfold Dead
  rw [toNat_above small]
  omega

theorem dead_above {base pointer x : Word} (small : (pointer - base).toNat + 8 < 2 ^ 64)
    (dead : Dead base pointer x) :
    Dead base (pointer + 8) x := by
  unfold Dead at dead ⊢
  rw [toNat_above small]
  omega

/-- What stands for a task only depends on what is hidden because of it. -/
theorem Ready.congr (ready : Ready k depth root ss task memory stop)
    (own : ∀ x, k.Image task x → other x = memory x)
    (below : ∀ x, Dead (k.stack task) stop.rsp x → other x = memory x) :
    Ready k depth root ss task other stop := by
  have image : Registers.at other (k.registers task) = Registers.at memory (k.registers task) :=
    at_congr own
  cases ready with
  | created stands cr3 room => exact .created (image.trans stands) cr3 room
  | @interrupted c e number toTask plain room rsp cr3 kept words held =>
      obtain ⟨enough, -⟩ := low_room number room
      have deep : ∀ x, Dead (k.stack task) (e.register .rsp) x →
          Dead (k.stack task) (c.register .rsp) x := by
        intro x dead
        by_contra live
        exact low_live enough live (rsp ▸ dead)
      refine .interrupted plain room rsp cr3 kept ?_ ⟨image.trans held.image, fun x dead live => ?_⟩
      · have fits : 8 * (c.words none [number]).reverse.length ≤ 2 ^ 64 :=
          show 8 * 16 ≤ 2 ^ 64 by decide
        refine words.congr fits fun x inside => below x ?_
        rw [List.length_reverse] at inside
        exact (words_inside enough inside).1
      · rw [below x (deep x dead), held.frame x dead live]
  | @yielded c toTask returnAddress plain room small top held =>
      refine .yielded plain room small ?_ ⟨image.trans held.image, fun x dead live => ?_⟩
      · rw [← top]
        exact Store.read_congr fun x near => below x (dead_word small near).1
      · rw [below x (dead_above small dead), held.frame x dead live]

theorem Held.returned {way : Way} {toTask : T} {p r : Switch.Processor}
    (held : Held k task way toTask p memory) {image : Registers}
    (stands : Registers.at memory (k.registers task) = image)
    (register : r.register = image.register) (rip : r.rip = image.rip)
    (rflags : r.rflags = Flags.load image.rflags)
    (same : ∀ x, Dead (k.stack task) (p.register .rsp) x →
      ¬Dead (k.stack task) (image.register .rsp) x → r.memory x = memory x) :
        Returned (k.stack task) p (k.enter way task toTask p) r := by
  cases held.image.symm.trans stands
  refine ⟨fun name member => ?_, ?_, rip, rflags.trans (load_word _), fun x dead live => ?_⟩
  · rw [register]
    refine if_neg ?_
    rintro rfl
    exact absurd member (by decide)
  · rw [register]
    rfl
  · rw [same x dead live, held.frame x dead live]

/-- The C++ code does not change the address space. -/
theorem Held.cr3 (obeys : Obeys k depth shared services effect locks) {way : Way} {toTask : T}
    {p : Switch.Processor} (held : Held k task way toTask p memory) {image : Registers}
    (stands : Registers.at memory (k.registers task) = image) : image.cr3 = p.cr3 := by
  cases held.image.symm.trans stands
  exact obeys.cr3 way task toTask p

/-- The stack pointer of the registers that were saved is below that of who entered the code. -/
theorem Held.live (obeys : Obeys k depth shared services effect locks) {way : Way} {toTask : T}
    {p : Switch.Processor} (held : Held k task way toTask p memory)
    (room : 2 * depth ≤ (p.register .rsp - k.stack task).toNat) {image : Registers}
    (stands : Registers.at memory (k.registers task) = image) {x : Word}
    (live : ¬Dead (k.stack task) (p.register .rsp) x) :
    ¬Dead (k.stack task) (image.register .rsp) x := by
  cases held.image.symm.trans stands
  obtain ⟨amount, most, down⟩ := entered_rsp obeys way task toTask room
  change ¬Dead (k.stack task) ((k.enter way task toTask p).register .rsp + 8) x
  unfold Dead at live ⊢
  omega

/-- The processor goes on with a task that was stopped, once its registers are loaded. -/
theorem goOn_spec (obeys : Obeys k depth shared services effect locks)
    (ready : Ready k depth root ss task memory stop) {r : Cpu} {image : Registers}
    (stands : Registers.at memory (k.registers task) = image)
    (register : r.register = image.register) (rip : r.rip = image.rip)
    (rflags : r.rflags = Flags.load image.rflags) (cr3 : r.cr3 = image.cr3) (cs : r.cs = 8)
    (segment : r.ss = ss)
    (same : ∀ x, Dead (k.stack task) stop.rsp x → ¬Dead (k.stack task) (image.register .rsp) x →
      r.memory x = memory x) :
    stop.Resumes (k.goOn stop.way r) ∧ Plain root ss (k.goOn stop.way r) ∧
      ∀ x, ¬Dead (k.stack task) stop.rsp x → (k.goOn stop.way r).memory x = r.memory x := by
  cases ready with
  | created own root' room =>
      cases own.symm.trans stands
      exact ⟨⟨register, rip, rflags⟩, ⟨cr3.trans root', cs, segment⟩, fun _ _ => rfl⟩
  | @interrupted c e number toTask plain room rsp cr3' kept words held =>
      obtain ⟨enough, deep⟩ := low_room number room
      rw [← rsp] at deep
      have returned := held.returned stands register rip rflags fun x dead live => same x (by
        by_contra above
        exact low_live enough above (rsp ▸ dead)) live
      obtain ⟨callee, pointer, space, memory', -⟩ := obeys.left _ _ _ _ _ _ (by omega) returned
      obtain ⟨f, leaving⟩ : ∃ f, f = r.on (k.leave .handleInterrupt) := ⟨_, rfl⟩
      have registers : ∀ name ∈ [Register.rbx, .r12, .r13, .r14, .r15], f.register name =
          c.register name := by
        intro name member
        rw [leaving]
        exact (callee name (by revert member; cases name <;> decide)).trans (kept name member)
      have stacked : f.memory.Stacked (f.register .rsp) (c.words none [number]).reverse := by
        have fits : 8 * (c.words none [number]).reverse.length ≤ 2 ^ 64 :=
          show 8 * 16 ≤ 2 ^ 64 by decide
        rw [leaving]
        change Store.Stacked _ ((k.leave .handleInterrupt r.toProcessor).register .rsp) _
        rw [pointer, rsp]
        refine words.congr fits fun x inside => ?_
        rw [List.length_reverse] at inside
        obtain ⟨dead, live⟩ := words_inside enough inside
        rw [← rsp] at live
        exact (memory' x live).trans (same x dead (held.live obeys deep stands live))
      have back : interruptExit.foldl (Cpu.execute k.handlers) f = _ :=
        foldl_leave stacked registers
      have root' : f.cr3 = c.cr3 := by
        rw [leaving, plain.cr3, ← cr3', ← held.cr3 obeys stands]
        exact space.trans cr3
      have gone :
          k.goOn (some .handleInterrupt) r = { c with cr3 := f.cr3, memory := f.memory } := by
        rw [← back, leaving]
        rfl
      change Stop.Resumes (k.goOn (some .handleInterrupt) r) _ ∧
        Plain root ss (k.goOn (some .handleInterrupt) r) ∧
        ∀ x, _ → (k.goOn (some .handleInterrupt) r).memory x = _
      rw [gone, root']
      refine ⟨rfl, ⟨plain.cr3, plain.cs, plain.ss⟩, fun x live => ?_⟩
      change f.memory x = r.memory x
      rw [leaving]
      exact memory' x (rsp ▸ low_live enough live)
  | @yielded c toTask returnAddress plain room small top held =>
      have returned := held.returned stands register rip rflags fun x dead live =>
        same x (dead_above small dead) live
      obtain ⟨callee, pointer, space, memory', enabled⟩ :=
        obeys.left _ _ _ _ _ _ (by omega) returned
      obtain ⟨f, leaving⟩ : ∃ f, f = k.leave .yield r.toProcessor := ⟨_, rfl⟩
      rw [← leaving] at callee pointer space memory' enabled
      have gone : k.goOn (some .yield) r = r.on fun _ => { f.drop with rip := f.top } := by
        rw [leaving]
        rfl
      have address : f.top = returnAddress := by
        rw [← top, Switch.Processor.top, pointer]
        refine Store.read_congr fun x near => ?_
        obtain ⟨dead, live⟩ := dead_word small near
        exact (memory' x live).trans (same x dead (held.live obeys room stands live))
      have root' : f.cr3 = root := by
        rw [← plain.cr3, ← held.cr3 obeys stands]
        exact space.trans cr3
      change Stop.Resumes (k.goOn (some .yield) r) _ ∧ Plain root ss (k.goOn (some .yield) r) ∧
        ∀ x, _ → (k.goOn (some .yield) r).memory x = _
      rw [gone]
      refine ⟨⟨fun name member => ?_, ?_, address, enabled rfl⟩, ⟨root', cs, segment⟩,
        fun x live => ?_⟩
      · have other : name ≠ .rsp := by
          rintro rfl
          exact absurd member (by decide)
        exact (Switch.Processor.drop_of_ne f other).trans (callee name member)
      · exact (Switch.Processor.drop_rsp f).trans (by rw [pointer]; rfl)
      · exact memory' x fun dead => live (dead_above small dead)

/-- A whole switch: the new task goes on where it was stopped, and the old one is held. -/
theorem switch_spec (way : Way) (obeys : Obeys k depth shared services effect locks)
    {alive : T → Prop} (layout : k.Layout shared alive) {fromTask toTask : T}
    (here : alive fromTask) (there : alive toTask) (apart : fromTask ≠ toTask) {c : Cpu}
    (plain : Plain root ss c) (room : 2 * depth ≤ (c.register .rsp - k.stack fromTask).toNat)
    (inside : (c.register .rsp - k.stack fromTask).toNat ≤ k.stackSize fromTask)
    (ready : Ready k depth root ss toTask c.memory stop)
    (within : (stop.rsp - k.stack toTask).toNat ≤ k.stackSize toTask) :
    ∃ d, k.switch way fromTask toTask stop c = d ∧ stop.Resumes d ∧ Plain root ss d ∧
      Held k fromTask way toTask c.toProcessor d.memory ∧
      ∀ x, ¬Dead (k.stack fromTask) (c.register .rsp) x → ¬k.Image fromTask x →
        ¬Dead (k.stack toTask) stop.rsp x →
        d.memory x = switched k effect locks way fromTask toTask c.memory x := by
  obtain ⟨below, above, cr3⟩ := ready.image obeys
  obtain ⟨r, swapping, register, rip, rflags, space, held, seen⟩ :=
    swap_spec way obeys layout here there apart room inside rfl below (by omega)
      (by rw [plain.cr3, cr3])
  obtain ⟨image, named⟩ : ∃ image, image = Registers.at c.memory (k.registers toTask) := ⟨_, rfl⟩
  rw [← named] at register rip rflags space seen above below
  have own : ∀ x, k.Owns toTask x → ¬Dead (k.stack toTask) (image.register .rsp) x →
      r.memory x = c.memory x := by
    intro x theirs live
    have foreign := fun mine => layout.apart fromTask toTask here there apart x mine theirs
    rw [seen x (fun dead => foreign (.inl (Nat.lt_of_lt_of_le dead inside)))
      (fun mine => foreign (.inr mine)) live,
      (switched_confined obeys _ _ _).only _ x (layout.shared toTask there x theirs)]
  have inStack : ∀ x, Dead (k.stack toTask) stop.rsp x → k.Owns toTask x := fun x dead =>
    .inl (Nat.lt_of_lt_of_le dead within)
  obtain ⟨e, resumed⟩ :
      ∃ e, e = (c.on (k.enter way fromTask toTask)).on (Switch.swapRegisters k.calls) := ⟨_, rfl⟩
  have processor : e.toProcessor = r := by
    rw [resumed, ← swapping]
    rfl
  have segments : e.cs = 8 ∧ e.ss = ss := by
    rw [resumed]
    exact ⟨plain.cs, plain.ss⟩
  rw [← processor] at register rip rflags space held seen own
  obtain ⟨resumes, plain', kept⟩ :=
    goOn_spec obeys ready named.symm register rip rflags space segments.1 segments.2
    fun x dead live => own x (inStack x dead) live
  rw [resumed] at resumes plain' kept
  have mine : ∀ x, k.Owns fromTask x → (k.switch way fromTask toTask stop c).memory x =
      e.memory x := by
    intro x ours
    rw [resumed]
    exact kept x fun dead => layout.apart fromTask toTask here there apart x ours (inStack x dead)
  refine ⟨_, rfl, resumes, plain', held.congr inside mine, fun x live away low => ?_⟩
  have further : ¬Dead (k.stack toTask) (image.register .rsp) x := by
    unfold Dead at low ⊢
    omega
  rw [← seen x live away further, resumed]
  exact kept x low

end Ready

/-! ## Runs -/

section Runs

variable {k : Code T} {depth : Nat} {shared : Word → Prop} {services : BitVec 8 → Store → Store}
  {effect : Way → T → T → Store → Store} {locks : Switch.Function → Word → Store → Store}
  {root : Word} {ss : BitVec 16} {w : World T} {d : Cpu}

/-- Every task that does not run can go on. -/
structure Sound (k : Code T) (depth : Nat) (shared : Word → Prop) (root : Word) (ss : BitVec 16)
    (w : World T) : Prop where
  layout : k.Layout shared w.Alive
  idle : w.stopped w.current = none
  inside : (w.cpu.register .rsp - k.stack w.current).toNat ≤ k.stackSize w.current
  within : ∀ task stop, w.stopped task = some stop →
    (stop.rsp - k.stack task).toNat ≤ k.stackSize task
  plain : Plain root ss w.cpu
  ready : ∀ task stop, w.stopped task = some stop → Ready k depth root ss task w.cpu.memory stop

/-- The processor of the task that runs is like this one. -/
structure Seen (k : Code T) (w : World T) (d : Cpu) : Prop where
  context : context d = context w.cpu
  memory : ∀ x, ¬k.Hidden w x → w.cpu.memory x = d.memory x

theorem Sound.alive_of_stopped {task : T} {stop : Stop} (waits : w.stopped task = some stop) :
    w.Alive task :=
  .inr (by rw [waits]; rfl)

theorem Sound.apart (sound : Sound k depth shared root ss w) {task : T} {stop : Stop}
    (waits : w.stopped task = some stop) : w.current ≠ task := by
  rintro rfl
  cases sound.idle.symm.trans waits

theorem Sound.owns (sound : Sound k depth shared root ss w) {x : Word} (hidden : k.Hidden w x) :
    ∃ task, w.Alive task ∧ k.Owns task x := by
  rcases hidden with (⟨task, alive, image⟩ | ⟨task, stop, waits, dead⟩) | dead
  · exact ⟨task, alive, .inr image⟩
  · exact ⟨task, Sound.alive_of_stopped waits,
      .inl (Nat.lt_of_lt_of_le dead (sound.within task stop waits))⟩
  · exact ⟨w.current, .inl rfl, .inl (Nat.lt_of_lt_of_le dead sound.inside)⟩

theorem Sound.hidden (sound : Sound k depth shared root ss w) {x : Word} (hidden : k.Hidden w x) :
    ¬shared x := by
  obtain ⟨task, alive, owns⟩ := sound.owns hidden
  exact sound.layout.shared task alive x owns

/-- What belongs to a task that does not run is none of what the running task has below
    its stack pointer. -/
theorem Sound.live (sound : Sound k depth shared root ss w) {task : T} {stop : Stop}
    (waits : w.stopped task = some stop) {x : Word} (owns : k.Owns task x) :
    ¬Dead (k.stack w.current) (w.cpu.register .rsp) x := fun dead =>
  sound.layout.apart w.current task (.inl rfl) (.inr (by rw [waits]; rfl)) (sound.apart waits) x
    (.inl (Nat.lt_of_lt_of_le dead sound.inside)) owns

/-- The tasks stay ready while nothing of theirs is written to. -/
theorem Sound.keep (sound : Sound k depth shared root ss w) {memory : Store}
    (same : ∀ x, k.Foreign w x → memory x = w.cpu.memory x) {task : T} {stop : Stop}
    (waits : w.stopped task = some stop) : Ready k depth root ss task memory stop :=
  (sound.ready task stop waits).congr
    (fun x image => same x (.inl ⟨task, Sound.alive_of_stopped waits, image⟩))
    fun x dead => same x (.inr ⟨task, stop, waits, dead⟩)

theorem Seen.plain (sound : Sound k depth shared root ss w) (seen : Seen k w d) :
    Plain root ss d := by
  have same := seen.context
  exact ⟨(congrArg Context.cr3 same).trans sound.plain.cr3,
    (congrArg Context.cs same).trans sound.plain.cs,
    (congrArg Context.ss same).trans sound.plain.ss⟩

theorem Begins.sound (begins : Begins k shared w) : Sound k depth shared w.cpu.cr3 w.cpu.ss w := by
  have absent : ∀ task stop, w.stopped task ≠ some stop := by
    intro task stop waits
    cases (begins.alone task).symm.trans waits
  have alive : ∀ task, w.Alive task → task = w.current := by
    rintro task (running | asleep)
    · exact running
    · rw [begins.alone task] at asleep
      cases asleep
  exact ⟨begins.layout.mono alive, begins.alone _, begins.inside,
    fun task stop waits => absurd waits (absent task stop), ⟨rfl, begins.cs, rfl⟩,
    fun task stop waits => absurd waits (absent task stop)⟩

/-- Where the C++ code is entered for an interrupt. -/
theorem handling_spec (linked : Linked k.text k.idtFunctions) {base : Word} {c e : Cpu}
    {vector : BitVec 8} (external : 32 ≤ vector.toNat)
    (fit : Fit (2 * depth) base shared k.idtFunctions k.idtPointer c vector)
    (called : k.handling c vector = some e) :
    ∃ number, e.register .rsp = c.low none [number] ∧
      (∀ name ∈ [Register.rbx, .r12, .r13, .r14, .r15], e.register name = c.register name) ∧
      e.memory = c.memory.pushAll c.aligned (c.words none [number]) ∧ e.cr3 = c.cr3 ∧ e.cs = 8 ∧
      e.ss = c.ss := by
  obtain ⟨stub, found, code⟩ := linked vector
  cases found.symm.trans (stubs_interrupt external)
  rw [Code.handling, fit.table, Option.map_some, Option.some.injEq, gateOf, code] at called
  obtain ⟨number, named⟩ : ∃ number : Word, number = vector.setWidth 64 := ⟨_, rfl⟩
  have entry : (Stub.interrupt number).code.takeWhile (· != .callq .handleInterrupt) =
    interruptEntry number := rfl
  rw [← named, entry] at called
  obtain ⟨enough, -⟩ := low_room number fit.room
  obtain ⟨q, entered, rsp, -, registers, memory, cr3, cs, ss⟩ :=
    foldl_call k.handlers c (gateOf k.idtFunctions vector) enough
  cases called.symm.trans entered
  refine ⟨number, rsp, fun name member => registers name ?_ ?_ ?_, memory, cr3, cs, ss⟩ <;>
  · rintro rfl
    exact absurd member (by decide)

/-- The stack of a new task is empty. -/
theorem Code.begins_rsp {task : T} (small : k.stackSize task < 2 ^ 64)
    (entrypoint argument : Word) :
    ((k.begins w task entrypoint argument).register .rsp - k.stack task).toNat =
      k.stackSize task := by
  have back :
      k.stack task + BitVec.ofNat 64 (k.stackSize task) - k.stack task =
        BitVec.ofNat 64 (k.stackSize task) := by
    grind
  change (k.stack task + BitVec.ofNat 64 (k.stackSize task) - k.stack task).toNat = k.stackSize task
  rw [back, BitVec.toNat_ofNat, Nat.mod_eq_of_lt small]

variable [DecidableEq T] {task toTask : T} {new stop : Stop} {e : Cpu}

/-- What a step of the shared processor leads to, and a step of the task's own one. -/
def Follows (k : Code T) (depth : Nat) (shared : Word → Prop) (services : BitVec 8 → Store → Store)
    (effect : Way → T → T → Store → Store) (locks : Switch.Function → Word → Store → Store)
    (root : Word) (ss : BitVec 16) (w : World T) (d : Cpu) (event : Event T)
    (w' : World T) : Prop :=
  Sound k depth shared root ss w' ∧
    ∃ d', Own k services effect locks { w with cpu := d } event { w' with cpu := d' } ∧ Seen k w' d'

theorem program_follows (sound : Sound k depth shared root ss w) (seen : Seen k w d) {c : Cpu}
    (discreet : k.Discreet w c) :
    Follows k depth shared services effect locks root ss w d .program { w with cpu := c } := by
  obtain ⟨d', step, context, memory⟩ := discreet.blind d seen.context seen.memory
  obtain ⟨cr3, cs, ss⟩ := discreet.fixed
  exact ⟨⟨sound.layout, sound.idle, discreet.inside, sound.within,
    ⟨cr3.trans sound.plain.cr3, cs.trans sound.plain.cs, ss.trans sound.plain.ss⟩,
    fun task stop waits => sound.keep discreet.kept waits⟩, d', .program step, context, memory⟩

theorem outside_follows (sound : Sound k depth shared root ss w) (seen : Seen k w d)
    (bytes : Word → Option (BitVec 8)) (away : ∀ x, k.Hidden w x → bytes x = none) :
    Follows k depth shared services effect locks root ss w d (.outside bytes)
      { w with cpu := { w.cpu with memory := overwrite bytes w.cpu.memory } } := by
  refine ⟨⟨sound.layout, sound.idle, sound.inside, sound.within,
    ⟨sound.plain.cr3, sound.plain.cs, sound.plain.ss⟩, fun task stop waits =>
      sound.keep (fun x foreign => ?_) waits⟩, _, .outside bytes, seen.context,
    fun x visible => ?_⟩
  · change (bytes x).getD (w.cpu.memory x) = w.cpu.memory x
    rw [away x (.inl foreign), Option.getD_none]
  · change (bytes x).getD (w.cpu.memory x) = (bytes x).getD (d.memory x)
    rw [seen.memory x visible]

theorem served_follows (obeys : Obeys k depth shared services effect locks)
    (sound : Sound k depth shared root ss w) (seen : Seen k w d) {c : Cpu} {vector : BitVec 8}
    (enabled : interruptible w.cpu.rflags = true) (external : 32 ≤ vector.toNat)
    (fit : Fit (2 * depth) (k.stack w.current) shared k.idtFunctions k.idtPointer w.cpu vector)
    (taken : w.cpu.interrupt? k.handlers k.text k.idtPointer vector = some c) :
    Follows k depth shared services effect locks root ss w d (.served vector)
      { w with cpu := c } := by
  have serves := obeys.serves w.current
  obtain ⟨unchanged, served⟩ := interrupt_spec serves obeys.linked external fit taken
  obtain ⟨memory, named⟩ : ∃ memory, memory = c.memory := ⟨_, rfl⟩
  rw [← named] at unchanged served
  subst unchanged
  have kept : ∀ x, k.Foreign w x → memory x = w.cpu.memory x := by
    intro x foreign
    have live : ¬Dead (k.stack w.current) (w.cpu.register .rsp) x := by
      rcases foreign with ⟨task, alive, image⟩ | ⟨task, stop, waits, dead⟩
      · intro dead
        by_cases own : w.current = task
        · subst own
          exact sound.layout.image _ alive x (Nat.lt_of_lt_of_le dead sound.inside) image
        · exact sound.layout.apart w.current task (.inl rfl) alive own x
            (.inl (Nat.lt_of_lt_of_le dead sound.inside)) (.inr image)
      · exact sound.live waits (.inl (Nat.lt_of_lt_of_le dead (sound.within task stop waits)))
    rw [served x live, (serves.confined vector).only _ x (sound.hidden (.inl foreign))]
  have flags : d.rflags = w.cpu.rflags := congrArg Context.rflags seen.context
  refine ⟨⟨sound.layout, sound.idle, sound.inside, sound.within,
    ⟨sound.plain.cr3, sound.plain.cs, sound.plain.ss⟩, fun task stop waits =>
      sound.keep kept waits⟩, _, .served (flags ▸ enabled) external, seen.context,
    fun x visible => ?_⟩
  change memory x = services vector d.memory x
  rw [served x fun dead => visible (.inr dead)]
  exact (serves.confined vector).agree (fun y hidden => sound.hidden hidden) seen.memory visible

/-- Who is stopped when one more task is. -/
theorem update_some_iff {stopped : T → Option Stop} {other : T} {place : Stop} :
    Function.update stopped task (some new) other = some place ↔
      other = task ∧ place = new ∨ other ≠ task ∧ stopped other = some place := by
  by_cases here : other = task
  · subst here
    simp [eq_comm]
  · simp [here]

/-- Who is stopped when one task is not any more. -/
theorem update_none_iff {stopped : T → Option Stop} {other : T} {place : Stop} :
    Function.update stopped task none other = some place ↔
      other ≠ task ∧ stopped other = some place := by
  by_cases here : other = task
  · subst here
    simp
  · simp [here]

section Created

variable {w' : World T} (current : w'.current = w.current)
  (stopped : w'.stopped = Function.update w.stopped task (some new))

include current stopped

theorem created_alive (other : T) : w'.Alive other ↔ w.Alive other ∨ other = task := by
  unfold World.Alive
  rw [current, stopped]
  by_cases here : other = task
  · subst here
    simp
  · simp [here]

theorem created_hidden (fresh : ¬w.Alive task)
    (register : w'.cpu.register = w.cpu.register) {x : Word} (hidden : k.Hidden w x) :
    k.Hidden w' x := by
  rcases hidden with (⟨other, there, image⟩ | ⟨other, stop, waits, dead⟩) | dead
  · exact .inl (.inl ⟨other, (created_alive current stopped other).mpr (.inl there), image⟩)
  · refine .inl (.inr ⟨other, stop, ?_, dead⟩)
    rw [stopped, update_some_iff]
    refine .inr ⟨?_, waits⟩
    rintro rfl
    exact fresh (Sound.alive_of_stopped waits)
  · refine .inr ?_
    rw [current, register]
    exact dead

end Created

theorem created_follows (sound : Sound k depth shared root ss w) (seen : Seen k w d) {task : T}
    (entrypoint argument : Word) (fresh : ¬w.Alive task) (room : 16 ≤ k.stackSize task)
    (layout : k.Layout shared fun other => w.Alive other ∨ other = task) :
    Follows k depth shared services effect locks root ss w d (.created task entrypoint argument)
      { w with
        cpu := { w.cpu with
          memory :=
            w.cpu.memory.writeAll (imageWords (k.registers task)
              (k.begins w task entrypoint argument)) }
        stopped := Function.update w.stopped task
            (some (.created (k.begins w task entrypoint argument))) } := by
  obtain ⟨image, named⟩ : ∃ image, image = k.begins w task entrypoint argument := ⟨_, rfl⟩
  have cr3 : d.cr3 = w.cpu.cr3 := congrArg Context.cr3 seen.context
  have same : k.begins { w with cpu := d } task entrypoint argument = image := by
    rw [named, Code.begins, Code.begins, cr3]
  have size : (image.register .rsp - k.stack task).toNat = k.stackSize task := by
    rw [named]
    exact k.begins_rsp (layout.small task (.inr rfl)) entrypoint argument
  rw [← named]
  obtain ⟨w', made⟩ : ∃ w' : World T, w' = { w with
      cpu := { w.cpu with memory := w.cpu.memory.writeAll (imageWords (k.registers task) image) }
      stopped := Function.update w.stopped task (some (.created image)) } := ⟨_, rfl⟩
  rw [← made]
  have stopped : w'.stopped = Function.update w.stopped task (some (.created image)) := by rw [made]
  have memory : w'.cpu.memory = w.cpu.memory.writeAll (imageWords (k.registers task) image) := by
    rw [made]
  have rest : context w'.cpu = context w.cpu ∧ w'.current = w.current := by
    rw [made]
    exact ⟨rfl, rfl⟩
  have register : w'.cpu.register = w.cpu.register := congrArg Context.register rest.1
  have apart : w.current ≠ task := by
    rintro rfl
    exact fresh (.inl rfl)
  have alive := created_alive rest.2 stopped
  have outside : ∀ x, ¬k.Image task x → w'.cpu.memory x = w.cpu.memory x := by
    intro x away
    rw [memory]
    exact imageWords_outside _ image (Nat.not_lt.mp away)
  have step : Own k services effect locks { w with cpu := d } (.created task entrypoint argument)
      { w' with cpu := d } := by
    have begun :
        Own k services effect locks { w with cpu := d } (.created task entrypoint argument) _ :=
      .created entrypoint argument fresh
    rw [same] at begun
    rw [made]
    exact begun
  refine ⟨⟨?_, ?_, ?_, ?_, ?_, ?_⟩, d, step, seen.context.trans rest.1.symm, fun x visible => ?_⟩
  · have same : w'.Alive = fun other => w.Alive other ∨ other = task :=
      funext fun other => propext (alive other)
    rw [same]
    exact layout
  · rw [rest.2, stopped, Function.update_of_ne apart, sound.idle]
  · rw [rest.2, register]
    exact sound.inside
  · intro other stop waits
    rw [stopped, update_some_iff] at waits
    rcases waits with ⟨rfl, rfl⟩ | ⟨-, before⟩
    · exact Nat.le_of_eq size
    · exact sound.within other stop before
  · exact ⟨(congrArg Context.cr3 rest.1).trans sound.plain.cr3,
      (congrArg Context.cs rest.1).trans sound.plain.cs,
      (congrArg Context.ss rest.1).trans sound.plain.ss⟩
  · intro other stop waits
    rw [stopped, update_some_iff] at waits
    rcases waits with ⟨rfl, rfl⟩ | ⟨different, before⟩
    · refine .created ?_ ?_ (by rw [size]; exact room)
      · rw [memory]
        exact imageWords_stand _ _ image
      · rw [named]
        exact sound.plain.cr3
    · have away : ∀ x, k.Owns other x → ¬k.Image task x := fun x theirs new =>
        layout.apart other task (.inl (Sound.alive_of_stopped before)) (.inr rfl) different x
          theirs (.inr new)
      exact (sound.ready other stop before).congr
          (fun x own => outside x (away x (.inr own))) fun x dead =>
        outside x (away x (.inl (Nat.lt_of_lt_of_le dead (sound.within other stop before))))
  · have old : ¬k.Image task x :=
      fun new => visible (.inl (.inl ⟨task, (alive task).mpr (.inr rfl), new⟩))
    rw [outside x old]
    exact seen.memory x fun before => visible (created_hidden rest.2 stopped fresh register before)

theorem destroyed_follows (sound : Sound k depth shared root ss w) (seen : Seen k w d) {task : T}
    (waits : (w.stopped task).isSome) :
    Follows k depth shared services effect locks root ss w d (.destroyed task)
      { w with stopped := Function.update w.stopped task none } := by
  obtain ⟨stop, found⟩ := Option.isSome_iff_exists.mp waits
  obtain ⟨w', made⟩ :
      ∃ w' : World T, w' = { w with stopped := Function.update w.stopped task none } := ⟨_, rfl⟩
  rw [← made]
  have stopped : w'.stopped = Function.update w.stopped task none := by rw [made]
  have rest : w'.cpu = w.cpu ∧ w'.current = w.current := by
    rw [made]
    exact ⟨rfl, rfl⟩
  have others : ∀ other stop, w'.stopped other = some stop →
      other ≠ task ∧ w.stopped other = some stop := by
    intro other stop waits
    rwa [stopped, update_none_iff] at waits
  have alive : ∀ other, w'.Alive other → w.Alive other := by
    rintro other (current | asleep)
    · exact .inl (current.trans rest.2)
    · obtain ⟨stop, waits⟩ := Option.isSome_iff_exists.mp asleep
      exact Sound.alive_of_stopped (others other stop waits).2
  have hidden : ∀ x, ¬k.Owns task x → k.Hidden w x → k.Hidden w' x := by
    rintro x free ((⟨other, there, image⟩ | ⟨other, stop, asleep, dead⟩) | dead)
    · refine .inl (.inl ⟨other, ?_, image⟩)
      have different : other ≠ task := by
        rintro rfl
        exact free (.inr image)
      unfold World.Alive
      rw [rest.2, stopped, Function.update_of_ne different]
      exact there
    · refine .inl (.inr ⟨other, stop, ?_, dead⟩)
      have different : other ≠ task := by
        rintro rfl
        exact free (.inl (Nat.lt_of_lt_of_le dead (sound.within _ stop asleep)))
      rw [stopped, Function.update_of_ne different, asleep]
    · refine .inr ?_
      rw [rest.1, rest.2]
      exact dead
  classical
  have step : Own k services effect locks { w with cpu := d } (.destroyed task)
      { w' with
        cpu := { d with
          memory := fun x => if k.Owns task x then w.cpu.memory x else d.memory x } } := by
    rw [made]
    exact .destroyed waits fun x free => if_neg free
  refine ⟨⟨sound.layout.mono alive, ?_, ?_,
    fun other stop waits => sound.within other stop (others other stop waits).2, ?_,
    fun other stop waits => ?_⟩, _, step, ?_, fun x visible => ?_⟩
  · rw [rest.2, stopped]
    by_cases here : w.current = task
    · rw [here, Function.update_self]
    · rw [Function.update_of_ne here, sound.idle]
  · rw [rest.1, rest.2]
    exact sound.inside
  · rw [rest.1]
    exact sound.plain
  · rw [rest.1]
    exact sound.ready other stop (others other stop waits).2
  · rw [rest.1]
    exact seen.context
  · rw [rest.1]
    change w.cpu.memory x = if k.Owns task x then w.cpu.memory x else d.memory x
    split_ifs with owns
    · rfl
    · exact seen.memory x fun before => visible (hidden x owns before)

theorem Stop.Resumes.rsp {stop : Stop} {c : Cpu} (resumes : stop.Resumes c) :
    c.register .rsp = stop.rsp := by
  cases stop with
  | created image => exact congrFun resumes.1 .rsp
  | interrupted place => exact congrFun (congrArg Context.register resumes) .rsp
  | yielded place returnAddress => exact resumes.2.1

/-- Where a task goes on does not depend on memory. -/
theorem Stop.Resumes.congr {stop : Stop} {c d : Cpu} (resumes : stop.Resumes c)
    (same : Multiplexing.context d = Multiplexing.context c) :
    stop.Resumes d := by
  have register : d.register = c.register := congrArg Context.register same
  have rip : d.rip = c.rip := congrArg Context.rip same
  have rflags : d.rflags = c.rflags := congrArg Context.rflags same
  cases stop with
  | created image => exact ⟨register.trans resumes.1, rip.trans resumes.2.1,
      rflags.trans resumes.2.2⟩
  | interrupted place => exact same.trans resumes
  | yielded place returnAddress =>
      obtain ⟨callee, rsp, address, enabled⟩ := resumes
      exact ⟨fun name member => by rw [register, callee name member], by rw [register, rsp],
        rip.trans address, by rw [rflags, enabled]⟩

/-- Who is stopped after a switch. -/
theorem World.goesTo_stopped (apart : w.current ≠ toTask) {other : T} {place : Stop} :
    (w.goesTo new toTask e).stopped other = some place ↔
      other = w.current ∧ place = new ∨ other ≠ w.current ∧ other ≠ toTask ∧ w.stopped other =
        some place := by
  change Function.update (Function.update w.stopped w.current (some new)) toTask none other =
    some place ↔ _
  rw [update_none_iff, update_some_iff]
  constructor
  · rintro ⟨gone, ⟨here, last⟩ | ⟨here, before⟩⟩
    · exact .inl ⟨here, last⟩
    · exact .inr ⟨here, gone, before⟩
  · rintro (⟨rfl, last⟩ | ⟨here, gone, before⟩)
    · exact ⟨apart, .inl ⟨rfl, last⟩⟩
    · exact ⟨gone, .inr ⟨here, before⟩⟩

theorem Sound.goesTo_alive (sound : Sound k depth shared root ss w)
    (waits : w.stopped toTask = some stop) :
    (w.goesTo new toTask e).Alive = w.Alive := by
  have apart := sound.apart waits
  funext other
  refine propext ⟨?_, ?_⟩
  · rintro (running | asleep)
    · rw [running]
      exact Sound.alive_of_stopped waits
    · obtain ⟨place, found⟩ := Option.isSome_iff_exists.mp asleep
      rcases (World.goesTo_stopped apart).mp found with ⟨here, -⟩ | ⟨-, -, before⟩
      · exact .inl here
      · exact Sound.alive_of_stopped before
  · rintro (rfl | asleep)
    · exact Sound.alive_of_stopped ((World.goesTo_stopped apart).mpr (.inl ⟨rfl, rfl⟩))
    · obtain ⟨place, found⟩ := Option.isSome_iff_exists.mp asleep
      by_cases gone : other = toTask
      · exact .inl gone
      · exact Sound.alive_of_stopped
          ((World.goesTo_stopped apart).mpr (.inr ⟨(sound.apart found).symm, gone, found⟩))

/-- What was hidden from the one task is hidden from the other. -/
theorem Sound.goesTo_hidden (sound : Sound k depth shared root ss w)
    (waits : w.stopped toTask = some stop) (rsp : e.register .rsp = stop.rsp)
    (higher : (w.cpu.register .rsp - k.stack w.current).toNat ≤ (new.rsp - k.stack w.current).toNat)
    {x : Word} (hidden : k.Hidden w x) : k.Hidden (w.goesTo new toTask e) x := by
  have apart := sound.apart waits
  rcases hidden with (⟨other, living, image⟩ | ⟨other, place, asleep, dead⟩) | dead
  · exact .inl (.inl ⟨other, sound.goesTo_alive waits ▸ living, image⟩)
  · by_cases gone : other = toTask
    · subst gone
      cases asleep.symm.trans waits
      refine .inr ?_
      change Dead (k.stack other) (e.register .rsp) x
      rw [rsp]
      exact dead
    · exact .inl (.inr ⟨other, place,
        (World.goesTo_stopped apart).mpr (.inr ⟨(sound.apart asleep).symm, gone, asleep⟩), dead⟩)
  · exact .inl (.inr ⟨w.current, new, (World.goesTo_stopped apart).mpr (.inl ⟨rfl, rfl⟩),
      Nat.lt_of_lt_of_le dead higher⟩)

/-- Another task goes on, and the one that ran can go on later. -/
theorem goesTo_follows (way : Way) (new : Stop) (obeys : Obeys k depth shared services effect locks)
    (sound : Sound k depth shared root ss w) (seen : Seen k w d) {toTask : T} {stop : Stop}
    (waits : w.stopped toTask = some stop) {c : Cpu} (plain : Plain root ss c)
    (room : 2 * depth ≤ (c.register .rsp - k.stack w.current).toNat)
    (lower : (c.register .rsp - k.stack w.current).toNat ≤ (new.rsp - k.stack w.current).toNat)
    (higher : (w.cpu.register .rsp - k.stack w.current).toNat ≤ (new.rsp - k.stack w.current).toNat)
    (within : (new.rsp - k.stack w.current).toNat ≤ k.stackSize w.current)
    (same : ∀ x, ¬Dead (k.stack w.current) (w.cpu.register .rsp) x → c.memory x = w.cpu.memory x)
    (saves : ∀ memory, Held k w.current way toTask c.toProcessor memory →
      (∀ x, ¬Dead (k.stack w.current) (c.register .rsp) x →
        (x - k.stack w.current).toNat < k.stackSize w.current → memory x = c.memory x) →
        Ready k depth root ss w.current memory new) :
    Sound k depth shared root ss (w.goesTo new toTask (k.switch way w.current toTask stop c)) ∧
      ∃ d', stop.Resumes d' ∧ (d'.cr3 = d.cr3 ∧ d'.cs = d.cs ∧ d'.ss = d.ss) ∧
        d'.memory = switched k effect locks way w.current toTask d.memory ∧
        Seen k (w.goesTo new toTask (k.switch way w.current toTask stop c)) d' := by
  have apart := sound.apart waits
  have there : w.Alive toTask := Sound.alive_of_stopped waits
  have owned : ∀ x, Dead (k.stack toTask) stop.rsp x → k.Owns toTask x := fun x dead =>
    .inl (Nat.lt_of_lt_of_le dead (sound.within toTask stop waits))
  have ready : Ready k depth root ss toTask c.memory stop := (sound.ready toTask stop waits).congr
    (fun x image => same x (sound.live waits (.inr image))) fun x dead =>
      same x (sound.live waits (owned x dead))
  obtain ⟨e, switching, resumes, plain', held, moved⟩ :=
    switch_spec way obeys sound.layout (.inl rfl) there apart
    plain room (by omega) ready (sound.within toTask stop waits)
  rw [switching]
  have alive : (w.goesTo new toTask e).Alive = w.Alive := sound.goesTo_alive waits
  have old : (w.goesTo new toTask e).stopped w.current = some new :=
    (World.goesTo_stopped apart).mpr (.inl ⟨rfl, rfl⟩)
  -- what belongs to the other tasks is left alone
  have kept : ∀ other, w.Alive other → other ≠ w.current → other ≠ toTask → ∀ x, k.Owns other x →
      e.memory x = w.cpu.memory x := by
    intro other living here gone x theirs
    have foreign : ¬k.Owns w.current x :=
      sound.layout.apart other w.current living (.inl rfl) here x theirs
    have live : ∀ pointer, (pointer - k.stack w.current).toNat ≤ k.stackSize w.current →
        ¬Dead (k.stack w.current) pointer x := fun pointer bounded dead =>
      foreign (.inl (Nat.lt_of_lt_of_le dead bounded))
    rw [moved x (live _ (by omega)) (fun image => foreign (.inr image))
      (fun dead => sound.layout.apart other toTask living there gone x theirs (owned x dead)),
      (switched_confined obeys _ _ _).only _ x (sound.layout.shared other living x theirs),
      same x (live _ (by omega))]
  have own : ∀ x, ¬Dead (k.stack w.current) (c.register .rsp) x →
      (x - k.stack w.current).toNat < k.stackSize w.current → e.memory x = c.memory x := by
    intro x live mine
    rw [moved x live (sound.layout.image _ (.inl rfl) x mine)
      (fun dead => sound.layout.apart _ _ (.inl rfl) there apart x (.inl mine) (owned x dead)),
      (switched_confined obeys _ _ _).only _ x (sound.layout.shared _ (.inl rfl) x (.inl mine))]
  have same_plain := seen.plain sound
  refine ⟨⟨?_, ?_, ?_, fun other place asleep => ?_, plain', fun other place asleep => ?_⟩,
    { e with memory := switched k effect locks way w.current toTask d.memory }, resumes.congr rfl,
    ⟨plain'.cr3.trans same_plain.cr3.symm, plain'.cs.trans same_plain.cs.symm,
      plain'.ss.trans same_plain.ss.symm⟩, rfl,
    rfl, fun x visible => ?_⟩
  · rw [alive]
    exact sound.layout
  · exact Function.update_self ..
  · change (e.register .rsp - k.stack toTask).toNat ≤ k.stackSize toTask
    rw [resumes.rsp]
    exact sound.within toTask stop waits
  · rcases (World.goesTo_stopped apart).mp asleep with ⟨rfl, rfl⟩ | ⟨-, -, before⟩
    · exact within
    · exact sound.within other place before
  · rcases (World.goesTo_stopped apart).mp asleep with ⟨rfl, rfl⟩ | ⟨here, gone, before⟩
    · exact saves e.memory held own
    · have living : w.Alive other := Sound.alive_of_stopped before
      exact (sound.ready other place before).congr
        (fun x image => kept other living here gone x (.inr image))
        fun x dead => kept other living here gone x
        (.inl (Nat.lt_of_lt_of_le dead (sound.within other place before)))
  · have live : ¬Dead (k.stack w.current) (c.register .rsp) x := fun dead =>
      visible (.inl (.inr ⟨w.current, new, old, Nat.lt_of_lt_of_le dead lower⟩))
    have away : ¬k.Image w.current x :=
      fun image => visible (.inl (.inl ⟨w.current, alive ▸ .inl rfl, image⟩))
    have low : ¬Dead (k.stack toTask) stop.rsp x := by
      rw [← resumes.rsp]
      exact fun dead => visible (.inr dead)
    change e.memory x = switched k effect locks way w.current toTask d.memory x
    rw [moved x live away low]
    refine (switched_confined obeys _ _ _).agree (fun y unseen => sound.hidden unseen)
      (fun y seeable => ?_)
      fun before => visible (sound.goesTo_hidden waits resumes.rsp higher before)
    rw [same y fun dead => seeable (.inr dead), seen.memory y seeable]

theorem preempted_follows (obeys : Obeys k depth shared services effect locks)
    (sound : Sound k depth shared root ss w) (seen : Seen k w d) {c : Cpu} {vector : BitVec 8}
    {toTask : T} {stop : Stop} (enabled : interruptible w.cpu.rflags = true)
    (external : 32 ≤ vector.toNat)
    (fit : Fit (2 * depth) (k.stack w.current) shared k.idtFunctions k.idtPointer w.cpu vector)
    (called : k.handling w.cpu vector = some c) (waits : w.stopped toTask = some stop) :
    Follows k depth shared services effect locks root ss w d (.preempted vector toTask)
      (w.goesTo (.interrupted (context w.cpu)) toTask
        (k.switch .handleInterrupt w.current toTask stop c)) := by
  obtain ⟨number, rsp, registers, memory, cr3, cs, segment⟩ :=
    handling_spec obeys.linked external fit called
  obtain ⟨enough, deep⟩ := low_room number fit.room
  obtain ⟨gap, small, -, low⟩ := toNat_low enough
  have top : Stop.rsp (.interrupted (context w.cpu)) = w.cpu.register .rsp := rfl
  have saves : ∀ memory, Held k w.current .handleInterrupt toTask c.toProcessor memory →
      (∀ x, ¬Dead (k.stack w.current) (c.register .rsp) x →
        (x - k.stack w.current).toNat < k.stackSize w.current → memory x = c.memory x) →
        Ready k depth root ss w.current memory (.interrupted (context w.cpu)) := by
    intro after held own
    refine .interrupted sound.plain fit.room rsp (cr3.trans sound.plain.cr3) registers ?_ held
    refine words_stand enough fun x dead live => ?_
    rw [← rsp] at live
    rw [own x live (Nat.lt_of_lt_of_le dead sound.inside), memory]
  obtain ⟨sound', d', resumes, same, moved, seen'⟩ :=
    goesTo_follows .handleInterrupt (.interrupted (context w.cpu))
    obeys sound seen waits ⟨cr3.trans sound.plain.cr3, cs, segment.trans sound.plain.ss⟩
      (by rw [rsp]; exact deep)
    (by rw [rsp, low, top]; omega) (Nat.le_refl _) sound.inside
    (fun x live => by rw [memory, entry_live enough live])
    saves
  have flags : d.rflags = w.cpu.rflags := congrArg Context.rflags seen.context
  have step : Own k services effect locks { w with cpu := d } (.preempted vector toTask) _ :=
    .preempted (flags ▸ enabled) external waits resumes same moved
  rw [World.goesTo, seen.context] at step
  exact ⟨sound', d', step, seen'⟩

theorem yielded_follows (obeys : Obeys k depth shared services effect locks)
    (sound : Sound k depth shared root ss w) (seen : Seen k w d) {toTask : T} {stop : Stop}
    (room : 2 * depth ≤ (w.cpu.register .rsp - k.stack w.current).toNat)
    (inside : (w.cpu.register .rsp - k.stack w.current).toNat + 8 ≤ k.stackSize w.current)
    (waits : w.stopped toTask = some stop) :
    Follows k depth shared services effect locks root ss w d (.yielded toTask)
      (w.goesTo (.yielded (context w.cpu) w.cpu.top) toTask
        (k.switch .yield w.current toTask stop w.cpu)) := by
  have small : (w.cpu.register .rsp - k.stack w.current).toNat + 8 < 2 ^ 64 :=
    Nat.lt_of_le_of_lt inside (sound.layout.small _ (.inl rfl))
  have above := toNat_above small
  have top : Stop.rsp (.yielded (context w.cpu) w.cpu.top) = w.cpu.register .rsp + 8 := rfl
  -- the return address belongs to the task
  have mine : ∀ x, (x - w.cpu.register .rsp).toNat < 8 →
    (x - k.stack w.current).toNat < k.stackSize w.current ∧
      ¬Dead (k.stack w.current) (w.cpu.register .rsp) x := by
    intro x near
    obtain ⟨dead, live⟩ := dead_word small near
    refine ⟨?_, live⟩
    unfold Dead at dead
    omega
  have saves : ∀ memory, Held k w.current .yield toTask w.cpu.toProcessor memory →
      (∀ x, ¬Dead (k.stack w.current) (w.cpu.register .rsp) x →
        (x - k.stack w.current).toNat < k.stackSize w.current → memory x = w.cpu.memory x) →
        Ready k depth root ss w.current memory (.yielded (context w.cpu) w.cpu.top) := by
    intro after held own
    refine .yielded sound.plain room small (Store.read_congr fun x near => ?_) held
    obtain ⟨inside, live⟩ := mine x near
    exact own x live inside
  obtain ⟨sound', d', resumes, same, moved, seen'⟩ :=
    goesTo_follows .yield (.yielded (context w.cpu) w.cpu.top) obeys
    sound seen waits sound.plain room (by rw [top, above]; omega) (by rw [top, above]; omega)
    (by rw [top, above]; exact inside) (fun _ _ => rfl) saves
  have address : d.top = w.cpu.top := by
    have pointer : d.register .rsp = w.cpu.register .rsp :=
      congrFun (congrArg Context.register seen.context) .rsp
    rw [Switch.Processor.top, pointer]
    refine Store.read_congr fun x near => (seen.memory x ?_).symm
    obtain ⟨inside, live⟩ := mine x near
    rintro ((⟨task, alive, image⟩ | ⟨task, place, asleep, dead⟩) | dead)
    · by_cases own : w.current = task
      · subst own
        exact sound.layout.image _ alive x inside image
      · exact sound.layout.apart w.current task (.inl rfl) alive own x (.inl inside) (.inr image)
    · exact sound.layout.apart w.current task (.inl rfl) (Sound.alive_of_stopped asleep)
        (sound.apart asleep) x
        (.inl inside) (.inl (Nat.lt_of_lt_of_le dead (sound.within task place asleep)))
    · exact live dead
  have step : Own k services effect locks { w with cpu := d } (.yielded toTask) _ :=
    .yielded waits resumes same moved
  rw [World.goesTo, seen.context, address] at step
  exact ⟨sound', d', step, seen'⟩

theorem shared_follows (obeys : Obeys k depth shared services effect locks)
    (sound : Sound k depth shared root ss w) (seen : Seen k w d) {event : Event T} {w' : World T}
    (step : Shared k depth shared w event w') :
    Follows k depth shared services effect locks root ss w d event w' := by
  cases step with
  | program step discreet => exact program_follows sound seen discreet
  | outside bytes away => exact outside_follows sound seen bytes away
  | served enabled external fit taken =>
      exact served_follows obeys sound seen enabled external fit taken
  | created entrypoint argument fresh room layout =>
      exact created_follows sound seen entrypoint argument fresh room layout
  | destroyed waits => exact destroyed_follows sound seen waits
  | preempted enabled external fit called waits =>
      exact preempted_follows obeys sound seen enabled external fit called waits
  | yielded room inside waits => exact yielded_follows obeys sound seen room inside waits

/-- Whenever and from wherever the processor goes from one task to another, every task runs
    as if it had a processor of its own. -/
theorem tasks_undisturbed (obeys : Obeys k depth shared services effect locks)
    (begins : Begins k shared w) {events : List (Event T)} {w' : World T}
    (run : Run (Shared k depth shared) w events w') :
    ∃ d, Run (Own k services effect locks) w events { w' with cpu := d } ∧
      context d = context w'.cpu ∧ ∀ x, ¬k.Hidden w' x → w'.cpu.memory x = d.memory x := by
  have follows : Sound k depth shared w.cpu.cr3 w.cpu.ss w' ∧
      ∃ d, Run (Own k services effect locks) w events { w' with cpu := d } ∧ Seen k w' d := by
    induction run with
    | start => exact ⟨begins.sound, w.cpu, .start w, rfl, fun _ _ => rfl⟩
    | next before last ih =>
        obtain ⟨sound, d, run, seen⟩ := ih
        obtain ⟨sound', d', step, seen'⟩ := shared_follows obeys sound seen last
        exact ⟨sound', d', run.next step, seen'⟩
  obtain ⟨-, d, run, seen⟩ := follows
  exact ⟨d, run, seen.context, seen.memory⟩

end Runs

/-! ## Two tasks -/

/-- C++ code that only pushes a word. -/
def sampleCode : Code Bool where
  handlers := sampleHandlers
  text := sampleText
  idtFunctions vector := vector.setWidth 64
  idtPointer := sampleTable.2
  registers task := if task then 0x21000 else 0x20000
  stack task := if task then 0x10000 else 0x1000
  stackSize _ := 0x7000
  enter _ fromTask toTask p :=
    ((p.push 0x7000).set .rdi (if fromTask then 0x21000 else 0x20000)).set .rsi
    (if toTask then 0x21000 else 0x20000)
  leave _ p := p
  calls := Switch.leaving 0
  program _ _ := none

theorem confined_id (region : Word → Prop) : Confined region id :=
  ⟨fun _ _ _ => rfl, fun _ _ same => same⟩

theorem sampleCode_obeys :
    Obeys sampleCode 8 (· = 0x9000) (fun _ => counted) (fun _ _ _ => id) fun _ _ => id where
  serves task := sampleHandlers_serve _ _
  linked := sampleText_linked
  abi := Switch.leaving_abi 0
  arguments way fromTask toTask p := ⟨rfl, rfl⟩
  down way fromTask toTask p := ⟨8, by decide, by decide, rfl⟩
  cr3 way fromTask toTask p := rfl
  entered way fromTask toTask p base room x live :=
    Store.write_outside p.memory (le_of_live room live)
  called function p base room x live := rfl
  left way fromTask toTask p base r room returned := by
    obtain ⟨register, rsp, -, rflags, -⟩ := returned
    refine ⟨fun name member => (register name member).trans ?_, rsp.trans ?_, rfl,
      fun _ _ => rfl, fun _ => ?_⟩
    · revert member
      cases name <;> first | exact fun _ => rfl | exact fun member => absurd member (by decide)
    · change p.register .rsp - 8 + 8 = p.register .rsp
      grind
    · exact congrArg interruptible rflags
  effects _ _ _ := confined_id _
  locked _ _ := confined_id _

theorem sampleCode_layout (alive : Bool → Prop) : sampleCode.Layout (· = 0x9000) alive where
  small _ _ := show 0x7000 < 2 ^ 64 by decide
  apart task other _ _ apart x := by
    cases task <;> cases other <;>
      simp [Code.Owns, Code.Image, sampleCode, registersSize] at apart ⊢ <;> bv_omega
  image task _ x := by
    cases task <;> simp [Code.Image, sampleCode, registersSize] <;> bv_omega
  shared task _ x := by
    cases task <;> simp [Code.Owns, Code.Image, sampleCode, registersSize] <;> bv_omega

def sampleWorld : World Bool where
  cpu := { pushingCpu.on (·.set .rsp 0x7000) with cs := 8 }
  current := false
  stopped _ := none

theorem sampleWorld_begins : Begins sampleCode (· = 0x9000) sampleWorld :=
  ⟨fun _ => rfl, sampleCode_layout _, by decide, rfl⟩

/-- A task creates another one and yields to it. -/
theorem tasks_undisturbed_sample :
    ∃ w', Run (Shared sampleCode 8 (· = 0x9000)) sampleWorld [.created true 0x5000 7,
      .yielded true] w' ∧
      ∃ d, Run (Own sampleCode (fun _ => counted) (fun _ _ _ => id) fun _ _ => id) sampleWorld
          [.created true 0x5000 7, .yielded true] { w' with cpu := d } ∧
          context d = context w'.cpu ∧
        ∀ x, ¬sampleCode.Hidden w' x → w'.cpu.memory x = d.memory x := by
  have fresh : ¬sampleWorld.Alive true := by
    rintro (same | asleep)
    · cases same
    · cases asleep
  have created : Shared sampleCode 8 (· = 0x9000) sampleWorld (.created true 0x5000 7) _ :=
    .created 0x5000 7 fresh (show 16 ≤ 0x7000 by decide) (sampleCode_layout _)
  have run : Run (Shared sampleCode 8 (· = 0x9000)) sampleWorld [.created true 0x5000 7,
      .yielded true] _ :=
    (Run.single created).next (.yielded (by decide) (by decide) rfl)
  exact ⟨_, run, tasks_undisturbed sampleCode_obeys sampleWorld_begins run⟩

end Mykonos.Tasks.Multiplexing
