import Mykonos.Boot.MemoryMap
import Mykonos.Boot.PageTables
import Mykonos.Heap.Custody

/-! # From the boot loader to the heap

The beginning of `kstart`: the pool of virtual memory is filled by a constructor, the pool
of physical memory by `parseMbi`, and `initPageTables` loads the tables of the image. What
they leave is what the heap starts from.
-/

namespace Mykonos.Memory.BlockMap

variable {m : BlockMap} {P : Nat → Prop}

theorem reserveStep_ends {r : Block} (zero : P 0) (hr : P r.start ∧ P r.stop) (i : Nat)
    (h : Ends P m.blocks) :
    Ends P (reserveStep r i m).blocks := by
  have put {b : Block} (hb : P b.start ∧ P b.stop) : Ends P (m.blocks.set i b) := fun c member =>
    (List.mem_or_eq_of_mem_set member).elim (h c) fun same => same ▸ hb
  cases here : m.blocks[i]? with
  | none => simpa only [reserveStep, here] using h
  | some b =>
      have hb := h b (List.mem_of_getElem? here)
      simp only [reserveStep, here]
      split_ifs
      · exact h
      · exact h
      · exact put ⟨zero, zero⟩
      · exact put ⟨hr.2, hb.2⟩
      · exact put ⟨hb.1, hr.1⟩
      · exact addBlock_ends (addBlock_ends (put ⟨zero, zero⟩) ⟨hb.1, hr.1⟩) ⟨hr.2, hb.2⟩

theorem reserve_ends {r : Block} (zero : P 0) (hr : P r.start ∧ P r.stop) (h : Ends P m.blocks) :
    Ends P (m.reserve r).blocks := by
  have loop : ∀ fuel i (m : BlockMap), Ends P m.blocks →
      Ends P (reserveLoop r fuel i m).blocks := by
    intro fuel
    induction fuel with
    | zero => exact fun _ _ ends => ends
    | succ fuel ih =>
        intro i m ends
        simp only [reserveLoop]
        split_ifs
        · exact ih _ _ (reserveStep_ends zero hr i ends)
        · exact ends
  exact loop _ _ _ (merge_ends h)

end Mykonos.Memory.BlockMap

namespace Mykonos.Boot

open Lib Memory Paging Heap

/-! ## The pool of physical memory -/

theorem pageAlignUp_whole (x : Nat) : pageAlignUp x % 4096 = 0 := Nat.mul_mod_left _ _

theorem pageAlignDown_whole (x : Nat) : pageAlignDown x % 4096 = 0 := Nat.mul_mod_left _ _

section Aligned

variable {memory : Nat → UInt8} {symbols : Symbols}

theorem parseEntry_aligned (tag i : Nat) {m : BlockMap} (h : m.Aligned) :
    (parseEntry memory tag m i).Aligned := by
  simp only [parseEntry]
  split_ifs
  · refine BlockMap.addBlock_aligned h ⟨pageAlignUp_whole _, ?_⟩
    have up := pageAlignUp_whole (read64 memory (tag + 16 + 24 * i))
    have down := pageAlignDown_whole (read64 memory (tag + 16 + 24 * i + 8))
    simp only [entryBlock]
    omega
  · exact h

theorem parseMbiTag_aligned {type tag : Nat} {globals globals' : Globals}
    (h : globals.physicalMemory.Aligned)
    (parsed : parseMbiTag memory symbols type tag globals = some globals') :
    globals'.physicalMemory.Aligned := by
  simp only [parseMbiTag] at parsed
  split_ifs at parsed with module memoryMap frameBuffer old new
  · obtain rfl := Option.some.inj parsed
    exact h
  · simp only [parseMemoryMapTag] at parsed
    split_ifs at parsed
    obtain rfl := Option.some.inj parsed
    have filled : ∀ (l : List Nat) (m : BlockMap), m.Aligned →
        (l.foldl (parseEntry memory tag) m).Aligned := by
      intro l
      induction l with
      | nil => exact fun _ aligned => aligned
      | cons i rest ih => exact fun m aligned => ih _ (parseEntry_aligned tag i aligned)
    refine BlockMap.reserve_ends rfl ⟨rfl, rfl⟩
      (BlockMap.reserve_ends rfl ⟨pageAlignDown_whole _, pageAlignUp_whole _⟩ ?_)
    exact filled _ _ h
  all_goals
    obtain rfl := Option.some.inj parsed
    exact h

/-- Whatever the boot information says, the pool consists of whole pages. -/
theorem parseMbi_aligned {fuel mbiPointer : Nat} {globals globals' : Globals}
    (h : globals.physicalMemory.Aligned)
    (parsed : parseMbi memory symbols fuel mbiPointer globals = some globals') :
    globals'.physicalMemory.Aligned := by
  have walk : ∀ fuel tag (globals : Globals), globals.physicalMemory.Aligned → ∀ walked,
      parseTags memory symbols fuel tag globals = some walked → walked.physicalMemory.Aligned := by
    intro fuel
    induction fuel with
    | zero => exact fun _ _ _ _ none => nomatch none
    | succ fuel ih =>
        intro tag globals aligned walked found
        simp only [parseTags] at found
        split_ifs at found
        · exact Option.some.inj found ▸ aligned
        · obtain ⟨next, taken, rest⟩ := Option.bind_eq_some_iff.mp found
          exact ih _ _ (parseMbiTag_aligned aligned taken) _ rest
  obtain ⟨walked, found, rfl⟩ := Option.map_eq_some_iff.mp parsed
  have aligned := walk _ _ _ h _ found
  simp only [reserveInitramfs]
  split_ifs
  · exact BlockMap.reserve_ends rfl ⟨pageAlignDown_whole _, pageAlignUp_whole _⟩ aligned
  · exact aligned

end Aligned

/-- For a regular memory map the pool is in order as well. -/
theorem parseMbi_formed {memory : Nat → UInt8} {mbiPointer : Nat} {tags : List Tag}
    (mbi : Mbi memory mbiPointer tags) {symbols : Symbols} (placed : symbols.Placed)
    {entries : List Entry} (maps : tags.filterMap Tag.entries? = [entries])
    (one : (tags.filterMap Tag.initramfs?).length ≤ 1) (regular : Regular entries) {fuel : Nat}
    (enough : tags.length < fuel) :
    ∃ globals, parseMbi memory symbols fuel mbiPointer {} = some globals ∧
    globals.physicalMemory.WellFormed := by
  have small := mbi.small
  have inside := mbi.inside
  unfold totalSize at small inside
  obtain ⟨walked, found, recorded⟩ :=
    parseTags_stored mbi.stored (by omega) (by omega) symbols enough {}
  rw [foldl_record, maps] at recorded
  obtain ⟨pool, initramfs⟩ := Prod.mk.inj recorded
  obtain ⟨formed, -, count⟩ := regular.filled
  obtain ⟨formed', -, count'⟩ := reserveKernel_free placed formed count
  refine ⟨reserveInitramfs walked, by rw [parseMbi, found, Option.map_some], ?_⟩
  unfold reserveInitramfs
  split_ifs with some_size
  · have bounded : walked.initramfs.pointer + walked.initramfs.size < 2 ^ 33 := by
      rw [initramfs]
      cases modules : tags.filterMap Tag.initramfs? with
      | nil => decide
      | cons first rest =>
          obtain rfl : rest = [] := by simpa [modules] using one
          obtain ⟨tag, -, found⟩ := List.mem_filterMap.mp (modules ▸ List.mem_singleton_self first)
          exact Tag.initramfs?_bounded found
    have ordered := (initramfsBlock_range bounded some_size).2
    rw [pool]
    exact (BlockMap.reserve_spare formed' ordered (Nat.lt_of_le_of_lt count' (by decide))).1
  · rw [pool]
    exact formed'

/-! ## The bytes that the tags are read from -/

/-- The bytes of physical memory, from its words. -/
def bytesOf (memory : Nat → Nat → Nat) (address : Nat) : UInt8 :=
  UInt8.ofNat (memory (address / 4096) (address % 4096 / 8) / 256 ^ (address % 8))

theorem holds_congr {memory other : Nat → UInt8} {address : Nat} {bytes : List UInt8}
    (h : Holds memory address bytes)
    (same : ∀ a, address ≤ a → a < address + bytes.length → other a = memory a) :
    Holds other address bytes := by
  induction bytes generalizing address with
  | nil => trivial
  | cons byte rest ih =>
      rw [List.length_cons] at same
      exact ⟨(same address le_rfl (by omega)).trans h.1,
        ih h.2 fun a above below => same a (by omega) (by omega)⟩

theorem Stored.congr {memory other : Nat → UInt8} {address : Nat} {tags : List Tag}
    (h : Stored memory address tags)
    (same : ∀ a, address ≤ a → a < address + ((tags.map Tag.padded).sum + 8) → other a = memory a) :
    Stored other address tags := by
  induction tags generalizing address with
  | nil =>
      refine holds_congr h fun a above below => same a above ?_
      simp only [littleEndian_length] at below
      omega
  | cons tag rest ih =>
      rw [List.map_cons, List.sum_cons] at same
      have fits : tag.bytes.length ≤ tag.padded := by
        simp only [Tag.padded, Tag.size, Tag.bytes, List.length_append, littleEndian_length]
        omega
      exact ⟨holds_congr h.1 fun a above below => same a above (by omega),
          ih h.2 fun a above below =>
        same a (by omega) (by omega)⟩

/-- The boot information is untouched as long as its bytes are. -/
theorem Mbi.congr {memory other : Nat → UInt8} {mbiPointer : Nat} {tags : List Tag}
    (mbi : Mbi memory mbiPointer tags)
    (same : ∀ a, mbiPointer ≤ a → a < mbiPointer + totalSize tags → other a = memory a) :
    Mbi other mbiPointer tags := by
  refine ⟨mbi.stored.congr fun a above below => same a (by omega) ?_, mbi.small, mbi.inside⟩
  simp only [totalSize]
  omega

/-! ## The beginning of `kstart` -/

/-- `kernelHeapStart` of the linker script. -/
def kernelHeapStart (kernelVirtualEnd : Nat) : Nat :=
  (kernelVirtualEnd + 0x1FFFFF) / 0x200000 * 0x200000 + 0x800000

/-- `kernelHeapEnd`: `kernelHeapSize` is 512 MiB. -/
def kernelHeapEnd (kernelVirtualEnd : Nat) : Nat := kernelHeapStart kernelVirtualEnd + 0x20000000

/-- The constructor that fills the pool of virtual memory. -/
def initVirtualMemory (kernelVirtualEnd : Nat) : BlockMap :=
  ({} : BlockMap).addBlock ⟨kernelHeapStart kernelVirtualEnd, kernelHeapEnd kernelVirtualEnd⟩

/-- The bootstrap code, the constructors, `parseMbi` and `initPageTables`, from the memory
    that the boot loader leaves. -/
def kstart (initial : InitialTables) (tables : KernelTables) (symbols : Symbols)
    (fuel mbiPointer : Nat) (memory : Nat → Nat → Nat) : Option Machine :=
  (buildPageTables initial fuel memory).bind fun s =>
    (parseMbi (bytesOf s.memory) symbols fuel mbiPointer {}).bind fun globals =>
      match initPageTables tables
          { memory := s.memory
            cr3 := s.cr3
            physicalMemory := globals.physicalMemory
            virtualMemory :=
              initVirtualMemory (kernelVirtualOffset + symbols.kernelPhysicalEnd) } with
      | .ok _ t => some t
      | .error _ _ => none

/-- The image as the linker lays it out and the boot loader loads it: behind the first two
    megabytes, with all tables in it, and with zeros in them. -/
structure Image (initial : InitialTables) (tables : KernelTables) (symbols : Symbols)
    (memory : Nat → Nat → Nat) :
    Prop where
  layout : Layout initial tables
  start : 0x200000 ≤ symbols.kernelPhysicalAddress
  finish : symbols.kernelPhysicalEnd ≤ 2 ^ 30
  within : ∀ frame ∈ bootFrames initial tables,
    symbols.kernelPhysicalAddress ≤ frame * 4096 ∧ frame * 4096 + 4096 ≤ symbols.kernelPhysicalEnd
  blank : ∀ frame ∈ bootFrames initial tables, ∀ word, memory frame word = 0

section Handover

variable {initial : InitialTables} {tables : KernelTables} {symbols : Symbols}
  {memory : Nat → Nat → Nat}

theorem Image.placed (image : Image initial tables symbols memory) : symbols.Placed := by
  have finish := image.finish
  obtain ⟨above, below⟩ := image.within (initial.initialPml4 / 4096) (by simp [bootFrames])
  exact ⟨by omega, by omega⟩

theorem isAllocated_present (frame : Nat) : isAllocated (frame * 4096 + 3) = false := by
  rw [Bool.eq_false_iff, ne_eq, isAllocated_iff]
  omega

theorem initVirtualMemory_eq (kernelVirtualEnd : Nat) :
    initVirtualMemory kernelVirtualEnd =
      ⟨[⟨kernelHeapStart kernelVirtualEnd, kernelHeapEnd kernelVirtualEnd⟩]⟩ := by
  have capacity :
      0 < (⟨kernelHeapStart kernelVirtualEnd, kernelHeapEnd kernelVirtualEnd⟩ :
        Block).capacity := by
    simp only [Block.capacity, kernelHeapEnd]
    omega
  rw [initVirtualMemory, BlockMap.addBlock, if_pos capacity, if_pos (by decide), List.nil_append]

/-- The beginning of `kstart` returns, and what it leaves is what the heap starts from. -/
theorem kstart_hands_over {fuel mbiPointer : Nat} {tags : List Tag} {entries : List Entry}
    (image : Image initial tables symbols memory) (mbi : Mbi (bytesOf memory) mbiPointer tags)
    (apart : ∀ a, mbiPointer ≤ a → a < mbiPointer + totalSize tags →
      a / 4096 ∉ bootFrames initial tables)
    (maps : tags.filterMap Tag.entries? = [entries])
    (one : (tags.filterMap Tag.initramfs?).length ≤ 1) (regular : Regular entries)
    (enough : tags.length < fuel) (rounds : 512 ≤ fuel) :
    ∃ t, kstart initial tables symbols fuel mbiPointer memory = some t ∧ Loaded initial tables t ∧
      t.physicalMemory.free =
        ((available entries \ pageHull symbols.kernelPhysicalAddress symbols.kernelPhysicalEnd) \
          Set.Ico 0 0x100000) \ modulePages tags ∧
      Session.Initial t (kernelHeapStart (kernelVirtualOffset + symbols.kernelPhysicalEnd))
        (kernelHeapEnd (kernelVirtualOffset + symbols.kernelPhysicalEnd)) := by
  have blank := image.blank
  simp only [bootFrames, List.forall_mem_map] at blank
  obtain ⟨s, built, cr3, content, kept⟩ := buildPageTables_bootstrapped memory image.layout rounds
    fun a member => blank a (by
      simp only [List.mem_cons, List.not_mem_nil, or_false] at member ⊢
      tauto)
  have elsewhere := image.layout.elsewhere
  have untouched : Mbi (bytesOf s.memory) mbiPointer tags := by
    refine mbi.congr fun a above below => ?_
    have other := apart a above below
    simp only [bootFrames, List.map_cons, List.mem_cons, not_or] at other
    rw [bytesOf, bytesOf, kept]
    simp only [List.mem_cons, List.not_mem_nil, or_false, not_or]
    exact ⟨other.1, other.2.1, other.2.2.1⟩
  obtain ⟨globals, parsed, free⟩ := parseMbi_pool untouched image.placed maps one regular enough
  obtain ⟨globals', parsed', formed⟩ :=
    parseMbi_formed untouched image.placed maps one regular enough
  obtain rfl : globals = globals' := Option.some.inj (parsed.symm.trans parsed')
  have aligned : globals.physicalMemory.Aligned :=
    parseMbi_aligned (by simp [BlockMap.Aligned, BlockMap.Ends]) parsed
  obtain ⟨t, ran, only, cr3', content'⟩ := initPageTables_installs (s :=
      { memory := s.memory
        cr3 := s.cr3
        physicalMemory := globals.physicalMemory
        virtualMemory := initVirtualMemory (kernelVirtualOffset + symbols.kernelPhysicalEnd) })
    image.layout ⟨cr3, content⟩ fun a member word => by
      show s.memory (physicalAddress a / 4096) word = 0
      rw [kept _ (elsewhere a member)]
      refine blank (physicalAddress a) ?_ word
      simp only [List.mem_cons, List.not_mem_nil, or_false] at member ⊢
      rcases member with rfl | rfl | rfl | rfl <;> simp
  have loaded : Loaded initial tables t := ⟨image.layout, cr3', content'⟩
  have pool : t.physicalMemory = globals.physicalMemory := by rw [only]
  have virtual : t.virtualMemory =
    initVirtualMemory (kernelVirtualOffset + symbols.kernelPhysicalEnd) := by rw [only]
  have finish := image.finish
  have start := image.start
  have ordered := image.placed.ordered
  refine ⟨t, ?_, loaded, by rw [pool, free], ?_⟩
  · rw [kstart, built, Option.bind_some, parsed, Option.bind_some, ran]
  · refine ⟨loaded.tree, pool ▸ formed, pool ▸ aligned, fun frame used => ?_, fun n outside => ?_,
      ?_, ?_, ?_, ?_⟩
    · obtain ⟨path, allowed, here⟩ := used
      have member : frame ∈ bootFrames initial tables := by
        have found := loaded.tableAt allowed here
        simp only [tablePaths, List.mem_cons, Prod.mk.injEq, List.not_mem_nil, or_false] at found
        rcases found with ⟨-, rfl⟩ | ⟨-, rfl⟩ | ⟨-, rfl⟩ | ⟨-, rfl⟩ <;> simp [bootFrames]
      obtain ⟨above, below⟩ := image.within frame member
      rw [pool, free]
      refine Set.disjoint_left.mpr fun a inside available => available.1.1.2 ⟨a, ?_, ?_, rfl⟩
      · exact above.trans inside.1
      · exact inside.2.trans_le below
    · rw [loaded.leaf outside]
      split_ifs
      · exact isAllocated_present _
      · decide
    · rw [virtual, initVirtualMemory_eq]
    · simp only [kernelHeapEnd, kernelHeapStart]
      omega
    · simp only [kernelHeapEnd, kernelHeapStart, kernelVirtualOffset, pageTablePointer]
      omega
    · intro a above below
      have number : 2 ^ 35 + 3072 ≤ page a ∧ page a < 2 ^ 35 + 2 ^ 27 := by
        simp only [kernelHeapEnd, kernelHeapStart, kernelVirtualOffset] at above below
        simp only [page]
        omega
      rw [loaded.leaf (show Outside (page a) by simp only [Outside]; omega), if_neg (by omega)]
      decide

/-- The boot information that `kstart` finds next to the image. -/
structure BootInformation (initial : InitialTables) (tables : KernelTables)
    (memory : Nat → Nat → Nat) (mbiPointer : Nat)
    (tags : List Tag) (entries : List Entry) : Prop where
  mbi : Mbi (bytesOf memory) mbiPointer tags
  apart : ∀ a, mbiPointer ≤ a → a < mbiPointer + totalSize tags →
    a / 4096 ∉ bootFrames initial tables
  maps : tags.filterMap Tag.entries? = [entries]
  one : (tags.filterMap Tag.initramfs?).length ≤ 1
  regular : Regular entries

/-- From what the boot loader leaves, `kstart` comes to a machine on which every run of calls
    of the heap is sound. -/
theorem sessions_after_boot (fuel : Nat) {mbiPointer : Nat} {tags : List Tag} {entries : List Entry}
    (image : Image initial tables symbols memory)
    (information : BootInformation initial tables memory mbiPointer tags entries)
    (enough : tags.length < fuel) (rounds : 512 ≤ fuel) :
    ∃ t, kstart initial tables symbols fuel mbiPointer memory = some t ∧
      ∀ calls s, Run Session.Step ⟨t, []⟩ calls s → s.Sound := by
  obtain ⟨t, started, -, -, handed⟩ :=
    kstart_hands_over image information.mbi information.apart information.maps
    information.one information.regular enough rounds
  exact ⟨t, started, fun calls s run => handed.sound.run run⟩

/-- What is not for the heap: the pages of the image and of the module, the first megabyte,
    and all that the memory map does not have as available. -/
def Forbidden (symbols : Symbols) (tags : List Tag) (entries : List Entry) : Set Nat :=
  pageHull symbols.kernelPhysicalAddress symbols.kernelPhysicalEnd ∪ Set.Ico 0 0x100000 ∪
    modulePages tags ∪
    {a | a ∉ available entries}

/-- After the boot no run of calls of the heap touches the kernel: its image stays mapped
    where it is, and no frame of what is forbidden comes into the pool, backs a page or
    becomes a table besides the four of the image. -/
theorem kernel_kept_after_boot (fuel : Nat) {mbiPointer : Nat} {tags : List Tag}
    {entries : List Entry} (image : Image initial tables symbols memory)
    (information : BootInformation initial tables memory mbiPointer tags entries)
    (enough : tags.length < fuel) (rounds : 512 ≤ fuel)
    (fits : symbols.kernelPhysicalEnd ≤ 0x400000) :
    ∃ t, kstart initial tables symbols fuel mbiPointer memory = some t ∧
      ∀ calls s, Run Session.Returns ⟨t, []⟩ calls s →
        (∀ address, symbols.kernelPhysicalAddress ≤ address → address < symbols.kernelPhysicalEnd →
          s.machine.translate (kernelVirtualOffset + address) = some (address / 4096)) ∧
        Disjoint (Forbidden symbols tags entries) s.machine.physicalMemory.free ∧
        (∀ n, Outside n → isAllocated (s.machine.leaf n) = true →
          Disjoint (Forbidden symbols tags entries) (frameRange (entryFrame (s.machine.leaf n)))) ∧
        ∀ frame, s.machine.IsTable frame → frame ∉ (bootFrames initial tables).drop 3 →
          Disjoint (Forbidden symbols tags entries) (frameRange frame) := by
  obtain ⟨t, started, loaded, free, handed⟩ :=
    kstart_hands_over image information.mbi information.apart information.maps
    information.one information.regular enough rounds
  have start := image.start
  have forbidden : Disjoint (Forbidden symbols tags entries) t.physicalMemory.free := by
    rw [free]
    refine Set.disjoint_right.mpr fun a inside => ?_
    obtain ⟨⟨⟨isAvailable, kernel⟩, low⟩, module⟩ := inside
    rintro (((other | other) | other) | other)
    · exact kernel other
    · exact low other
    · exact module other
    · exact other isAvailable
  refine ⟨t, started, fun calls s run => ?_⟩
  have kept := (Entrusted.run handed run).custody
  refine ⟨fun address above below => ?_, forbidden.mono_right kept.pool, fun n outside owns => ?_,
    fun frame used other => ?_⟩
  · obtain ⟨number, outside, -, -⟩ := image_place (x := address) (by omega)
    have notHeap : page (kernelVirtualOffset + address) ∉ page '' t.virtualMemory.free := by
      rintro ⟨a, ⟨b, member, inside⟩, same⟩
      rw [handed.heap, List.mem_singleton] at member
      subst member
      simp only [Block.mem_range, kernelHeapEnd, kernelHeapStart, kernelVirtualOffset] at inside
      rw [number] at same
      simp only [page] at same
      omega
    rw [translate_eq, kept.leaf _ outside notHeap, loaded.leaf outside, number, if_pos (by omega),
      Nat.add_sub_cancel_left, child_present (by omega)]
  · rcases kept.owned n outside owns with same | fresh
    · rw [same, handed.plain n outside] at owns
      exact absurd owns Bool.false_ne_true
    · exact forbidden.mono_right fresh
  · rcases kept.tables frame used with old | fresh
    · obtain ⟨path, allowed, here⟩ := old
      have found := loaded.tableAt allowed here
      simp only [tablePaths, List.mem_cons, Prod.mk.injEq, List.not_mem_nil, or_false] at found
      rcases found with ⟨-, rfl⟩ | ⟨-, rfl⟩ | ⟨-, rfl⟩ | ⟨-, rfl⟩ <;> simp [bootFrames] at other
    · exact forbidden.mono_right fresh

end Handover

/-- The sample of the boot information as words. -/
def sampleWords (frame word : Nat) : Nat :=
  if frame = 9 then readLittleEndian sampleMemory (0x9000 + word * 8) 8 else 0

theorem sampleImage : Image sampleInitial sampleTables sampleSymbols sampleWords where
  layout := sampleLayout
  start := by decide
  finish := by decide
  within := by decide
  blank frame member word := if_neg fun nine => absurd (nine ▸ member) (by decide)

/-- An entry with the values of its fields. -/
def Entry.ofFields (base length : BitVec 64) (type : BitVec 32) : Entry :=
  ⟨base.toNat, length.toNat, type.toNat, 0, ⟨base.isLt, length.isLt⟩, type.isLt⟩

def sampleEntries : List Entry :=
  [.ofFields 0 0x9F000 1, .ofFields 0x100000 0x1000000 1, .ofFields 0xF0000000 0x1000 2]

theorem sampleEntries_regular : Regular sampleEntries := by
  refine ⟨by decide, ?_, by decide, by decide⟩
  have apart : Disjoint (Set.Ico 0 0x9F000) (Set.Ico 0x100000 0x1100000) := by
    rw [Set.disjoint_left]
    intro a first second
    rw [Set.mem_Ico] at first second
    omega
  exact List.pairwise_pair.mpr apart

theorem sampleInformation :
    BootInformation sampleInitial sampleTables sampleWords 0x9000 sampleTags sampleEntries where
  mbi := ⟨by decide +kernel, by decide, by decide⟩
  apart a above below := by
    have total : totalSize sampleTags < 0x1000 := by decide
    have frame : a / 4096 = 9 := by omega
    rw [frame]
    decide
  maps := rfl
  one := by decide
  regular := sampleEntries_regular

theorem sessions_after_boot_sample :
    ∃ t, kstart sampleInitial sampleTables sampleSymbols 512 0x9000 sampleWords = some t ∧
      ∀ calls s, Run Session.Step ⟨t, []⟩ calls s → s.Sound :=
  sessions_after_boot 512 sampleImage sampleInformation (by decide) (by decide)

theorem kernel_kept_after_boot_sample :
    ∃ t, kstart sampleInitial sampleTables sampleSymbols 512 0x9000 sampleWords = some t ∧
      ∀ calls s, Run Session.Returns ⟨t, []⟩ calls s → s.machine.translate 0xFFFF800000234567 =
        some 0x234 := by
  obtain ⟨t, started, kept⟩ :=
    kernel_kept_after_boot 512 sampleImage sampleInformation (by decide) (by decide)
    (by decide)
  exact ⟨t, started, fun calls s run => (kept calls s run).1 0x234567 (by decide) (by decide)⟩

end Mykonos.Boot
