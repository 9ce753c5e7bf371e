import Mykonos.Apic.Routing

/-! # Interrupt handlers

`interruptHandlers.cpp`: handlers are registered in the slots of a vector, and an
interrupt calls those of its vector. Three classes of interrupts share the vectors.
-/

namespace Mykonos.Interrupts

open Apic Lib

/-- `MAX_IRQ_SHARING`. -/
abbrev maxIrqSharing : Nat := 16

/-- `APIC_TIMER_INTERRUPT`. -/
abbrev apicTimerInterrupt : Nat := 0xf0

/-- `PROCESSOR_CALLBACK_INTERRUPT`. -/
abbrev processorCallbackInterrupt : Nat := 0xfe

inductive IrqClass where
  | standard
  | localInterrupt
  | msi
  deriving Repr, DecidableEq

variable {H C : Type}

/-- A slot is empty while its handler is null. -/
structure IrqTable (H C : Type) where
  ioApics : List IoApic
  irqHandlers : Nat → Nat → Option (H × C)

/-- The handlers before any has been registered. -/
def IrqTable.start (ioApics : List IoApic) : IrqTable H C := ⟨ioApics, fun _ _ => none⟩

/-- The arguments of `registerIrqHandlerBase`. -/
structure Registration (H C : Type) where
  irqClass : IrqClass
  irq : Nat
  handler : H
  context : C
  levelTriggered : Bool
  activeHigh : Bool

/-- The loop over the slots of a vector, from slot `i` on. -/
def fillSlot (handler : H) (context : C) :
    Nat → Nat → (Nat → Option (H × C)) → (Nat → Option (H × C))
  | 0, _, slots => slots
  | count + 1, i, slots =>
      match slots i with
      | none => Function.update slots i (some (handler, context))
      | some _ => fillSlot handler context count (i + 1) slots

/-- The first half of `registerIrqHandlerBase`: the IO-APIC is set up for a standard
    interrupt, and the vector is computed. -/
def routeIrq (localApicIds : Nat → BitVec 8) (r : Registration H C) (ioApics : List IoApic) :
    Option (List IoApic × Nat) :=
  match r.irqClass with
  | .standard => do
      let ioApics ← mapIoApicInterrupt localApicIds r.irq
        (BitVec.ofNat 8 (r.irq + ioApicInterruptBase))
        r.levelTriggered r.activeHigh 0 ioApics
      let ioApics ← unmaskIoApicInterrupt r.irq ioApics
      return (ioApics, (r.irq + ioApicInterruptBase) % 2 ^ 32)
  | .localInterrupt => some (ioApics, r.irq)
  | .msi => some (ioApics, (r.irq + (ioApicInterruptBase + getGsiCount ioApics)) % 2 ^ 32)

/-- `none` is a panic. Nothing is said when all slots of the vector are taken. -/
def registerIrqHandlerBase (localApicIds : Nat → BitVec 8) (r : Registration H C)
    (s : IrqTable H C) :
    Option (IrqTable H C) := do
  let (ioApics, irq) ← routeIrq localApicIds r s.ioApics
  if irq ≥ 256 then none
  else
    return ⟨ioApics, Function.update s.irqHandlers irq
      (fillSlot r.handler r.context maxIrqSharing 0 (s.irqHandlers irq))⟩

/-- What an interrupt makes the processor do. -/
inductive Effect (H C : Type) where
  | eoi
  | tick
  | receiveCall
  | call (handler : H) (context : C)
  deriving Repr, DecidableEq

/-- The loop of `handleInterrupt`, from slot `i` on, which ends at an empty slot. -/
def callHandlers (slots : Nat → Option (H × C)) : Nat → Nat → List (Effect H C)
  | 0, _ => []
  | count + 1, i =>
      match slots i with
      | some (handler, context) => .call handler context :: callHandlers slots count (i + 1)
      | none => []

/-- `inService` is what the local APIC says of the interrupt. -/
def handleInterrupt (s : IrqTable H C) (inService : Bool) (interruptNumber : Nat) :
    List (Effect H C) :=
  if interruptNumber = apicTimerInterrupt then [.eoi, .tick]
  else if interruptNumber = processorCallbackInterrupt then [.eoi, .receiveCall]
  else callHandlers (s.irqHandlers interruptNumber) maxIrqSharing 0 ++ if inService then [.eoi]
  else []

/-! ## Vectors -/

/-- The handler that an effect calls, with its context. -/
def Effect.called : Effect H C → Option (H × C)
  | call handler context => some (handler, context)
  | _ => none

/-- The handlers that an interrupt invokes, in order. -/
def invoked (s : IrqTable H C) (inService : Bool) (interruptNumber : Nat) : List (H × C) :=
  (handleInterrupt s inService interruptNumber).filterMap Effect.called

/-- The vector a registration is for, given the number of lines of the IO-APICs. -/
def Registration.vector (r : Registration H C) (gsiCount : Nat) : Nat :=
  match r.irqClass with
  | .standard => (r.irq + ioApicInterruptBase) % 2 ^ 32
  | .localInterrupt => r.irq
  | .msi => (r.irq + (ioApicInterruptBase + gsiCount)) % 2 ^ 32

/-- The handlers registered for a vector, in order. -/
def registered (gsiCount : Nat) (registrations : List (Registration H C)) (vector : Nat) :
    List (H × C) :=
  (registrations.filter fun r => r.vector gsiCount = vector).map fun r => (r.handler, r.context)

/-- Every vector gets the handlers its slots can hold, and none that is handled
    otherwise. -/
structure Honourable (gsiCount : Nat) (registrations : List (Registration H C)) : Prop where
  timer : registered gsiCount registrations apicTimerInterrupt = []
  callback : registered gsiCount registrations processorCallbackInterrupt = []
  slots : ∀ vector < 256, (registered gsiCount registrations vector).length ≤ maxIrqSharing

/-- A registration that returns has taken effect: its vector invokes one handler more. -/
def HonouredStep (localApicIds : Nat → BitVec 8) (s : IrqTable H C) (r : Registration H C)
    (t : IrqTable H C) : Prop :=
  registerIrqHandlerBase localApicIds r s = some t ∧
  ∀ inService, invoked t inService (r.vector (getGsiCount s.ioApics)) =
    invoked s inService (r.vector (getGsiCount s.ioApics)) ++ [(r.handler, r.context)]

/-- Interrupts invoke what has been registered for them, and no registration has been
    dropped without a word. -/
structure Agrees (localApicIds : Nat → BitVec 8) (ioApics : List IoApic)
    (registrations : List (Registration H C)) (s : IrqTable H C) : Prop where
  dispatch : ∀ vector < 256, ∀ inService,
    invoked s inService vector = registered (getGsiCount ioApics) registrations vector
  reported : Run (HonouredStep localApicIds) (.start ioApics) registrations s

/-! ## The slots of a vector -/

/-- The slots hold a list of handlers, cut off after the last slot. -/
def Filled (slots : Nat → Option (H × C)) (handlers : List (H × C)) : Prop :=
  ∀ i, slots i = (handlers.take maxIrqSharing)[i]?

theorem fillSlot_eq (handler : H) (context : C) {slots : Nat → Option (H × C)} {free : Nat}
    (empty : slots free = none) {count i : Nat} (taken : ∀ j, i ≤ j → j < free → (slots j).isSome)
    (low : i ≤ free) :
    fillSlot handler context count i slots =
      if free < i + count then Function.update slots free (some (handler, context)) else slots := by
  induction count generalizing i with
  | zero =>
      rw [if_neg (by omega)]
      rfl
  | succ count ih =>
      by_cases here : i = free
      · subst here
        rw [if_pos (by omega)]
        simp only [fillSlot, empty]
      · obtain ⟨entry, found⟩ := Option.isSome_iff_exists.mp (taken i le_rfl (by omega))
        simp only [fillSlot, found]
        rw [ih (fun j above below => taken j (by omega) below) (by omega)]
        have same : free < i + 1 + count ↔ free < i + (count + 1) := by omega
        simp only [same]

theorem Filled.fillSlot {slots : Nat → Option (H × C)} {handlers : List (H × C)}
    (h : Filled slots handlers) (handler : H) (context : C) :
    Filled (fillSlot handler context maxIrqSharing 0 slots) (handlers ++ [(handler, context)]) := by
  by_cases room : handlers.length < maxIrqSharing
  · have whole : handlers.take maxIrqSharing = handlers := List.take_of_length_le room.le
    have longer : (handlers ++ [(handler, context)]).take maxIrqSharing =
        handlers ++ [(handler, context)] :=
      List.take_of_length_le (by rw [List.length_append]; exact room)
    have empty : slots handlers.length = none := by rw [h, whole]; simp
    rw [fillSlot_eq handler context empty (fun j _ below => by rw [h, whole]; simpa using below)
      (Nat.zero_le _), if_pos (by omega)]
    intro i
    rw [longer]
    rcases Nat.lt_trichotomy i handlers.length with before | rfl | after
    · rw [Function.update_of_ne (by omega), h, whole, List.getElem?_append_left before]
    · simp
    · rw [Function.update_of_ne (by omega), h, whole]
      simp [after.le]
      omega
  · -- Every slot is taken, and the loop runs past the last one.
    have full : maxIrqSharing ≤ handlers.length := Nat.le_of_not_lt room
    have length : (handlers.take maxIrqSharing).length = maxIrqSharing :=
      List.length_take_of_le full
    have empty : slots maxIrqSharing = none := by
      rw [h]
      exact List.getElem?_eq_none length.le
    rw [fillSlot_eq handler context empty (fun j _ below => by rw [h]; simpa [length] using below)
      (Nat.zero_le _), if_neg (by omega)]
    intro i
    rw [h, List.take_append_of_le_length full]

theorem callHandlers_eq {slots : Nat → Option (H × C)} {handlers : List (H × C)} (count i : Nat)
    (filled : ∀ j, slots (i + j) = (handlers.take count)[j]?) :
    callHandlers slots count i = (handlers.take count).map fun entry => .call entry.1 entry.2 := by
  induction count generalizing i handlers with
  | zero => simp [callHandlers]
  | succ count ih =>
      have first := filled 0
      cases handlers with
      | nil =>
          have none : slots i = none := by simpa using first
          simp [callHandlers, none]
      | cons entry rest =>
          have some : slots i = .some entry := by simpa using first
          simp only [callHandlers, some, List.take_succ_cons, List.map_cons,
            List.cons.injEq, true_and]
          refine ih (i + 1) fun j => ?_
          rw [Nat.add_right_comm, Nat.add_assoc, filled (j + 1), List.take_succ_cons,
            List.getElem?_cons_succ]

/-- What an interrupt invokes: the handlers in the slots, except at the two vectors
    that are handled otherwise. -/
theorem invoked_eq {s : IrqTable H C} {vector : Nat} {handlers : List (H × C)}
    (filled : Filled (s.irqHandlers vector) handlers) (inService : Bool) :
    invoked s inService vector =
      if vector = apicTimerInterrupt ∨ vector = processorCallbackInterrupt then []
      else handlers.take maxIrqSharing := by
  simp only [invoked, handleInterrupt]
  by_cases timer : vector = apicTimerInterrupt
  · rw [if_pos timer, if_pos (.inl timer)]
    rfl
  · by_cases callback : vector = processorCallbackInterrupt
    · rw [if_neg timer, if_pos callback, if_pos (.inr callback)]
      rfl
    · have plain : ¬ (vector = apicTimerInterrupt ∨ vector = processorCallbackInterrupt) := by
        rintro (same | same)
        · exact timer same
        · exact callback same
      have ending :
          (if inService then [Effect.eoi] else [] : List (Effect H C)).filterMap Effect.called =
            [] := by
        cases inService <;> rfl
      rw [if_neg timer, if_neg callback, if_neg plain, List.filterMap_append, ending,
        List.append_nil, callHandlers_eq maxIrqSharing 0 (fun j => by rw [Nat.zero_add, filled]),
        List.filterMap_map]
      exact List.filterMap_some

/-! ## Registrations -/

section Registrations

variable {localApicIds : Nat → BitVec 8} {r : Registration H C} {s t : IrqTable H C}

theorem editIoApic_count {gsi : Nat} {edit : Nat → StateM Chip Unit} {before after : List IoApic}
    (changed : editIoApic gsi edit before = some after) :
    getGsiCount after = getGsiCount before := by
  have counts : after.map IoApic.gsiCount = before.map IoApic.gsiCount := by
    induction before generalizing after with
    | nil => cases changed
    | cons a rest ih =>
        simp only [editIoApic] at changed
        split at changed
        · cases changed
          rfl
        · obtain ⟨later, found, same⟩ := Option.map_eq_some_iff.mp changed
          subst same
          rw [List.map_cons, List.map_cons, ih found]
  have folded : ∀ (l : List IoApic) (result : Nat),
    l.foldl (fun result a => (result + a.gsiCount) % 2 ^ 32) result =
      (l.map IoApic.gsiCount).foldl (fun result count => (result + count) % 2 ^ 32) result := by
    intro l result
    rw [List.foldl_map]
  rw [getGsiCount, getGsiCount, folded, folded, counts]

/-- The vector that `registerIrqHandlerBase` computes; the number of lines stays. -/
theorem routeIrq_spec {ioApics : List IoApic} {routed : List IoApic × Nat}
    (done : routeIrq localApicIds r ioApics = some routed) :
    routed.2 = r.vector (getGsiCount ioApics) ∧ getGsiCount routed.1 = getGsiCount ioApics := by
  cases class' : r.irqClass with
  | standard =>
      simp only [routeIrq, class', Option.bind_eq_bind, Option.bind_eq_some_iff] at done
      obtain ⟨mapped, first, unmasked, second, same⟩ := done
      cases same
      exact ⟨by simp only [Registration.vector, class'],
        (editIoApic_count second).trans (editIoApic_count first)⟩
  | localInterrupt =>
      simp only [routeIrq, class'] at done
      cases done
      exact ⟨by simp only [Registration.vector, class'], rfl⟩
  | msi =>
      simp only [routeIrq, class'] at done
      cases done
      exact ⟨by simp only [Registration.vector, class'], rfl⟩

/-- The specification of a registration that returns. -/
theorem registerIrqHandlerBase_spec (done : registerIrqHandlerBase localApicIds r s = some t) :
    getGsiCount t.ioApics = getGsiCount s.ioApics ∧ r.vector (getGsiCount s.ioApics) < 256 ∧
    t.irqHandlers = Function.update s.irqHandlers (r.vector (getGsiCount s.ioApics))
      (fillSlot r.handler r.context maxIrqSharing 0
        (s.irqHandlers (r.vector (getGsiCount s.ioApics)))) := by
  simp only [registerIrqHandlerBase, Option.bind_eq_bind, Option.bind_eq_some_iff] at done
  obtain ⟨⟨ioApics, irq⟩, routed, stored⟩ := done
  obtain ⟨vector, count⟩ := routeIrq_spec routed
  split at stored
  · cases stored
  · rename_i small
    cases stored
    rw [← vector]
    exact ⟨count, Nat.lt_of_not_le small, rfl⟩

theorem registered_append (gsiCount : Nat) (registrations : List (Registration H C))
    (vector : Nat) :
    registered gsiCount (registrations ++ [r]) vector = registered gsiCount registrations vector ++
      if r.vector gsiCount = vector then [(r.handler, r.context)] else [] := by
  by_cases here : r.vector gsiCount = vector <;> simp [registered, here]

/-- One registration that does not panic. -/
def Registers (localApicIds : Nat → BitVec 8) (s : IrqTable H C) (r : Registration H C)
    (t : IrqTable H C) : Prop :=
  registerIrqHandlerBase localApicIds r s = some t

variable {ioApics : List IoApic} {registrations : List (Registration H C)}

/-- Along the registrations the slots of every vector hold what was registered for it,
    as far as they go. -/
theorem registers_filled (run : Run (Registers localApicIds) (.start ioApics) registrations s) :
    getGsiCount s.ioApics = getGsiCount ioApics ∧
    ∀ vector, Filled (s.irqHandlers vector)
      (registered (getGsiCount ioApics) registrations vector) := by
  induction run with
  | start =>
      exact ⟨rfl, fun vector i => by simp [IrqTable.start, registered]⟩
  | @next _ _ _ r _ last ih =>
      obtain ⟨count, filled⟩ := ih
      obtain ⟨same, -, handlers⟩ := registerIrqHandlerBase_spec last
      rw [count] at handlers
      refine ⟨same.trans count, fun vector => ?_⟩
      rw [handlers, registered_append]
      by_cases here : r.vector (getGsiCount ioApics) = vector
      · subst here
        rw [Function.update_self, if_pos rfl]
        exact (filled _).fillSlot r.handler r.context
      · rw [Function.update_of_ne (Ne.symm here), if_neg here, List.append_nil]
        exact filled vector

/-- What an interrupt invokes after the registrations. -/
theorem registers_invoked (run : Run (Registers localApicIds) (.start ioApics) registrations s)
    (vector : Nat) (inService : Bool) : invoked s inService vector =
      if vector = apicTimerInterrupt ∨ vector = processorCallbackInterrupt then []
      else (registered (getGsiCount ioApics) registrations vector).take maxIrqSharing :=
  invoked_eq ((registers_filled run).2 vector) inService

/-- Under the condition an interrupt invokes everything that was registered for it. -/
theorem Honourable.dispatch (honourable : Honourable (getGsiCount ioApics) registrations)
    (run : Run (Registers localApicIds) (.start ioApics) registrations s) {vector : Nat}
    (small : vector < 256) (inService : Bool) :
    invoked s inService vector = registered (getGsiCount ioApics) registrations vector := by
  rw [registers_invoked run]
  by_cases fixed : vector = apicTimerInterrupt ∨ vector = processorCallbackInterrupt
  · rw [if_pos fixed]
    rcases fixed with rfl | rfl
    · exact honourable.timer.symm
    · exact honourable.callback.symm
  · rw [if_neg fixed, List.take_of_length_le (honourable.slots vector small)]

/-- The condition on a sequence is one on each of its beginnings. -/
theorem Honourable.earlier {gsiCount : Nat}
    (honourable : Honourable gsiCount (registrations ++ [r])) :
    Honourable gsiCount registrations := by
  have empty : ∀ vector, registered gsiCount (registrations ++ [r]) vector = [] →
      registered gsiCount registrations vector = [] := by
    intro vector none
    rw [registered_append] at none
    exact (List.append_eq_nil_iff.mp none).1
  refine ⟨empty _ honourable.timer, empty _ honourable.callback, fun vector small => ?_⟩
  have longer := honourable.slots vector small
  rw [registered_append, List.length_append] at longer
  omega

theorem Honourable.reported (honourable : Honourable (getGsiCount ioApics) registrations)
    (run : Run (Registers localApicIds) (.start ioApics) registrations s) :
    Run (HonouredStep localApicIds) (.start ioApics) registrations s := by
  induction run with
  | start => exact .start _
  | @next _ _ labels r before last ih =>
      have count := (registers_filled before).1
      have small := (registerIrqHandlerBase_spec last).2.1
      refine .next (ih honourable.earlier) ⟨last, fun inService => ?_⟩
      rw [honourable.dispatch (before.next last) small, honourable.earlier.dispatch before small,
        registered_append, count, if_pos rfl]

/-- For every sequence of registrations that does not panic, interrupts invoke what was
    registered and nothing is dropped exactly when no registration is for a vector
    with a fixed meaning and no vector has more handlers than slots. -/
theorem registrations_agree_iff
    (run : Run (Registers localApicIds) (.start ioApics) registrations s) :
    Agrees localApicIds ioApics registrations s ↔
      Honourable (getGsiCount ioApics) registrations := by
  constructor
  · intro agrees
    have invokes : ∀ vector < 256, registered (getGsiCount ioApics) registrations vector =
        if vector = apicTimerInterrupt ∨ vector = processorCallbackInterrupt then []
        else (registered (getGsiCount ioApics) registrations vector).take maxIrqSharing :=
          fun vector small =>
      (agrees.dispatch vector small false).symm.trans (registers_invoked run vector false)
    refine ⟨(invokes _ (by decide)).trans (if_pos (.inl rfl)),
      (invokes _ (by decide)).trans (if_pos (.inr rfl)), fun vector small => ?_⟩
    have same := invokes vector small
    split at same
    · rw [same]
      exact Nat.zero_le _
    · rw [same]
      exact List.length_take_le _ _
  · intro honourable
    exact ⟨fun vector small inService => honourable.dispatch run small inService,
      honourable.reported run⟩

/-- Registering for a vector directly never panics below the last vector. -/
theorem local_registers (localApicIds : Nat → BitVec 8) (ioApics : List IoApic)
    (own : r.irqClass = .localInterrupt) (small : r.irq < 256) (n : Nat) :
    ∃ s, Run (Registers localApicIds) (.start ioApics) (List.replicate n r) s := by
  induction n with
  | zero => exact ⟨_, .start _⟩
  | succ n ih =>
      obtain ⟨s, run⟩ := ih
      have next : ∃ t, registerIrqHandlerBase localApicIds r s = some t := by
        simp only [registerIrqHandlerBase, routeIrq, own]
        exact ⟨_, if_neg (Nat.not_le.mpr small)⟩
      obtain ⟨t, done⟩ := next
      rw [List.replicate_succ']
      exact ⟨t, run.next done⟩

end Registrations

/-- The keyboard and a network card. -/
def twoDevices : List (Registration Nat Nat) :=
  [⟨.standard, 1, 100, 7, false, true⟩, ⟨.msi, 0, 200, 8, false, true⟩]

theorem twoDevices_agree :
    ∃ s, Run (Registers (BitVec.ofNat 8)) (.start [countedChip]) twoDevices s ∧
      Agrees (BitVec.ofNat 8) [countedChip] twoDevices s := by
  have returns : (twoDevices.foldlM (fun s r => registerIrqHandlerBase (BitVec.ofNat 8) r s)
      (.start [countedChip])).isSome = true := by decide +kernel
  obtain ⟨s, folded⟩ := Option.isSome_iff_exists.mp returns
  have run : Run (Registers (BitVec.ofNat 8)) (.start [countedChip]) twoDevices s :=
    Run.of_foldlM folded
  refine ⟨s, run, (registrations_agree_iff run).mpr ⟨by decide, by decide, fun vector _ => ?_⟩⟩
  rw [registered, List.length_map]
  exact (List.length_filter_le _ _).trans (by decide)

/-- The last of seventeen handlers is dropped, and so is one for the vector of the
    timer. -/
theorem handlers_dropped :
    (∃ s, Run (Registers (BitVec.ofNat 8)) (.start [])
        (List.replicate 17 (⟨.localInterrupt, 0x40, 100, 7, false, true⟩ : Registration Nat Nat))
        s ∧
      (invoked s true 0x40).length = 16 ∧
      ¬ Agrees (BitVec.ofNat 8) []
        (List.replicate 17 (⟨.localInterrupt, 0x40, 100, 7, false, true⟩ : Registration Nat Nat))
        s) ∧
    ∃ s, Run (Registers (BitVec.ofNat 8)) (.start [])
        [(⟨.localInterrupt, 0xf0, 100, 7, false, true⟩ : Registration Nat Nat)] s ∧
      handleInterrupt s true 0xf0 = [.eoi, .tick] ∧
      ¬ Agrees (BitVec.ofNat 8) []
        [(⟨.localInterrupt, 0xf0, 100, 7, false, true⟩ : Registration Nat Nat)] s := by
  constructor
  · obtain ⟨s, run⟩ :=
      local_registers (r := (⟨.localInterrupt, 0x40, 100, 7, false, true⟩ : Registration Nat Nat))
      (BitVec.ofNat 8) [] rfl (by decide) 17
    have sixteen : (invoked s true 0x40).length = 16 := by
      rw [registers_invoked run]
      decide
    refine ⟨s, run, sixteen, fun agrees => ?_⟩
    rw [agrees.dispatch 0x40 (by decide)] at sixteen
    exact absurd sixteen (by decide)
  · refine ⟨_, Run.single rfl, rfl, fun agrees => ?_⟩
    exact absurd (agrees.dispatch 0xf0 (by decide) true) (by decide)

end Mykonos.Interrupts
