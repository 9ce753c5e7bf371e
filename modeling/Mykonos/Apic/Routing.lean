import Mykonos.Apic.IoApic
import Mykonos.Lib.Run

/-! # Routing interrupts

Sequences of calls of `mapIoApicInterrupt`, `maskIoApicInterrupt` and
`unmaskIoApicInterrupt`. A call edits the one entry of its interrupt; mapping sets the
bits of the new route and clears none, so the bits of older routes stay.
-/

namespace Mykonos.Apic

open Lib

/-! ## Calls -/

/-- The arguments of `mapIoApicInterrupt` after the interrupt. -/
structure Route where
  vector : BitVec 8
  levelTriggered : Bool
  activeHigh : Bool
  targetCpuNumber : Nat
  deriving Repr, DecidableEq

/-- The bits a route sets. -/
def Route.word (route : Route) : BitVec 32 :=
  routeWord (route.vector.setWidth 32) route.levelTriggered route.activeHigh

/-- The bits a route is about: the vector, the polarity and the trigger mode. -/
def routeBits : BitVec 32 := 0xa0ff

inductive Request where
  | map (gsi : Nat) (route : Route)
  | mask (gsi : Nat)
  | unmask (gsi : Nat)
  deriving Repr, DecidableEq

namespace Request

def gsi : Request → Nat
  | map gsi _ => gsi
  | mask gsi => gsi
  | unmask gsi => gsi

def perform (localApicIds : Nat → BitVec 8) : Request → List IoApic → Option (List IoApic)
  | map gsi route =>
      mapIoApicInterrupt localApicIds gsi route.vector route.levelTriggered route.activeHigh
        route.targetCpuNumber
  | mask gsi => maskIoApicInterrupt gsi
  | unmask gsi => unmaskIoApicInterrupt gsi

/-- What a call does to the entry of its interrupt. -/
def edit (localApicIds : Nat → BitVec 8) : Request → Redirection → Redirection
  | map _ route => .map route.word (localApicIds route.targetCpuNumber)
  | mask _ => .mask
  | unmask _ => .unmask

/-- The route of a mapping of the interrupt. -/
def routeOf (gsi : Nat) : Request → Option Route
  | map other route => if other = gsi then some route else none
  | _ => none

/-- The mask bit that a call sets for the interrupt. -/
def maskOf (gsi : Nat) : Request → Option Bool
  | map _ _ => none
  | mask other => if other = gsi then some true else none
  | unmask other => if other = gsi then some false else none

end Request

/-- The routes that the calls give to an interrupt, in order. -/
def routes (requests : List Request) (gsi : Nat) : List Route := requests.filterMap (·.routeOf gsi)

def masks (requests : List Request) (gsi : Nat) : List Bool := requests.filterMap (·.maskOf gsi)

/-! ## The entry of an interrupt -/

def Redirection.masked (r : Redirection) : Bool := r.low.getLsbD 16

/-- The entry sends the interrupt where the route says and as it says. -/
structure Redirection.Holds (r : Redirection) (localApicIds : Nat → BitVec 8)
    (route : Route) : Prop where
  vector : r.low.setWidth 8 = route.vector
  trigger : r.low.getLsbD 15 = route.levelTriggered
  polarity : r.low.getLsbD 13 = !route.activeHigh
  destination : (r.high >>> 24).setWidth 8 = localApicIds route.targetCpuNumber

/-- After the calls each mapped interrupt has the route of its last mapping, and each
    mask bit is that of the last call that set it. -/
structure Routed (localApicIds : Nat → BitVec 8) (before : List IoApic) (requests : List Request)
    (after : List IoApic) : Prop where
  route : ∀ gsi route, (routes requests gsi).getLast? = some route →
    (entry after gsi).Holds localApicIds route
  mask : ∀ gsi < getGsiCount before,
    (entry after gsi).masked = (masks requests gsi).getLast?.getD (entry before gsi).masked

/-- Every bit of a route that an entry held before the calls, or that an earlier
    mapping set, is set by the last mapping of the interrupt too. -/
def OnlyLast (before : List IoApic) (requests : List Request) : Prop :=
  ∀ gsi route, (routes requests gsi).getLast? = some route →
    (entry before gsi).low &&& routeBits &&& ~~~route.word = 0 ∧
    ∀ earlier ∈ routes requests gsi, earlier.word &&& ~~~route.word = 0

/-! ## Bits -/

theorem routeBits_bits :
    ∀ i < 32, routeBits.getLsbD i = (decide (i < 8) || decide (i = 15) || decide (i = 13)) := by
  decide

theorem Route.word_bits (route : Route) {i : Nat} (bound : i < 32) :
    route.word.getLsbD i =
      (decide (i < 8) && route.vector.getLsbD i || decide (i = 15) && route.levelTriggered ||
        decide (i = 13) && !route.activeHigh) := by
  obtain ⟨vector, levelTriggered, activeHigh, target⟩ := route
  have single : ∀ (b : Bool) (n : Nat), n < 32 →
      ((BitVec.ofBool b).setWidth 32 <<< n).getLsbD i = (decide (i = n) && b) := by
    intro b n small
    by_cases same : i = n
    · subst same
      cases b <;> simp [bound]
    · by_cases below : i < n
      · simp [below, same]
      · have rest : 0 < i - n := by omega
        cases b <;> simp [below, same, bound]
        omega
  simp only [word, routeWord, BitVec.getLsbD_or, single _ _ (show 15 < 32 by decide),
    single _ _ (show 13 < 32 by decide), BitVec.shiftLeft_zero, BitVec.getLsbD_setWidth,
    bound, decide_true, Bool.true_and]
  by_cases low : i < 8
  · simp [low]
  · simp [low, BitVec.getLsbD_of_ge vector i (Nat.le_of_not_lt low)]

/-- An entry holds a route exactly when its route bits are those of the route. -/
theorem Redirection.holds_iff {r : Redirection} {localApicIds : Nat → BitVec 8} {route : Route}
    (destination : (r.high >>> 24).setWidth 8 = localApicIds route.targetCpuNumber) :
    r.Holds localApicIds route ↔ r.low &&& routeBits = route.word := by
  constructor
  · rintro ⟨vector, trigger, polarity, -⟩
    refine BitVec.eq_of_getLsbD_eq fun i bound => ?_
    rw [BitVec.getLsbD_and, routeBits_bits i bound, route.word_bits bound]
    by_cases low : i < 8
    · have bit := congrArg (BitVec.getLsbD · i) vector
      simp only [BitVec.getLsbD_setWidth, low, decide_true, Bool.true_and] at bit
      have := show i ≠ 15 by omega
      have := show i ≠ 13 by omega
      simp [-BitVec.getLsbD_eq_getElem, *]
    · by_cases first : i = 15
      · subst first
        simp [-BitVec.getLsbD_eq_getElem, trigger]
      · by_cases second : i = 13
        · subst second
          simp [-BitVec.getLsbD_eq_getElem, polarity]
        · simp [low, first, second]
  · intro same
    have bits :
        ∀ i < 32, (r.low.getLsbD i && (decide (i < 8) || decide (i = 15) || decide (i = 13))) =
        (decide (i < 8) && route.vector.getLsbD i || decide (i = 15) && route.levelTriggered ||
          decide (i = 13) && !route.activeHigh) := by
      intro i bound
      rw [← routeBits_bits i bound, ← BitVec.getLsbD_and, same, route.word_bits bound]
    refine ⟨BitVec.eq_of_getLsbD_eq fun i low => ?_, ?_, ?_, destination⟩
    · have bit := bits i (by omega)
      have := show i ≠ 15 by omega
      have := show i ≠ 13 by omega
      simpa [*] using bit
    · simpa using bits 15 (by decide)
    · simpa using bits 13 (by decide)

theorem outside_eq_zero_iff {w : Nat} {x word : BitVec w} :
    x &&& ~~~word = 0 ↔ ∀ i < w, x.getLsbD i = true → word.getLsbD i = true := by
  constructor
  · intro none i bound set
    have bit := congrArg (BitVec.getLsbD · i) none
    simpa [-BitVec.getLsbD_eq_getElem, BitVec.getLsbD_and, BitVec.getLsbD_not, bound, set] using bit
  · intro inside
    refine BitVec.eq_of_getLsbD_eq fun i bound => ?_
    have := inside i bound
    cases set : x.getLsbD i
    · simp [-BitVec.getLsbD_eq_getElem, BitVec.getLsbD_and, set]
    · simp [-BitVec.getLsbD_eq_getElem, BitVec.getLsbD_and, BitVec.getLsbD_not, bound, this set]

theorem collected_bits {w : Nat} (words : List (BitVec w)) (first : BitVec w) (i : Nat) :
    (words.foldl (· ||| ·) first).getLsbD i = true ↔
      first.getLsbD i = true ∨ ∃ word ∈ words, word.getLsbD i = true := by
  induction words generalizing first with
  | nil => simp
  | cons word rest ih => simp only [List.foldl_cons, ih, BitVec.getLsbD_or, Bool.or_eq_true,
      List.mem_cons, exists_eq_or_imp, or_assoc]

/-- Bits collected by `|||` are those of one of the words exactly when none lies
    outside it. -/
theorem collected_eq_iff {w : Nat} {word : BitVec w} {words : List (BitVec w)} (first : BitVec w)
    (member : word ∈ words) :
    words.foldl (· ||| ·) first = word ↔
      first &&& ~~~word = 0 ∧ ∀ other ∈ words, other &&& ~~~word = 0 := by
  simp only [outside_eq_zero_iff]
  constructor
  · intro same
    have bits := fun i => same ▸ collected_bits words first i
    exact ⟨fun i _ set => (bits i).mpr (.inl set),
      fun other among i _ set => (bits i).mpr (.inr ⟨other, among, set⟩)⟩
  · rintro ⟨early, late⟩
    refine BitVec.eq_of_getLsbD_eq fun i bound => Bool.eq_iff_iff.mpr ?_
    rw [collected_bits]
    constructor
    · rintro (set | ⟨other, among, set⟩)
      · exact early i bound set
      · exact late other among i bound set
    · intro set
      exact .inr ⟨word, member, set⟩

/-! ## One entry along the calls -/

/-- The entry of an interrupt after the calls. -/
def edited (localApicIds : Nat → BitVec 8) (gsi : Nat) (requests : List Request) (r : Redirection) :
    Redirection :=
  requests.foldl (fun r request => if request.gsi = gsi then request.edit localApicIds r else r) r

section Entry

variable {localApicIds : Nat → BitVec 8} {gsi : Nat} {requests : List Request} {r : Redirection}

theorem edited_append (request : Request) :
    edited localApicIds gsi (requests ++ [request]) r =
      if request.gsi = gsi then request.edit localApicIds (edited localApicIds gsi requests r)
      else edited localApicIds gsi requests r := by
  simp only [edited, List.foldl_append, List.foldl_cons, List.foldl_nil]

theorem routes_append (request : Request) :
    routes (requests ++ [request]) gsi = routes requests gsi ++ (request.routeOf gsi).toList := by
  rw [routes, List.filterMap_append]
  cases found : request.routeOf gsi <;> simp [routes, found]

theorem masks_append (request : Request) :
    masks (requests ++ [request]) gsi = masks requests gsi ++ (request.maskOf gsi).toList := by
  rw [masks, List.filterMap_append]
  cases found : request.maskOf gsi <;> simp [masks, found]

/-- The route bits of an entry after one call. -/
theorem Request.edit_low (request : Request) (same : request.gsi = gsi) :
    (request.edit localApicIds r).low &&& routeBits =
      ((request.routeOf gsi).toList.map Route.word).foldl (· ||| ·) (r.low &&& routeBits) := by
  cases request with
  | map other route =>
      have own : route.word &&& routeBits = route.word := by
        refine BitVec.eq_of_getLsbD_eq fun i bound => ?_
        rw [BitVec.getLsbD_and, routeBits_bits i bound, route.word_bits bound]
        by_cases low : i < 8 <;> by_cases first : i = 15 <;> by_cases second :
            i = 13 <;> simp [low, first, second]
      have found : (Request.map other route).routeOf gsi = some route := if_pos same
      rw [found]
      show (r.low ||| route.word) &&& routeBits = (r.low &&& routeBits) ||| route.word
      rw [BitVec.and_or_distrib_right, own]
  | mask other =>
      show (r.low ||| (1 : BitVec 32) <<< 16) &&& routeBits = r.low &&& routeBits
      rw [BitVec.and_or_distrib_right, show (1 : BitVec 32) <<< 16 &&& routeBits = 0#32 by decide,
        BitVec.or_zero]
  | unmask other =>
      show r.low &&& ~~~((1 : BitVec 32) <<< 16) &&& routeBits = r.low &&& routeBits
      rw [BitVec.and_assoc, show ~~~((1 : BitVec 32) <<< 16) &&& routeBits = routeBits by decide]

theorem Request.edit_high (request : Request) (same : request.gsi = gsi) :
    (request.edit localApicIds r).high =
      match request.routeOf gsi with
      | some route => (localApicIds route.targetCpuNumber).setWidth 32 <<< 24
      | none => r.high := by
  cases request with
  | map other route =>
      have found : (Request.map other route).routeOf gsi = some route := if_pos same
      rw [found]
      rfl
  | mask other => rfl
  | unmask other => rfl

theorem Request.edit_masked (request : Request) (same : request.gsi = gsi) :
    (request.edit localApicIds r).masked = (request.maskOf gsi).getD r.masked := by
  cases request with
  | map other route =>
      show (r.low ||| route.word).getLsbD 16 = r.low.getLsbD 16
      rw [BitVec.getLsbD_or, route.word_bits (by decide)]
      simp
  | mask other =>
      have found : (Request.mask other).maskOf gsi = some true := if_pos same
      rw [found]
      show (r.low ||| (1 : BitVec 32) <<< 16).getLsbD 16 = true
      simp
  | unmask other =>
      have found : (Request.unmask other).maskOf gsi = some false := if_pos same
      rw [found]
      show (r.low &&& ~~~((1 : BitVec 32) <<< 16)).getLsbD 16 = false
      simp

/-- A call for another interrupt has no route and no mask bit for this one. -/
theorem Request.other_none {request : Request} (different : request.gsi ≠ gsi) :
    request.routeOf gsi = none ∧ request.maskOf gsi = none := by
  cases request with
  | map other route => exact ⟨if_neg different, rfl⟩
  | mask other => exact ⟨rfl, if_neg different⟩
  | unmask other => exact ⟨rfl, if_neg different⟩

/-- The route bits of every mapping stay. -/
theorem edited_low : (edited localApicIds gsi requests r).low &&& routeBits =
    ((routes requests gsi).map Route.word).foldl (· ||| ·) (r.low &&& routeBits) := by
  induction requests using List.reverseRecOn with
  | nil => rfl
  | append_singleton requests request ih =>
      rw [edited_append, routes_append, List.map_append, List.foldl_append, ← ih]
      by_cases same : request.gsi = gsi
      · rw [if_pos same, request.edit_low same]
      · rw [if_neg same, (Request.other_none same).1]
        rfl

theorem edited_high : (edited localApicIds gsi requests r).high =
    match (routes requests gsi).getLast? with
    | some route => (localApicIds route.targetCpuNumber).setWidth 32 <<< 24
    | none => r.high := by
  induction requests using List.reverseRecOn with
  | nil => rfl
  | append_singleton requests request ih =>
      rw [edited_append, routes_append]
      by_cases same : request.gsi = gsi
      · rw [if_pos same, request.edit_high same]
        cases request.routeOf gsi with
        | none => simpa using ih
        | some route => simp
      · rw [if_neg same, (Request.other_none same).1]
        simpa using ih

theorem edited_masked : (edited localApicIds gsi requests r).masked =
    (masks requests gsi).getLast?.getD r.masked := by
  induction requests using List.reverseRecOn with
  | nil => rfl
  | append_singleton requests request ih =>
      rw [edited_append, masks_append]
      by_cases same : request.gsi = gsi
      · rw [if_pos same, request.edit_masked same]
        cases request.maskOf gsi with
        | none => simpa using ih
        | some bit => simp
      · rw [if_neg same, (Request.other_none same).2]
        simpa using ih

/-- The entry holds the last route exactly when no other route or earlier content has
    a bit outside it. -/
theorem edited_holds_iff {route : Route} (last : (routes requests gsi).getLast? = some route) :
    (edited localApicIds gsi requests r).Holds localApicIds route ↔
      r.low &&& routeBits &&& ~~~route.word = 0 ∧
      ∀ earlier ∈ routes requests gsi, earlier.word &&& ~~~route.word = 0 := by
  have high : (edited localApicIds gsi requests r).high =
      (localApicIds route.targetCpuNumber).setWidth 32 <<< 24 := by
    rw [edited_high, last]
  have destination : ((edited localApicIds gsi requests r).high >>> 24).setWidth 8 =
      localApicIds route.targetCpuNumber := by
    rw [high]
    refine BitVec.eq_of_getLsbD_eq fun i bound => ?_
    have first : 24 + i < 32 := by omega
    have second : ¬ 24 + i < 24 := by omega
    have third : i < 32 := by omega
    simp [-BitVec.getLsbD_eq_getElem, bound, first, second, third]
  have member : route.word ∈ (routes requests gsi).map Route.word :=
    List.mem_map_of_mem (List.mem_of_getLast? last)
  rw [Redirection.holds_iff destination, edited_low, collected_eq_iff _ member, List.forall_mem_map]

end Entry

/-! ## Runs -/

section Runs

variable (localApicIds : Nat → BitVec 8) {ioApics : List IoApic}

/-- Each call edits one line of the chip that covers its interrupt. -/
theorem Request.perform_eq (request : Request) (ioApics : List IoApic) :
    ∃ edits : Nat → StateM Chip Unit,
      (∀ line < 2 ^ 16, ∀ c, Edited c ((edits line).run c).2 line (request.edit localApicIds)) ∧
      request.perform localApicIds ioApics = editIoApic request.gsi edits ioApics := by
  cases request with
  | map gsi route => exact ⟨_, fun line small c => mapGsi_edits small _ _ _ _, rfl⟩
  | mask gsi => exact ⟨_, fun line small c => maskGsi_edits small, rfl⟩
  | unmask gsi => exact ⟨_, fun line small c => unmaskGsi_edits small, rfl⟩

/-- The specification of one call: it is confined to its entry, and that entry is
    edited. -/
theorem Request.perform_spec (request : Request) (h : Contiguous 0 ioApics)
    (small : lines ioApics < 2 ^ 32) (valid : request.gsi < lines ioApics) :
    ∃ after, request.perform localApicIds ioApics = some after ∧
      Confined ioApics after request.gsi ∧ Contiguous 0 after ∧ lines after = lines ioApics ∧
      ∀ gsi, entry after gsi =
        if request.gsi = gsi then request.edit localApicIds (entry ioApics gsi)
        else entry ioApics gsi := by
  obtain ⟨edits, edit, same⟩ := request.perform_eq localApicIds ioApics
  have bounded : 0 + lines ioApics < 2 ^ 32 := by omega
  have high : request.gsi < 0 + lines ioApics := by omega
  obtain ⟨after, changed, confined, contiguous, length, entries⟩ :=
    editIoApic_spec h bounded (Nat.zero_le _) high edit
  refine ⟨after, same.trans changed, confined, contiguous, length, fun gsi => ?_⟩
  rw [entries gsi (Nat.zero_le _)]
  by_cases here : gsi = request.gsi
  · rw [if_pos here, if_pos here.symm, here]
  · rw [if_neg here, if_neg (Ne.symm here)]

/-- One call as a step that is confined to the entry of its interrupt. -/
def ConfinedStep (localApicIds : Nat → BitVec 8) (before : List IoApic) (request : Request)
    (after : List IoApic) :
    Prop :=
  request.perform localApicIds before = some after ∧ Confined before after request.gsi

/-- Every sequence of calls on existing interrupts runs to its end, and leaves each
    entry as its own calls made it. -/
theorem requests_run (h : Contiguous 0 ioApics) (small : lines ioApics < 2 ^ 32)
    (requests : List Request) (valid : ∀ request ∈ requests, request.gsi < lines ioApics) :
    ∃ after, Run (ConfinedStep localApicIds) ioApics requests after ∧ Contiguous 0 after ∧
      lines after = lines ioApics ∧ ∀ gsi, entry after gsi =
        edited localApicIds gsi requests (entry ioApics gsi) := by
  induction requests using List.reverseRecOn with
  | nil => exact ⟨ioApics, .start _, h, rfl, fun _ => rfl⟩
  | append_singleton requests request ih =>
      obtain ⟨mid, run, contiguous, length, entries⟩ :=
        ih fun other member => valid other (by simp [member])
      have next : request.gsi < lines mid := length ▸ valid request (by simp)
      obtain ⟨after, performed, confined, contiguous', length', entries'⟩ :=
        request.perform_spec localApicIds contiguous (length ▸ small) next
      refine ⟨after, run.next ⟨performed, confined⟩, contiguous', length'.trans length,
        fun gsi => ?_⟩
      rw [entries', entries, edited_append]

/-- On the chips that `initIoApics` accepts, every sequence of calls on existing
    interrupts runs, each call confined to its entry; and each entry holds the last
    route given to it exactly when no bit outside that route was there or given before. -/
theorem routing_iff {descriptors : List (IoApicDescriptor × Chip)}
    (count : descriptors.length ≤ maxIoApics) (accepted : initIoApics descriptors = some ioApics)
    (requests : List Request) (valid : ∀ request ∈ requests, request.gsi < getGsiCount ioApics) :
    ∃ after, Run (ConfinedStep localApicIds) ioApics requests after ∧
      (Routed localApicIds ioApics requests after ↔ OnlyLast ioApics requests) := by
  have limit : 0 + 256 * descriptors.length < 2 ^ 32 := by
    simp only [maxIoApics] at count
    omega
  obtain ⟨contiguous, length⟩ := initLoop_contiguous accepted limit
  have small : lines ioApics < 2 ^ 32 := by
    have := contiguous.lines_le
    omega
  rw [getGsiCount_eq small] at valid
  obtain ⟨after, run, -, -, entries⟩ := requests_run localApicIds contiguous small requests valid
  refine ⟨after, run, fun routed gsi route last => ?_,
    fun clean => ⟨fun gsi route last => ?_, fun gsi _ => ?_⟩⟩
  · have holds := routed.route gsi route last
    rw [entries] at holds
    exact (edited_holds_iff last).mp holds
  · rw [entries]
    exact (edited_holds_iff last).mpr (clean gsi route last)
  · rw [entries, edited_masked]

end Runs

/-- A chip of 24 lines, all masked. -/
def resetChip : Chip := ⟨0, fun index => if index = 1 then 0x170011 else 0x10000⟩

/-- The same after its lines have been counted. -/
def countedChip : IoApic := ⟨{ resetChip with select := 1 }, 24, 0⟩

/-- The keyboard is mapped and unmasked. -/
theorem keyboard_routed :
    ∃ after, Run (ConfinedStep (BitVec.ofNat 8)) [countedChip] [.map 1 ⟨0x21, false, true, 0⟩,
      .unmask 1] after ∧
      Routed (BitVec.ofNat 8) [countedChip] [.map 1 ⟨0x21, false, true, 0⟩, .unmask 1] after := by
  have accepted : initIoApics [(⟨0xfec00000, 0⟩, resetChip)] = some [countedChip] := rfl
  obtain ⟨after, run, routed⟩ := routing_iff (BitVec.ofNat 8) (by decide) accepted
    [.map 1 ⟨0x21, false, true, 0⟩, .unmask 1] (by decide)
  refine ⟨after, run, routed.mpr fun gsi route last => ?_⟩
  by_cases here : 1 = gsi
  · subst here
    cases last
    exact ⟨by decide, by decide⟩
  · have none : routes [.map 1 ⟨0x21, false, true, 0⟩, .unmask 1] gsi = [] := by
      simp [routes, Request.routeOf, here]
    rw [none] at last
    cases last

/-- The line is mapped to vector 0x30 and then to 0x21, and ends up at 0x31. -/
theorem vectors_mixed :
    ∃ after, Run (ConfinedStep (BitVec.ofNat 8)) [countedChip]
        [.map 1 ⟨0x30, false, true, 0⟩, .map 1 ⟨0x21, false, true, 0⟩] after ∧
      (entry after 1).low.setWidth 8 = 0x31#8 ∧
      ¬ Routed (BitVec.ofNat 8) [countedChip]
        [.map 1 ⟨0x30, false, true, 0⟩, .map 1 ⟨0x21, false, true, 0⟩] after := by
  have contiguous : Contiguous 0 [countedChip] := .cons rfl (by decide) (.nil _)
  obtain ⟨after, run, -, -, entries⟩ := requests_run (BitVec.ofNat 8) contiguous (by decide)
    [.map 1 ⟨0x30, false, true, 0⟩, .map 1 ⟨0x21, false, true, 0⟩] (by decide)
  have mixed : (entry after 1).low.setWidth 8 = 0x31#8 := by
    rw [entries]
    decide
  refine ⟨after, run, mixed, fun routed => ?_⟩
  have wanted := (routed.route 1 ⟨0x21, false, true, 0⟩ rfl).vector
  rw [mixed] at wanted
  exact absurd wanted (by decide)

end Mykonos.Apic
