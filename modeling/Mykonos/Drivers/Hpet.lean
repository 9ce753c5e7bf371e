import Mathlib.Algebra.Group.Nat.Defs
import Mathlib.Data.Nat.Find
import Mathlib.Tactic.Common

/-! # The high precision event timer

`nanoTime` multiplies the counter by its period in 64 bits before it divides, so that the time
begins anew after `2 ^ 64` femtoseconds. `wait` compares such times.
-/

namespace Mykonos.Drivers

/-- The registers that the driver uses. -/
structure HpetRegisters where
  capabilities : BitVec 64
  configuration : BitVec 64
  counter : BitVec 64
  deriving Repr, DecidableEq

namespace Hpet

/-- Stops the counter, sets it to zero and enables it. -/
def reset (registers : HpetRegisters) : HpetRegisters :=
  let stopped := { registers with configuration := registers.configuration &&& ~~~1 }
  let zeroed := { stopped with counter := 0 }
  { zeroed with configuration := zeroed.configuration ||| 1 }

/-- The constructor, with `frequencyFemtos` and the registers that it leaves. -/
def create (registers : HpetRegisters) : BitVec 64 × HpetRegisters :=
  let frequencyFemtos := registers.capabilities >>> 32
  (frequencyFemtos, reset { registers with configuration := registers.configuration &&& ~~~2 })

/-- `nanoTime`, when the counter is read. -/
def nanoTime (frequencyFemtos counter : BitVec 64) : BitVec 64 :=
  counter * frequencyFemtos / 1000000

/-- The loop of `wait`, with the values that are read from the counter one after the other, and
    how many of them do not end it. -/
def waitUntil (frequencyFemtos deadline : BitVec 64) : List (BitVec 64) → Option Nat
  | [] => none
  | counter :: samples =>
      if nanoTime frequencyFemtos counter < deadline then
        (waitUntil frequencyFemtos deadline samples).map (· + 1)
      else some 0

def wait (frequencyFemtos nanos start : BitVec 64) (samples : List (BitVec 64)) : Option Nat :=
  waitUntil frequencyFemtos (nanoTime frequencyFemtos start + nanos) samples

/-- The timer starts at zero, enabled and with its legacy mappings removed, and its period has
    32 bits. -/
theorem create_spec (registers : HpetRegisters) :
    (create registers).1.toNat < 2 ^ 32 ∧ (create registers).2.counter = 0 ∧
      (create registers).2.configuration = registers.configuration &&& ~~~3 ||| 1 := by
  refine ⟨?_, rfl, ?_⟩
  · have size := registers.capabilities.isLt
    rw [create, BitVec.toNat_ushiftRight, Nat.shiftRight_eq_div_pow]
    omega
  · rw [create, reset]
    dsimp only
    rw [BitVec.and_assoc]
    rfl

/-- The time in nanoseconds. -/
def time (frequencyFemtos counter : BitVec 64) : Nat :=
  counter.toNat * frequencyFemtos.toNat / 10 ^ 6

variable {frequencyFemtos last : BitVec 64}

theorem toNat_nanoTime (frequencyFemtos counter : BitVec 64) :
    (nanoTime frequencyFemtos counter).toNat =
      counter.toNat * frequencyFemtos.toNat % 2 ^ 64 / 10 ^ 6 := by
  rw [nanoTime, BitVec.toNat_udiv, BitVec.toNat_mul]
  rfl

/-- The time is right as long as the product fits. -/
theorem nanoTime_eq_iff (frequencyFemtos counter : BitVec 64) :
    (nanoTime frequencyFemtos counter).toNat = time frequencyFemtos counter ↔
      counter.toNat * frequencyFemtos.toNat < 2 ^ 64 := by
  rw [toNat_nanoTime, time]
  omega

/-- The time never goes back up to this value of the counter. -/
def Monotone (frequencyFemtos last : BitVec 64) : Prop :=
  ∀ c c' : BitVec 64, c.toNat ≤ c'.toNat → c'.toNat ≤ last.toNat →
    (nanoTime frequencyFemtos c).toNat ≤ (nanoTime frequencyFemtos c').toNat

/-- The loop is left at the first value that is read when the nanoseconds have passed, and not
    before, if the counter grows and has values up to this one. -/
def WaitsExactly (frequencyFemtos last : BitVec 64) : Prop :=
  ∀ (start : BitVec 64) (samples : List (BitVec 64)) (nanos : BitVec 64),
    (start :: samples).Pairwise (fun c c' => c.toNat ≤ c'.toNat) →
    (∀ c ∈ start :: samples, c.toNat ≤ last.toNat) →
    time frequencyFemtos start + nanos.toNat < 2 ^ 64 →
      wait frequencyFemtos nanos start samples =
        samples.findIdx? fun c => time frequencyFemtos start + nanos.toNat ≤ time frequencyFemtos c

theorem waitUntil_eq {deadline : BitVec 64} {due : Nat} (same : deadline.toNat = due)
    {samples : List (BitVec 64)} (early : ∀ c ∈ samples, c.toNat * frequencyFemtos.toNat < 2 ^ 64) :
    waitUntil frequencyFemtos deadline samples = samples.findIdx? fun c =>
      due ≤ time frequencyFemtos c := by
  induction samples with
  | nil => rfl
  | cons c samples ih =>
      obtain ⟨first, others⟩ := List.forall_mem_cons.mp early
      have now := (nanoTime_eq_iff frequencyFemtos c).mpr first
      have compared : nanoTime frequencyFemtos c < deadline ↔ time frequencyFemtos c < due := by
        rw [BitVec.lt_def, now, same]
      rw [waitUntil, List.findIdx?_cons, ih others]
      by_cases waiting : time frequencyFemtos c < due
      · rw [if_pos (compared.mpr waiting), decide_eq_false (Nat.not_le.mpr waiting)]
        rfl
      · rw [if_neg (compared.not.mpr waiting), decide_eq_true (Nat.le_of_not_lt waiting)]
        rfl

/-- The first value of the counter at which the product does not fit. -/
theorem exists_wrap (late : 2 ^ 64 ≤ last.toNat * frequencyFemtos.toNat) :
    ∃ c : BitVec 64, c.toNat ≤ last.toNat ∧ 0 < c.toNat ∧ 2 ^ 64 ≤ c.toNat * frequencyFemtos.toNat ∧
      (c.toNat - 1) * frequencyFemtos.toNat < 2 ^ 64 := by
  have wraps : ∃ n, 2 ^ 64 ≤ n * frequencyFemtos.toNat := ⟨_, late⟩
  have least : Nat.find wraps ≤ last.toNat := Nat.find_min' wraps late
  have value : (BitVec.ofNat 64 (Nat.find wraps)).toNat = Nat.find wraps :=
    Nat.mod_eq_of_lt (Nat.lt_of_le_of_lt least last.isLt)
  have positive : 0 < Nat.find wraps := by
    rw [Nat.find_pos, Nat.zero_mul]
    decide
  refine ⟨BitVec.ofNat 64 (Nat.find wraps), ?_⟩
  rw [value]
  exact ⟨least, positive, Nat.find_spec wraps,
    Nat.lt_of_not_le (Nat.find_min wraps (Nat.pred_lt_of_lt positive))⟩

/-- There the time begins anew. -/
theorem nanoTime_wrap (slow : frequencyFemtos.toNat ≤ 10 ^ 8) {c : BitVec 64}
    (positive : 0 < c.toNat) (late : 2 ^ 64 ≤ c.toNat * frequencyFemtos.toNat)
    (early : (c.toNat - 1) * frequencyFemtos.toNat < 2 ^ 64) :
    (nanoTime frequencyFemtos c).toNat < 100 ∧ 10 ^ 6 * 10 ^ 6 ≤
      (c.toNat - 1) * frequencyFemtos.toNat / 10 ^ 6 := by
  have step : c.toNat * frequencyFemtos.toNat = (c.toNat - 1) * frequencyFemtos.toNat +
      frequencyFemtos.toNat := by
    rw [← Nat.succ_mul, Nat.succ_eq_add_one, Nat.sub_add_cancel positive]
  rw [toNat_nanoTime]
  omega

theorem monotone_iff (slow : frequencyFemtos.toNat ≤ 10 ^ 8) :
    Monotone frequencyFemtos last ↔ last.toNat * frequencyFemtos.toNat < 2 ^ 64 := by
  constructor
  · intro monotone
    by_contra late
    obtain ⟨c, below, positive, wraps, early⟩ := exists_wrap (Nat.le_of_not_lt late)
    have before : (c - 1).toNat = c.toNat - 1 := BitVec.toNat_sub_of_le (BitVec.le_def.mpr positive)
    have back := monotone (c - 1) c (by omega) below
    have small := nanoTime_wrap slow positive wraps early
    rw [(nanoTime_eq_iff _ _).mpr (before.symm ▸ early), time, before] at back
    omega
  · intro early c c' order below
    have products : c.toNat * frequencyFemtos.toNat ≤ c'.toNat * frequencyFemtos.toNat :=
      Nat.mul_le_mul_right _ order
    have most : c'.toNat * frequencyFemtos.toNat ≤ last.toNat * frequencyFemtos.toNat :=
      Nat.mul_le_mul_right _ below
    rw [(nanoTime_eq_iff _ _).mpr (by omega), (nanoTime_eq_iff _ _).mpr (by omega)]
    exact Nat.div_le_div_right products

theorem waitsExactly_iff (slow : frequencyFemtos.toNat ≤ 10 ^ 8)
    (fits : time frequencyFemtos last < 2 ^ 64) :
    WaitsExactly frequencyFemtos last ↔ last.toNat * frequencyFemtos.toNat < 2 ^ 64 := by
  constructor
  · intro waits
    by_contra late
    obtain ⟨c, below, positive, wraps, early⟩ := exists_wrap (Nat.le_of_not_lt late)
    have small := nanoTime_wrap slow positive wraps early
    -- a wait from zero that is over when the product has just wrapped
    have due : time frequencyFemtos c < 2 ^ 64 :=
      Nat.lt_of_le_of_lt (Nat.div_le_div_right (Nat.mul_le_mul_right _ below)) fits
    have value : (BitVec.ofNat 64 (time frequencyFemtos c)).toNat = time frequencyFemtos c :=
      Nat.mod_eq_of_lt due
    have zero : time frequencyFemtos 0 = 0 := by
      rw [time, show (0 : BitVec 64).toNat = 0 from rfl, Nat.zero_mul, Nat.zero_div]
    have ends := waits 0 [c] (BitVec.ofNat 64 (time frequencyFemtos c)) (by simp)
      (List.forall_mem_cons.mpr ⟨Nat.zero_le _, List.forall_mem_singleton.mpr below⟩)
      (by rw [zero, value]; omega)
    have deadline : nanoTime frequencyFemtos 0 + BitVec.ofNat 64 (time frequencyFemtos c) =
        BitVec.ofNat 64 (time frequencyFemtos c) := by
      have now : nanoTime frequencyFemtos 0 = 0 :=
        BitVec.eq_of_toNat_eq ((nanoTime_eq_iff frequencyFemtos 0).mpr (by simp) ▸ zero)
      rw [now]
      exact BitVec.zero_add _
    have waiting : nanoTime frequencyFemtos c < BitVec.ofNat 64 (time frequencyFemtos c) := by
      have least : (c.toNat - 1) * frequencyFemtos.toNat / 10 ^ 6 ≤ time frequencyFemtos c :=
        Nat.div_le_div_right (Nat.mul_le_mul_right _ (Nat.sub_le _ _))
      rw [BitVec.lt_def, value]
      omega
    rw [wait, deadline, waitUntil, if_pos waiting, List.findIdx?_cons, zero, value, Nat.zero_add,
      decide_eq_true (Nat.le_refl _)] at ends
    cases ends
  · intro early start samples nanos _ below due
    obtain ⟨first, others⟩ := List.forall_mem_cons.mp below
    have products (c : BitVec 64) (inside : c.toNat ≤ last.toNat) :
        c.toNat * frequencyFemtos.toNat < 2 ^ 64 :=
      Nat.lt_of_le_of_lt (Nat.mul_le_mul_right _ inside) early
    have now := (nanoTime_eq_iff frequencyFemtos start).mpr (products start first)
    have deadline : (nanoTime frequencyFemtos start + nanos).toNat = time frequencyFemtos start +
        nanos.toNat := by
      rw [BitVec.toNat_add, now]
      exact Nat.mod_eq_of_lt due
    exact waitUntil_eq deadline fun c member => products c (others c member)

/-- The time is right, never goes back and is waited for exactly, up to some value of the
    counter, exactly if `2 ^ 64` femtoseconds have not passed then. -/
theorem times_exact_iff (slow : frequencyFemtos.toNat ≤ 10 ^ 8)
    (fits : time frequencyFemtos last < 2 ^ 64) :
    (∀ c, (nanoTime frequencyFemtos c).toNat = time frequencyFemtos c ↔
      c.toNat * frequencyFemtos.toNat < 2 ^ 64) ∧
    (Monotone frequencyFemtos last ↔ last.toNat * frequencyFemtos.toNat < 2 ^ 64) ∧
    (WaitsExactly frequencyFemtos last ↔ last.toNat * frequencyFemtos.toNat < 2 ^ 64) :=
  ⟨nanoTime_eq_iff frequencyFemtos, monotone_iff slow, waitsExactly_iff slow fits⟩

/-- The slowest timer that there may be, for five hours. -/
theorem times_exact_five_hours :
    ((100000000 : BitVec 64).toNat ≤ 10 ^ 8 ∧ time 100000000 180000000000 < 2 ^ 64) ∧
      WaitsExactly 100000000 180000000000 := by
  have slow : (100000000 : BitVec 64).toNat ≤ 10 ^ 8 := by decide
  have fits : time 100000000 180000000000 < 2 ^ 64 := by decide
  exact ⟨⟨slow, fits⟩, (times_exact_iff slow fits).2.2.mpr (by decide)⟩

/-- A timer of 100 MHz after 18446 seconds. A wait of a millisecond goes on, also an hour
    later. -/
theorem time_wraps :
    time 10000000 1844674407371 = 18446744073710 ∧ (nanoTime 10000000 1844674407371).toNat = 0 ∧
      time 10000000 1844674407370 + 1000000 ≤ time 10000000 1844674507371 ∧
      wait 10000000 1000000 1844674407370 [1844674507371, 2204674407370] = none := by decide +kernel

end Hpet

end Mykonos.Drivers
