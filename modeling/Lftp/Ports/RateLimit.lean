import Lftp.Ports.Numbers

/-!
# The pools of a rate limit

A `RateLimit` has a pool of bytes for each direction. Its settings are pairs of numbers, which are
cut to `int`.

`limitKept_iff` says which limits that a user can set are kept.
-/

namespace Lftp.Ports.RateLimit

open Lftp.Verified
open Lftp.Ports.PgetChunks (UNumberValidate)
open Lftp.Ports.Numbers (NumberPair toInt toNumberPair uNumberPairValidate)

/-! ## Pools -/

inductive Dir
  | get
  | put
  deriving DecidableEq

/-- A time is a number of microseconds. -/
structure BytesPool where
  pool : Int
  rate : Int
  poolMax : Int
  t : Int
  deriving DecidableEq

structure Pools where
  get : BytesPool
  put : BytesPool
  deriving DecidableEq

def Pools.at (p : Pools) : Dir → BytesPool
  | .get => p.get
  | .put => p.put

def Pools.set (p : Pools) (d : Dir) (b : BytesPool) : Pools :=
  match d with
  | .get => { p with get := b }
  | .put => { p with put := b }

def defaultMaxCoeff : Int := 2

/-- `pool_max` where it is not set. -/
def defaultMax (rate poolMax : Int) : Except PgetChunks.Fault Int :=
  if poolMax ≠ 0 then .ok poolMax
  else if -2 ^ 31 ≤ rate * defaultMaxCoeff ∧ rate * defaultMaxCoeff < 2 ^ 31 then
    .ok (rate * defaultMaxCoeff)
  else .error .overflow

/-- What `Reconfig` makes of the settings for the rate and the maximum, and `Reset`. -/
def configure (now : Int) (rate max : Option Bytes) : Except PgetChunks.Fault Pools := do
  let rates ← toNumberPair rate
  let maxes ← toNumberPair max
  let maxGet ← defaultMax rates.1 maxes.1
  let maxPut ← defaultMax rates.2 maxes.2
  .ok ⟨⟨rates.1, rates.1, maxGet, now⟩, ⟨rates.2, rates.2, maxPut, now⟩⟩

/-! ## Limits that are kept -/

/-- The limit of a direction in a setting, as a `long long`. -/
def limit (setting : Bytes) (d : Dir) : Int :=
  match NumberPair.set (ch ':') (some setting), d with
  | .ok pair, .get => pair.both.1
  | .ok pair, .put => pair.both.2
  | .error _, _ => 0

/-- A limit that is not zero limits. -/
def LimitKept (rate max : Bytes) : Prop :=
  ∀ d, limit rate d ≠ 0 → ∀ now, ∃ p, configure now (some rate) (some max) = .ok p
    ∧ 0 < (p.at d).rate ∧ 0 < (p.at d).poolMax

/-- The numbers are not negative in an `int`, and the rate can be doubled there if no maximum is
left. -/
structure Moderate (rate max : Bytes) (d : Dir) : Prop where
  readable : ∃ pair, NumberPair.set (ch ':') (some max) = .ok pair
  positive : 0 < toInt (limit rate d)
  most : 0 ≤ toInt (limit max d)
  doubled : toInt (limit max d) = 0 → toInt (limit rate d) < 2 ^ 30

theorem toNumberPair_eq {s : Bytes} {pair : NumberPair}
    (h : NumberPair.set (ch ':') (some s) = .ok pair) :
    toNumberPair (some s) = .ok (toInt (limit s .get), toInt (limit s .put)) := by
  unfold toNumberPair limit
  rw [h]
  rfl

theorem defaultMax_of_ne {rate max : Int} (h : max ≠ 0) : defaultMax rate max = .ok max := if_pos h

theorem defaultMax_of_eq {rate max : Int} (h : max = 0) (hLo : 0 ≤ rate) (hHi : rate < 2 ^ 30) :
    defaultMax rate max = .ok (rate * 2) := by
  unfold defaultMax defaultMaxCoeff
  rw [if_neg (by omega), if_pos (by omega)]

/-- A direction is set up if it has no limit or a moderate one. -/
theorem exists_defaultMax {rate max : Bytes} {d : Dir}
    (h : limit rate d ≠ 0 → Moderate rate max d) :
    ∃ m, defaultMax (toInt (limit rate d)) (toInt (limit max d)) = .ok m
      ∧ (limit rate d ≠ 0 → 0 < m) := by
  by_cases hMax : toInt (limit max d) = 0
  · by_cases hRate : limit rate d = 0
    · have hZero : toInt (limit rate d) = 0 := by rw [hRate]; rfl
      exact ⟨_, defaultMax_of_eq hMax hZero.ge (by omega), fun hNe => absurd hRate hNe⟩
    · have hModerate := h hRate
      refine ⟨_, defaultMax_of_eq hMax hModerate.positive.le (hModerate.doubled hMax), fun _ => ?_⟩
      have hPos := hModerate.positive
      omega
  · exact ⟨_, defaultMax_of_ne hMax, fun hNe => by have := (h hNe).most; omega⟩

/-- What is known of the maximum that is left. -/
theorem of_defaultMax {rate max m : Int} (h : defaultMax rate max = .ok m) (hPos : 0 < m)
    : 0 ≤ max ∧ (max = 0 → rate < 2 ^ 30) := by
  unfold defaultMax defaultMaxCoeff at h
  split_ifs at h with h₁ h₂
  · cases h
    omega
  · cases h
    omega

/-- A limit that the validator accepts is kept exactly if it is moderate. -/
theorem limitKept_iff {rate : Bytes} (max : Bytes) (h : uNumberPairValidate rate = .ok none) :
    LimitKept rate max ↔ ∀ d, limit rate d ≠ 0 → Moderate rate max d := by
  obtain ⟨pair, hPair, -⟩ := exists_of_bind h
  have hRates := toNumberPair_eq hPair
  constructor
  · intro hKept d hne
    obtain ⟨p, hConfigure, hRate, hMax⟩ := hKept d hne 0
    unfold configure at hConfigure
    rw [hRates, ok_bind] at hConfigure
    obtain ⟨maxes, hMaxes, hConfigure⟩ := exists_of_bind hConfigure
    obtain ⟨maxPair, hMaxPair, -⟩ := exists_of_bind hMaxes
    rw [toNumberPair_eq hMaxPair] at hMaxes
    cases hMaxes
    obtain ⟨maxGet, hGet, hConfigure⟩ := exists_of_bind hConfigure
    obtain ⟨maxPut, hPut, hConfigure⟩ := exists_of_bind hConfigure
    cases hConfigure
    cases d with
    | get =>
        obtain ⟨hLeft, hDoubled⟩ := of_defaultMax hGet hMax
        exact ⟨⟨maxPair, hMaxPair⟩, hRate, hLeft, hDoubled⟩
    | put =>
        obtain ⟨hLeft, hDoubled⟩ := of_defaultMax hPut hMax
        exact ⟨⟨maxPair, hMaxPair⟩, hRate, hLeft, hDoubled⟩
  · intro hModerate d hne now
    obtain ⟨maxPair, hMaxPair⟩ := (hModerate d hne).readable
    obtain ⟨maxGet, hGet, hGetPos⟩ := exists_defaultMax (hModerate .get)
    obtain ⟨maxPut, hPut, hPutPos⟩ := exists_defaultMax (hModerate .put)
    have hConfigure : configure now (some rate) (some max)
        = .ok ⟨⟨toInt (limit rate .get), toInt (limit rate .get), maxGet, now⟩,
            ⟨toInt (limit rate .put), toInt (limit rate .put), maxPut, now⟩⟩ := by
      unfold configure
      rw [hRates, toNumberPair_eq hMaxPair, ok_bind, ok_bind, hGet, ok_bind, hPut, ok_bind]
    refine ⟨_, hConfigure, ?_⟩
    · cases d with
      | get => exact ⟨(hModerate .get hne).positive, hGetPos hne⟩
      | put => exact ⟨(hModerate .put hne).positive, hPutPos hne⟩

theorem limitKept_of_moderate : uNumberPairValidate (bytes "512k:1M") = .ok none
    ∧ LimitKept (bytes "512k:1M") (bytes "0") := by
  have hValid : uNumberPairValidate (bytes "512k:1M") = .ok none := by rfl
  have hZero : NumberPair.set (ch ':') (some (bytes "0")) = .ok ⟨0, 0, false, false, none⟩ := by rfl
  refine ⟨hValid, (limitKept_iff _ hValid).mpr fun d _ => ⟨⟨_, hZero⟩, ?_, ?_, fun _ => ?_⟩⟩
  all_goals cases d <;> decide +kernel

/-- A limit of four gibibytes is none. -/
theorem not_limitKept_large : uNumberPairValidate (bytes "4G") = .ok none
    ∧ ¬ LimitKept (bytes "4G") (bytes "0") := by
  have hConfigure : configure 0 (some (bytes "4G")) (some (bytes "0"))
      = .ok ⟨⟨0, 0, 0, 0⟩, ⟨0, 0, 0, 0⟩⟩ := by rfl
  refine ⟨by rfl, fun hKept => ?_⟩
  obtain ⟨p, hOk, hRate, -⟩ := hKept .get (by decide +kernel) 0
  rw [hConfigure] at hOk
  cases hOk
  exact absurd hRate (by decide)

end Lftp.Ports.RateLimit
