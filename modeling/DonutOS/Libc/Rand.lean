import DonutOS.Foundation.CheckedInt
import Mathlib.Tactic.Ring

set_option autoImplicit false

/-!
# Libc: pseudo-random numbers (`libc/src/rand.c`, `libc/src/math.c`)

The generator has three numbers, and each new one is made of two of them with a product of
`double`s.  What the product is, cut to an `int`, is a parameter: `scale n` for `n * 1.97`.
A signed overflow has no value.
-/

namespace DonutOS.Libc

open DonutOS.Foundation

/-- The globals of `rand.c`. -/
structure Rand where
  s0 : Int
  s1 : Int
  s2 : Int
  randMax : Int
  deriving DecidableEq

/-- `abs`. -/
def abs (x : CInt) : CInt :=
  match x.val with
  | some a => if a < 0 then -x else x
  | none => x

section Generator

variable (scale : Nat → Nat)

/-- `(int)(x * 1.97)`, of an `x` that is not negative. -/
def timesScale (x : CInt) : CInt :=
  match x.val with
  | some a => .checked (scale a.toNat)
  | none => x

/-- `__frns`. -/
def frns (randMax : Int) (x y : CInt) : CInt := abs (.of randMax - timesScale scale (abs (x - y)))

/-- The argument of `mrand` in `srand`. -/
def defaultRandMax : Int := 4206911

/-- `srand`. -/
def srand (seed : Int) : Option Rand := do
  let randMax := defaultRandMax
  let s0 ← (CInt.of seed % .of randMax).val
  let s1 ← ((CInt.of s0 * .of randMax - 1) % .of randMax).val
  let s2 ← (frns scale randMax (.of s0) (.of s1)).val
  return ⟨s0, s1, s2, randMax⟩

/-- `rand`. -/
def rand (r : Rand) : Option (Rand × Int) := do
  let s0 ← (frns scale r.randMax (.of r.s2) (.of r.s0)).val
  let s1 ← (frns scale r.randMax (.of s0) (.of r.s1)).val
  let s2 ← (frns scale r.randMax (.of s0) (.of r.s2)).val
  return (⟨s0, s1, s2, r.randMax⟩, s0)

/-- The numbers of `n` calls of `rand`. -/
def rands : Nat → Rand → Option (List Int)
  | 0, _ => some []
  | n + 1, r => do
    let (r, x) ← rand scale r
    let xs ← rands n r
    return x :: xs

end Generator

/-! ## One number -/

/-- The product is not more than one too large. -/
def ScaleBelow (scale : Nat → Nat) : Prop := ∀ n, 100 * scale n ≤ 197 * n + 100

theorem abs_of {x : Int} (h : InInt (-x)) : abs (.of x) = .of |x| := by
  by_cases hneg : x < 0
  · have hval : abs (.of x) = -.of x := if_pos hneg
    rw [hval, CInt.of_neg h, abs_of_neg hneg]
  · have hval : abs (.of x) = .of x := if_neg hneg
    rw [hval, abs_of_nonneg (not_lt.mp hneg)]

variable {scale : Nat → Nat}

theorem timesScale_of (x : Int) : timesScale scale (.of x) = CInt.checked (scale x.toNat) := rfl

/-- Two numbers that are not much farther apart than the largest number give one between 0
and the largest. -/
theorem frns_of (hscale : ScaleBelow scale) {m x y : Int} (hm : 40000 ≤ m) (hm' : m ≤ 2 ^ 29)
    (hdiff : |x - y| ≤ m + 511) :
    ∃ z, frns scale m (.of x) (.of y) = .of z ∧ 0 ≤ z ∧ z ≤ m := by
  obtain ⟨hlow, hhigh⟩ := abs_le.mp hdiff
  have hproduct := hscale |x - y|.toNat
  have hnat : (|x - y|.toNat : Int) = |x - y| := Int.toNat_of_nonneg (abs_nonneg _)
  have hsub : CInt.of x - .of y = .of (x - y) := CInt.of_sub ⟨by omega, by omega⟩
  have habs : abs (.of (x - y)) = .of |x - y| := abs_of ⟨by omega, by omega⟩
  have htimes : timesScale scale (.of |x - y|) = .of (scale |x - y|.toNat) := by
    rw [timesScale_of]
    exact CInt.checked_eq ⟨by omega, by omega⟩
  have hminus : CInt.of m - .of (scale |x - y|.toNat) = .of (m - scale |x - y|.toNat) :=
    CInt.of_sub ⟨by omega, by omega⟩
  refine ⟨|m - scale |x - y|.toNat|, ?_, abs_nonneg _, ?_⟩
  · rw [frns, hsub, habs, htimes, hminus, abs_of ⟨by omega, by omega⟩]
  · rw [abs_le]
    omega

/-! ## Whole runs -/

/-- What the numbers are at any time. -/
structure Rand.Kept (r : Rand) : Prop where
  randMax : r.randMax = defaultRandMax
  s0 : -510 ≤ r.s0 ∧ r.s0 ≤ defaultRandMax
  s1 : -1 ≤ r.s1 ∧ r.s1 ≤ defaultRandMax
  s2 : 0 ≤ r.s2 ∧ r.s2 ≤ defaultRandMax

theorem defaultRandMax_bounds : 40000 ≤ defaultRandMax ∧ defaultRandMax ≤ 2 ^ 29 := by decide

/-- Both numbers are among those that the generator has. -/
theorem abs_sub_le {m x y : Int} (hx : -510 ≤ x ∧ x ≤ m) (hy : -510 ≤ y ∧ y ≤ m) :
    |x - y| ≤ m + 511 := by
  rw [abs_le]
  omega

theorem Rand.Kept.rand {r : Rand} (hscale : ScaleBelow scale) (h : r.Kept) :
    ∃ t x, rand scale r = some (t, x) ∧ t.Kept ∧ 0 ≤ x ∧ x ≤ defaultRandMax := by
  obtain ⟨hmax, h0, h1, h2⟩ := h
  obtain ⟨hlow, hhigh⟩ := defaultRandMax_bounds
  obtain ⟨s0, hs0, hs0', hs0''⟩ := frns_of hscale hlow hhigh
    (abs_sub_le ⟨by omega, h2.2⟩ h0)
  obtain ⟨s1, hs1, hs1', hs1''⟩ := frns_of hscale hlow hhigh
    (abs_sub_le (x := s0) ⟨by omega, hs0''⟩ ⟨by omega, h1.2⟩)
  obtain ⟨s2, hs2, hs2', hs2''⟩ := frns_of hscale hlow hhigh
    (abs_sub_le (x := s0) ⟨by omega, hs0''⟩ ⟨by omega, h2.2⟩)
  have hlow0 : -510 ≤ s0 := by omega
  have hlow1 : -1 ≤ s1 := by omega
  refine ⟨⟨s0, s1, s2, r.randMax⟩, s0, ?_, ⟨hmax, ⟨hlow0, hs0''⟩, ⟨hlow1, hs1''⟩,
    ⟨hs2', hs2''⟩⟩, hs0', hs0''⟩
  unfold DonutOS.Libc.rand
  rw [hmax, hs0]
  change (((frns scale defaultRandMax (.of s0) (.of r.s1)).val).bind fun s1 =>
    ((frns scale defaultRandMax (.of s0) (.of r.s2)).val).bind fun s2 =>
      some (Rand.mk s0 s1 s2 defaultRandMax, s0)) = _
  rw [hs1, hs2]
  rfl

/-- However often `rand` is called. -/
theorem Rand.Kept.rands {r : Rand} (hscale : ScaleBelow scale) (h : r.Kept) (n : Nat) :
    ∃ xs, rands scale n r = some xs ∧ xs.length = n ∧ ∀ x ∈ xs, 0 ≤ x ∧ x ≤ defaultRandMax := by
  induction n generalizing r with
  | zero => exact ⟨[], rfl, rfl, fun _ hx => absurd hx List.not_mem_nil⟩
  | succ n ih =>
      obtain ⟨t, x, hrand, ht, hx⟩ := h.rand hscale
      obtain ⟨xs, hrands, hlength, hxs⟩ := ih ht
      refine ⟨x :: xs, ?_, congrArg Nat.succ hlength, ?_⟩
      · change ((DonutOS.Libc.rand scale r).bind fun p =>
          (DonutOS.Libc.rands scale n p.1).bind fun xs => some (p.2 :: xs)) = _
        rw [hrand]
        change ((DonutOS.Libc.rands scale n t).bind fun xs => some (x :: xs)) = _
        rw [hrands]
        rfl
      · rw [List.forall_mem_cons]
        exact ⟨hx, hxs⟩

/-! ## The seed -/

/-- The second number is the largest one before `randMax`, or -1. -/
theorem second_of {m s0 : Int} (hm : 1 < m) :
    (s0 * m - 1).tmod m = if 0 < s0 then m - 1 else -1 := by
  split
  · next hpos =>
      have hnonneg : 0 ≤ s0 * m - 1 := by nlinarith
      have hshift : s0 * m - 1 = m - 1 + (s0 - 1) * m := by ring
      rw [Int.tmod_eq_emod_of_nonneg hnonneg, hshift, Int.add_mul_emod_self_right,
        Int.emod_eq_of_lt (by omega) (by omega)]
  · next hle =>
      have hnonneg : 0 ≤ -s0 * m + 1 := by nlinarith
      have hflip : s0 * m - 1 = -(-s0 * m + 1) := by ring
      rw [hflip, Int.neg_tmod, Int.tmod_eq_emod_of_nonneg hnonneg, Int.add_comm,
        Int.add_mul_emod_self_right, Int.emod_eq_of_lt (by omega) hm]

theorem srand_eq (seed : Int) :
    srand scale seed = (CInt.of seed % .of defaultRandMax).val.bind fun s0 =>
      ((CInt.of s0 * .of defaultRandMax - 1) % .of defaultRandMax).val.bind fun s1 =>
        (frns scale defaultRandMax (.of s0) (.of s1)).val.bind fun s2 =>
          some ⟨s0, s1, s2, defaultRandMax⟩ := rfl

/-- The product of `srand`, in front of the second `%`. -/
theorem product_of {s0 : Int} (h : |s0| ≤ 510) :
    CInt.of s0 * .of defaultRandMax - 1 = .of (s0 * defaultRandMax - 1) ∧
      InInt (s0 * defaultRandMax - 1) := by
  obtain ⟨hlow, hhigh⟩ := abs_le.mp h
  have hproduct : InInt (s0 * defaultRandMax) := by
    unfold defaultRandMax InInt
    omega
  have hone : InInt (s0 * defaultRandMax - 1) := by
    unfold defaultRandMax InInt
    omega
  rw [CInt.of_mul hproduct]
  exact ⟨CInt.of_sub hone, hone⟩

theorem product_undefined {s0 : Int} (h : 510 < |s0|) :
    CInt.of s0 * .of defaultRandMax - 1 = ⟨none⟩ := by
  have hproduct : ¬InInt (s0 * defaultRandMax) := by
    unfold defaultRandMax InInt
    rcases lt_abs.mp h with hpos | hneg
    · omega
    · omega
  have hnone : CInt.of s0 * .of defaultRandMax = ⟨none⟩ := congrArg CInt.mk (if_neg hproduct)
  rw [hnone]
  rfl

theorem srand_kept (hscale : ScaleBelow scale) {seed : Int} (hseed : InInt seed)
    (h : |seed.tmod defaultRandMax| ≤ 510) : ∃ r, srand scale seed = some r ∧ r.Kept := by
  obtain ⟨hlow, hhigh⟩ := defaultRandMax_bounds
  have hpos : 0 < defaultRandMax := by omega
  generalize hs0 : seed.tmod defaultRandMax = s0 at h
  obtain ⟨hproduct, hin⟩ := product_of h
  obtain ⟨hs0', hs0''⟩ := abs_le.mp h
  have hs1 : -1 ≤ (s0 * defaultRandMax - 1).tmod defaultRandMax ∧
      (s0 * defaultRandMax - 1).tmod defaultRandMax ≤ defaultRandMax := by
    rw [second_of (by omega)]
    split <;> omega
  generalize hsecond : (s0 * defaultRandMax - 1).tmod defaultRandMax = s1 at hs1
  obtain ⟨s2, hs2, hs2', hs2''⟩ := frns_of (x := s0) (y := s1) hscale hlow hhigh
    (abs_sub_le ⟨hs0', by omega⟩ ⟨by omega, hs1.2⟩)
  have hfirst : s0 ≤ defaultRandMax := by omega
  refine ⟨⟨s0, s1, s2, defaultRandMax⟩, ?_, rfl, ⟨hs0', hfirst⟩, hs1, ⟨hs2', hs2''⟩⟩
  rw [srand_eq, CInt.of_mod hseed hpos, hs0]
  change (((CInt.of s0 * .of defaultRandMax - 1) % .of defaultRandMax).val.bind fun s1 =>
    (frns scale defaultRandMax (.of s0) (.of s1)).val.bind fun s2 =>
      some (Rand.mk s0 s1 s2 defaultRandMax)) = _
  rw [hproduct, CInt.of_mod hin hpos, hsecond]
  change ((frns scale defaultRandMax (.of s0) (.of s1)).val.bind fun s2 =>
    some (Rand.mk s0 s1 s2 defaultRandMax)) = _
  rw [hs2]
  rfl

theorem srand_none {seed : Int} (hseed : InInt seed) (h : 510 < |seed.tmod defaultRandMax|) :
    srand scale seed = none := by
  have hpos : 0 < defaultRandMax := by decide
  rw [srand_eq, CInt.of_mod hseed hpos]
  change (((CInt.of (seed.tmod defaultRandMax) * .of defaultRandMax - 1) %
    .of defaultRandMax).val.bind _) = none
  rw [product_undefined h]
  rfl

/-- `srand` stays in the range of `int` exactly for the seeds whose remainder by `RAND_MAX`
is at most 510 either way; whatever the product of `double`s is cut to, as long as it is
not more than one too large, every number of every run of `rand` is then between 0 and
`RAND_MAX`. -/
theorem randRuns_bounded (hscale : ScaleBelow scale) {seed : Int} (hseed : InInt seed) :
    ((srand scale seed).isSome = true ↔ |seed.tmod defaultRandMax| ≤ 510) ∧
      ∀ r, srand scale seed = some r → ∀ n, ∃ xs, rands scale n r = some xs ∧
        xs.length = n ∧ ∀ x ∈ xs, 0 ≤ x ∧ x ≤ defaultRandMax := by
  by_cases hsmall : |seed.tmod defaultRandMax| ≤ 510
  · obtain ⟨r, hr, hkept⟩ := srand_kept hscale hseed hsmall
    rw [hr]
    refine ⟨iff_of_true rfl hsmall, fun t ht n => ?_⟩
    cases ht
    exact hkept.rands hscale n
  · rw [srand_none hseed (not_le.mp hsmall)]
    exact ⟨iff_of_false Bool.false_ne_true hsmall, fun _ h => nomatch h⟩

/-- With the seed 0 and exact products. -/
theorem randRuns_bounded_zero : ∃ r xs, srand (fun n => 197 * n / 100) 0 = some r ∧
    rands (fun n => 197 * n / 100) 5 r = some xs ∧ ∀ x ∈ xs, 0 ≤ x ∧ x ≤ defaultRandMax := by
  have hscale : ScaleBelow fun n => 197 * n / 100 := fun n => by
    change 100 * (197 * n / 100) ≤ 197 * n + 100
    omega
  obtain ⟨hdefined, hruns⟩ := randRuns_bounded hscale (show InInt 0 by decide)
  obtain ⟨r, hr⟩ := Option.isSome_iff_exists.mp (hdefined.mpr (by decide))
  obtain ⟨xs, hxs, -, hbounds⟩ := hruns r hr 5
  exact ⟨r, xs, hr, hxs, hbounds⟩

end DonutOS.Libc
