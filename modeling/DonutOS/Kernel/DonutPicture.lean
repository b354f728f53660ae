import DonutOS.Foundation.DepthBuffer
import DonutOS.Kernel.DonutSpec

set_option autoImplicit false

/-!
# Kernel: what a frame of the donut shows (`kernel/src/donut.c`)

The two loops draw the points of the donut into a depth buffer, whatever the frame: no
access is outside the arrays, and every cell shows the nearest of its points.
-/

namespace DonutOS.Kernel

open DonutOS.Foundation

/-- A pair of `R` after `n` turns from `(1024, 0)`. -/
def ringPoint (m : Int) (shift : Nat) : Nat → Int × Int
  | 0 => (1024, 0)
  | n + 1 => turn 1024 m (2 ^ shift) (ringPoint m shift n)

/-- The cell, depth and character of a point, if it lies on the picture. -/
def Dot.sample? (d : Dot) : Option (Sample Nat Int Byte) :=
  if d.Visible then do
    let o ← cellIndex d.o
    let g ← shade d.lum
    return ⟨o, d.zz, g⟩
  else none

/-- A point of the donut; `p` is the pair of the outer loop and `q` that of the inner. -/
def pointSample? (a : Angles) (p q : Int × Int) : Option (Sample Nat Int Byte) :=
  (dot (.of a.sA) (.of a.cA) (.of a.sB) (.of a.cB) (.of p.2) (.of p.1) (.of q.2)
    (.of q.1)).bind Dot.sample?

/-- The points of one round of the outer loop. -/
def circleSamples (a : Angles) (p : Int × Int) (n : Nat) : List (Sample Nat Int Byte) :=
  (List.range n).filterMap fun i => pointSample? a p (ringPoint 5 8 i)

/-- The points of a frame, in the order in which they are drawn. -/
def frameSamples (a : Angles) (n : Nat) : List (Sample Nat Int Byte) :=
  (List.range n).flatMap fun j => circleSamples a (ringPoint 9 7 j) 324

/-- The arrays as a picture with depths. -/
def Canvas.buffer (c : Canvas) : DepthBuffer Nat Int Byte := ⟨c.z, c.b⟩

/-- The angles of a frame are those of two vectors on their circles. -/
structure Angles.OnCircles (a : Angles) : Prop where
  pairA : UnitPair a.cA a.sA
  pairB : UnitPair a.cB a.sB

/-! ## One point -/

theorem unitPair_ringPoint {m : Int} {shift : Nat} (hm : 0 ≤ m) (hshift : 2 * m ≤ 2 ^ shift)
    (n : Nat) : UnitPair (ringPoint m shift n).1 (ringPoint m shift n).2 := by
  induction n with
  | zero => exact unit_first
  | succ n ih => exact ih.turn hm hshift

theorem cellIndex_eq {d : Dot} (ho : d.o = d.x + 80 * d.y) (hv : d.Visible) :
    cellIndex d.o = some d.o.toNat := by
  obtain ⟨hy, hy0, hx0, hx⟩ := hv
  exact if_pos (by unfold canvasSize; omega)

theorem shade_of_le {lum : Int} (h : lum ≤ 11) :
    ∃ g, shade lum = some g ∧ g ∈ shades.take 12 := by
  have hlt : (if lum > 0 then lum else 0).toNat < 12 := by split <;> omega
  generalize hi : (if lum > 0 then lum else 0).toNat = i at hlt
  have hlen : i < (shades.take 12).length := hlt
  refine ⟨(shades.take 12)[i], ?_, List.getElem_mem hlen⟩
  rw [shade, hi, List.getElem_take]
  exact List.getElem?_eq_getElem _

theorem plot_eq {d : Dot} (ho : d.o = d.x + 80 * d.y) (hlum : d.lum ≤ 11) (c : Canvas) :
    ∃ c', plot d c = some c' ∧
      c'.buffer = c.buffer.drawAll d.sample?.toList := by
  obtain ⟨g, hg, -⟩ := shade_of_le hlum
  by_cases hv : d.Visible
  · have hsample : d.sample? = some ⟨d.o.toNat, d.zz, g⟩ := by
      rw [Dot.sample?, if_pos hv, cellIndex_eq ho hv, hg]
      rfl
    rw [hsample, plot, if_pos hv, cellIndex_eq ho hv, hg]
    by_cases hnear : d.zz < c.z d.o.toNat
    · refine ⟨_, if_pos hnear, ?_⟩
      exact (if_pos hnear).symm
    · refine ⟨_, if_neg hnear, ?_⟩
      exact (if_neg hnear).symm
  · rw [Dot.sample?, plot, if_neg hv, if_neg hv]
    exact ⟨c, rfl, rfl⟩

/-! ## The two loops -/

section Loops

variable {a : Angles}

/-- A round of the inner loop draws one point and turns. -/
theorem drawDot_eq (ha : a.OnCircles) (i : Nat) {s : Drawing} (hj : UnitPair s.cj s.sj)
    (hi : UnitPair s.ci s.si) :
    ∃ canvas, drawDot a i (some s) = some { s with
        canvas
        ci := (turn 1024 5 (2 ^ 8) (s.ci, s.si)).1
        si := (turn 1024 5 (2 ^ 8) (s.ci, s.si)).2 } ∧
      canvas.buffer = s.canvas.buffer.drawAll
        (pointSample? a (s.cj, s.sj) (s.ci, s.si)).toList := by
  obtain ⟨d, hd, ho, hlum, -, -⟩ := dot_spec ha.pairA ha.pairB hj hi
  obtain ⟨canvas, hplot, hbuffer⟩ := plot_eq ho hlum s.canvas
  have hturn : rotate 5 8 (.of s.ci) (.of s.si) = some (turn 1024 5 (2 ^ 8) (s.ci, s.si)) :=
    rotate_eq ((CInt.Bounded.const 5).mono (by norm_num)) hi
  refine ⟨canvas, ?_, ?_⟩
  · simp only [drawDot, Option.bind_eq_bind, Option.bind_some, hd, hplot]
    exact congrArg (fun r => Option.bind r _) hturn
  · rw [hbuffer, pointSample?, hd]
    rfl

theorem circleSamples_succ (a : Angles) (p : Int × Int) (n : Nat) :
    circleSamples a p (n + 1) =
      circleSamples a p n ++ (pointSample? a p (ringPoint 5 8 n)).toList := by
  rw [circleSamples, List.range_succ, List.filterMap_append]
  cases h : pointSample? a p (ringPoint 5 8 n) <;> simp [circleSamples, h]

theorem frameSamples_succ (a : Angles) (n : Nat) :
    frameSamples a (n + 1) = frameSamples a n ++ circleSamples a (ringPoint 9 7 n) 324 := by
  rw [frameSamples, List.range_succ, List.flatMap_append, List.flatMap_singleton]
  rfl

/-- The inner loop from `(1024, 0)`: it has drawn the points of the turns so far. -/
theorem forLoop_drawDot (ha : a.OnCircles) {cj sj : Int} (hj : UnitPair cj sj)
    (canvas₀ : Canvas) (n : Nat) :
    ∃ canvas, forLoop (drawDot a) 0 n (some ⟨canvas₀, sj, cj, 0, 1024⟩) =
        some ⟨canvas, sj, cj, (ringPoint 5 8 n).2, (ringPoint 5 8 n).1⟩ ∧
      canvas.buffer = canvas₀.buffer.drawAll (circleSamples a (cj, sj) n) := by
  have hrun := forLoop_invariant
    (fun i s => ∃ canvas, s = some ⟨canvas, sj, cj, (ringPoint 5 8 i).2, (ringPoint 5 8 i).1⟩ ∧
      canvas.buffer = canvas₀.buffer.drawAll (circleSamples a (cj, sj) i))
    (f := drawDot a) n 0 (some ⟨canvas₀, sj, cj, 0, 1024⟩) ⟨canvas₀, rfl, rfl⟩ ?_
  · rwa [Nat.zero_add] at hrun
  · rintro i s - - ⟨canvas, rfl, hbuffer⟩
    have hi := unitPair_ringPoint (show 0 ≤ 5 by norm_num) (show 2 * 5 ≤ 2 ^ 8 by norm_num) i
    obtain ⟨canvas', hround, hbuffer'⟩ := drawDot_eq ha i
      (s := ⟨canvas, sj, cj, (ringPoint 5 8 i).2, (ringPoint 5 8 i).1⟩) hj hi
    refine ⟨canvas', hround, ?_⟩
    rw [hbuffer', hbuffer, circleSamples_succ, DepthBuffer.drawAll_append]

/-- Both loops. -/
theorem forLoop_drawCircle (ha : a.OnCircles) (n : Nat) :
    ∃ s, forLoop (drawCircle a) 0 n (some ⟨blankCanvas, 0, 1024, 0, 1024⟩) = some s ∧
      (s.cj, s.sj) = ringPoint 9 7 n ∧
      s.canvas.buffer = blankCanvas.buffer.drawAll (frameSamples a n) := by
  have hrun := forLoop_invariant
    (fun j s => ∃ d, s = some d ∧ (d.cj, d.sj) = ringPoint 9 7 j ∧
      d.canvas.buffer = blankCanvas.buffer.drawAll (frameSamples a j))
    (f := drawCircle a) n 0 (some ⟨blankCanvas, 0, 1024, 0, 1024⟩) ⟨_, rfl, rfl, rfl⟩ ?_
  · rwa [Nat.zero_add] at hrun
  · rintro j s - - ⟨⟨canvas, sj, cj, si, ci⟩, rfl, hring, hbuffer⟩
    have hj : UnitPair cj sj := by
      have hpair := unitPair_ringPoint (show 0 ≤ 9 by norm_num) (show 2 * 9 ≤ 2 ^ 7 by norm_num) j
      rwa [← hring] at hpair
    obtain ⟨canvas', hinner, hbuffer'⟩ := forLoop_drawDot ha hj canvas 324
    have hturn : rotate 9 7 (.of cj) (.of sj) = some (turn 1024 9 (2 ^ 7) (cj, sj)) :=
      rotate_eq (.const 9) hj
    refine ⟨⟨canvas', (turn 1024 9 (2 ^ 7) (cj, sj)).2, (turn 1024 9 (2 ^ 7) (cj, sj)).1,
      (ringPoint 5 8 324).2, (ringPoint 5 8 324).1⟩, ?_, ?_, ?_⟩
    · simp only [drawCircle, Option.bind_eq_bind, Option.bind_some, hinner]
      exact congrArg (fun r => Option.bind r _) hturn
    · exact congrArg (turn 1024 9 (2 ^ 7)) hring
    · rw [hbuffer', hbuffer, hring, frameSamples_succ, DepthBuffer.drawAll_append]

/-- A frame draws all its points into the blank picture. -/
theorem drawFrame_eq (ha : a.OnCircles) :
    ∃ canvas, drawFrame a = some canvas ∧
      canvas.buffer = blankCanvas.buffer.drawAll (frameSamples a 90) := by
  obtain ⟨s, hloops, -, hbuffer⟩ := forLoop_drawCircle ha 90
  exact ⟨s.canvas, by rw [drawFrame, hloops]; rfl, hbuffer⟩

end Loops

/-! ## All frames -/

theorem onCircles_first : firstAngles.OnCircles :=
  ⟨unit_first.swap, unit_first.swap⟩

theorem nextAngles_eq {a : Angles} (ha : a.OnCircles) :
    ∃ a', nextAngles a = some a' ∧ a'.OnCircles := by
  have hA : rotate 5 7 (.of a.cA) (.of a.sA) = some (turn 1024 5 (2 ^ 7) (a.cA, a.sA)) :=
    rotate_eq ((CInt.Bounded.const 5).mono (by norm_num)) ha.pairA
  have hB : rotate 5 8 (.of a.cB) (.of a.sB) = some (turn 1024 5 (2 ^ 8) (a.cB, a.sB)) :=
    rotate_eq ((CInt.Bounded.const 5).mono (by norm_num)) ha.pairB
  have hpairA := ha.pairA.turn (show 0 ≤ 5 by norm_num) (show 2 * 5 ≤ 2 ^ 7 by norm_num)
  have hpairB := ha.pairB.turn (show 0 ≤ 5 by norm_num) (show 2 * 5 ≤ 2 ^ 8 by norm_num)
  generalize turn 1024 5 (2 ^ 7) (a.cA, a.sA) = p at hA hpairA
  generalize turn 1024 5 (2 ^ 8) (a.cB, a.sB) = q at hB hpairB
  refine ⟨⟨p.2, p.1, q.2, q.1⟩, ?_, hpairA, hpairB⟩
  rw [nextAngles, hA, hB]
  rfl

theorem frameAngles_eq (n : Nat) : ∃ a, frameAngles n = some a ∧ a.OnCircles := by
  induction n with
  | zero => exact ⟨firstAngles, rfl, onCircles_first⟩
  | succ n ih =>
      obtain ⟨a, ha, hcircles⟩ := ih
      obtain ⟨a', ha', hcircles'⟩ := nextAngles_eq hcircles
      exact ⟨a', by rw [frameAngles, ha, Option.bind_some, ha'], hcircles'⟩

/-! ## The number of a frame -/

/-- `frame++` below the last `int`. -/
theorem frame_succ {n : Nat} (hn : n + 1 < 2 ^ 31) : CInt.of n + 1 = .of (n + 1 : Nat) := by
  have hsum : InInt ((n : Int) + 1) := by
    unfold InInt
    omega
  exact (CInt.of_add hsum).trans (congrArg CInt.of (Nat.cast_succ n).symm)

/-- `frame++` at the last `int`. -/
theorem frame_overflow {n : Nat} (hn : ¬ n + 1 < 2 ^ 31) : CInt.of n + 1 = ⟨none⟩ := by
  have hsum : ¬ InInt ((n : Int) + 1) := by
    unfold InInt
    omega
  exact congrArg CInt.mk (if_neg hsum)

theorem frameNumber_eq (n : Nat) : frameNumber n = if n < 2 ^ 31 then .of n else ⟨none⟩ := by
  induction n with
  | zero => rfl
  | succ n ih =>
      rw [frameNumber, ih]
      by_cases hn : n + 1 < 2 ^ 31
      · rw [if_pos (Nat.lt_of_succ_lt hn), if_pos hn, frame_succ hn]
      · rw [if_neg hn]
        split
        · exact frame_overflow hn
        · rfl

/-- The foreground is one of the 16 colours. -/
theorem frameForeground_eq {n : Nat} (hn : n < 2 ^ 31) :
    frameForeground (.of n) = .of ((n / 50 + 1) % 16 : Nat) := by
  have hquotient : ((n : Int)).tdiv 50 = (n / 50 : Nat) := by
    rw [Int.tdiv_eq_ediv_of_nonneg (Int.natCast_nonneg n)]
    rfl
  have hdiv : (CInt.of n) / 50 = .of ((n / 50 : Nat) : Int) := by
    have hrange : InInt ((n : Int).tdiv 50) := by
      rw [hquotient]
      unfold InInt
      omega
    exact (CInt.of_div (by decide) hrange).trans (congrArg CInt.of hquotient)
  have hsum : InInt (((n / 50 : Nat) : Int) + 1) := by
    unfold InInt
    omega
  have hadd : CInt.of ((n / 50 : Nat) : Int) + 1 = .of (((n / 50 : Nat) : Int) + 1) :=
    CInt.of_add hsum
  rw [frameForeground, hdiv, hadd]
  refine (CInt.of_mod hsum (by decide)).trans (congrArg CInt.of ?_)
  rw [Int.tmod_eq_emod_of_nonneg (by omega)]
  exact (Int.natCast_mod (n / 50 + 1) 16).symm

/-- The last loop reads `b` inside. -/
theorem canvasByte_eq (c : Canvas) {k : Nat} (hk : k < 1761) :
    canvasByte c k = some (if k % 80 ≠ 0 then c.b k else 0x0a) := by
  unfold canvasByte
  by_cases hline : k % 80 ≠ 0
  · have hinside : cellIndex k = some k := by
      unfold cellIndex canvasSize
      exact if_pos (by omega)
    rw [if_pos hline, if_pos hline, hinside, Option.map_some]
  · rw [if_neg hline, if_neg hline]

/-- The first `2 ^ 31` frames of a donut are defined: no operation overflows, no division
is by zero and no access leaves the arrays or the string, those of the loop that shows `b`
included, and the sines and cosines stay on their circle.  Then `frame++` overflows. -/
theorem donutFrame_defined (n : Nat) :
    (n < 2 ^ 31 →
        ∃ a canvas, frameAngles n = some a ∧ drawFrame a = some canvas ∧
          (∀ k < 1761, (canvasByte canvas k).isSome = true) ∧
          (∃ fg, frameForeground (frameNumber n) = .of fg ∧ 0 ≤ fg ∧ fg < 16) ∧
          (nextAngles a).isSome = true ∧
          a.cA ^ 2 + a.sA ^ 2 ≤ 1051650 ∧ a.cB ^ 2 + a.sB ^ 2 ≤ 1051650) ∧
      (2 ^ 31 ≤ n → frameNumber n = ⟨none⟩) := by
  refine ⟨fun hn => ?_, fun hn => ?_⟩
  · obtain ⟨a, ha, hcircles⟩ := frameAngles_eq n
    obtain ⟨canvas, hcanvas, -⟩ := drawFrame_eq hcircles
    obtain ⟨a', ha', -⟩ := nextAngles_eq hcircles
    refine ⟨a, canvas, ha, hcanvas, fun k hk => ?_,
      ⟨((n / 50 + 1) % 16 : Nat), ?_, Int.natCast_nonneg _, ?_⟩, ?_,
      hcircles.pairA.sq_le, hcircles.pairB.sq_le⟩
    · rw [canvasByte_eq canvas hk]
      rfl
    · rw [frameNumber_eq, if_pos hn, frameForeground_eq hn]
    · have hlt := Nat.mod_lt (n / 50 + 1) (by decide : 0 < 16)
      exact_mod_cast hlt
    · rw [ha']
      rfl
  · rw [frameNumber_eq, if_neg (Nat.not_lt.mpr hn)]

/-! ## The picture -/

/-- Where a point falls: its cell is neither in the first row nor in the first column, it
is in front of the ground, and its character is one of the twelve. -/
structure OnPicture (s : Sample Nat Int Byte) : Prop where
  front : s.depth < 127
  colour : s.colour ∈ shades.take 12
  row : 80 < s.cell ∧ s.cell < canvasSize
  column : s.cell % 80 ≠ 0

theorem onPicture_of_sample? {d : Dot} (ho : d.o = d.x + 80 * d.y) (hlum : d.lum ≤ 11)
    (hzz : d.zz < 127) {s : Sample Nat Int Byte} (hs : d.sample? = some s) : OnPicture s := by
  obtain ⟨g, hg, hmem⟩ := shade_of_le hlum
  by_cases hv : d.Visible
  · rw [Dot.sample?, if_pos hv, cellIndex_eq ho hv, hg] at hs
    obtain ⟨hy, hy0, hx0, hx⟩ := hv
    cases Option.some.inj hs
    have hrow : 80 < d.o.toNat ∧ d.o.toNat < 1760 := by omega
    have hcolumn : d.o.toNat % 80 ≠ 0 := by omega
    exact ⟨hzz, hmem, hrow, hcolumn⟩
  · rw [Dot.sample?, if_neg hv] at hs
    cases hs

theorem onPicture_of_mem {a : Angles} (ha : a.OnCircles) {n : Nat} {s : Sample Nat Int Byte}
    (hs : s ∈ frameSamples a n) : OnPicture s := by
  obtain ⟨j, -, hcircle⟩ := List.mem_flatMap.mp hs
  obtain ⟨i, -, hpoint⟩ := List.mem_filterMap.mp hcircle
  have hj := unitPair_ringPoint (show 0 ≤ 9 by norm_num) (show 2 * 9 ≤ 2 ^ 7 by norm_num) j
  have hi := unitPair_ringPoint (show 0 ≤ 5 by norm_num) (show 2 * 5 ≤ 2 ^ 8 by norm_num) i
  obtain ⟨d, hd, ho, hlum, hzz, -⟩ := dot_spec ha.pairA ha.pairB hj hi
  rw [pointSample?, hd] at hpoint
  exact onPicture_of_sample? ho hlum hzz hpoint

/-- Every frame shows the donut as seen from the front: a cell has the character of the
nearest of the points that fall on it, the first one among equals, and a blank if there is
none. -/
theorem donutFrame_nearest (n : Nat) :
    ∃ a canvas, frameAngles n = some a ∧ drawFrame a = some canvas ∧
      (∀ s ∈ frameSamples a 90, OnPicture s) ∧
      ∀ o, (∃ s, DepthBuffer.IsNearest (frameSamples a 90) s ∧ s.cell = o ∧
          canvas.b o = s.colour) ∨
        ((∀ s ∈ frameSamples a 90, s.cell ≠ o) ∧ canvas.b o = 32) := by
  obtain ⟨a, ha, hcircles⟩ := frameAngles_eq n
  obtain ⟨canvas, hcanvas, hbuffer⟩ := drawFrame_eq hcircles
  have hshows := DepthBuffer.shows_drawAll blankCanvas.buffer (frameSamples a 90)
  rw [← hbuffer] at hshows
  refine ⟨a, canvas, ha, hcanvas, fun s hs => onPicture_of_mem hcircles hs, fun o => ?_⟩
  rcases hshows o with ⟨s, hs, hcell, -, -, hcolour⟩ | ⟨hfar, -, hblank⟩
  · exact .inl ⟨s, hs, hcell, hcolour⟩
  · refine .inr ⟨fun s hs hcell => ?_, hblank⟩
    exact absurd (onPicture_of_mem hcircles hs).front (not_lt.mpr (hfar s hs hcell))

end DonutOS.Kernel
