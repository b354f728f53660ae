import DonutOS.Foundation.CheckedInt
import DonutOS.Foundation.Loop
import DonutOS.Foundation.Memory
import Mathlib.Logic.Function.Basic

set_option autoImplicit false

/-!
# Kernel: the picture of the donut (`kernel/src/donut.c`)

A frame draws `90 * 324` points of the donut into two arrays of 1760 cells, the
characters `b` and the depths `z`.  Sines and cosines are integers that stand for
1024ths, and every angle advances by the macro `R`.  A signed overflow, also that of
`frame`, a division by zero and an access outside the arrays or the string of characters
have no value.
-/

namespace DonutOS.Kernel

open DonutOS.Foundation

/-- The macro `R`. -/
def rotate (mul : CInt) (shift : Nat) (x y : CInt) : Option (Int × Int) := do
  let t := x
  let x := x - (mul * y) >>> shift
  let y := y + (mul * t) >>> shift
  let t := (3145728 - x * x - y * y) >>> 11
  let x ← ((x * t) >>> 10).val
  let y ← ((y * t) >>> 10).val
  return (x, y)

/-- The sines and cosines of the two angles of the donut. -/
structure Angles where
  sA : Int
  cA : Int
  sB : Int
  cB : Int
  deriving DecidableEq

/-- What a round of the inner loop computes of a point; `lum` is `N`. -/
structure Dot where
  x : Int
  y : Int
  lum : Int
  o : Int
  zz : Int
  deriving DecidableEq

/-- The declarations of the inner loop. -/
def dot (sA cA sB cB sj cj si ci : CInt) : Option Dot := do
  let r1 : CInt := 1
  let r2 : CInt := 2048
  let k2 : CInt := 5120 * 1024
  let x0 := r1 * cj + r2
  let x1 := (ci * x0) >>> 10
  let x2 := (cA * sj) >>> 10
  let x3 := (si * x0) >>> 10
  let x4 := r1 * x2 - (sA * x3) >>> 10
  let x5 := (sA * sj) >>> 10
  let x6 := k2 + r1 * 1024 * x5 + cA * x3
  let x7 := (cj * si) >>> 10
  let x := 40 + 30 * (cB * x1 - sB * x4) / x6
  let y := 12 + 15 * (cB * x4 + sB * x1) / x6
  let lum :=
    ((-cA * x7 - cB * ((-sA * x7) >>> 10 + x2) - ci * ((cj * sB) >>> 10)) >>> 10 - x5) >>> 7
  let o ← (x + 80 * y).val
  let x ← x.val
  let y ← y.val
  let lum ← lum.val
  let depth ← ((x6 - k2) >>> 15).val
  return ⟨x, y, lum, o, Int.bmod depth (2 ^ 8)⟩

/-- The arrays `b` and `z`; an `int8_t` of `z` is its value. -/
structure Canvas where
  b : Nat → Byte
  z : Nat → Int

/-- The number of cells of `b` and `z`. -/
def canvasSize : Nat := 1760

/-- `b` and `z` after the two calls of `memset`. -/
def blankCanvas : Canvas := ⟨fun _ => 32, fun _ => 127⟩

/-- `".,:;~=*oO#$@"`, with the NUL at its end. -/
def shades : List Byte :=
  [0x2e, 0x2c, 0x3a, 0x3b, 0x7e, 0x3d, 0x2a, 0x6f, 0x4f, 0x23, 0x24, 0x40, 0x00]

/-- The index of an access to `b` or `z`. -/
def cellIndex (o : Int) : Option Nat :=
  if 0 ≤ o ∧ o < canvasSize then some o.toNat else none

/-- `".,:;~=*oO#$@"[N > 0 ? N : 0]`. -/
def shade (lum : Int) : Option Byte := shades[(if lum > 0 then lum else 0).toNat]?

/-- The point lies on the picture. -/
def Dot.Visible (d : Dot) : Prop := 22 > d.y ∧ d.y > 0 ∧ d.x > 0 ∧ 80 > d.x

instance (d : Dot) : Decidable d.Visible := inferInstanceAs (Decidable (_ ∧ _ ∧ _ ∧ _))

/-- The `if` of the inner loop. -/
def plot (d : Dot) (c : Canvas) : Option Canvas :=
  if d.Visible then do
    let o ← cellIndex d.o
    if d.zz < c.z o then
      let g ← shade d.lum
      return ⟨Function.update c.b o g, Function.update c.z o d.zz⟩
    else return c
  else some c

/-- The variables of the two loops. -/
structure Drawing where
  canvas : Canvas
  sj : Int
  cj : Int
  si : Int
  ci : Int

/-- A round of the inner loop. -/
def drawDot (a : Angles) (_ : Nat) (s : Option Drawing) : Option Drawing := do
  let s ← s
  let d ← dot (.of a.sA) (.of a.cA) (.of a.sB) (.of a.cB)
    (.of s.sj) (.of s.cj) (.of s.si) (.of s.ci)
  let canvas ← plot d s.canvas
  let (ci, si) ← rotate 5 8 (.of s.ci) (.of s.si)
  return { s with canvas, ci, si }

/-- A round of the outer loop. -/
def drawCircle (a : Angles) (_ : Nat) (s : Option Drawing) : Option Drawing := do
  let s ← s
  let s ← forLoop (drawDot a) 0 324 (some { s with si := 0, ci := 1024 })
  let (cj, sj) ← rotate 9 7 (.of s.cj) (.of s.sj)
  return { s with cj, sj }

/-- The two arrays when a frame is drawn. -/
def drawFrame (a : Angles) : Option Canvas := do
  let s ← forLoop (drawCircle a) 0 90 (some ⟨blankCanvas, 0, 1024, 0, 1024⟩)
  return s.canvas

/-- The character that the last loop shows for `k`: `k % 80 ? b[k] : 10`. -/
def canvasByte (c : Canvas) (k : Nat) : Option Byte :=
  if k % 80 ≠ 0 then (cellIndex k).map c.b else some 0x0a

/-- The foreground that a frame sets: `(frame/50 + 1) % 16`. -/
def frameForeground (frame : CInt) : CInt := (frame / 50 + 1) % 16

/-- `frame`, which `frame++` counts. -/
def frameNumber : Nat → CInt
  | 0 => 0
  | n + 1 => frameNumber n + 1

/-- The angles of the first frame. -/
def firstAngles : Angles := ⟨1024, 0, 1024, 0⟩

/-- The angles of the next frame. -/
def nextAngles (a : Angles) : Option Angles := do
  let (cA, sA) ← rotate 5 7 (.of a.cA) (.of a.sA)
  let (cB, sB) ← rotate 5 8 (.of a.cB) (.of a.sB)
  return ⟨sA, cA, sB, cB⟩

/-- The angles of a frame. -/
def frameAngles : Nat → Option Angles
  | 0 => some firstAngles
  | n + 1 => (frameAngles n).bind nextAngles

end DonutOS.Kernel
