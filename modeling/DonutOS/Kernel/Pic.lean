import DonutOS.Foundation.InterruptLines
import DonutOS.Foundation.Loop

set_option autoImplicit false

/-!
# Kernel: the interrupt controllers (`kernel/src/pic.c`)

Every function is what it writes to the ports of the two controllers.
-/

namespace DonutOS.Kernel

open DonutOS.Foundation

/-- `PIC1_COMMAND`. -/
def pic1Command : Nat := 0x20

/-- `PIC1_DATA`. -/
def pic1Data : Nat := pic1Command + 1

/-- `PIC2_COMMAND`. -/
def pic2Command : Nat := 0xa0

/-- `PIC2_DATA`. -/
def pic2Data : Nat := pic2Command + 1

/-- `PIC_EOI`. -/
def picEoi : BitVec 8 := 0x20

/-- `ICW1_INIT | ICW1_ICW4`. -/
def icw1InitIcw4 : BitVec 8 := 0x10 ||| 0x01

/-- `ICW4_8086`. -/
def icw4For8086 : BitVec 8 := 0x01

/-- `outb`, on the ports of the controllers; the other ports are not theirs. -/
def picOutb (port : Nat) (v : BitVec 8) (p : Cascade) : Cascade :=
  if port = pic1Command then { p with master := p.master.command v }
  else if port = pic1Data then { p with master := p.master.data v }
  else if port = pic2Command then { p with slave := p.slave.command v }
  else if port = pic2Data then { p with slave := p.slave.data v }
  else p

/-- `inb`. -/
def picInb (port : Nat) (p : Cascade) : BitVec 8 :=
  if port = pic1Command then p.master.status
  else if port = pic1Data then p.master.imr
  else if port = pic2Command then p.slave.status
  else if port = pic2Data then p.slave.imr
  else 0xff#8

/-- `io_wait`. -/
def ioWait (p : Cascade) : Cascade := picOutb 0x80 0#8 p

/-- `pic_send_eoi`. -/
def picSendEoi (irq : BitVec 8) (p : Cascade) : Cascade :=
  let p := if 8 ≤ irq.toNat then picOutb pic2Command picEoi p else p
  picOutb pic1Command picEoi p

/-- The writes of `pic_remap`, in order. -/
def picRemapWrites (offset1 offset2 : BitVec 8) : List (Nat × BitVec 8) :=
  [(pic1Command, icw1InitIcw4), (pic2Command, icw1InitIcw4),
    (pic1Data, offset1), (pic2Data, offset2),
    (pic1Data, 4#8), (pic2Data, 2#8),
    (pic1Data, icw4For8086), (pic2Data, icw4For8086),
    (pic1Data, 0#8), (pic2Data, 0#8), (pic1Data, 0#8), (pic2Data, 0#8)]

/-- `pic_remap`. -/
def picRemap (offset1 offset2 : BitVec 8) (p : Cascade) : Cascade :=
  (picRemapWrites offset1 offset2).foldl (fun p write => ioWait (picOutb write.1 write.2 p)) p

/-- The port and the bit of a line. -/
def picMaskOf (irqLine : BitVec 8) : Nat × Nat :=
  if irqLine.toNat < 8 then (pic1Data, irqLine.toNat) else (pic2Data, irqLine.toNat - 8)

/-- `pic_set_mask`. -/
def picSetMask (irqLine : BitVec 8) (p : Cascade) : Cascade :=
  let (port, bit) := picMaskOf irqLine
  picOutb port (picInb port p ||| BitVec.twoPow 8 bit) p

/-- `pic_clear_mask`. -/
def picClearMask (irqLine : BitVec 8) (p : Cascade) : Cascade :=
  let (port, bit) := picMaskOf irqLine
  picOutb port (picInb port p &&& ~~~BitVec.twoPow 8 bit) p

/-- `pic_init`, up to its `sti`. -/
def picInit (p : Cascade) : Cascade :=
  let p := forLoop (fun i p => picSetMask (BitVec.ofNat 8 i) p) 0 16 p
  let p := picRemap 0x20#8 0x28#8 p
  picRemap 0x20#8 0x28#8 p

/-- `__pic_get_irq_reg`. -/
def picGetIrqReg (ocw3 : BitVec 8) (p : Cascade) : BitVec 16 × Cascade :=
  let p := picOutb pic1Command ocw3 p
  let p := picOutb pic2Command ocw3 p
  ((picInb pic2Command p).setWidth 16 <<< 8 ||| (picInb pic1Command p).setWidth 16, p)

/-- `pic_get_isr`. -/
def picGetIsr (p : Cascade) : BitVec 16 × Cascade := picGetIrqReg 0x0a#8 p

/-- `pic_get_irr`. -/
def picGetIrr (p : Cascade) : BitVec 16 × Cascade := picGetIrqReg 0x0b#8 p

/-! ## What the ports do -/

theorem picOutb_pic1Command (v : BitVec 8) (p : Cascade) :
    picOutb pic1Command v p = { p with master := p.master.command v } := rfl

theorem picOutb_pic1Data (v : BitVec 8) (p : Cascade) :
    picOutb pic1Data v p = { p with master := p.master.data v } := rfl

theorem picOutb_pic2Command (v : BitVec 8) (p : Cascade) :
    picOutb pic2Command v p = { p with slave := p.slave.command v } := rfl

theorem picOutb_pic2Data (v : BitVec 8) (p : Cascade) :
    picOutb pic2Data v p = { p with slave := p.slave.data v } := rfl

theorem ioWait_eq (p : Cascade) : ioWait p = p := rfl

/-- A controller after its initialisation words and an open mask. -/
def freshController (offset link : BitVec 8) : Controller :=
  { expects := .mask, icw1 := icw1InitIcw4, base := offset, cascade := link, mode := icw4For8086
    imr := 0#8, irr := 0#8, isr := 0#8, readsIsr := false }

theorem command_icw1 (c : Controller) : c.command icw1InitIcw4 =
    { c with
      expects := .icw2, icw1 := icw1InitIcw4, imr := 0#8, irr := 0#8, isr := 0#8
      readsIsr := false } := by
  rw [Controller.command, if_pos (by decide)]
  rfl

/-- Whatever state a controller is in, the words that `pic_remap` sends it end in one
state; the second mask is the first again. -/
theorem data_of_icw1 (c : Controller) (offset link : BitVec 8) :
    (((((c.command icw1InitIcw4).data offset).data link).data icw4For8086).data 0#8).data 0#8 =
      freshController offset link := by
  have hfourth : icw1InitIcw4.getLsbD 0 = true := by decide
  have hcascaded : icw1InitIcw4.getLsbD 1 = false := by decide
  simp only [command_icw1, Controller.data, hfourth, hcascaded, if_true, Bool.false_eq_true,
    if_false]
  rfl

theorem picRemap_eq (offset1 offset2 : BitVec 8) (p : Cascade) :
    picRemap offset1 offset2 p =
      ⟨freshController offset1 4#8, freshController offset2 2#8⟩ := by
  rw [← data_of_icw1 p.master, ← data_of_icw1 p.slave, picRemap, picRemapWrites]
  simp only [List.foldl_cons, List.foldl_nil, picOutb_pic1Command, picOutb_pic1Data,
    picOutb_pic2Command, picOutb_pic2Data, ioWait_eq]

theorem command_eoi (c : Controller) : c.command picEoi = c.endOfInterrupt := by
  rw [Controller.command, if_neg (by decide), if_neg (by decide), if_pos (by decide)]

theorem picSendEoi_eq (irq : BitVec 8) (p : Cascade) :
    picSendEoi irq p = p.finish irq.toNat := by
  unfold picSendEoi Cascade.finish
  simp only [picOutb_pic1Command, picOutb_pic2Command, command_eoi]
  split
  · rw [if_neg (by omega)]
  · rw [if_pos (by omega)]

/-! ## The masks -/

theorem data_of_mask {c : Controller} (h : c.expects = .mask) (v : BitVec 8) :
    c.data v = { c with imr := v } := by
  rw [Controller.data, h]

/-- A write of the mask register, once both controllers are initialised. -/
theorem picOutb_mask {base₁ base₂ : Nat} {p : Cascade} (h : p.Ready base₁ base₂)
    (line : BitVec 8) (b : Bool) :
    picOutb (picMaskOf line).1
      (maskBit b (picMaskOf line).2 (picInb (picMaskOf line).1 p)) p =
      p.withMask b line.toNat := by
  unfold picMaskOf Cascade.withMask
  split
  · rw [picOutb_pic1Data, data_of_mask h.master.expects]
    rfl
  · rw [picOutb_pic2Data, data_of_mask h.slave.expects]
    rfl

theorem picSetMask_eq {base₁ base₂ : Nat} {p : Cascade} (h : p.Ready base₁ base₂)
    (line : BitVec 8) :
    picSetMask line p = p.withMask true line.toNat := picOutb_mask h line true

theorem picClearMask_eq {base₁ base₂ : Nat} {p : Cascade} (h : p.Ready base₁ base₂)
    (line : BitVec 8) :
    picClearMask line p = p.withMask false line.toNat := picOutb_mask h line false

/-- Whatever `pic_init` starts from: nothing is raised, masked or served. -/
theorem shows_picInit (p : Cascade) :
    Shows 0x20 0x28 (picInit p) ⟨fun _ => false, fun _ => false, none⟩ := by
  rw [picInit, picRemap_eq]
  refine ⟨⟨⟨rfl, rfl, rfl, rfl⟩, ⟨rfl, rfl, rfl, rfl⟩, rfl, rfl⟩, fun l _ => ?_, fun l _ => ?_,
    fun _ => ⟨rfl, rfl⟩, fun l hs => absurd hs (by simp)⟩
  · unfold Cascade.raised
    split <;> exact BitVec.getLsbD_zero
  · unfold Cascade.masked
    split <;> exact BitVec.getLsbD_zero

/-! ## The two registers -/

theorem getLsbD_irqReg (high low : BitVec 8) {line : Nat} (hline : line < 16) :
    (high.setWidth 16 <<< 8 ||| low.setWidth 16).getLsbD line =
      if line < 8 then low.getLsbD line else high.getLsbD (line - 8) := by
  rw [BitVec.getLsbD_or, BitVec.getLsbD_shiftLeft, BitVec.getLsbD_setWidth,
    BitVec.getLsbD_setWidth]
  by_cases hlow : line < 8
  · simp [hlow, hline]
  · have hnone : low.getLsbD line = false := BitVec.getLsbD_of_ge low line (by omega)
    simp [hlow, hline, hnone, show line - 8 < 16 by omega]

/-- `PIC_READ_ISR` is the word that selects the requests. -/
theorem picGetIsr_eq (p : Cascade) : picGetIsr p =
    (p.slave.irr.setWidth 16 <<< 8 ||| p.master.irr.setWidth 16,
      ⟨{ p.master with readsIsr := false }, { p.slave with readsIsr := false }⟩) := rfl

/-- `PIC_READ_IRR` is the word that selects what is in service. -/
theorem picGetIrr_eq (p : Cascade) : picGetIrr p =
    (p.slave.isr.setWidth 16 <<< 8 ||| p.master.isr.setWidth 16,
      ⟨{ p.master with readsIsr := true }, { p.slave with readsIsr := true }⟩) := rfl

/-- `pic_get_isr` reads the lines that are raised, and `pic_get_irr` the line that is
served: each what the other is named for.  The pair shows the same lines afterwards. -/
theorem picGet_of_shows {base₁ base₂ : Nat} {p : Cascade} {lines : Lines}
    (h : Shows base₁ base₂ p lines) :
    (∀ line ∈ Cascade.priorityOrder,
      (picGetIsr p).1.getLsbD line = lines.raised line ∧
        (picGetIrr p).1.getLsbD line = decide (lines.serving = some line)) ∧
      Shows base₁ base₂ (picGetIsr p).2 lines ∧ Shows base₁ base₂ (picGetIrr p).2 lines := by
  rw [picGetIsr_eq, picGetIrr_eq]
  refine ⟨fun line hline => ?_, h.reads false false, h.reads true true⟩
  have hlt := (Cascade.mem_priorityOrder.mp hline).1
  rw [getLsbD_irqReg _ _ hlt, getLsbD_irqReg _ _ hlt]
  exact ⟨h.raised line hline, h.served hline⟩

end DonutOS.Kernel
