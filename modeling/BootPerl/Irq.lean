import Mathlib.Logic.Function.Basic
import BootPerl.Lib.Outcome

/-!
# Interrupt lines (`kernel/i8259.c`, `kernel/irq.c`)

Two 8259A chips, the slave on an input of the master, and the table of handlers. A `struct irq_handler` is known by its address,
null is zero, and each of its fields is a function of that address. The kernel fills in `irq` and `handler` before it registers a
handler and never changes them.

Every function here runs with interrupts off, so each is one step. The handlers of the kernel (the timer's and the keyboard's)
touch neither the chips nor the table, so of their calls only the order is kept.
-/

namespace BootPerl

/-- What an 8259A takes the next byte on its data port for: one of the words of its initialisation, or its mask. -/
inductive PicPhase where
  | icw2
  | icw3
  | icw4
  | ready
  deriving DecidableEq, Repr

/-- An 8259A: its mask, the register of the interrupts that are being serviced, and the words it was initialised with. -/
structure Pic where
  imr : BitVec 8
  isr : BitVec 8
  icw2 : BitVec 8
  icw3 : BitVec 8
  icw4 : BitVec 8
  phase : PicPhase
  deriving DecidableEq, Repr

/-- The interrupt on an input is no longer in service. -/
def Pic.endInterrupt (p : Pic) (k : Nat) : Pic := { p with isr := p.isr &&& ~~~(1#8 <<< k) }

/-- A byte on the command port: ICW1 begins an initialisation and clears the mask, `0x60 + k` ends the interrupt on input `k`. -/
def Pic.command (p : Pic) (v : BitVec 8) : Pic :=
  if v.getLsbD 4 then { p with imr := 0, phase := .icw2 }
  else if v &&& 0xf8 = 0x60 then p.endInterrupt (v &&& 7).toNat
  else p

/-- A byte on the data port. -/
def Pic.data (p : Pic) (v : BitVec 8) : Pic :=
  match p.phase with
  | .icw2 => { p with icw2 := v, phase := .icw3 }
  | .icw3 => { p with icw3 := v, phase := .icw4 }
  | .icw4 => { p with icw4 := v, phase := .ready }
  | .ready => { p with imr := v }

/-- The two messages of the interrupt code that are not debug output, each with its line. -/
inductive IrqMessage where
  | spurious (irq : Nat)
  | noHandler (irq : Nat)
  deriving DecidableEq, Repr

/-- The chips, the variables of `i8259.c` and `irq.c`, the handlers, and what was called and printed. -/
structure Irqs where
  master : Pic
  slave : Pic
  cachedIrqMask : BitVec 16
  spuriousMask : BitVec 32
  irqHandlers : Nat → Nat
  irq : Nat → Nat
  handler : Nat → Nat
  next : Nat → Nat
  prev : Nat → Nat
  called : List Nat
  messages : List IrqMessage

/-- Write a byte to a port. -/
def outb (s : Irqs) (v : BitVec 8) (port : Nat) : Irqs :=
  if port = 0x20 then { s with master := s.master.command v }
  else if port = 0x21 then { s with master := s.master.data v }
  else if port = 0xa0 then { s with slave := s.slave.command v }
  else if port = 0xa1 then { s with slave := s.slave.data v }
  else s

/-- An interrupt comes in on a line and is in service; one of the slave goes through input 2 of the master. -/
def Irqs.interrupt (s : Irqs) (irq : Nat) : Irqs :=
  if irq < 8 then { s with master := { s.master with isr := s.master.isr ||| 1#8 <<< irq } }
  else
    { s with
      master := { s.master with isr := s.master.isr ||| 1#8 <<< 2 }
      slave := { s.slave with isr := s.slave.isr ||| 1#8 <<< (irq - 8) } }

/-- `__byte(0, cached_irq_mask)`, the mask of the master, and `__byte(1, cached_irq_mask)`, that of the slave. -/
def maskByte (k : Nat) (mask : BitVec 16) : BitVec 8 := (mask >>> (8 * k)).setWidth 8

/-- Write the byte of the mask that holds the line to its chip. -/
def outMask (s : Irqs) (irq : Nat) : Irqs :=
  if irq &&& 8 ≠ 0 then outb s (maskByte 1 s.cachedIrqMask) 0xa1 else outb s (maskByte 0 s.cachedIrqMask) 0x21

/-- Unmask a line. -/
def enableIrq (s : Irqs) (irq : Nat) : Irqs :=
  outMask { s with cachedIrqMask := s.cachedIrqMask &&& ~~~(1#16 <<< irq) } irq

/-- Mask a line; `ack_irq` holds the same code. -/
def disableIrq (s : Irqs) (irq : Nat) : Irqs :=
  outMask { s with cachedIrqMask := s.cachedIrqMask ||| 1#16 <<< irq } irq

/-- Report a spurious interrupt, once for each line. -/
def reportSpurious (s : Irqs) (irq : Nat) : Irqs :=
  if s.cachedIrqMask.getLsbD irq then
    if s.spuriousMask.getLsbD irq then s
    else { s with messages := s.messages ++ [.spurious irq], spuriousMask := s.spuriousMask ||| 1#32 <<< irq }
  else s

/-- Acknowledge an interrupt: mask its line, spurious or not, and end it on its chip, for a slave line on both. -/
def ackIrq (s : Irqs) (irq : Nat) : Irqs :=
  let s := disableIrq (reportSpurious s irq) irq
  if irq &&& 8 ≠ 0 then outb (outb s (BitVec.ofNat 8 (0x60 + (irq &&& 7))) 0xa0) 0x62 0x20
  else outb s (BitVec.ofNat 8 (0x60 + irq)) 0x20

/-- Initialise both chips with vectors 0x20 and 0x28, the slave on input 2 of the master, and write the mask. -/
def init8259A (s : Irqs) : Irqs :=
  let s := outb s 0xff 0x21
  let s := outb s 0xff 0xa1
  let s := outb s 0x11 0x20
  let s := outb s 0x20 0x21
  let s := outb s 0x04 0x21
  let s := outb s 0x01 0x21
  let s := outb s 0x11 0xa0
  let s := outb s 0x28 0xa1
  let s := outb s 0x02 0xa1
  let s := outb s 0x01 0xa1
  let s := outb s (maskByte 0 s.cachedIrqMask) 0x21
  outb s (maskByte 1 s.cachedIrqMask) 0xa1

/-- Empty the table of handlers. -/
def initIrqVectors (s : Irqs) : Irqs := { s with irqHandlers := fun irq => if irq < 16 then 0 else s.irqHandlers irq }

/-- Add a handler to the top of the list of its line, and unmask the line. -/
def registerIrqHandler (s : Irqs) (handler : Nat) : Irqs :=
  let s := { s with next := Function.update s.next handler (s.irqHandlers (s.irq handler)) }
  let s := { s with prev := Function.update s.prev handler 0 }
  let s := if s.next handler ≠ 0 then { s with prev := Function.update s.prev (s.next handler) handler } else s
  let s := { s with irqHandlers := Function.update s.irqHandlers (s.irq handler) handler }
  enableIrq s (s.irq handler)

/-- The loop of `handle_irq`: call the handlers of a list from `cur` on. -/
def callHandlers : Nat → Irqs → Nat → Outcome Irqs
  | 0, _, _ => .running
  | fuel + 1, s, cur =>
    if cur = 0 then .ok s
    else
      let s := if s.handler cur ≠ 0 then { s with called := s.called ++ [cur] } else s
      callHandlers fuel s (s.next cur)

/-- Handle an interrupt: acknowledge it, call the handlers of its line, and unmask the line again. -/
def handleIrq (fuel : Nat) (s : Irqs) (irq : Nat) : Outcome Irqs :=
  let s := ackIrq s irq
  let s := if s.irqHandlers irq = 0 then { s with messages := s.messages ++ [.noHandler irq] } else s
  (callHandlers fuel s (s.irqHandlers irq)).bind fun s => .ok (enableIrq s irq)

end BootPerl
