import CuWasm.Operands

/-!
# The linear memory and its data segments

What the bulk instructions do to the memory, and what a `memory.grow` finds beyond its end. The data
segments of a module are packed in one blob with parallel arrays of offsets, lengths and live flags;
here they are a list of byte strings.
-/

namespace CuWasm

/-- The arrays of the view hold the data segments `segs`; offsets and lengths are 32-bit numbers. -/
structure DataSegments (v : Views) (segs : List (List Byte)) : Prop where
  count : v.nData = segs.length
  lens : ∀ d seg, segs[d]? = some seg → v.dataLen.getD d 0 = seg.length
  fits : ∀ d seg, segs[d]? = some seg → v.dataOff.getD d 0 + seg.length ≤ 2 ^ 32
  bytes : ∀ d seg, segs[d]? = some seg →
    ∀ k x, seg[k]? = some x → v.blob.getD (v.dataOff.getD d 0 + k) 0 = x

section LinearMemory

variable (v : Views)

/-- Segment `d` as the instructions see it: a dropped segment is empty. -/
def segment (segs : List (List Byte)) (live : Nat → Byte) (d : Nat) : List Byte :=
  if live (v.live + d) = 0 then [] else segs.getD d []

/-- The machine `s'` is `s` without the three operands of a bulk instruction and with the bytes `g` at
the addresses from `dst` on; nothing else of the memory and the machine changed. -/
structure Overwritten (dst n : Nat) (g : Nat → Byte) (s s' : Mach) : Prop where
  block : ∀ k < n, s'.mem (v.memory + dst + k) = g k
  rest : ∀ c, c < v.memory + dst ∨ v.memory + dst + n ≤ c → s'.mem c = s.mem c
  sp : s'.sp = s.sp - 3
  stack : s'.stack = s.stack
  others : { s'.offStack with mem := s.mem } = s.offStack

/-- A bulk instruction started in `s`: out of bounds it traps and no byte has changed, else it writes
its bytes. -/
def BulkResult (oob : Prop) (dst n : Nat) (g : Nat → Byte) (s : Mach) :
    EStateM.Result Status Mach Unit → Prop
  | .ok _ s' => ¬ oob ∧ Overwritten v dst n g s s'
  | .error e s' => oob ∧ e = .trapMemOob ∧ s'.stack = s.stack ∧ s'.offStack = s.offStack

/-- The memory has whole pages, at most those of its buffer, and the buffer is zero behind it. -/
structure ZeroBeyond (s : Mach) : Prop where
  pages : WASM_PAGE ∣ s.memSize
  le : s.memSize ≤ v.memMax
  zero : ∀ c, s.memSize ≤ c → c < v.memMax → s.mem (v.memory + c) = 0

end LinearMemory

end CuWasm
