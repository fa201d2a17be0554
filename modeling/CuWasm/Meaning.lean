import CuWasm.Imports
import CuWasm.Lib.AllFrom
import CuWasm.LinearMemory
import CuWasm.Segments
import CuWasm.Structured
import CuWasm.Suspend
import CuWasm.Wasm.Semantics

/-!
# What translated code means

The instance that a translated module shows, and the relation between its execution in the structured
semantics and the machine that runs the CuOp code. The machine has limits that Wasm does
not know: `Exhausted` are the runs that end at one of them.

`InFrame` is the relation inside one activation. The operands of a body stand above the locals of the
frame, and everything below the frame belongs to the callers.
-/

namespace CuWasm

open Wasm Structured

/-- The status of a trap. -/
def faultStatus : Fault → Status
  | .unreachable => .trapUnreachable
  | .arith t => trapStatus t
  | .memory => .trapMemOob
  | .table => .trapIndirectCall

/-- The statuses of a run that has met a limit of the machine. -/
def Status.isLimit : Status → Bool
  | .trapStackOverflow | .trapCallDepth | .outOfFuel => true
  | _ => false

section Instance

variable {H : Type}

/-- The host function `fnId` as the semantics sees it. -/
def hostAnswer (host : HostFn H) (fnId : Nat) (h : H) (args : List Nat) (mem : Nat → Nat) : Answer H :=
  let out := host h fnId (args.map (BitVec.ofNat 64)) fun c => BitVec.ofNat 8 (mem c)
  { results := match out.reply with
      | .ok (n, results) => some ((List.range n).map fun j => (results j).toNat)
      | .error _ => none
    mem := bytes out.memory
    host := out.host }

/-- The host writes nothing behind the memory that the module starts with. -/
def KeepsOff (m : HostModule) (host : HostFn H) : Prop :=
  ∀ h i args mem c, m.memSize ≤ c → (host h i args mem).memory c = mem c

/-- The instance of `M` as its translation `m` shows it, with the data segments `segs`. -/
def Wasm.Module.toInstance (M : Module) (m : HostModule) (segs : List (List Byte)) (host : HostFn H) :
    Instance H where
  types := M.funcTypes
  funcs := M.funcTypeidx
  nImports := M.imports.length
  code := M.code
  table := m.table.map fun fi => if fi = TABLE_NULL then none else some fi
  maxPages := m.memMax / WASM_PAGE
  datas := segs.map fun seg => seg.map BitVec.toNat
  host := fun h fi => hostAnswer host (m.hostFnId.getD fi 0) h

/-- The store that a run of `m` starts with. -/
def HostModule.toStore (m : HostModule) (h : H) : Store H where
  globals := m.globals.map BitVec.toNat
  mem := bytes m.memory
  size := m.memSize
  dropped := fun d => decide (m.dataLive.getD d 0 = 0)
  host := h

/-- What a run returns. -/
abbrev Outgoing (H : Type) := RunResult × HostModule × H

/-- The module and the host reflect the store `s`. -/
structure Reflects (m : HostModule) (h : H) (s : Store H) : Prop where
  globals : m.globals = s.globals.map (BitVec.ofNat 64)
  memory : bytes m.memory = s.mem
  live : ∀ d, m.dataLive.getD d 0 = 0 ↔ s.dropped d = true
  host : h = s.host

/-- The module and the host realize the store `s`: behind the memory there are zeros to grow into. -/
structure Realizes (m : HostModule) (h : H) (s : Store H) : Prop extends Reflects m h s where
  size : m.memSize = s.size
  pages : WASM_PAGE ∣ m.memSize
  le : m.memSize ≤ m.memMax
  zero : ∀ c, m.memSize ≤ c → c < m.memMax → m.memory c = 0

/-- The run that returned `r` did what the semantics says. A refusal takes back what the memory has
grown. -/
def Means (res : Result H) (r : Outgoing H) : Prop :=
  match res with
  | .values ys s => r.1.status = .ok ∧ r.1.results = ys.map (BitVec.ofNat 64) ∧
      Realizes r.2.1 r.2.2 s
  | .trap t s => r.1.status = faultStatus t ∧ Realizes r.2.1 r.2.2 s
  | .refused s => r.1.status = .unsupportedOp ∧ Reflects r.2.1 r.2.2 s
  | .wrong => False

/-- The run that returned `r` has met a limit of the machine. -/
def Exhausted (r : Outgoing H) : Prop := r.1.status.isLimit = true

end Instance

section Relation

variable {H : Type}

/-- One instruction with the host call it may ask for, as a computation that exits with what the run
returns. -/
def hosted (m : HostModule) (e : FuncMeta) (host : HostFn H) : EStateM (Outgoing H) (Flat H) Unit :=
  fun x =>
    match flatStep m e host x with
    | .inl r => .error r x
    | .inr y => .ok () y

/-- An activation of a function: its frame base, the number of frames, the slots below its operands and
how many of them are locals of Wasm. The frames and the stack below belong to its callers. -/
structure Activation where
  fp : Nat
  csp : Nat
  slots : Nat
  nLocals : Nat
  frames : Nat → Frame
  stack : Nat → Slot

/-- The code of `m` is that of the module `M` with the data segments `segs`, and `A` is an activation of
a function that was lowered in `env`. -/
structure Setting (M : Module) (m : HostModule) (segs : List (List Byte)) (env : LowerEnv)
    (A : Activation) : Prop where
  types : env.funcTypes = M.funcTypes
  typeidx : env.funcTypeidx = M.funcTypeidx
  imports : env.nImports = M.imports.length
  hostIds : env.hostFnIds = m.hostFnId
  small : ∀ ft ∈ M.funcTypes, ft.1.length < 2 ^ 16 ∧ ft.2.length < 2 ^ 16
  short : ∀ fi ft, fi < M.imports.length → M.funcType fi = some ft → ft.1.length ≤ 8 ∧ ft.2.length ≤ 8
  hostCount : m.hostFnId.length = M.imports.length
  segments : DataSegments m.cpuViews segs
  fewSegs : segs.length ≤ 2 ^ 16
  memMax : m.memMax < 2 ^ 32
  slots : A.slots = env.nParams + env.nLocals
  fewSlots : A.slots < 2 ^ 16
  scratch : ∀ k, env.scratch = some k → A.nLocals ≤ k ∧ k < A.slots

/-- The items stand in the code from `pc` on; `T` gives the ends of the enclosing blocks. -/
def CodeAt (m : HostModule) (T : Nat → Nat) (pc : Nat) (is : Items) : Prop :=
  is.AllFrom (fun p i => m.code[p]? = some (i.1.render T)) pc

/-- The function with the code `c` and the type `ft` was lowered in `env` to the metadata `g`. -/
structure FuncAt (M : Module) (m : HostModule) (ft : FuncType) (c : Func) (g : FuncMeta)
    (env : LowerEnv) : Prop where
  types : env.funcTypes = M.funcTypes
  typeidx : env.funcTypeidx = M.funcTypeidx
  imports : env.nImports = M.imports.length
  hostIds : env.hostFnIds = m.hostFnId
  params : g.nParams = ft.1.length
  results : g.nResults = ft.2.length
  slots : env.nParams + env.nLocals = g.nParams + g.nLocals
  fewSlots : g.nParams + g.nLocals < 2 ^ 16
  locals : (c.locals.map (·.1)).sum ≤ g.nLocals
  scratch : ∀ k, env.scratch = some k →
    g.nParams + (c.locals.map (·.1)).sum ≤ k ∧ k < g.nParams + g.nLocals
  body : ∃ consts is st,
    Structured.body env [⟨none, 0, ft.2.length⟩] false ⟨g.codeOff, consts, 0, false⟩ c.body =
        some (is, st) ∧
      st.consts <+: m.consts ∧ CodeAt m (ends st.pc fun _ => 0) g.codeOff is ∧
      ∃ i, m.code[st.pc]? = some i ∧ i.op = .endFunc

/-- `m` is the translation of `M`, with the data segments `segs`: every function has been lowered, and an
indirect call finds the function that the table names. The table holds no import. -/
structure Compiled (M : Module) (m : HostModule) (segs : List (List Byte)) : Prop where
  small : ∀ ft ∈ M.funcTypes, ft.1.length < 2 ^ 16 ∧ ft.2.length < 2 ^ 16
  short : ∀ fi ft, fi < M.imports.length → M.funcType fi = some ft → ft.1.length ≤ 8 ∧ ft.2.length ≤ 8
  hostCount : m.hostFnId.length = M.imports.length
  segments : DataSegments m.cpuViews segs
  fewSegs : segs.length ≤ 2 ^ 16
  memMax : m.memMax < 2 ^ 32
  func : ∀ fi ft, M.imports.length ≤ fi → M.funcType fi = some ft →
    ∃ c g env, M.code[fi - M.imports.length]? = some c ∧ m.funcs[fi]? = some g ∧ FuncAt M m ft c g env
  indirect : ∀ ti ft i, M.funcTypes[ti]? = some ft →
    Run.indirectTarget m.dev ti i =
      m.table[i]?.bind fun fi =>
        if fi ≠ TABLE_NULL ∧ M.funcType fi = some ft then m.funcs[fi]? else none
  table : ∀ i fi : Nat, m.table[i]? = some fi → fi ≠ TABLE_NULL → M.imports.length ≤ fi

/-- The module `M`, with the payloads `ps` and the data segments `segs`, has been loaded and verified, and
no part of it was given up: every function has been lowered, and the table holds no import. -/
structure Translates (M : Module) (ps : List (Parsed Payload))
    (segs : List DataSegment) (m : HostModule) : Prop where
  valid : M.Valid
  frames : M.FramesFit 1
  lowers : ∀ k < M.code.length, M.Lowers k
  encodes : Encodes M ps
  data : dataItems ps = segs.map fun d => .ok d.data
  loads : ∃ m0, loadWasm ps = .ok m0 ∧ verifyCuop m0 = .ok m
  blob : m.dataBlob.length ≤ 2 ^ 32
  fewSegs : segs.length ≤ 2 ^ 16
  table : ∀ i fi : Nat, m.table[i]? = some fi → fi ≠ TABLE_NULL → M.imports.length ≤ fi

/-- The machine and the host hold the store `s`. -/
structure HoldsStore (m : HostModule) (s : Store H) (x : Flat H) : Prop where
  count : s.globals.length = m.globals.length
  globals : ∀ j a, s.globals[j]? = some a → x.mach.globals j = BitVec.ofNat 64 a
  mem : bytes x.mach.mem = s.mem
  size : x.mach.memSize = s.size
  grown : m.memSize ≤ s.size
  live : ∀ d, x.mach.live d = 0 ↔ s.dropped d = true
  beyond : ∀ d, m.dataLive.length ≤ d → s.dropped d = true
  host : x.host = s.host
  zero : ZeroBeyond m.cpuViews x.mach

/-- The machine is at `pc` in the activation `A` with the operands `xs`, the locals `ls` and the store
`s`. -/
structure InFrame (m : HostModule) (A : Activation) (pc : Nat) (xs ls : List Nat) (s : Store H)
    (x : Flat H) : Prop where
  pc : x.mach.pc = pc
  fp : x.mach.fp = A.fp
  csp : x.mach.csp = A.csp
  sp : x.mach.sp = A.fp + A.slots + xs.length
  fits : x.mach.sp ≤ STACK_CAP
  count : ls.length = A.nLocals
  room : A.nLocals ≤ A.slots
  locals : ∀ j a, ls[j]? = some a → x.mach.stack (A.fp + j) = BitVec.ofNat 64 a
  operands : ∀ j a, xs[j]? = some a → x.mach.stack (x.mach.sp - (j + 1)) = BitVec.ofNat 64 a
  below : ∀ j < A.fp, x.mach.stack j = A.stack j
  frames : ∀ k < A.csp, x.mach.frames k = A.frames k
  store : HoldsStore m s x

/-- The machine is in front of the items `is` that a sequence was lowered to, with the operands `xs` for it
and `lo` below them. -/
structure Before (m : HostModule) (A : Activation) (L : List Label) (T : Nat → Nat) (st : State)
    (is : Items) (st' : State) (lo xs ls : List Nat) (s : Store H) (x : Flat H) : Prop where
  live : st.dead = false
  height : st.h = (xs ++ lo).length
  bases : ∀ l ∈ L, l.base ≤ lo.length
  code : CodeAt m T st.pc is
  pool : st'.consts <+: m.consts
  nested : 0 < A.csp
  frame : InFrame m A st.pc (xs ++ lo) ls s x

/-- The machine is at the first instruction of the function with the code `c` and the metadata `g`, which
has been called with `args`. -/
structure AtEntry (m : HostModule) (A : Activation) (c : Func) (g : FuncMeta) (args : List Nat)
    (s : Store H) (x : Flat H) : Prop where
  slots : A.slots = g.nParams + g.nLocals
  nLocals : A.nLocals = g.nParams + (c.locals.map (·.1)).sum
  nested : 0 < A.csp
  results : (A.frames (A.csp - 1)).nResults = g.nResults
  frame : InFrame m A g.codeOff [] (Instance.locals c args) s x

/-- The machine is about to return `ys` from the activation `A`, whose frame may have been given the
result count of a tail callee. -/
structure AtReturn (m : HostModule) (A : Activation) (ys : List Nat) (s : Store H) (x : Flat H) :
    Prop where
  instr : ∃ i, m.code[x.mach.pc]? = some i ∧ (i.op = .ret ∨ i.op = .endFunc)
  csp : x.mach.csp = A.csp
  top : x.mach.frames (A.csp - 1) = { A.frames (A.csp - 1) with nResults := ys.length }
  enough : A.fp + ys.length ≤ x.mach.sp
  fits : x.mach.sp ≤ STACK_CAP
  results : ∀ j a, ys[j]? = some a →
    x.mach.stack (x.mach.sp - ys.length + j) = BitVec.ofNat 64 a
  below : ∀ j < A.fp, x.mach.stack j = A.stack j
  frames : ∀ k < A.csp - 1, x.mach.frames k = A.frames k
  store : HoldsStore m s x

/-- The run that returned `r` has ended with the outcome of a trap or a refusal. -/
def Aborts (o : Wasm.Outcome H) (r : Outgoing H) : Prop :=
  match o with
  | .trap t s => Means (.trap t s) r
  | .refused s => Means (.refused s) r
  | _ => False

/-- The machine has come to the end of a sequence with the outcome `o`. `lo` are the operands below
the sequence, `T` gives the ends of the enclosing blocks, and `st` is the state of the lowering behind
the sequence. -/
def Arrives (m : HostModule) (A : Activation) (L : List Label) (T : Nat → Nat) (st : State)
    (lo : List Nat) (o : Wasm.Outcome H) (x : Flat H) : Prop :=
  match o with
  | .next xs ls s => st.dead = false ∧ st.h = (xs ++ lo).length ∧
      InFrame m A st.pc (xs ++ lo) ls s x
  | .br k xs ls s => ∃ l pc, L[k]? = some l ∧
      (l.arity ≤ xs.length → m.code[pc]? = some ⟨.br, 0, l.start.getD (T k)⟩ ∧
        InFrame m A pc (xs.take l.arity ++ lo.drop (lo.length - l.base)) ls s x)
  | .ret xs s => ∃ pc low ls i, m.code[pc]? = some i ∧ i.op = .ret ∧ InFrame m A pc (xs ++ low) ls s x
  | .tail fi xs s => m.hostFnId.length ≤ fi ∧ ∃ pc low ls,
      m.code[pc]? = some ⟨.returnCall, 0, fi⟩ ∧ InFrame m A pc (xs ++ low) ls s x
  | .trap .. | .refused _ | .wrong => False

/-- The machine runs for `n` steps, unless it meets a limit. -/
def Lasts (m : HostModule) (e : FuncMeta) (host : HostFn H) (n : Nat) (x : Flat H) : Prop :=
  (∃ y, Exit.Steps (hosted m e host) n x y) ∨
    Exit.Eventually (hosted m e host) (fun _ => False) (fun r _ => Exhausted r) x

/-- The machine does what the semantics says of a sequence within the budget `n`: it comes to the
outcome, or it meets a limit. Where the budget has not sufficed, it goes on for `n` steps. -/
def FollowsBody (m : HostModule) (e : FuncMeta) (host : HostFn H) (n : Nat)
    (P : Wasm.Outcome H → Flat H → Prop)
    (o : Option (Wasm.Outcome H)) (x : Flat H) : Prop :=
  match o with
  | none => Lasts m e host n x
  | some .wrong => True
  | some o => Exit.Eventually (hosted m e host) (P o) (fun r _ => Exhausted r ∨ Aborts o r) x

/-- The machine stands at `pc` behind an operator that goes on to the next one. -/
def Behind (m : HostModule) (A : Activation) (pc : Nat) (o : Wasm.Outcome H) (x : Flat H) : Prop :=
  match o with
  | .next xs ls s => InFrame m A pc xs ls s x
  | _ => False

/-- The machine does what the semantics says of an operator, and then stands at `pc`. -/
def Performs (m : HostModule) (e : FuncMeta) (host : HostFn H) (A : Activation) (pc : Nat)
    (o : Wasm.Outcome H) (x : Flat H) : Prop :=
  FollowsBody m e host 0 (Behind m A pc) (some o) x

/-- The same of a call from the activation `A`. -/
def FollowsCall (m : HostModule) (e : FuncMeta) (host : HostFn H) (n : Nat) (A : Activation)
    (o : Option (Result H)) (x : Flat H) : Prop :=
  match o with
  | none => Lasts m e host n x
  | some .wrong => True
  | some (.values ys s) =>
    Exit.Eventually (hosted m e host) (AtReturn m A ys s) (fun r _ => Exhausted r) x
  | some res => Exit.Eventually (hosted m e host) (fun _ => False) (fun r _ => Exhausted r ∨ Means res r) x

variable (M : Module) (m : HostModule) (segs : List (List Byte)) (e : FuncMeta) (host : HostFn H) (n : Nat)

/-- The machine follows the semantics within the budget `n` through every sequence. -/
def BodiesFollow : Prop :=
  ∀ ⦃env A L T ghost b st is st' lo xs ls s x⦄, Setting M m segs env A →
    Structured.body env L ghost st b = some (is, st') → Before m A L T st is st' lo xs ls s x →
    FollowsBody m e host (n - 1) (Arrives m A L T st' lo)
      (((M.toInstance m segs host).eval n).body b xs ls s) x

/-- The machine follows the semantics within the budget `n` through every call. -/
def CallsFollow : Prop :=
  ∀ ⦃fi ft c g env A args s x⦄, M.imports.length ≤ fi → M.funcType fi = some ft →
    M.code[fi - M.imports.length]? = some c → FuncAt M m ft c g env → AtEntry m A c g args s x →
    FollowsCall m e host (n - 1) A (((M.toInstance m segs host).eval n).call fi args s) x

end Relation

end CuWasm
