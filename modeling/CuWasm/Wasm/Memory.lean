import CuWasm.Wasm.Numeric

/-!
# Loads and stores of Wasm

The widths of the memory operators and the extension of a loaded number to the type of the result.
-/

namespace CuWasm.Wasm

open Numeric

/-- The width of a load in bytes. -/
def LoadOp.bytes : LoadOp → Nat
  | .i32Load8S | .i32Load8U | .i64Load8S | .i64Load8U => 1
  | .i32Load16S | .i32Load16U | .i64Load16S | .i64Load16U => 2
  | .i32Load | .i64Load32S | .i64Load32U | .f32Load => 4
  | .i64Load | .f64Load => 8

/-- The loads that extend with the sign. -/
def LoadOp.isSigned : LoadOp → Bool
  | .i32Load8S | .i32Load16S | .i64Load8S | .i64Load16S | .i64Load32S => true
  | _ => false

/-- The width of a store in bytes. -/
def StoreOp.bytes : StoreOp → Nat
  | .i32Store8 | .i64Store8 => 1
  | .i32Store16 | .i64Store16 => 2
  | .i32Store | .i64Store32 | .f32Store => 4
  | .i64Store | .f64Store => 8

/-- The value of a load whose bytes make up the number `x`. -/
def LoadOp.extend (o : LoadOp) (x : Nat) : Nat :=
  if o.isSigned then extendS o.type.width (8 * o.bytes) x else x

end CuWasm.Wasm
