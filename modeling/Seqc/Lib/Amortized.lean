import Mathlib.Algebra.GroupWithZero.Nat
import Seqc.Lib.Runs

/-! The potential method: what an operation spends is paid by its charge and by the credit that
earlier operations left. The credit of a buffer that doubles when it is full pays for its next
growth. -/

namespace Amortized
open Runs

section Machine
variable {ι ω σ : Type*} {step : ι → σ → Option (ω × σ)} {spent credit : σ → Nat}
  {charge : ι → ω → Nat} {I : σ → Prop}

end Machine

/-! ### A buffer that doubles -/

/-- The next capacity of a full buffer; the first one is `first`. -/
def doubled (first cap : Nat) : Nat := if cap = 0 then first else cap * 2

/-- Each element above half the capacity has left four, and nothing has been paid for the
first buffer. -/
def credit (first len cap : Nat) : Nat := 4 * (len - cap / 2) + if cap = 0 then first else 0

variable {first len len' cap cap' : Nat}

theorem credit_mono (le : len ≤ len') : credit first len cap ≤ credit first len' cap := by
  unfold credit
  omega

theorem credit_add (len k : Nat) : credit first (len + k) cap ≤ credit first len cap + 4 * k := by
  unfold credit
  omega

end Amortized
