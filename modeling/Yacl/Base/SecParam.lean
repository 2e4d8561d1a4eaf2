import Mathlib.Data.Nat.Notation

/-!
# Parameters of the LPN assumption

The part of `yacl/secparam.h` that the extensions use: the kind of noise, and the parameter sets.
-/

namespace Yacl.Crypto

/-- `LpnNoiseAsm`. -/
inductive LpnNoiseAsm where
  | regularNoise
  | uniformNoise
  deriving DecidableEq, Repr

/-- `LpnParam`. -/
structure LpnParam where
  /-- The number of samples. -/
  n : ℕ
  /-- The length of the secret. -/
  k : ℕ
  /-- The number of noisy samples. -/
  t : ℕ
  noiseAsm : LpnNoiseAsm
  deriving DecidableEq, Repr

/-- `LpnParam::GetDefault`. -/
def LpnParam.getDefault : LpnParam := ⟨10485760, 452000, 1280, .regularNoise⟩

end Yacl.Crypto
