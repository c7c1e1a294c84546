import Std.Data.TreeMap
import Std.Data.TreeSet

/-!
# Virtual registers

A body names its storage by virtual registers: locals of its own, and upvalues of the closure
that runs it. Both share one signed numbering in which local `n` is `n` and upvalue `k` is
`-1 - k`; `Reg.ofId` and `Reg.id` are inverse to each other (`Reg.ofId_id`, `Reg.id_ofId`).
Registers are ordered by that number, so every upvalue precedes every local.
-/

namespace RegisterBytecode

/-- A virtual register of a function body. -/
inductive Reg where
  /-- An ordinary local of the body. -/
  | loc (id : Nat)
  /-- An element of the running closure's upvalue array. -/
  | upval (index : Nat)
  deriving DecidableEq, Repr, Inhabited

namespace Reg

/-- The register's number: `n` for local `n`, and `-1 - k` for upvalue `k`. -/
def id : Reg → Int
  | loc n => n
  | upval k => -1 - k

/-- The register with a given number. -/
def ofId : Int → Reg
  | .ofNat n => loc n
  | .negSucc k => upval k

@[simp] theorem ofId_id (r : Reg) : ofId r.id = r := by
  cases r with
  | loc n => rfl
  | upval k =>
    have h : (-1 - (k : Int)) = .negSucc k := by omega
    rw [id, h]
    rfl

@[simp] theorem id_ofId (i : Int) : (ofId i).id = i := by
  cases i with
  | ofNat n => rfl
  | negSucc k => simp only [ofId, id]; omega

theorem id_injective {r s : Reg} (h : r.id = s.id) : r = s := by
  rw [← ofId_id r, h, ofId_id]

/-- Whether the register names an upvalue. -/
def isUpval : Reg → Bool
  | loc _ => false
  | upval _ => true

/-- The upvalue index that the register names, if it names one. -/
def upval? : Reg → Option Nat
  | loc _ => none
  | upval k => some k

/-- The local that the register names, if it names one. -/
def loc? : Reg → Option Nat
  | loc n => some n
  | upval _ => none

/-- Locals are written `v3`, upvalues `u3`. -/
def text : Reg → String
  | loc n => "v" ++ toString n
  | upval k => "u" ++ toString k

/-! ### The order of registers -/

instance : Ord Reg := ⟨compareOn id⟩

instance : Std.TransOrd Reg :=
  inferInstanceAs (Std.TransCmp (compareOn Reg.id))

instance : Std.LawfulEqOrd Reg where
  compare_self := Std.ReflOrd.compare_self (α := Int)
  eq_of_compare := fun h ↦ id_injective (Std.LawfulEqOrd.eq_of_compare (α := Int) h)

end Reg

end RegisterBytecode
