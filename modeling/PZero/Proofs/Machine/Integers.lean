import Mathlib.Algebra.Ring.Int.Defs
import Mathlib.Algebra.Ring.Nat
import PZero.Proofs.Machine.Canonical

namespace PZero.Machine

/-- A bit vector as an integer of its width, read with its sign. -/
def Value.ofBits {w : Nat} (a : BitVec w) : Value := .int w a.toInt

variable {w : Nat}

theorem canonical_eq_toInt (hw : w ≤ 64) (n : Int) :
    canonical w n = (BitVec.ofInt w n).toInt := by
  rw [canonical_natCast hw, BitVec.toInt_ofInt]

theorem Value.IsCanonical.eq_ofBits (hw : w ≤ 64) {n : Int} (h : (Value.int w n).IsCanonical) :
    Value.int w n = .ofBits (BitVec.ofInt w n) := by
  rw [Value.ofBits, ← canonical_eq_toInt hw, show canonical w n = n from h]

theorem ofInt_eq_ofBits (hw : w ≤ 64) {a : BitVec w} {n : Int} (h : a.toInt = n.bmod (2 ^ w)) :
    Value.ofInt w n = .ofBits a := by
  rw [Value.ofInt, canonical_natCast hw, ← h, Value.ofBits]

/-- Bitwise operations work on words. An operation that commutes with the extension of signs does
the same on narrower bit vectors. -/
theorem ofInt_onBits (hw : w ≤ 64) {op : BitVec 64 → BitVec 64 → BitVec 64} {a b c : BitVec w}
    (h : op (a.signExtend 64) (b.signExtend 64) = c.signExtend 64) :
    Value.ofInt w (onBits op a.toInt b.toInt) = .ofBits c := by
  have hword : onBits op a.toInt b.toInt = c.toInt :=
    (congrArg BitVec.toInt h).trans (BitVec.toInt_signExtend_of_le hw)
  rw [hword]
  exact ofInt_eq_ofBits hw (BitVec.toInt_bmod_cancel c).symm

theorem bit_natCast (hw : w ≤ 64) : bit w = BitVec.twoPow 64 w := by
  have hlt : (w : Int) % 0x10000000000000000 = w := Int.emod_eq_of_lt (by omega) (by omega)
  rw [bit, hlt, Int.toNat_natCast, Nat.min_eq_left hw, BitVec.twoPow]

theorem and_mask_toNat (hw : w ≤ 64) (x : BitVec 64) :
    (x &&& (bit w - 1#64)).toNat = x.toNat % 2 ^ w := by
  have hmask : (bit w - 1#64).toNat = 2 ^ w - 1 := by
    rw [bit_natCast hw]
    obtain rfl | hlt := Nat.eq_or_lt_of_le hw
    · rfl
    · have hpow : (2 : Nat) ^ w < 2 ^ 64 := Nat.pow_lt_pow_right (by decide) hlt
      have := Nat.two_pow_pos w
      rw [BitVec.toNat_sub, BitVec.toNat_twoPow_of_lt hlt, BitVec.toNat_ofNat]
      omega
  rw [BitVec.toNat_and, hmask, Nat.and_two_pow_sub_one_eq_mod]

theorem unsigned_ofBits (hw : w ≤ 64) (a : BitVec w) : (Value.ofBits a).unsigned = a.toNat := by
  have hkeep : (a.signExtend 64).setWidth w = a := by
    ext i hi
    simp [BitVec.getElem_signExtend, show i < 64 by omega, hi]
  change (((a.signExtend 64) &&& (bit w - 1#64)).toNat : Int) = a.toNat
  rw [and_mask_toNat hw, ← BitVec.toNat_setWidth, hkeep]

theorem leastOf_eq (hw : 1 ≤ w) (hw' : w ≤ 64) : leastOf w = -2 ^ (w - 1) := by
  have hbit : bit ((w : Int) - 1) = BitVec.twoPow 64 (w - 1) := by
    rw [← bit_natCast (by omega), Int.natCast_sub hw]
    rfl
  have hnat : (BitVec.twoPow 64 (w - 1)).toNat = (BitVec.intMin w).toNat := by
    rw [BitVec.toNat_twoPow_of_lt (by omega), BitVec.intMin, BitVec.toNat_twoPow_of_lt (by omega)]
  rw [leastOf, hbit, canonical_natCast hw', BitVec.toInt_eq_toNat_bmod,
    Int.bmod_bmod_of_dvd (Nat.pow_dvd_pow 2 hw'), hnat, ← BitVec.toInt_eq_toNat_bmod,
    BitVec.toInt_intMin_of_pos hw]

/-- What the machine makes of two bit vectors. -/
structure Exact (a b : BitVec w) : Prop where
  add : binary .add (.ofBits a) (.ofBits b) = .ok (.ofBits (a + b))
  sub : binary .sub (.ofBits a) (.ofBits b) = .ok (.ofBits (a - b))
  mul : binary .mul (.ofBits a) (.ofBits b) = .ok (.ofBits (a * b))
  and : binary .and (.ofBits a) (.ofBits b) = .ok (.ofBits (a &&& b))
  or : binary .or (.ofBits a) (.ofBits b) = .ok (.ofBits (a ||| b))
  xor : binary .xor (.ofBits a) (.ofBits b) = .ok (.ofBits (a ^^^ b))
  divisionByZero : binary .sdiv (.ofBits a) (.ofBits b) = .error .divisionByZero ↔ b.toInt = 0
  divisionOverflow : binary .sdiv (.ofBits a) (.ofBits b) = .error .divisionOverflow ↔
    a.toInt = -2 ^ (w - 1) ∧ b.toInt = -1
  quotient : b.toInt ≠ 0 → ¬(a.toInt = -2 ^ (w - 1) ∧ b.toInt = -1) →
    binary .sdiv (.ofBits a) (.ofBits b) = .ok (.int w (a.toInt.tdiv b.toInt))
  eq : compareInts .eq (.ofBits a) (.ofBits b) = .ok (a == b)
  ne : compareInts .ne (.ofBits a) (.ofBits b) = .ok (a != b)
  slt : compareInts .slt (.ofBits a) (.ofBits b) = .ok (a.slt b)
  sle : compareInts .sle (.ofBits a) (.ofBits b) = .ok (a.sle b)
  sgt : compareInts .sgt (.ofBits a) (.ofBits b) = .ok (b.slt a)
  sge : compareInts .sge (.ofBits a) (.ofBits b) = .ok (b.sle a)
  ult : compareInts .ult (.ofBits a) (.ofBits b) = .ok (a.ult b)
  ule : compareInts .ule (.ofBits a) (.ofBits b) = .ok (a.ule b)
  ugt : compareInts .ugt (.ofBits a) (.ofBits b) = .ok (b.ult a)
  uge : compareInts .uge (.ofBits a) (.ofBits b) = .ok (b.ule a)
  zext : ∀ v : Nat, w ≤ v → v ≤ 64 → widen (.ofBits a) (.int v) = .ok (.ofBits (a.zeroExtend v))

section Division

variable (hw : 1 ≤ w) (hw' : w ≤ 64) (a b : BitVec w)

include hw hw'

theorem divide_ofBits : divide (.ofBits a) (.ofBits b) =
    if b.toInt = 0 then .error .divisionByZero
    else if a.toInt = -2 ^ (w - 1) ∧ b.toInt = -1 then .error .divisionOverflow
    else .ok (.ofInt w (a.toInt.tdiv b.toInt)) := by
  simp only [← leastOf_eq hw hw', and_comm (a := a.toInt = _)]
  rfl

theorem ofInt_quotient (h : ¬(a.toInt = -2 ^ (w - 1) ∧ b.toInt = -1)) :
    Value.ofInt w (a.toInt.tdiv b.toInt) = .int w (a.toInt.tdiv b.toInt) := by
  have hne : ¬(a = BitVec.intMin w ∧ b = -1#w) := by
    rintro ⟨rfl, rfl⟩
    refine h ⟨BitVec.toInt_intMin_of_pos hw, ?_⟩
    rw [BitVec.neg_one_eq_allOnes, BitVec.toInt_allOnes, if_pos (show 0 < w from hw)]
  rw [ofInt_eq_ofBits hw' (BitVec.toInt_sdiv a b), Value.ofBits,
    BitVec.toInt_sdiv_of_ne_or_ne a b (Decidable.not_and_iff_not_or_not.1 hne)]

end Division

theorem exact_ofBits (hw : 1 ≤ w) (hw' : w ≤ 64) (a b : BitVec w) : Exact a b where
  add := congrArg Except.ok (ofInt_eq_ofBits hw' (BitVec.toInt_add a b))
  sub := congrArg Except.ok (ofInt_eq_ofBits hw' BitVec.toInt_sub)
  mul := congrArg Except.ok (ofInt_eq_ofBits hw' (BitVec.toInt_mul a b))
  and := congrArg Except.ok (ofInt_onBits hw' BitVec.signExtend_and.symm)
  or := congrArg Except.ok (ofInt_onBits hw' BitVec.signExtend_or.symm)
  xor := congrArg Except.ok (ofInt_onBits hw' BitVec.signExtend_xor.symm)
  divisionByZero := by
    change divide _ _ = _ ↔ _
    rw [divide_ofBits hw hw']
    split
    · simp_all
    · split <;> simp_all
  divisionOverflow := by
    change divide _ _ = _ ↔ _
    rw [divide_ofBits hw hw']
    split
    · simp_all
    · split <;> simp_all
  quotient := by
    intro hz hl
    change divide _ _ = _
    rw [divide_ofBits hw hw', if_neg hz, if_neg hl, ofInt_quotient hw hw' a b hl]
  eq := congrArg Except.ok (decide_eq_decide.2 BitVec.toInt_inj)
  ne := congrArg Except.ok ((decide_eq_decide.2 (not_congr BitVec.toInt_inj)).trans decide_not)
  slt := congrArg Except.ok BitVec.slt_eq_decide.symm
  sle := congrArg Except.ok BitVec.sle_eq_decide.symm
  sgt := congrArg Except.ok BitVec.slt_eq_decide.symm
  sge := congrArg Except.ok BitVec.sle_eq_decide.symm
  ult := by simp [compareInts, unsigned_ofBits hw', BitVec.ult]
  ule := by simp [compareInts, unsigned_ofBits hw', BitVec.ule]
  ugt := by simp [compareInts, unsigned_ofBits hw', BitVec.ult]
  uge := by simp [compareInts, unsigned_ofBits hw', BitVec.ule]
  zext := by
    intro v hv hv'
    have hwidth : isWidth v = true := by simp [isWidth]; omega
    have hkeep : (a.zeroExtend v).toInt = (a.toNat : Int).bmod (2 ^ v) := BitVec.toInt_setWidth a
    simp only [widen, unsigned_ofBits hw', integer, hwidth, if_true]
    exact congrArg Except.ok (ofInt_eq_ofBits hv' hkeep)

/-- The integers of a width are its bit vectors, and the machine computes with them exactly. -/
theorem integers_are_exact (hw : 1 ≤ w) (hw' : w ≤ 64) {x y : Int}
    (hx : (Value.int w x).IsCanonical) (hy : (Value.int w y).IsCanonical) :
    ∃ a b : BitVec w, Value.int w x = .ofBits a ∧ Value.int w y = .ofBits b ∧ Exact a b :=
  ⟨_, _, hx.eq_ofBits hw', hy.eq_ofBits hw', exact_ofBits hw hw' _ _⟩

theorem bit_is_exact : 1 ≤ 1 ∧ 1 ≤ 64 ∧ (Value.int 1 (-1)).IsCanonical ∧
    binary .sdiv (.int 1 (-1)) (.int 1 (-1)) = .error .divisionOverflow ∧
    widen (.int 1 (-1)) (.int 64) = .ok (.int 64 1) := by
  have hbit : (Value.int 1 (-1)).IsCanonical := rfl
  obtain ⟨a, b, ha, hb, he⟩ :=
    integers_are_exact (w := 1) (x := -1) (y := -1) (by decide) (by decide) hbit hbit
  have hx : -1 = a.toInt := (Value.int.inj ha).2
  have hy : -1 = b.toInt := (Value.int.inj hb).2
  have hdiv := he.divisionOverflow.2 ⟨hx.symm, hy.symm⟩
  have hzext := he.zext 64 (by decide) (by decide)
  have ha' : a = 1#1 := BitVec.eq_of_toInt_eq hx.symm
  rw [← ha, ← hb] at hdiv
  rw [← ha, ha'] at hzext
  exact ⟨by decide, by decide, hbit, hdiv, hzext⟩

end PZero.Machine
