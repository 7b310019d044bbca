import Mathlib.Algebra.Ring.Int.Defs
import Mathlib.Algebra.Ring.Nat
import PZero.Machine.Run

namespace PZero.Machine

open IR

def Value.IsCanonical : Value → Prop
  | .int bits n => canonical bits n = n
  | _ => True

/-- Every result that a computation gives has a property. -/
def Gives {α : Type} (P : α → Prop) (m : Except Fault α) : Prop := ∀ a, m = .ok a → P a

namespace Gives

variable {α β : Type} {P : α → Prop} {Q : β → Prop} {m : Except Fault α}

theorem ok {a : α} (h : P a) : Gives P (.ok a : Except Fault α) := by
  rintro a ⟨⟩
  exact h

theorem error (fault : Fault) : Gives P (.error fault : Except Fault α) := nofun

theorem bind {f : α → Except Fault β} (h : Gives P m) (hf : ∀ a, P a → Gives Q (f a)) :
    Gives Q (m >>= f) := by
  intro b hb
  cases m with
  | ok a => exact hf a (h a rfl) b hb
  | error fault => cases hb

theorem bind_any {f : α → Except Fault β} (hf : ∀ a, Gives Q (f a)) : Gives Q (m >>= f) := by
  intro b hb
  cases m with
  | ok a => exact hf a b hb
  | error fault => cases hb

end Gives

abbrev GivesCanonical (m : Except Fault Value) : Prop := Gives Value.IsCanonical m

theorem sshiftRight_shiftLeft_toInt {k w : Nat} (hwidth : k + w = 64) (n : Int) :
    ((BitVec.ofInt 64 n <<< k).sshiftRight k).toInt = n.bmod (2 ^ w) := by
  cases w with
  | zero =>
    subst hwidth
    rw [BitVec.shiftLeft_eq_zero (Nat.le_refl 64)]
    simp
  | succ w =>
    have hword : (2 : Nat) ^ 64 = 2 ^ k * 2 ^ (w + 1) := by rw [← hwidth, Nat.pow_add]
    have hpow : BitVec.twoPow 64 k = BitVec.ofNat 64 (2 ^ k) :=
      BitVec.eq_of_toNat_eq (by rw [BitVec.toNat_twoPow, BitVec.toNat_ofNat])
    have hshift : BitVec.ofInt 64 n <<< k = BitVec.ofInt 64 ((2 ^ k : Nat) * n) := by
      rw [BitVec.shiftLeft_eq_mul_twoPow, hpow, Int.mul_comm, BitVec.ofInt_mul,
        BitVec.ofInt_natCast]
    have heven : 2 ^ 1 ∣ 2 ^ (w + 1) := Nat.pow_dvd_pow 2 (by omega)
    have hpos : ((2 ^ k : Nat) : Int) ≠ 0 :=
      Int.natCast_ne_zero.2 (Nat.ne_of_gt (Nat.two_pow_pos k))
    rw [BitVec.toInt_sshiftRight, hshift, BitVec.toInt_ofInt, hword,
      Int.mod_bmod_mul_of_pos n (2 ^ (w + 1)) (Nat.two_pow_pos k) heven, Int.shiftRight_eq_div_pow,
      Int.mul_ediv_cancel_left _ hpos]

/-- The shifts keep what is left of a number by the number of values of the width. -/
theorem canonical_eq_bmod (bits n : Int) :
    canonical bits n = n.bmod (2 ^ min bits.toNat 64) :=
  sshiftRight_shiftLeft_toInt (by omega) n

theorem canonical_natCast {w : Nat} (hw : w ≤ 64) (n : Int) : canonical w n = n.bmod (2 ^ w) := by
  rw [canonical_eq_bmod, Int.toNat_natCast, Nat.min_eq_left hw]

theorem canonical_canonical (bits n : Int) :
    canonical bits (canonical bits n) = canonical bits n := by
  simp only [canonical_eq_bmod, Int.bmod_bmod]

theorem isCanonical_ofInt (bits n : Int) : (Value.ofInt bits n).IsCanonical :=
  canonical_canonical bits n

theorem isCanonical_ofBool (b : Bool) : (Value.ofBool b).IsCanonical := isCanonical_ofInt 1 _

theorem isCanonical_nothing : Value.nothing.IsCanonical := rfl

theorem isCanonical_zero (t : Ty) : (Value.zero t).IsCanonical := by
  cases t <;> first | exact isCanonical_ofInt _ 0 | trivial

section Layout

mutual

theorem layout_canonical : ∀ t : Ty, ∀ v ∈ layout t, v.IsCanonical
  | .array size elem => by
    intro v hv
    rw [layout] at hv
    obtain ⟨vs, hvs, hv⟩ := List.mem_flatten.1 hv
    obtain rfl := List.eq_of_mem_replicate hvs
    exact layout_canonical elem v hv
  | .struct packed elems => by
    rw [layout]
    exact layoutAll_canonical elems
  | .void | .int _ | .float _ | .ptr _ | .func _ _ _ | .missing =>
    List.forall_mem_singleton.2 (isCanonical_zero _)

theorem layoutAll_canonical : ∀ ts : List Ty, ∀ v ∈ layoutAll ts, v.IsCanonical
  | [] => by simp [layoutAll]
  | t :: ts => by
    rw [layoutAll, List.forall_mem_append]
    exact ⟨layout_canonical t, layoutAll_canonical ts⟩

end

end Layout

section Operators

theorem integer_canonical (bits n : Int) : GivesCanonical (integer bits n) := by
  unfold integer
  split
  · exact .ok (isCanonical_ofInt bits n)
  · exact .error _

theorem widen_canonical (v : Value) (target : Ty) : GivesCanonical (widen v target) := by
  unfold widen
  split
  · exact integer_canonical _ _
  · exact .error _

theorem divide_canonical (x y : Value) : GivesCanonical (divide x y) := by
  unfold divide
  split
  · exact .error _
  split
  · exact .error _
  · exact .ok (isCanonical_ofInt _ _)

theorem binary_canonical (op : BinOp) (x y : Value) : GivesCanonical (binary op x y) := by
  cases op with
  | add | sub | mul | and | or | xor => exact .ok (isCanonical_ofInt _ _)
  | sdiv => exact divide_canonical x y
  | fadd | fsub | fmul | fdiv => exact .ok trivial
  | other name => exact .error _

theorem address_canonical (base : Value) (elem : Ty) (indices : List Int) :
    GivesCanonical (address base elem indices) := by
  unfold address
  split
  · exact .ok trivial
  · exact .bind_any fun _ ↦ .ok trivial
  · exact .error _

theorem constant_canonical (image : Image) (c : Constant) : GivesCanonical (image.constant c) := by
  cases c with
  | int bits value =>
    rw [Image.constant]
    exact integer_canonical bits value
  | float kind bits => cases kind <;> exact .ok trivial
  | global name type =>
    rw [Image.constant]
    split
    · exact .ok trivial
    · exact .error _
  | array elem values =>
    rw [Image.constant]
    exact .error _
  | gep inBounds elem addr indices =>
    rw [Image.constant]
    exact .bind_any fun _ ↦ .bind_any fun _ ↦ address_canonical _ _ _
  | zext value target =>
    rw [Image.constant]
    exact .bind_any fun _ ↦ widen_canonical _ _

end Operators

section Frames

def Registers.IsCanonical (rs : Registers) : Prop := ∀ r ∈ rs, r.2.IsCanonical

theorem Registers.IsCanonical.set {rs : Registers} (h : rs.IsCanonical) {name : Bytes} {v : Value}
    (hv : v.IsCanonical) : (Registers.set name v rs).IsCanonical := by
  induction rs with
  | nil => exact List.forall_mem_singleton.2 hv
  | cons r rs ih =>
    obtain ⟨hr, hrs⟩ := List.forall_mem_cons.1 h
    rw [Registers.set]
    split
    · exact List.forall_mem_cons.2 ⟨hv, hrs⟩
    · exact List.forall_mem_cons.2 ⟨hr, ih hrs⟩

theorem Registers.IsCanonical.lookup {rs : Registers} (h : rs.IsCanonical) {name : Bytes}
    {v : Value} (hv : rs.lookup name = some v) : v.IsCanonical := by
  obtain ⟨l₁, l₂, rfl, -⟩ := List.lookup_eq_some_iff.1 hv
  exact h (name, v) (by simp)

def Frame.IsCanonical (frame : Frame) : Prop := frame.registers.IsCanonical

variable {image : Image} {frame : Frame}

theorem Frame.IsCanonical.operand (h : frame.IsCanonical) (x : Operand) :
    GivesCanonical (frame.operand image x) := by
  cases x with
  | reg r =>
    rw [Frame.operand]
    split
    · rename_i v hv
      exact .ok (h.lookup hv)
    · exact .error _
  | const c => exact constant_canonical image c

theorem Frame.IsCanonical.operands (h : frame.IsCanonical) (xs : List Operand) :
    Gives (fun vs ↦ ∀ v ∈ vs, v.IsCanonical) (frame.operands image xs) := by
  induction xs with
  | nil => exact .ok (List.forall_mem_nil _)
  | cons x xs ih =>
    rw [Frame.operands]
    exact (h.operand x).bind fun v hv ↦ ih.bind fun vs hvs ↦ .ok (List.forall_mem_cons.2 ⟨hv, hvs⟩)

theorem Frame.IsCanonical.incoming (h : frame.IsCanonical) (choices : List Incoming) :
    GivesCanonical (frame.incoming image choices) := by
  induction choices with
  | nil => exact .error _
  | cons i choices ih =>
    rw [Frame.incoming]
    split
    · exact h.operand i.value
    · exact ih

theorem Frame.IsCanonical.finish (h : frame.IsCanonical) (i : Instr) {v : Value}
    (hv : v.IsCanonical) : (frame.finish i v).IsCanonical := by
  unfold Frame.finish
  split
  · exact h.set hv
  · exact h

theorem isCanonical_enter (f : Function) {args : List Value} (h : ∀ v ∈ args, v.IsCanonical) :
    (Frame.enter f args).IsCanonical := by
  have hset : ∀ (choices : List (Register × Value)) (rs : Registers), rs.IsCanonical →
      (∀ c ∈ choices, c.2.IsCanonical) →
        (choices.foldl (fun rs c ↦ Registers.set c.1.name c.2 rs) rs).IsCanonical := by
    intro choices
    induction choices with
    | nil => exact fun rs hrs _ ↦ hrs
    | cons c choices ih =>
      intro rs hrs hc
      obtain ⟨hc, hcs⟩ := List.forall_mem_cons.1 hc
      exact ih _ (hrs.set hc) hcs
  refine hset (f.params.zip args) [] (fun x hx ↦ (List.not_mem_nil hx).elim) fun c hc ↦ ?_
  exact h c.2 (List.of_mem_zip hc).2

theorem Frame.IsCanonical.jump (h : frame.IsCanonical) {target : Bytes} {frame' : Frame}
    (hj : frame.jump target = .ok frame') : frame'.IsCanonical := by
  unfold Frame.jump at hj
  split at hj
  · cases hj
    exact h
  · cases hj

end Frames

end PZero.Machine
