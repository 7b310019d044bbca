import PZero.Machine.Step
import PZero.Proofs.Binary.Overflow
import PZero.Proofs.Compiled.Valid
import PZero.Proofs.Typing.Literals

namespace PZero.Compiled

open Binary (IsFinite)
open IR (Constant)
open Typing (checkFile floatLiteral shown)

/-- A literal becomes a constant with the digits of a double, as the value of a global and as an
operand, and the machine loads that double. -/
structure Emits (literal : Typed.Literal) (double : UInt64) : Prop where
  constant : ∃ c : Constant, Lowering.globalValue (some literal) = .ok c ∧
    Lowering.lowerLiteral literal = pure (.const c) ∧
    c.bare = ascii "0x" ++ Bytes.upperHexWidth 16 double.toNat ∧
    ∀ image : Machine.Image, image.constant c = .ok (.float double)

theorem emits_float (bits : UInt64) : Emits (.float bits) (Binary.toSingle bits) :=
  ⟨.float .single bits, rfl, rfl, rfl, fun _ ↦ rfl⟩

variable {text : Bytes}

theorem floatLiteral_eq (h : Surface.IsFloat text) (negative : Bool) (place : Span) :
    ∃ num den, Binary.Numeral.read? (shown text negative) = some (.ratio negative num den) ∧
      0 < den ∧
      (floatLiteral text negative place).1 = .float (UInt64.ofNat
        (Binary.withSign Binary.double negative (Binary.roundMagnitude Binary.double num den))) ∧
      ((floatLiteral text negative place).2 = [] ↔
        Binary.roundMagnitude Binary.single num den ≠ Binary.single.infinity) := by
  obtain ⟨num, den, hread, hden⟩ := Binary.Numeral.read?_float h negative
  refine ⟨num, den, hread, hden, ?_, ?_⟩
  · simp only [floatLiteral, hread, Binary.Numeral.pattern]
  · simp [floatLiteral, hread, Binary.Numeral.overflows]

/-- A float literal is accepted if its magnitude is below the brink of single precision. What is
emitted for it is finite if its magnitude stays below the brink by half a unit of the doubles there:
between the two an accepted literal becomes infinite. -/
theorem float_literal_is_finite_iff (h : Surface.IsFloat text) (negative : Bool) (place : Span) :
    ∃ num den double, Binary.Numeral.read? (shown text negative) = some (.ratio negative num den) ∧
      0 < den ∧ Emits (floatLiteral text negative place).1 double ∧
      ((floatLiteral text negative place).2 = [] ↔ (num : ℚ) / den < 2 ^ 128 - 2 ^ 103) ∧
      (IsFinite double ↔ (num : ℚ) / den < 2 ^ 128 - 2 ^ 103 - 2 ^ 74) := by
  obtain ⟨num, den, hread, hden, hvalue, haccept⟩ := floatLiteral_eq h negative place
  refine ⟨num, den, _, hread, hden, hvalue ▸ emits_float _, ?_,
    Binary.isFinite_toSingle_iff negative num hden⟩
  rw [haccept, ne_eq, Binary.roundMagnitude_eq_infinity_iff Binary.proper_single num hden,
    Binary.single_brink, not_le]

/-- The greatest whole number below the brink of single precision. -/
def utmost : Bytes := ascii "3.40282356779733661637539395458142568447e38"

theorem utmost_isFloat : Surface.IsFloat utmost := by
  have digits : ∀ {text : Bytes}, text ≠ [] → text.all Bytes.isDigit = true →
      Surface.IsDigits text := fun hne hall ↦ ⟨hne, List.all_eq_true.1 hall⟩
  refine ⟨ascii "3", ascii ".40282356779733661637539395458142568447", ascii "e38",
    by decide +kernel, digits (by decide) (by decide), ?_, ?_⟩
  · exact .inr ⟨ascii "40282356779733661637539395458142568447", by decide +kernel,
      digits (by decide +kernel) (by decide +kernel)⟩
  · exact .inr ⟨101, [], ascii "38", by decide, by decide, by decide,
      digits (by decide) (by decide)⟩

theorem utmost_literal_is_infinite : ∃ double, Emits (floatLiteral utmost true ⟨0, 0⟩).1 double ∧
    (floatLiteral utmost true ⟨0, 0⟩).2 = [] ∧ ¬IsFinite double := by
  have hvalue : Binary.Numeral.read? (shown utmost true) =
      some (.ratio true 340282356779733661637539395458142568447 1) := by decide +kernel
  obtain ⟨num, den, double, hread, -, hemits, haccept, hfinite⟩ :=
    float_literal_is_finite_iff utmost_isFloat true ⟨0, 0⟩
  rw [hvalue] at hread
  cases hread
  refine ⟨double, hemits, haccept.2 (by norm_num), fun h ↦ ?_⟩
  have := hfinite.1 h
  norm_num at this

/-- A program that prints it. -/
def extreme : File :=
  ⟨ascii "extreme.p0", ascii "let x = " ++ utmost ++ ascii "; fun main() \x7b print(x); \x7d"⟩

theorem accepted_literal_is_spelled_infinite : ∃ p M, checkFile extreme = .ok p ∧
    Lowering.lower [] p = .ok M ∧
    M.globals.map (fun g ↦ g.value.bare) = [ascii "0x7FF0000000000000"] :=
  exists_compiled (P := fun M ↦ M.globals.map (fun g ↦ g.value.bare) =
    [ascii "0x7FF0000000000000"]) (by decide +kernel)

end PZero.Compiled
