import PZero.Proofs.Lowering.Growth
import PZero.Proofs.Machine.Canonical
import PZero.Proofs.Refinement.Simulates
import PZero.Proofs.Typing.Judgement

namespace PZero.Refinement

open IR Machine
open Lowering (Site lowerBinary lowerUnary lowerLiteral comparison?)
open Semantics (Stop)

def encode : Semantics.Value → Value
  | .int n => .int 32 n.toInt
  | .float bits => .float bits
  | .bool b => .ofBool b

theorem exists_int {v : Semantics.Value} (h : v.type = .int) : ∃ n, v = .int n := by
  cases v <;> simp_all [Semantics.Value.type]

theorem exists_float {v : Semantics.Value} (h : v.type = .float) : ∃ bits, v = .float bits := by
  cases v <;> simp_all [Semantics.Value.type]

theorem exists_bool {v : Semantics.Value} (h : v.type = .bool) : ∃ b, v = .bool b := by
  cases v <;> simp_all [Semantics.Value.type]

theorem encode_int (n : Int) : encode (.int (BitVec.ofInt 32 n)) = .ofInt 32 n := by
  simp [encode, Value.ofInt, canonical_eq_bmod]

/-- The machine gets the value of a type that an operation has, or the fault of its trap. -/
def Agrees (image : Image) (type : ValueType) (got : Except Fault Value) :
    Except Stop Semantics.Value → Prop
  | .ok v => got = .ok (encode v) ∧ v.type = type
  | .error (.trap cause) => got = .error (faultOf image cause)
  | .error _ => False

variable {image : Image}

theorem agrees_int {got : Except Fault Value} {n : Int} {m : BitVec 32}
    (hg : got = .ok (.ofInt 32 n)) (hm : m.toInt = n.bmod (2 ^ 32)) :
    Agrees image .int got (.ok (.int m)) := by
  have hkeep : canonical 32 n = n.bmod (2 ^ 32) := canonical_eq_bmod 32 n
  refine ⟨?_, rfl⟩
  rw [hg, encode, Value.ofInt, hm, hkeep]

theorem divide_agrees (x y : BitVec 32) :
    Agrees image .int (divide (encode (.int x)) (encode (.int y))) (Semantics.divide x y) := by
  have hy : y.toInt = 0 ↔ y = 0 := BitVec.toInt_inj (y := 0)
  have hm : y.toInt = -1 ↔ y = -1 := BitVec.toInt_inj (y := -1)
  have hleast : leastOf 32 = (BitVec.intMin 32).toInt := by decide
  have hx : x.toInt = leastOf 32 ↔ x = BitVec.intMin 32 := by rw [hleast, BitVec.toInt_inj]
  unfold divide Semantics.divide
  simp only [encode, Value.number, Value.width, hy, hm, hx]
  by_cases h0 : y = 0
  · simp only [h0, if_true]
    rfl
  · by_cases ho : x = BitVec.intMin 32 ∧ y = -1
    · simp only [ho.1, ho.2, and_self, if_true]
      rfl
    · have ho' : ¬(y = -1 ∧ x = BitVec.intMin 32) := fun h ↦ ho ⟨h.2, h.1⟩
      simp only [h0, ho, ho', if_false]
      exact agrees_int rfl (BitVec.toInt_sdiv x y)

/-- An instruction that computes the value `got` and does nothing else. -/
def Computes (image : Image) (memory : Memory) (frame : Frame) (got : Except Fault Value)
    (i : Instr) : Prop :=
  effect image memory frame i = got.map .value ∧
    ∀ st : State, st.execute image i =
      match effect image st.memory st.frame i with
      | .ok e => .running (st.perform i e)
      | .error fault => st.failAt i fault

variable {memory : Memory} {frame : Frame} {ox oy : Operand} {a b : Value}

theorem computes_bin {dst : Register} {op : BinOp} (hx : frame.operand image ox = .ok a)
    (hy : frame.operand image oy = .ok b) :
    Computes image memory frame (binary op a b) (.bin dst op ox oy) := by
  refine ⟨?_, fun st ↦ rfl⟩
  simp only [effect, hx, hy, bind, Except.bind]
  cases binary op a b <;> rfl

theorem computes_icmp {dst : Register} {pred : IntPred} (hx : frame.operand image ox = .ok a)
    (hy : frame.operand image oy = .ok b) :
    Computes image memory frame ((compareInts pred a b).map .ofBool) (.icmp dst pred ox oy) := by
  refine ⟨?_, fun st ↦ rfl⟩
  simp only [effect, hx, hy, bind, Except.bind]
  cases compareInts pred a b <;> rfl

theorem computes_fcmp {dst : Register} {pred : FloatPred} (hx : frame.operand image ox = .ok a)
    (hy : frame.operand image oy = .ok b) :
    Computes image memory frame ((compareFloats pred a.pattern b.pattern).map .ofBool)
      (.fcmp dst pred ox oy) := by
  refine ⟨?_, fun st ↦ rfl⟩
  simp only [effect, hx, hy, bind, Except.bind]
  cases compareFloats pred a.pattern b.pattern <;> rfl

theorem compareInts_agrees {op : BinaryOp} {pred : IntPred} {fpred : FloatPred}
    (h : comparison? op = some (pred, fpred)) (x y : BitVec 32) :
    Agrees image .bool ((compareInts pred (encode (.int x)) (encode (.int y))).map .ofBool)
      (Semantics.binary op (.int x) (.int y)) := by
  cases op <;> simp only [comparison?, Option.some.injEq, Prod.mk.injEq, reduceCtorEq] at h <;>
    obtain ⟨rfl, rfl⟩ := h <;> refine ⟨?_, rfl⟩ <;>
    simp [compareInts, Except.map, encode, Value.number, BitVec.toInt_inj, BitVec.slt_eq_decide,
      BitVec.sle_eq_decide]
  all_goals rfl

theorem compareBools_agrees {op : BinaryOp} {pred : IntPred} {fpred : FloatPred}
    (h : comparison? op = some (pred, fpred)) (ht : .bool ∈ op.operandTypes) (x y : Bool) :
    Agrees image .bool ((compareInts pred (encode (.bool x)) (encode (.bool y))).map .ofBool)
      (Semantics.binary op (.bool x) (.bool y)) := by
  cases op <;> simp only [comparison?, Option.some.injEq, Prod.mk.injEq, reduceCtorEq] at h <;>
    obtain ⟨rfl, rfl⟩ := h <;>
    first
    | cases x <;> cases y <;> exact ⟨rfl, rfl⟩
    | exact absurd ht (by decide)

theorem compareFloats_agrees {op : BinaryOp} {pred : IntPred} {fpred : FloatPred}
    (h : comparison? op = some (pred, fpred)) (x y : UInt64) :
    Agrees image .bool ((compareFloats fpred x y).map .ofBool)
      (Semantics.binary op (.float x) (.float y)) := by
  cases op <;> simp only [comparison?, Option.some.injEq, Prod.mk.injEq, reduceCtorEq] at h <;>
    obtain ⟨rfl, rfl⟩ := h <;> exact ⟨rfl, rfl⟩

/-- The instruction at a site that defines the next register with the value `got`. -/
def Defines (image : Image) (memory : Memory) (frame : Frame) (s : Site) (r : Operand × Site)
    (got : Except Fault Value) : Prop :=
  ∃ type make, r = (.reg (s.next type), s.define type make) ∧
    (make (s.next type)).result? = some (s.next type) ∧
    Computes image memory frame got (make (s.next type))

theorem defines_bin {s : Site} {op : BinOp} (hx : frame.operand image ox = .ok a)
    (hy : frame.operand image oy = .ok b) :
    Defines image memory frame s
      (.reg (s.next ox.type), s.define ox.type (.bin · op ox oy)) (binary op a b) :=
  ⟨_, _, rfl, rfl, computes_bin hx hy⟩

def resultType (op : BinaryOp) (type : ValueType) : ValueType :=
  if op.isArithmetic then type else .bool

theorem lowerBinary_defines (memory : Memory) {op : BinaryOp} {type : ValueType} {s : Site}
    {r : Operand × Site}
    {x y : Semantics.Value} (h : lowerBinary op type ox oy s = .ok r)
    (ht : type ∈ op.operandTypes) (tx : x.type = type) (ty : y.type = type)
    (hx : frame.operand image ox = .ok (encode x)) (hy : frame.operand image oy = .ok (encode y)) :
    ∃ got, Defines image memory frame s r got ∧
      Agrees image (resultType op type) got (Semantics.binary op x y) := by
  have hs : type = .int ∨ type = .float ∨ type = .bool := by
    cases op <;> simp [BinaryOp.operandTypes, ValueType.scalars] at ht <;> tauto
  rcases hs with rfl | rfl | rfl
  · obtain ⟨m, rfl⟩ := exists_int tx
    obtain ⟨n, rfl⟩ := exists_int ty
    cases op <;> simp only [lowerBinary, comparison?, Lowering.Lower.define_ok] at h <;> subst h
    case divide => exact ⟨_, defines_bin hx hy, divide_agrees m n⟩
    case plus => exact ⟨_, defines_bin hx hy, agrees_int rfl (BitVec.toInt_add m n)⟩
    case minus => exact ⟨_, defines_bin hx hy, agrees_int rfl BitVec.toInt_sub⟩
    case times => exact ⟨_, defines_bin hx hy, agrees_int rfl (BitVec.toInt_mul m n)⟩
    case and => exact absurd ht (by decide)
    case or => exact absurd ht (by decide)
    all_goals
      exact ⟨_, ⟨_, _, rfl, rfl, computes_icmp hx hy⟩, compareInts_agrees rfl m n⟩
  · obtain ⟨m, rfl⟩ := exists_float tx
    obtain ⟨n, rfl⟩ := exists_float ty
    cases op <;> simp only [lowerBinary, comparison?, Lowering.Lower.define_ok] at h <;> subst h
    case and => exact absurd ht (by decide)
    case or => exact absurd ht (by decide)
    case divide | plus | minus | times => exact ⟨_, defines_bin hx hy, rfl, rfl⟩
    all_goals
      exact ⟨_, ⟨_, _, rfl, rfl, computes_fcmp hx hy⟩, compareFloats_agrees rfl m n⟩
  · obtain ⟨m, rfl⟩ := exists_bool tx
    obtain ⟨n, rfl⟩ := exists_bool ty
    cases op <;> simp only [BinaryOp.operandTypes, List.mem_cons, reduceCtorEq, List.not_mem_nil,
      or_self] at ht <;>
      simp only [lowerBinary, comparison?, Lowering.Lower.define_ok] at h <;> subst h
    case and | or =>
      refine ⟨_, defines_bin hx hy, ?_⟩
      cases m <;> cases n <;> exact ⟨rfl, rfl⟩
    all_goals
      exact ⟨_, ⟨_, _, rfl, rfl, computes_icmp hx hy⟩, compareBools_agrees rfl (by decide) m n⟩

theorem lowerUnary_defines (memory : Memory) {op : UnaryOp} {type : ValueType} {s : Site}
    {r : Operand × Site}
    {x : Semantics.Value} (h : lowerUnary op type ox s = .ok r)
    (ht : type ∈ op.operandTypes) (tx : x.type = type)
    (hx : frame.operand image ox = .ok (encode x)) :
    (r = (ox, s) ∧ Semantics.unary op x = .ok x) ∨
      ∃ got, Defines image memory frame s r got ∧
        Agrees image type got (Semantics.unary op x) := by
  cases op with
  | identity =>
    simp only [lowerUnary, Lowering.Lower.pure_ok] at h
    exact .inl ⟨h, by cases x <;> rfl⟩
  | not =>
    simp only [lowerUnary, Lowering.Lower.define_ok] at h
    simp only [UnaryOp.operandTypes, List.mem_singleton] at ht
    subst ht h
    obtain ⟨b, rfl⟩ := exists_bool tx
    refine .inr ⟨_, defines_bin hx (b := encode (.bool true)) rfl, ?_⟩
    cases b <;> exact ⟨rfl, rfl⟩
  | negate =>
    simp only [UnaryOp.operandTypes, List.mem_cons, List.not_mem_nil, or_false] at ht
    rcases ht with rfl | rfl <;> simp only [lowerUnary, Lowering.Lower.define_ok] at h <;> subst h
    · obtain ⟨n, rfl⟩ := exists_int tx
      refine .inr ⟨_, defines_bin (a := encode (.int 0)) rfl hx, agrees_int rfl ?_⟩
      rw [BitVec.toInt_neg]
      simp [encode, Value.number]
    · obtain ⟨n, rfl⟩ := exists_float tx
      exact .inr ⟨_, defines_bin (a := encode (.float (Binary.toSingle 0))) rfl hx, rfl, rfl⟩

end PZero.Refinement
