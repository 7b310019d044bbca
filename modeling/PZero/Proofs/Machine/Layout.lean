import Mathlib.Data.List.Forall2
import Mathlib.Data.Set.Function
import PZero.Proofs.Machine.Integers

namespace PZero.IR.Ty

mutual

def scalars : Ty → Nat
  | .array size elem => size.toNat * elem.scalars
  | .struct _ elems => allScalars elems
  | _ => 1

def allScalars : List Ty → Nat
  | [] => 0
  | t :: ts => t.scalars + allScalars ts

end

mutual

/-- Whether no array among the parts of the type has a negative size. -/
def isSized : Ty → Bool
  | .array size elem => 0 ≤ size && elem.isSized
  | .struct _ elems => allSized elems
  | _ => true

def allSized : List Ty → Bool
  | [] => true
  | t :: ts => t.isSized && allSized ts

end

def isScalar : Ty → Bool
  | .array _ _ | .struct _ _ => false
  | _ => true

/-- Indices lead from a type to one of its parts, each in the range of what it selects from. -/
inductive Leads : Ty → List Nat → Ty → Prop
  | here {t : Ty} : Leads t [] t
  | item {size : Int} {elem u : Ty} {i : Nat} {path : List Nat} (hi : i < size)
      (h : Leads elem path u) : Leads (.array size elem) (i :: path) u
  | field {packed : Bool} {elems : List Ty} {t u : Ty} {i : Nat} {path : List Nat}
      (hi : elems[i]? = some t) (h : Leads t path u) : Leads (.struct packed elems) (i :: path) u

/-- Where the part that indices lead to starts in the row of scalars. -/
def offset : List Nat → Ty → Nat
  | [], _ => 0
  | i :: path, .array _ elem => i * elem.scalars + offset path elem
  | i :: path, .struct _ elems =>
    allScalars (elems.take i) + match elems[i]? with
      | some t => offset path t
      | none => 0
  | _ :: _, _ => 0

variable {t u v : Ty} {path path' : List Nat}

theorem offset_field {packed : Bool} {elems : List Ty} {i : Nat} (hi : elems[i]? = some t) :
    offset (i :: path) (.struct packed elems) = allScalars (elems.take i) + offset path t := by
  simp only [offset, hi]

theorem scalars_of_isScalar (h : t.isScalar = true) : t.scalars = 1 := by
  cases t with
  | array size elem => cases h
  | struct packed elems => cases h
  | _ => simp only [scalars]

theorem Leads.nil_of_isScalar (h : Leads t path u) (ht : t.isScalar = true) : path = [] := by
  cases h with
  | here => rfl
  | item => cases ht
  | field => cases ht

theorem allSized_iff {ts : List Ty} : allSized ts = true ↔ ∀ t ∈ ts, t.isSized = true := by
  induction ts with
  | nil => simp [allSized]
  | cons t ts ih => simp [allSized, ih]

theorem Leads.walk? (h : Leads t path u) :
    t.walk? (path.map fun i ↦ some (Int.ofNat i)) = some u := by
  induction h with
  | here => rfl
  | item _ _ ih => exact ih
  | field hi _ ih =>
    rw [List.map_cons, Ty.walk?, Ty.select?, hi]
    exact ih

end PZero.IR.Ty

namespace PZero.Machine

open IR

section Rows

variable {t u v : Ty} {path path' : List Nat}

mutual

theorem length_layout : ∀ t : Ty, (layout t).length = t.scalars
  | .array size elem => by
    rw [layout, Ty.scalars, List.length_flatten, List.map_replicate, List.sum_replicate_nat,
      length_layout elem]
  | .struct packed elems => by rw [layout, Ty.scalars, length_layoutAll elems]
  | .void | .int _ | .float _ | .ptr _ | .func _ _ _ | .missing => by
    simp only [layout, Ty.scalars, List.length_singleton]

theorem length_layoutAll : ∀ ts : List Ty, (layoutAll ts).length = Ty.allScalars ts
  | [] => rfl
  | t :: ts => by
    rw [layoutAll, Ty.allScalars, List.length_append, length_layout t, length_layoutAll ts]

end

theorem layout_of_isScalar (h : t.isScalar = true) : layout t = [Value.zero t] := by
  cases t with
  | array size elem => cases h
  | struct packed elems => cases h
  | _ => simp only [layout]

theorem layoutAll_field {ts : List Ty} {i : Nat} (hi : ts[i]? = some t) :
    layoutAll ts = layoutAll (ts.take i) ++ (layout t ++ layoutAll (ts.drop (i + 1))) := by
  induction ts generalizing i with
  | nil => cases hi
  | cons s ts ih =>
    cases i with
    | zero =>
      cases hi
      rfl
    | succ i =>
      rw [layoutAll, List.take_succ_cons, List.drop_succ_cons, layoutAll, List.append_assoc]
      rw [← ih hi]

theorem layout_item {size : Int} {elem : Ty} {i : Nat} (hi : i < size) :
    layout (.array size elem) = (List.replicate i (layout elem)).flatten ++
      (layout elem ++ (List.replicate (size.toNat - (i + 1)) (layout elem)).flatten) := by
  have hn : size.toNat = i + (1 + (size.toNat - (i + 1))) := by omega
  rw [layout]
  conv_lhs => rw [hn]
  rw [List.replicate_add, List.replicate_add, List.flatten_append, List.flatten_append,
    List.replicate_one, List.flatten_singleton]

theorem layout_part (h : t.Leads path u) :
    ∃ before after, layout t = before ++ (layout u ++ after) ∧
      before.length = t.offset path := by
  induction h with
  | here => exact ⟨[], [], by rw [List.append_nil, List.nil_append], rfl⟩
  | @item size elem u i path hi _ ih =>
    obtain ⟨before, after, he, hl⟩ := ih
    refine ⟨(List.replicate i (layout elem)).flatten ++ before,
      after ++ (List.replicate (size.toNat - (i + 1)) (layout elem)).flatten, ?_, ?_⟩
    · rw [layout_item hi]
      generalize (List.replicate i (layout elem)).flatten = front
      generalize (List.replicate (size.toNat - (i + 1)) (layout elem)).flatten = back
      rw [he]
      simp only [List.append_assoc]
    · rw [List.length_append, List.length_flatten, List.map_replicate, List.sum_replicate_nat,
        length_layout, hl, Ty.offset]
  | @field packed elems t u i path hi _ ih =>
    obtain ⟨before, after, he, hl⟩ := ih
    refine ⟨layoutAll (elems.take i) ++ before, after ++ layoutAll (elems.drop (i + 1)), ?_, ?_⟩
    · rw [layout, layoutAll_field hi, he]
      simp only [List.append_assoc]
    · rw [List.length_append, length_layoutAll, hl, Ty.offset_field hi]

theorem offset_add_scalars_le (h : t.Leads path u) : t.offset path + u.scalars ≤ t.scalars := by
  obtain ⟨before, after, he, hl⟩ := layout_part h
  have hlen := congrArg List.length he
  rw [List.length_append, List.length_append, length_layout, length_layout, hl] at hlen
  omega

theorem layout_getElem? (h : t.Leads path u) (hu : u.isScalar = true) :
    (layout t)[t.offset path]? = some (Value.zero u) := by
  obtain ⟨before, after, he, hl⟩ := layout_part h
  rw [he, layout_of_isScalar hu, ← hl, List.getElem?_append_right (Nat.le_refl _), Nat.sub_self]
  rfl

theorem eq_of_row {n i j k l : Nat} (hk : k < n) (hl : l < n) (h : i * n + k = j * n + l) :
    i = j ∧ k = l := by
  have hrow : ∀ {i k}, k < n → (i * n + k) / n = i ∧ (i * n + k) % n = k := fun hk ↦
    (Nat.div_mod_unique (Nat.zero_lt_of_lt hk)).2 ⟨by rw [Nat.add_comm, Nat.mul_comm n], hk⟩
  obtain ⟨hi, hk⟩ := hrow hk (i := i)
  rw [h] at hi hk
  exact ⟨hi.symm.trans (hrow hl).1, hk.symm.trans (hrow hl).2⟩

theorem allScalars_take_le {ts : List Ty} {i j : Nat} (hi : ts[i]? = some t) (hij : i < j) :
    Ty.allScalars (ts.take i) + t.scalars ≤ Ty.allScalars (ts.take j) := by
  induction ts generalizing i j with
  | nil => cases hi
  | cons s ts ih =>
    obtain ⟨j, rfl⟩ := Nat.exists_eq_succ_of_ne_zero (Nat.ne_zero_of_lt hij)
    rw [List.take_succ_cons, Ty.allScalars]
    cases i with
    | zero =>
      cases hi
      rw [List.take_zero, Ty.allScalars]
      omega
    | succ i =>
      have h := ih (i := i) hi (Nat.lt_of_succ_lt_succ hij)
      rw [List.take_succ_cons, Ty.allScalars]
      omega

theorem offset_lt (h : t.Leads path u) (hu : u.isScalar = true) : t.offset path < t.scalars := by
  have hle := offset_add_scalars_le h
  rw [Ty.scalars_of_isScalar hu] at hle
  exact hle

theorem offset_inj (h : t.Leads path u) (h' : t.Leads path' v) (hu : u.isScalar = true)
    (hv : v.isScalar = true) (he : t.offset path = t.offset path') : path = path' := by
  induction h generalizing path' with
  | here => exact (h'.nil_of_isScalar hu).symm
  | @item size elem u i path _ h ih =>
    cases h' with
    | here => cases hv
    | @item _ _ _ j path' _ h' =>
      rw [Ty.offset, Ty.offset] at he
      obtain ⟨rfl, hrest⟩ := eq_of_row (offset_lt h hu) (offset_lt h' hv) he
      rw [ih h' hu hrest]
  | @field packed elems s u i path hi h ih =>
    cases h' with
    | here => cases hv
    | @field _ _ s' _ j path' hj h' =>
      have hlt := offset_lt h hu
      have hlt' := offset_lt h' hv
      rw [Ty.offset_field hi, Ty.offset_field hj] at he
      rcases Nat.lt_trichotomy i j with hij | rfl | hij
      · have := allScalars_take_le hi hij
        omega
      · cases hi.symm.trans hj
        rw [ih h' hu (Nat.add_left_cancel he)]
      · have := allScalars_take_le hj hij
        omega

mutual

theorem exists_offset : ∀ (t : Ty) {k : Nat}, k < t.scalars →
    ∃ path u, t.Leads path u ∧ u.isScalar = true ∧ t.offset path = k
  | .array size elem, k, hk => by
    rw [Ty.scalars] at hk
    have hpos : 0 < elem.scalars := Nat.pos_of_mul_pos_left (Nat.zero_lt_of_lt hk)
    obtain ⟨path, u, h, hu, ho⟩ := exists_offset elem (Nat.mod_lt k hpos)
    have hi : k / elem.scalars < size.toNat := Nat.div_lt_of_lt_mul (by rwa [Nat.mul_comm])
    generalize hq : k / elem.scalars = i at hi
    refine ⟨i :: path, u, .item (by omega) h, hu, ?_⟩
    rw [Ty.offset, ho, ← hq, Nat.mul_comm, Nat.div_add_mod]
  | .struct packed elems, k, hk => by
    rw [Ty.scalars] at hk
    obtain ⟨i, t, path, u, hi, h, hu, ho⟩ := exists_field_offset elems hk
    exact ⟨i :: path, u, .field hi h, hu, by rw [Ty.offset_field hi, ho]⟩
  | .void, k, hk | .int _, k, hk | .float _, k, hk | .ptr _, k, hk | .func _ _ _, k, hk
  | .missing, k, hk => by
    obtain rfl : k = 0 := by
      simp only [Ty.scalars] at hk
      omega
    exact ⟨[], _, .here, rfl, rfl⟩

theorem exists_field_offset : ∀ (ts : List Ty) {k : Nat}, k < Ty.allScalars ts →
    ∃ i t path u, ts[i]? = some t ∧ t.Leads path u ∧ u.isScalar = true ∧
      Ty.allScalars (ts.take i) + t.offset path = k
  | [], k, hk => by
    rw [Ty.allScalars] at hk
    omega
  | t :: ts, k, hk => by
    rw [Ty.allScalars] at hk
    by_cases hlt : k < t.scalars
    · obtain ⟨path, u, h, hu, ho⟩ := exists_offset t hlt
      exact ⟨0, t, path, u, rfl, h, hu, by rw [ho]; exact Nat.zero_add k⟩
    · obtain ⟨i, s, path, u, hi, h, hu, ho⟩ :=
        exists_field_offset ts (k := k - t.scalars) (by omega)
      refine ⟨i + 1, s, path, u, hi, h, hu, ?_⟩
      rw [List.take_succ_cons, Ty.allScalars]
      omega

end

end Rows

section Words

variable {t u : Ty} {path : List Nat}

@[simp] theorem word_word_add (m n : Int) : word (word m + n) = word (m + n) := Int.bmod_add_bmod

@[simp] theorem word_add_word (m n : Int) : word (m + word n) = word (m + n) := Int.add_bmod_bmod

@[simp] theorem word_mul_word (m n : Int) : word (m * word n) = word (m * n) := Int.mul_bmod_bmod

theorem word_eq {n : Nat} (h : n < 2 ^ 63) : word n = n :=
  Int.bmod_eq_of_le (by omega) (by omega)

mutual

theorem sizeOf_eq_word : ∀ t : Ty, t.isSized = true → sizeOf t = word t.scalars
  | .array size elem, h => by
    rw [Ty.isSized, Bool.and_eq_true, decide_eq_true_eq] at h
    rw [sizeOf, sizeOf_eq_word elem h.2, word_mul_word, Ty.scalars, Int.natCast_mul,
      Int.toNat_of_nonneg h.1]
  | .struct packed elems, h => by
    rw [Ty.isSized] at h
    rw [sizeOf, sizeOfAll_eq_word elems h, Ty.scalars]
  | .void, _ | .int _, _ | .float _, _ | .ptr _, _ | .func _ _ _, _ | .missing, _ => by
    simp only [sizeOf, Ty.scalars]
    rfl

theorem sizeOfAll_eq_word : ∀ ts : List Ty, Ty.allSized ts = true →
    sizeOfAll ts = word (Ty.allScalars ts)
  | [], _ => rfl
  | t :: ts, h => by
    rw [Ty.allSized, Bool.and_eq_true] at h
    rw [sizeOfAll, sizeOf_eq_word t h.1, sizeOfAll_eq_word ts h.2, word_word_add,
      word_add_word, Ty.allScalars, Int.natCast_add]

end

theorem follow_eq (h : t.Leads path u) (ht : t.isSized = true) (base : Int) :
    follow (word base) (path.map Int.ofNat) t = .ok (word (base + t.offset path)) := by
  induction h generalizing base with
  | here =>
    rw [Ty.offset, Int.natCast_zero, Int.add_zero]
    rfl
  | @item size elem u i path hi h ih =>
    rw [Ty.isSized, Bool.and_eq_true] at ht
    have hstep : word (word base + i * sizeOf elem) = word (base + i * elem.scalars) := by
      rw [sizeOf_eq_word elem ht.2, word_word_add, ← word_add_word, word_mul_word, word_add_word]
    have hih := ih ht.2 (base + i * elem.scalars)
    rw [← hstep, Int.add_assoc, ← Int.natCast_mul, ← Int.natCast_add] at hih
    exact hih
  | @field packed elems t u i path hi h ih =>
    rw [Ty.isSized] at ht
    have hall := Ty.allSized_iff.1 ht
    have htake : Ty.allSized (elems.take i) = true :=
      Ty.allSized_iff.2 fun s hs ↦ hall s (List.mem_of_mem_take hs)
    have hstep : word (word base + sizeOfAll (elems.take i)) =
        word (base + Ty.allScalars (elems.take i)) := by
      rw [sizeOfAll_eq_word _ htake, word_word_add, word_add_word]
    have hih := ih (hall t (List.mem_of_getElem? hi)) (base + Ty.allScalars (elems.take i))
    rw [← hstep, Int.add_assoc, ← Int.natCast_add, ← Ty.offset_field hi] at hih
    simpa only [List.map_cons, follow, hi] using hih

theorem address_eq (h : t.Leads path u) (ht : t.isSized = true) (hn : t.scalars < 2 ^ 63)
    (block : Option Nat) : address (.ptr block 0) t ((0 :: path).map Int.ofNat) =
      .ok (.ptr block (t.offset path)) := by
  have hlt : t.offset path < 2 ^ 63 :=
    Nat.lt_of_le_of_lt (Nat.le_of_add_right_le (offset_add_scalars_le h)) hn
  have hf := follow_eq h ht 0
  rw [Int.zero_add, word_eq hlt] at hf
  have hstart : word (0 + Int.ofNat 0 * sizeOf t) = word 0 := congrArg word (by simp)
  simp only [List.map_cons, address, hstart, hf]
  rfl

end Words

section Indices

variable {image : Image} {frame : Frame} {c : Constant} {cs : List Constant} {i : Nat}
  {path : List Nat} {t u : Ty}

/-- A constant of 32 or 64 bits stands for an index that its width can hold. -/
inductive Spells : Constant → Nat → Prop
  | int {bits i : Nat} (hb : bits = 32 ∨ bits = 64) (hi : i < 2 ^ (bits - 1)) :
    Spells (.int bits i) i

theorem Spells.index? (h : Spells c i) : c.index? = some (Int.ofNat i) := by
  cases h
  rfl

theorem canonical_of_lt {w : Nat} (hw : 1 ≤ w) (hw' : w ≤ 64) (hi : i < 2 ^ (w - 1)) :
    canonical w i = i := by
  have hpow : 2 ^ w = 2 * 2 ^ (w - 1) := by rw [← Nat.pow_succ', Nat.succ_eq_add_one,
    Nat.sub_add_cancel hw]
  rw [canonical_natCast hw', hpow]
  exact Int.bmod_eq_of_le (by omega) (by omega)

theorem Spells.constant (h : Spells c i) (image : Image) :
    ∃ v, image.constant c = .ok v ∧ v.number = Int.ofNat i := by
  obtain ⟨hb, hi⟩ := h
  rename_i bits
  have hw : 1 ≤ bits ∧ bits ≤ 64 ∧ isWidth bits = true := by
    rcases hb with rfl | rfl <;> decide
  refine ⟨.ofInt bits i, ?_, canonical_of_lt hw.1 hw.2.1 hi⟩
  rw [Image.constant, integer, if_pos hw.2.2]

theorem map_index? (h : List.Forall₂ Spells cs path) :
    (cs.map Operand.const).map Operand.index? = path.map fun i ↦ some (Int.ofNat i) := by
  induction h with
  | nil => rfl
  | cons hc _ ih => rw [List.map_cons, List.map_cons, List.map_cons, ih, Operand.index?, hc.index?]

theorem indices_eq (h : List.Forall₂ Spells cs path) :
    image.indices cs = .ok (path.map Int.ofNat) := by
  induction h with
  | nil => rfl
  | cons hc _ ih =>
    obtain ⟨v, hv, hn⟩ := hc.constant image
    simp only [Image.indices, hv, ih, List.map_cons, ← hn]
    rfl

theorem operands_eq (image : Image) (frame : Frame) (h : List.Forall₂ Spells cs path) :
    ∃ vs, frame.operands image (cs.map .const) = .ok vs ∧
      vs.map Value.number = path.map Int.ofNat := by
  induction h with
  | nil => exact ⟨[], rfl, rfl⟩
  | cons hc _ ih =>
    obtain ⟨v, hv, hn⟩ := hc.constant image
    obtain ⟨vs, hvs, hns⟩ := ih
    refine ⟨v :: vs, ?_, by rw [List.map_cons, List.map_cons, hn, hns]⟩
    simp only [List.map_cons, Frame.operands, Frame.operand, hv, hvs]
    rfl

end Indices

section Agreement

variable {t u : Ty} {path : List Nat} {cs : List Constant}

theorem fresh_eq (h : ∀ v ∈ layout t, isWidth v.width = true) (name : Bytes) (isConst : Bool) :
    Block.fresh name isConst t = .ok ⟨name, isConst, (layout t).toArray⟩ := by
  have hf : (layout t).find? (fun v ↦ !isWidth v.width) = none := by
    rw [List.find?_eq_none]
    intro v hv
    simp [h v hv]
  simp only [Block.fresh, hf]

theorem fresh_cells {name : Bytes} {isConst : Bool} {block : Block}
    (h : Block.fresh name isConst t = .ok block) : block.cells = (layout t).toArray := by
  unfold Block.fresh at h
  simp only at h
  split at h <;> cases h
  rfl

theorem load_fresh (h : t.Leads path u) (hu : u.isScalar = true) {name : Bytes} {isConst : Bool}
    {block : Block} (hf : Block.fresh name isConst t = .ok block) {memory : Memory} {b : Nat}
    (hb : memory[b]? = some block) :
    memory.load (.ptr (some b) (t.offset path)) = .ok (Value.zero u) := by
  have hcells := fresh_cells hf
  have hlt : t.offset path < block.cells.size := by
    rw [hcells, List.size_toArray, length_layout]
    exact offset_lt h hu
  have hget : block.cells[t.offset path]? = some (Value.zero u) := by
    rw [hcells, List.getElem?_toArray]
    exact layout_getElem? h hu
  have hin : (0 : Int) ≤ t.offset path ∧ (t.offset path : Int) < block.cells.size := by omega
  simp only [Memory.load, Memory.locate, hb, if_pos hin, Int.toNat_natCast, bind, Except.bind, pure,
    Except.pure, Array.getD_eq_getD_getElem?, hget, Option.getD_some]

/-- The row of scalars of a type, its size and the addresses of its parts fit together. An address
is computed by an instruction or in a constant. -/
structure FitsTogether (t : Ty) : Prop where
  size : ((layout t).length : Int) = sizeOf t
  fresh : ∀ name isConst, (∀ v ∈ layout t, isWidth v.width = true) →
    Block.fresh name isConst t = .ok ⟨name, isConst, (layout t).toArray⟩
  gep : ∀ path u cs, t.Leads path u → List.Forall₂ Spells cs (0 :: path) →
    ∀ image memory frame block addr, Frame.operand image frame addr = .ok (.ptr block 0) →
      ∀ dst inBounds, effect image memory frame (.gep dst inBounds t addr (cs.map .const)) =
        .ok (.value (.ptr block (t.offset path)))
  gepConstant : ∀ path u cs, t.Leads path u → List.Forall₂ Spells cs (0 :: path) →
    ∀ image block addr, Image.constant image addr = .ok (.ptr block 0) →
      ∀ inBounds, image.constant (.gep inBounds t addr cs) = .ok (.ptr block (t.offset path))
  type : ∀ path u cs, t.Leads path u → List.Forall₂ Spells cs (0 :: path) →
    (t.addressed ((cs.map Operand.const).map Operand.index?)).pointee? = some u
  places : Set.BijOn (fun path ↦ t.offset path) {path | ∃ u, t.Leads path u ∧ u.isScalar = true}
    {k | (k : Int) < sizeOf t}
  zero : ∀ path u, t.Leads path u → u.isScalar = true →
    (layout t)[t.offset path]? = some (Value.zero u) ∧
      ∀ name isConst block, Block.fresh name isConst t = .ok block →
        ∀ (memory : Memory) (b : Nat), memory[b]? = some block →
          memory.load (.ptr (some b) (t.offset path)) = .ok (Value.zero u)

/-- Layout and addresses fit together for each type whose scalars can be counted by a word. -/
theorem layout_fits_addresses {t : Ty} (ht : t.isSized = true) (hn : t.scalars < 2 ^ 63) :
    FitsTogether t := by
  have hsize : sizeOf t = t.scalars := by rw [sizeOf_eq_word t ht, word_eq hn]
  constructor
  case size => rw [length_layout, hsize]
  case fresh => exact fun name isConst h ↦ fresh_eq h name isConst
  case gep =>
    intro path u cs h hc image memory frame block addr ha dst inBounds
    obtain ⟨vs, hvs, hnum⟩ := operands_eq image frame hc
    simp only [effect, ha, hvs, hnum, bind, Except.bind, address_eq h ht hn]
    rfl
  case gepConstant =>
    intro path u cs h hc image block addr ha inBounds
    simp only [Image.constant, ha, indices_eq hc, bind, Except.bind, address_eq h ht hn]
  case type =>
    intro path u cs h hc
    rw [map_index? hc, Ty.addressed, List.map_cons, List.drop_succ_cons, List.drop_zero, h.walk?]
    rfl
  case places =>
    rw [hsize]
    refine ⟨?_, ?_, ?_⟩
    · rintro path ⟨u, h, hu⟩
      exact Int.ofNat_lt.2 (offset_lt h hu)
    · rintro path ⟨u, h, hu⟩ path' ⟨v, h', hv⟩ he
      exact offset_inj h h' hu hv he
    · intro k hk
      obtain ⟨path, u, h, hu, ho⟩ := exists_offset t (Int.ofNat_lt.1 hk)
      exact ⟨path, ⟨u, h, hu⟩, ho⟩
  case zero =>
    exact fun path u h hu ↦ ⟨layout_getElem? h hu, fun _ _ _ hf _ _ hb ↦ load_fresh h hu hf hb⟩

/-- A structure with an array of packed structures, an empty structure and a pointer. -/
def nest : Ty :=
  .struct false [.int 8, .array 2 (.struct true [.int 32, .array 3 (.float .single)]),
    .struct false [], .ptr .void]

theorem nest_fits_addresses : nest.isSized = true ∧ nest.scalars < 2 ^ 63 ∧
    sizeOf nest = 10 ∧ (layout nest).length = 10 ∧
    (layout nest)[8]? = some (.float 0) ∧
    (nest.addressed [some 0, some 1, some 1, some 1, some 2]).pointee? = some (.float .single) ∧
    ∀ image block addr, Image.constant image addr = .ok (.ptr block 0) → ∀ inBounds,
      image.constant (.gep inBounds nest addr
        [.int 32 0, .int 32 1, .int 64 1, .int 32 1, .int 64 2]) = .ok (.ptr block 8) := by
  have hsized : nest.isSized = true := by decide
  have hcount : nest.scalars < 2 ^ 63 := by decide
  have hfits := layout_fits_addresses hsized hcount
  have hleads : nest.Leads [1, 1, 1, 2] (.float .single) :=
    .field rfl (.item (by decide) (.field rfl (.item (by decide) .here)))
  have hspells : List.Forall₂ Spells [.int 32 0, .int 32 1, .int 64 1, .int 32 1, .int 64 2]
      (0 :: [1, 1, 1, 2]) :=
    .cons (@Spells.int 32 0 (.inl rfl) (by decide)) <|
      .cons (@Spells.int 32 1 (.inl rfl) (by decide)) <|
      .cons (@Spells.int 64 1 (.inr rfl) (by decide)) <|
      .cons (@Spells.int 32 1 (.inl rfl) (by decide)) <|
      .cons (@Spells.int 64 2 (.inr rfl) (by decide)) .nil
  have hsize : sizeOf nest = 10 := by decide
  exact ⟨hsized, hcount, hsize, Int.ofNat.inj (hfits.size.trans hsize),
    (hfits.zero _ _ hleads rfl).1, hfits.type _ _ _ hleads hspells,
    hfits.gepConstant _ _ _ hleads hspells⟩

end Agreement

end PZero.Machine
