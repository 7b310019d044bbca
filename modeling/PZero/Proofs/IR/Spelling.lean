import PZero.IR.Instr
import PZero.Proofs.Symbol.Spelling

namespace PZero.IR

open Bytes

variable {mark : UInt8}

theorem guarded_commas (hm : guarded mark false (ascii ", ") = true) {items : List Bytes}
    (h : ∀ item ∈ items, guarded mark false item = true) :
    guarded mark false (commas items) = true := by
  induction items with
  | nil => rfl
  | cons item items ih =>
    obtain ⟨hitem, hrest⟩ := List.forall_mem_cons.1 h
    cases items with
    | nil => simpa [commas] using hitem
    | cons next items =>
      rw [commas, List.intercalate_cons_cons, List.append_assoc, guarded_append hitem,
        guarded_append hm]
      exact ih hrest

/-- The marks at which messages are cut: the colon behind an instruction and the sign before the
function that it calls. -/
def IsCut (mark : UInt8) : Prop := mark = 58 ∨ mark = 64

theorem IsCut.guarded_ofInt (hm : IsCut mark) (n : Int) : guarded mark false (ofInt n) = true := by
  rcases hm with rfl | rfl <;> exact Bytes.guarded_ofInt (by decide) (by decide) n

theorem IsCut.guarded_spell (hm : IsCut mark) (name : Bytes) :
    guarded mark false (Symbol.spell name) = true := by
  rcases hm with rfl | rfl <;> exact Symbol.guarded_spell (by decide) (by decide) name

theorem IsCut.guarded_ascii (hm : IsCut mark) {text : String}
    (h : guarded 58 false (ascii text) = true ∧ guarded 64 false (ascii text) = true) :
    guarded mark false (ascii text) = true := by
  rcases hm with rfl | rfl
  · exact h.1
  · exact h.2

mutual

theorem guarded_type (hm : IsCut mark) : ∀ t : Ty, guarded mark false t.text = true
  | .void => hm.guarded_ascii (by decide)
  | .int bits => by
    rw [Ty.text, guarded_append (hm.guarded_ascii (by decide))]
    exact hm.guarded_ofInt bits
  | .float kind => by
    cases kind <;> exact hm.guarded_ascii (by decide)
  | .ptr elem => by
    rw [Ty.text, guarded_append (guarded_type hm elem)]
    exact hm.guarded_ascii (by decide)
  | .array size elem => by
    rw [Ty.text, List.append_assoc, List.append_assoc, List.append_assoc,
      guarded_append (hm.guarded_ascii (by decide)), guarded_append (hm.guarded_ofInt size),
      guarded_append (hm.guarded_ascii (by decide)), guarded_append (guarded_type hm elem)]
    exact hm.guarded_ascii (by decide)
  | .struct packed elems => by
    have hbody : guarded mark false
        (ascii "\x7b " ++ commas (Ty.texts elems) ++ ascii " \x7d") = true := by
      rw [List.append_assoc, guarded_append (hm.guarded_ascii (by decide)),
        guarded_append (guarded_commas (hm.guarded_ascii (by decide)) (guarded_types hm elems))]
      exact hm.guarded_ascii (by decide)
    rw [Ty.text]
    split
    · rw [List.append_assoc, guarded_append (hm.guarded_ascii (by decide)), guarded_append hbody]
      exact hm.guarded_ascii (by decide)
    · exact hbody
  | .func result args varArg => by
    have hargs : ∀ item ∈ Ty.texts args ++ (if varArg then [ascii "..."] else []),
        guarded mark false item = true := by
      intro item hitem
      rcases List.mem_append.1 hitem with hitem | hitem
      · exact guarded_types hm args item hitem
      · split at hitem
        · rw [List.mem_singleton.1 hitem]
          exact hm.guarded_ascii (by decide)
        · cases hitem
    rw [Ty.text, List.append_assoc, List.append_assoc, guarded_append (guarded_type hm result),
      guarded_append (hm.guarded_ascii (by decide)),
      guarded_append (guarded_commas (hm.guarded_ascii (by decide)) hargs)]
    exact hm.guarded_ascii (by decide)
  | .missing => rfl

theorem guarded_types (hm : IsCut mark) :
    ∀ ts : List Ty, ∀ item ∈ Ty.texts ts, guarded mark false item = true
  | [], item, h => by
    rw [Ty.texts] at h
    cases h
  | t :: ts, item, h => by
    rw [Ty.texts] at h
    rcases List.mem_cons.1 h with rfl | h
    · exact guarded_type hm t
    · exact guarded_types hm ts item h

end

theorem colon_isCut : IsCut 58 := .inl rfl

theorem guarded_withType (type : Ty) {spelling : Bytes} (h : guarded 58 false spelling = true) :
    guarded 58 false (Constant.withType type spelling) = true := by
  rw [Constant.withType, List.append_assoc, guarded_append (guarded_type colon_isCut type),
    guarded_append (by decide)]
  exact h

theorem hex_ne {mark : UInt8} (hm : ∀ n < 16, upperDigit n ≠ mark) (width n : Nat) :
    mark ∉ upperHexWidth width n := by
  induction width generalizing n with
  | zero => exact List.not_mem_nil
  | succ width ih =>
    intro h
    rcases List.mem_append.1 h with h | h
    · exact ih _ h
    · exact hm _ (Nat.mod_lt _ (by decide)) (List.mem_singleton.1 h).symm

mutual

theorem guarded_constant : ∀ c : Constant, guarded 58 false c.bare = true
  | .int bits value => by
    rw [Constant.bare, Constant.intText]
    split
    · split <;> decide
    · exact colon_isCut.guarded_ofInt value
  | .float kind bits => by
    rw [Constant.bare, Constant.floatText, guarded_append (by decide)]
    apply guarded_of_forall
    intro b hb
    constructor
    · rintro rfl
      exact hex_ne (by decide +kernel) _ _ hb
    · rintro rfl
      exact hex_ne (by decide +kernel) _ _ hb
  | .global name _ => by
    rw [Constant.bare, Symbol.atModule, guarded_append (by decide)]
    exact colon_isCut.guarded_spell name
  | .array elem values => by
    rw [Constant.bare]
    split
    · rename_i text _
      exact guarded_quoted (Symbol.quote_not_mem_escape text)
    · rw [List.append_assoc, guarded_append (by decide),
        guarded_append (guarded_commas (by decide) (guarded_constants values))]
      decide
  | .gep inBounds elem addr indices => by
    have hitems : ∀ item ∈ elem.text :: Constant.withType addr.type addr.bare ::
        Constant.texts indices, guarded 58 false item = true :=
      List.forall_mem_cons.2 ⟨guarded_type colon_isCut elem, List.forall_mem_cons.2
        ⟨guarded_withType _ (guarded_constant addr), guarded_constants indices⟩⟩
    have hbounds : guarded 58 false (if inBounds then ascii "inbounds " else []) = true := by
      cases inBounds <;> decide
    rw [Constant.bare, List.append_assoc, List.append_assoc, List.append_assoc,
      guarded_append (by decide), guarded_append hbounds, guarded_append (by decide),
      guarded_append (guarded_commas (by decide) hitems)]
    decide
  | .zext value target => by
    rw [Constant.bare, List.append_assoc, List.append_assoc, List.append_assoc,
      guarded_append (by decide), guarded_append (guarded_withType _ (guarded_constant value)),
      guarded_append (by decide), guarded_append (guarded_type colon_isCut target)]
    decide

theorem guarded_constants :
    ∀ cs : List Constant, ∀ item ∈ Constant.texts cs, guarded 58 false item = true
  | [], item, h => by
    rw [Constant.texts] at h
    cases h
  | c :: cs, item, h => by
    rw [Constant.texts] at h
    rcases List.mem_cons.1 h with rfl | h
    · exact guarded_withType _ (guarded_constant c)
    · exact guarded_constants cs item h

end

theorem guarded_register (hm : IsCut mark) (r : Register) : guarded mark false r.bare = true := by
  rw [Register.bare, Symbol.inFunction, guarded_append (hm.guarded_ascii (by decide))]
  exact hm.guarded_spell r.name

theorem guarded_bare (x : Operand) : guarded 58 false x.bare = true := by
  cases x with
  | reg r => exact guarded_register colon_isCut r
  | const c => exact guarded_constant c

theorem guarded_operand (x : Operand) : guarded 58 false x.text = true :=
  guarded_withType _ (guarded_bare x)

theorem guarded_args (xs : List Operand) : guarded 58 false (Instr.args xs) = true := by
  have hitems : ∀ item ∈ xs.map Operand.text, guarded 58 false item = true := by
    intro item hitem
    obtain ⟨x, -, rfl⟩ := List.mem_map.1 hitem
    exact guarded_operand x
  rw [Instr.args, List.append_assoc, guarded_append (by decide),
    guarded_append (guarded_commas (by decide) hitems)]
  decide

theorem guarded_defining (hm : IsCut mark) (dst : Register) {what : Bytes}
    (h : guarded mark false what = true) : guarded mark false (Instr.defining dst what) = true := by
  rw [Instr.defining, List.append_assoc, guarded_append (guarded_register hm dst),
    guarded_append (hm.guarded_ascii (by decide))]
  exact h

namespace Instr

def callee? : Instr → Option Bytes
  | .call _ _ callee _ | .callVoid callee _ => some callee
  | _ => none

theorem text_of_callee {i : Instr} {callee : Bytes} (h : i.callee? = some callee) :
    ∃ front back, i.text = front ++ 64 :: (Symbol.spell callee ++ 40 :: back) ∧
      guarded 64 false front = true ∧ guarded 58 false i.text = true := by
  have hat : IsCut 64 := .inr rfl
  cases i with
  | call dst result callee' xs =>
    obtain rfl := Option.some.inj h
    refine ⟨defining dst (ascii "call ccc " ++ result.text ++ ascii " "),
      commas (xs.map Operand.text) ++ ascii ")", ?_, ?_, ?_⟩
    · simp [text, defining, args, Symbol.atModule, ascii]
    · apply guarded_defining hat
      rw [List.append_assoc, guarded_append (by decide), guarded_append (guarded_type hat result)]
      decide
    · apply guarded_defining colon_isCut
      rw [List.append_assoc, List.append_assoc, List.append_assoc, guarded_append (by decide),
        guarded_append (guarded_type colon_isCut result), guarded_append (by decide),
        Symbol.atModule, List.append_assoc, guarded_append (by decide),
        guarded_append (colon_isCut.guarded_spell _)]
      exact guarded_args xs
  | callVoid callee' xs =>
    obtain rfl := Option.some.inj h
    refine ⟨ascii "call ccc void ", commas (xs.map Operand.text) ++ ascii ")", ?_, by decide, ?_⟩
    · simp [text, args, Symbol.atModule, ascii]
    · rw [text, List.append_assoc, guarded_append (by decide), Symbol.atModule, List.append_assoc,
        guarded_append (by decide), guarded_append (colon_isCut.guarded_spell _)]
      exact guarded_args xs
  | _ => cases h

theorem callee_of_text {i i' : Instr} {callee callee' : Bytes} (h : i.callee? = some callee)
    (h' : i'.callee? = some callee') (ht : i.text = i'.text) : callee = callee' := by
  obtain ⟨front, back, hi, hf, -⟩ := text_of_callee h
  obtain ⟨front', back', hi', hf', -⟩ := text_of_callee h'
  rw [hi, hi'] at ht
  obtain ⟨-, hrest⟩ := eq_of_append_mark hf hf' ht
  have hparen : ∀ name, guarded 40 false (Symbol.spell name) = true :=
    Symbol.guarded_spell (by decide) (by decide)
  exact Symbol.spell_inj (eq_of_append_mark (hparen _) (hparen _) hrest).1

end Instr

end PZero.IR
