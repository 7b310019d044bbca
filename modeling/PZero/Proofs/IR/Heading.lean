import PZero.Proofs.IR.Contents
import PZero.Proofs.IR.Spelling
import PZero.Library

namespace PZero.IR

/-- Whether no single quote ends a line or the text. -/
def isCalm : Bytes → Bool
  | [] => true
  | b :: rest => (b ≠ 39 || rest.head?.any (· ≠ 10)) && isCalm rest

def Calm (text : Bytes) : Prop := isCalm text = true

instance (text : Bytes) : Decidable (Calm text) := inferInstanceAs (Decidable (isCalm text = true))

namespace Calm

theorem cons {b : UInt8} {rest : Bytes} :
    Calm (b :: rest) ↔ (b = 39 → ∃ c, rest.head? = some c ∧ c ≠ 10) ∧ Calm rest := by
  rw [Calm, isCalm, Bool.and_eq_true, ← Calm]
  refine and_congr_left fun _ ↦ ?_
  cases rest <;> simp [or_iff_not_imp_left]

theorem append {front back : Bytes} (hf : Calm front) (hb : Calm back) : Calm (front ++ back) := by
  induction front with
  | nil => exact hb
  | cons b front ih =>
    obtain ⟨hquote, hrest⟩ := cons.1 hf
    refine cons.2 ⟨fun h ↦ ?_, ih hrest⟩
    obtain ⟨c, hc, hne⟩ := hquote h
    exact ⟨c, List.head?_append.trans (by rw [hc]; rfl), hne⟩

theorem of_not_mem {text : Bytes} (h : 39 ∉ text) : Calm text := by
  induction text with
  | nil => rfl
  | cons b text ih =>
    obtain ⟨hb, hrest⟩ := not_or.1 fun hm ↦ h (List.mem_cons.2 hm)
    exact cons.2 ⟨fun he ↦ absurd he.symm hb, ih hrest⟩

theorem flatMap {α : Type} {text : α → Bytes} {xs : List α} (h : ∀ x ∈ xs, Calm (text x)) :
    Calm (xs.flatMap text) := by
  induction xs with
  | nil => rfl
  | cons x xs ih =>
    obtain ⟨hx, hrest⟩ := List.forall_mem_cons.1 h
    exact hx.append (ih hrest)

theorem commas {items : List Bytes} (h : ∀ item ∈ items, Calm item) : Calm (commas items) := by
  induction items with
  | nil => rfl
  | cons item items ih =>
    obtain ⟨hitem, hrest⟩ := List.forall_mem_cons.1 h
    cases items with
    | nil =>
      rw [Scan.commas_singleton]
      exact hitem
    | cons next items =>
      rw [Scan.commas_cons_cons]
      exact hitem.append (.append (by decide) (ih hrest))

theorem not_cut (front back : Bytes) : ¬Calm (front ++ 39 :: 10 :: back) := by
  induction front with
  | nil =>
    intro h
    obtain ⟨c, hc, hne⟩ := (cons.1 h).1 rfl
    exact hne (Option.some.inj hc).symm
  | cons b front ih => exact fun h ↦ ih (cons.1 h).2

theorem eq_of_cut {front front' back back' : Bytes} (hb : Calm back) (hb' : Calm back')
    (h : front ++ 39 :: 10 :: back = front' ++ 39 :: 10 :: back') :
    front = front' ∧ back = back' := by
  have hcut : ∀ {a c c' : Bytes}, Calm c → 39 :: 10 :: c = a ++ 39 :: 10 :: c' → a = [] := by
    intro a c c' hc he
    match a with
    | [] => rfl
    | [b] =>
      have h10 : (10 : UInt8) = 39 := (List.cons.inj (List.cons.inj he).2).1
      exact absurd h10 (by decide)
    | b :: b' :: a =>
      have hc' : c = a ++ 39 :: 10 :: c' := (List.cons.inj (List.cons.inj he).2).2
      exact absurd (hc' ▸ hc) (not_cut a c')
  rcases List.append_eq_append_iff.1 h with ⟨a, rfl, ht⟩ | ⟨a, rfl, ht⟩
  · obtain rfl := hcut hb ht
    exact ⟨(List.append_nil _).symm, (List.cons.inj (List.cons.inj ht).2).2⟩
  · obtain rfl := hcut hb' ht
    exact ⟨List.append_nil _, (List.cons.inj (List.cons.inj ht).2).2.symm⟩

theorem quoted {text : Bytes} (h : 10 ∉ text) : Calm (text ++ [34]) := by
  induction text with
  | nil => decide
  | cons b text ih =>
    obtain ⟨-, hrest⟩ := not_or.1 fun hm ↦ h (List.mem_cons.2 hm)
    refine cons.2 ⟨fun _ ↦ ?_, ih hrest⟩
    cases text with
    | nil => exact ⟨34, rfl, by decide⟩
    | cons c text => exact ⟨c, rfl, fun he ↦ hrest (he ▸ List.mem_cons_self)⟩

theorem escape (text : Bytes) : Calm (Symbol.escape text ++ ascii "\"") :=
  quoted (Symbol.not_mem_escape (.inr rfl) text)

theorem spell (name : Bytes) : Calm (Symbol.spell name) := by
  unfold Symbol.spell
  split
  · rename_i hp
    refine of_not_mem fun h ↦ ?_
    cases Symbol.plain_of_isPlain hp 39 h
  · rw [List.append_assoc]
    exact append (by decide) (escape name)

theorem atModule (name : Bytes) : Calm (Symbol.atModule name) :=
  append (by decide) (spell name)

theorem inFunction (name : Bytes) : Calm (Symbol.inFunction name) :=
  append (by decide) (spell name)

theorem ofInt (n : Int) : Calm (Bytes.ofInt n) := by
  have hn : ∀ n, 39 ∉ Bytes.ofNat n := fun n h ↦ by cases Bytes.isDigit_of_mem_ofNat h
  refine of_not_mem ?_
  cases n with
  | ofNat n => exact hn n
  | negSucc n => exact fun h ↦ (List.mem_cons.1 h).elim (by decide) (hn (n + 1))

theorem base {t : Ty} (h : t.isBase = true) : Calm t.text := by
  cases t with
  | void => decide
  | float kind => cases kind <;> decide
  | int bits => exact append (by decide) (ofInt bits)
  | ptr | array | struct | func | missing => cases h

theorem type {t : Ty} (h : t.isSimple = true) : Calm t.text := by
  obtain ⟨core, stars, hc, hs, ht, -⟩ := Scan.simple_text h
  have hstars : Calm stars := of_not_mem fun hm ↦ absurd (hs 39 hm) (by decide)
  rw [ht]
  refine append ?_ hstars
  cases core with
  | array size elem =>
    exact append (append (append (append (by decide) (ofInt size)) (by decide)) (base hc))
      (by decide)
  | _ => exact base hc

theorem constant {c : Constant} (h : c.isPlain = true) : Calm c.bare := by
  cases c with
  | int bits value =>
    rw [Constant.bare, Constant.intText]
    split
    · split <;> decide
    · exact ofInt value
  | float kind bits => exact append (by decide) (of_not_mem (hex_ne (by decide +kernel) _ _))
  | global name => exact atModule name
  | array | gep | zext => cases h

variable {x : Operand}

theorem bare (h : x.isPlain = true) : Calm x.bare := by
  cases x with
  | reg r => exact inFunction r.name
  | const c => exact constant h

theorem operand (h : x.isPlain = true) : Calm x.text :=
  append (append (type (Operand.isSimple_type h)) (by decide)) (bare h)

theorem operands {xs : List Operand} (h : ∀ x ∈ xs, x.isPlain = true) :
    ∀ text ∈ xs.map Operand.text, Calm text := by
  intro text ht
  obtain ⟨x, hx, rfl⟩ := List.mem_map.1 ht
  exact operand (h x hx)

theorem args {xs : List Operand} (h : xs.all Operand.isPlain = true) : Calm (Instr.args xs) :=
  append (append (by decide) (commas (operands (List.all_eq_true.1 h)))) (by decide)

theorem defining {dst : Register} {what : Bytes} (h : Calm what) :
    Calm (Instr.defining dst what) :=
  append (append (inFunction dst.name) (by decide)) h

theorem ofTwo {op : Bytes} {y : Operand} (h : Calm op) (hx : x.isPlain = true)
    (hy : y.isPlain = true) : Calm (Instr.ofTwo op x y) :=
  append (append (append (append h (by decide)) (operand hx)) (by decide)) (bare hy)

theorem instr {i : Instr} (h : i.isPlain = true) : Calm i.text := by
  have hlabel : ∀ label, Calm (Instr.labelRef label) := fun label ↦
    append (by decide) (inFunction label)
  cases i with
  | bin dst op x y =>
    simp only [Instr.isPlain, Bool.and_eq_true, decide_eq_true_eq] at h
    have hop : ∀ op ∈ BinOp.known, Calm op.name := by decide
    exact defining (ofTwo (hop op h.1.1.1) h.1.2 h.2)
  | icmp dst pred x y =>
    simp only [Instr.isPlain, Bool.and_eq_true, decide_eq_true_eq] at h
    have hpred : ∀ pred ∈ IntPred.known, Calm pred.name := by decide
    exact defining (append (by decide) (ofTwo (hpred pred h.1.1.1) h.1.2 h.2))
  | fcmp dst pred x y =>
    simp only [Instr.isPlain, Bool.and_eq_true, decide_eq_true_eq] at h
    have hpred : ∀ pred ∈ FloatPred.known, Calm pred.name := by decide
    exact defining (append (by decide) (ofTwo (hpred pred h.1.1.1) h.1.2 h.2))
  | alloca dst elem =>
    simp only [Instr.isPlain, Bool.and_eq_true] at h
    exact defining (append (by decide) (type h.2))
  | load dst elem addr =>
    simp only [Instr.isPlain, Bool.and_eq_true] at h
    exact defining (append (append (append (by decide) (type h.1.2)) (by decide)) (operand h.2))
  | store value addr =>
    simp only [Instr.isPlain, Bool.and_eq_true] at h
    exact append (append (append (by decide) (operand h.1)) (by decide)) (operand h.2)
  | br target => exact append (by decide) (hlabel target)
  | condBr cond then_ else_ =>
    refine append (by decide) (commas ?_)
    simp [operand h, hlabel]
  | label name =>
    refine append (of_not_mem fun hm ↦ ?_) (by decide)
    cases Symbol.plain_of_isPlain h 39 hm
  | phi dst incoming =>
    simp only [Instr.isPlain, Bool.and_eq_true, List.all_eq_true] at h
    refine defining (append (append (append (by decide) (type h.1.1)) (by decide)) (commas ?_))
    intro text ht
    obtain ⟨x, hx, rfl⟩ := List.mem_map.1 ht
    exact append (append (append (append (by decide) (bare (h.2 x hx))) (by decide))
      (inFunction x.label)) (by decide)
  | ret value => exact append (by decide) (operand h)
  | retVoid => decide
  | call dst result callee xs =>
    simp only [Instr.isPlain, Bool.and_eq_true] at h
    exact defining (append (append (append (append (by decide) (type h.1.2)) (by decide))
      (atModule callee)) (args h.2))
  | callVoid callee xs => exact append (append (by decide) (atModule callee)) (args h)
  | zext dst value target =>
    simp only [Instr.isPlain, Bool.and_eq_true] at h
    exact defining (append (append (append (by decide) (operand h.1.2)) (by decide)) (type h.2))
  | gep dst inBounds elem addr indices =>
    simp only [Instr.isPlain, Bool.and_eq_true, List.all_eq_true] at h
    refine defining (append (append (by decide) ?_) (commas ?_))
    · cases inBounds <;> decide
    · exact List.forall_mem_cons.2 ⟨type h.1.1.2, List.forall_mem_cons.2
        ⟨operand h.1.2, operands h.2⟩⟩

variable {M : Module}

theorem line {i : Instr} (h : i.isPlain = true) : Calm (Function.line i) := by
  refine append (append ?_ (instr h)) (by decide)
  split <;> decide

theorem function {f : Function} (h : f.Readable M) : Calm f.text := by
  have hparams : ∀ text ∈ f.params.map Register.text, Calm text := by
    intro text ht
    obtain ⟨r, hr, rfl⟩ := List.mem_map.1 ht
    exact append (append (type (h.params r hr)) (by decide)) (inFunction r.name)
  have hbody := flatMap fun i hi ↦ line (h.body i hi).plain
  exact append (append (append (append (append (append (append (append (by decide) (type h.result))
    (by decide)) (atModule f.name)) (by decide)) (commas hparams)) (by decide)) hbody) (by decide)

theorem global {g : Global} (h : g.Readable) : Calm g.text := by
  have hvalue : Calm g.value.bare := by
    rcases h.value with hp | ⟨text, ht⟩
    · exact constant hp
    · rw [ht, Scan.cString_bare]
      exact append (by decide) (escape _)
  refine append (append (append (atModule g.name) ?_) ?_) (by decide)
  · cases g.isConst <;> decide
  · exact append (append (type (Scan.isSimple_value h)) (by decide)) hvalue

end Calm

/-- A module of which all but the floats can be read off its text. -/
structure Module.Readable (M : Module) : Prop where
  externals : M.externals = Library.externals
  globals : ∀ g ∈ M.globals, g.Readable
  functions : ∀ f ∈ M.functions, f.Readable M

namespace Module

variable {M M' : Module}

def rest (M : Module) : Bytes :=
  M.externals.flatMap External.text ++ Scan.tail M.globals M.functions

theorem text_eq (M : Module) : M.text = (ascii "; ModuleID = '" ++ M.id) ++ 39 :: 10 :: M.rest := by
  simp [text, rest, Scan.tail, ascii]

theorem Readable.calm (h : M.Readable) : Calm M.rest := by
  refine .append ?_ (.append ?_ (.append (.flatMap fun g hg ↦ .global (h.globals g hg))
    (.flatMap fun f hf ↦ .function (h.functions f hf))))
  · rw [h.externals]
    exact .flatMap (by decide +kernel)
  · cases M.globals with
    | nil => decide
    | cons =>
      change Calm (ascii "\n")
      decide

theorem Readable.rounded_eq (h : M.Readable) (h' : M'.Readable) (ht : M.text = M'.text) :
    M.rounded = M'.rounded := by
  rw [text_eq, text_eq] at ht
  obtain ⟨hid, hrest⟩ := Calm.eq_of_cut h.calm h'.calm ht
  have hread : ∀ {M : Module}, M.Readable → Scan.contents (Scan.tail M.globals M.functions) =
      some ((M.globals.map Global.rounded, M.functions.map Function.rounded), []) := by
    intro M h
    have hr := Scan.reads_contents h.globals h.functions [] rfl
    rwa [List.append_nil] at hr
  rw [rest, rest, h.externals, h'.externals] at hrest
  have he := hread h
  rw [List.append_cancel_left hrest, hread h', Option.some.injEq, Prod.mk.injEq,
    Prod.mk.injEq] at he
  rw [rounded, rounded, mapFloats, mapFloats, ← List.append_cancel_left hid, h.externals,
    h'.externals, he.1.1, he.1.2]

end Module

end PZero.IR
