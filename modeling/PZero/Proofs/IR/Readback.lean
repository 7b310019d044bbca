import Mathlib.Algebra.BigOperators.Group.List.Basic
import PZero.Proofs.IR.Scan
import PZero.Proofs.IR.WellTyped

namespace PZero.IR

/-- An instruction that is plain and whose types agree. -/
structure Instr.Readable (M : Module) (result : Ty) (i : Instr) : Prop where
  plain : i.isPlain = true
  types : i.TypesAgree M result

structure Function.Readable (M : Module) (f : Function) : Prop where
  result : f.result.isSimple = true
  params : ∀ r ∈ f.params, r.type.isSimple = true
  body : ∀ i ∈ f.body, i.Readable M f.result

namespace Scan

/-- Two operands of one type, which only the first one shows. -/
def two (make : Operand → Operand → Instr) : Scan Instr := do
  let x ← operand
  lit (ascii ", ")
  let y ← bare x.type
  return make x y

def choice (type : Ty) : Scan Incoming := do
  lit (ascii "[")
  let value ← bare type
  lit (ascii ", %")
  let label ← name
  lit (ascii "]")
  return ⟨value, label⟩

def definition (dst : Bytes) : Scan Instr :=
  choose ([
    (ascii "icmp ", choose (IntPred.known.map fun pred ↦
      (pred.name ++ ascii " ", two (.icmp ⟨dst, .int 1⟩ pred)))),
    (ascii "fcmp ", choose (FloatPred.known.map fun pred ↦
      (pred.name ++ ascii " ", two (.fcmp ⟨dst, .int 1⟩ pred)))),
    (ascii "alloca ", do
      let elem ← ty
      return .alloca ⟨dst, .ptr elem⟩ elem),
    (ascii "load ", do
      let elem ← ty
      lit (ascii ", ")
      let addr ← operand
      return .load ⟨dst, elem⟩ elem addr),
    (ascii "phi ", do
      let type ← ty
      lit (ascii " ")
      let incoming ← list (choice type)
      return .phi ⟨dst, type⟩ incoming),
    (ascii "call ccc ", do
      let result ← ty
      lit (ascii " @")
      let callee ← name
      let xs ← arguments operand
      return .call ⟨dst, result⟩ result callee xs),
    (ascii "zext ", do
      let value ← operand
      lit (ascii " to ")
      let target ← ty
      return .zext ⟨dst, target⟩ value target),
    (ascii "getelementptr inbounds ", do
      let elem ← ty
      lit (ascii ", ")
      let addr :: indices ← list operand | failure
      return .gep ⟨dst, elem.addressed (indices.map Operand.index?)⟩ true elem addr indices)]
    ++ BinOp.known.map fun op ↦
      (op.name ++ ascii " ", two fun x y ↦ .bin ⟨dst, x.type⟩ op x y))

def instr : Scan Instr := do
  if (← next) = some 37 then
    lit (ascii "%")
    let dst ← name
    lit (ascii " = ")
    definition dst
  else choose [
    (ascii "store ", do
      let value ← operand
      lit (ascii ", ")
      let addr ← operand
      return .store value addr),
    (ascii "br ", do
      if (← next) = some 108 then
        lit (ascii "label %")
        return .br (← name)
      else
        let cond ← operand
        lit (ascii ", label %")
        let then_ ← name
        lit (ascii ", label %")
        let else_ ← name
        return .condBr cond then_ else_),
    (ascii "ret ", do
      let type ← ty
      if (← next) = some 32 then
        lit (ascii " ")
        return .ret (← bare type)
      else return .retVoid),
    (ascii "call ccc void @", do
      let callee ← name
      let xs ← arguments operand
      return .callVoid callee xs)]

variable {M : Module} {result : Ty}

def EndsLine (rest : Bytes) : Prop := rest.head? = some 10

theorem EndsLine.stops {rest : Bytes} (h : EndsLine rest) : Stops rest :=
  stops_of_head h (by decide)

theorem reads_two (make : Operand → Operand → Instr) {x y : Operand} (hx : x.isPlain = true)
    (hy : y.isPlain = true) (ht : x.type.same y.type = true) :
    Reads Stops (two make) (x.text ++ (ascii ", " ++ y.bare)) (make x.rounded y.rounded) := by
  have he := Ty.eq_of_same (Operand.isSimple_type hx) (Operand.isSimple_type hy) ht
  refine .bind (reads_operand hx) (.lit _ ?_) fun _ _ ↦ stops_of_head rfl (by decide)
  rw [Operand.type_mapFloats, he]
  exact (reads_bare hy).map

theorem reads_choice {i : Incoming} (h : i.value.isPlain = true) :
    Reads Stops (choice i.value.type)
      (ascii "[" ++ i.value.bare ++ ascii ", " ++ Symbol.inFunction i.label ++ ascii "]")
      i.rounded := by
  simp only [Symbol.inFunction, List.append_assoc]
  refine .lit _ (.bind (reads_bare h) (.lit (ascii ", %") (.bind (reads_name i.label)
    (.lit _ .pure) ?_)) ?_) <;> exact fun _ _ ↦ stops_of_head rfl (by decide)

theorem reads_intPred {make : IntPred → Scan Instr} {pred : IntPred} {text : Bytes} {i : Instr}
    {ok : Bytes → Prop} (hp : pred ∈ IntPred.known) (h : Reads ok (make pred) text i) :
    Reads ok (choose (IntPred.known.map fun p ↦ (p.name ++ ascii " ", make p)))
      (pred.name ++ ascii " " ++ text) i := by
  refine .choose h fun rest ↦ ?_
  cases pred with
  | other code => exact absurd hp (by simp [IntPred.known])
  | _ => rfl

theorem reads_floatPred {make : FloatPred → Scan Instr} {pred : FloatPred} {text : Bytes}
    {i : Instr} {ok : Bytes → Prop} (hp : pred ∈ FloatPred.known)
    (h : Reads ok (make pred) text i) :
    Reads ok (choose (FloatPred.known.map fun p ↦ (p.name ++ ascii " ", make p)))
      (pred.name ++ ascii " " ++ text) i := by
  refine .choose h fun rest ↦ ?_
  cases pred with
  | other code => exact absurd hp (by simp [FloatPred.known])
  | _ => rfl

theorem reads_binOp {dst : Bytes} {op : BinOp} {text : Bytes} {i : Instr} {ok : Bytes → Prop}
    (hp : op ∈ BinOp.known) (h : Reads ok (two fun x y ↦ .bin ⟨dst, x.type⟩ op x y) text i) :
    Reads ok (definition dst) (op.name ++ ascii " " ++ text) i := by
  refine .choose h fun rest ↦ ?_
  cases op with
  | other name => exact absurd hp (by simp [BinOp.known])
  | _ => rfl

theorem reads_definition {i : Instr} {dst : Register} (hd : i.result? = some dst)
    (hp : i.isPlain = true) (ht : i.TypesAgree M result) :
    ∃ what, i.text = Instr.defining dst what ∧
      Reads EndsLine (definition dst.name) what i.rounded := by
  obtain ⟨n, t⟩ := dst
  have hline : ∀ {α : Type} {m : Scan α} {text a}, Reads Stops m text a → Reads EndsLine m text a :=
    fun h ↦ h.mono fun _ ↦ EndsLine.stops
  cases i with
  | alloca dst elem =>
    cases hd
    simp only [Instr.isPlain, Bool.and_eq_true] at hp
    obtain rfl := Ty.eq_of_same hp.1 (show (Ty.ptr elem).isSimple = true from hp.2) ht
    refine ⟨_, rfl, .choose ?_ fun _ ↦ rfl⟩
    exact hline ((reads_ty hp.2).map (g := fun t ↦ Instr.alloca ⟨n, .ptr t⟩ t))
  | load dst elem addr =>
    cases hd
    simp only [Instr.isPlain, Bool.and_eq_true] at hp
    obtain rfl := Ty.eq_of_same hp.1.1 hp.1.2 ht.2
    refine ⟨_, rfl, ?_⟩
    rw [List.append_assoc, List.append_assoc]
    refine .choose (.bind (reads_ty hp.1.2) (.lit _ ?_) ?_) fun _ ↦ rfl
    · exact hline ((reads_operand hp.2).map (g := fun a ↦ Instr.load ⟨n, t⟩ t a))
    · exact fun _ _ ↦ stops_of_head rfl (by decide)
  | bin dst op x y =>
    cases hd
    simp only [Instr.isPlain, Bool.and_eq_true, decide_eq_true_eq] at hp
    obtain rfl := Ty.eq_of_same hp.1.1.2 (Operand.isSimple_type hp.1.2) ht.2.1
    have hr := hline (reads_two (fun x y ↦ .bin ⟨n, x.type⟩ op x y) hp.1.2 hp.2 ht.1)
    rw [Operand.type_mapFloats] at hr
    refine ⟨_, rfl, ?_⟩
    rw [Instr.ofTwo, List.append_assoc, List.append_assoc]
    exact reads_binOp hp.1.1.1 hr
  | icmp dst pred x y =>
    cases hd
    simp only [Instr.isPlain, Bool.and_eq_true, decide_eq_true_eq] at hp
    obtain rfl := Ty.eq_of_same hp.1.1.2 rfl ht.2.1
    have hr := hline (reads_two (.icmp ⟨n, .int 1⟩ pred) hp.1.2 hp.2 ht.1)
    refine ⟨_, rfl, ?_⟩
    rw [Instr.ofTwo, List.append_assoc, List.append_assoc]
    exact .choose (reads_intPred hp.1.1.1 hr) fun _ ↦ rfl
  | fcmp dst pred x y =>
    cases hd
    simp only [Instr.isPlain, Bool.and_eq_true, decide_eq_true_eq] at hp
    obtain rfl := Ty.eq_of_same hp.1.1.2 rfl ht.2.1
    have hr := hline (reads_two (.fcmp ⟨n, .int 1⟩ pred) hp.1.2 hp.2 ht.1)
    refine ⟨_, rfl, ?_⟩
    rw [Instr.ofTwo, List.append_assoc, List.append_assoc]
    exact .choose (reads_floatPred hp.1.1.1 hr) fun _ ↦ rfl
  | phi dst incoming =>
    cases hd
    simp only [Instr.isPlain, Bool.and_eq_true, List.all_eq_true, Bool.not_eq_true',
      List.isEmpty_eq_false_iff] at hp
    refine ⟨_, rfl, ?_⟩
    rw [List.append_assoc, List.append_assoc]
    refine .choose (.bind (reads_ty hp.1.1) (.lit _ ?_) ?_) fun _ ↦ rfl
    · have hchoices : ∀ i ∈ incoming, Reads Stops (choice t)
          (ascii "[" ++ i.value.bare ++ ascii ", " ++ Symbol.inFunction i.label ++ ascii "]")
          i.rounded := by
        intro i hi
        have hv := hp.2 i hi
        rw [← Ty.eq_of_same (Operand.isSimple_type hv) hp.1.1 (ht i hi)]
        exact reads_choice hv
      have hr := (reads_list hchoices hp.1.2).map (g := fun xs ↦ Instr.phi ⟨n, t⟩ xs)
      exact hr.mono fun _ ↦ .inl
    · exact fun _ _ ↦ stops_of_head rfl (by decide)
  | call dst type callee xs =>
    cases hd
    simp only [Instr.isPlain, Bool.and_eq_true, List.all_eq_true] at hp
    obtain rfl := Ty.eq_of_same hp.1.1 hp.1.2 ht.2
    refine ⟨_, rfl, ?_⟩
    rw [Instr.args, Symbol.atModule]
    simp only [List.append_assoc]
    refine .choose (.bind (reads_ty hp.1.2) (.lit (ascii " @") (.bind (reads_name callee) ?_ ?_))
      ?_) fun _ ↦ rfl
    · exact (reads_arguments (fun x hx ↦ reads_operand (hp.2 x hx))
        fun x hx rest ↦ operand_head_ne (hp.2 x hx) rest (by decide)).map
        (g := fun xs ↦ Instr.call ⟨n, t⟩ t callee xs)
    · exact fun _ _ ↦ stops_of_head rfl (by decide)
    · exact fun _ _ ↦ stops_of_head rfl (by decide)
  | zext dst value target =>
    cases hd
    simp only [Instr.isPlain, Bool.and_eq_true] at hp
    obtain rfl := Ty.eq_of_same hp.1.1 hp.2 ht.1
    refine ⟨_, rfl, ?_⟩
    rw [List.append_assoc, List.append_assoc]
    refine .choose (.bind (reads_operand hp.1.2) (.lit _ ?_) ?_) fun _ ↦ rfl
    · exact hline ((reads_ty hp.2).map (g := fun t ↦ Instr.zext ⟨n, t⟩ value.rounded t))
    · exact fun _ _ ↦ stops_of_head rfl (by decide)
  | gep dst inBounds elem addr indices =>
    cases hd
    simp only [Instr.isPlain, Bool.and_eq_true, List.all_eq_true] at hp
    obtain ⟨⟨⟨⟨hdst, rfl⟩, helem⟩, haddr⟩, hindices⟩ := hp
    obtain rfl := Ty.eq_of_same hdst (Ty.isSimple_addressed helem _) ht.2
    refine ⟨_, rfl, ?_⟩
    change Reads _ _ (ascii "getelementptr inbounds " ++ commas _) _
    rw [commas_cons_cons, ← List.map_cons (f := Operand.text)]
    refine .choose (.bind (reads_ty helem) (.lit _ ?_) ?_) fun _ ↦ rfl
    · have hall : ∀ x ∈ addr :: indices, Reads Stops operand x.text x.rounded :=
        List.forall_mem_cons.2 ⟨reads_operand haddr, fun x hx ↦ reads_operand (hindices x hx)⟩
      have hr := (reads_list hall (List.cons_ne_nil _ _)).mono fun _ ↦ .inl
      have hindex : (indices.map Operand.rounded).map Operand.index? =
          indices.map Operand.index? := by
        simp [Operand.index?_mapFloats]
      rw [← List.append_nil (commas _)]
      refine .bind hr ?_ fun _ ↦ id
      rw [List.map_cons, Instr.rounded, ← hindex]
      exact .pure
    · exact fun _ _ ↦ stops_of_head rfl (by decide)
  | _ => cases hd

theorem reads_instr {i : Instr} (hl : i.isLabel = false) (hp : i.isPlain = true)
    (ht : i.TypesAgree M result) : Reads EndsLine instr i.text i.rounded := by
  have hline : ∀ {α : Type} {m : Scan α} {text a}, Reads Stops m text a → Reads EndsLine m text a :=
    fun h ↦ h.mono fun _ ↦ EndsLine.stops
  have hstop : ∀ {b : UInt8} {rest : Bytes}, b ∈ ascii "\n (),]:" → Stops (b :: rest) :=
    fun hb ↦ stops_of_head rfl hb
  cases hd : i.result? with
  | some dst =>
    obtain ⟨what, htext, hr⟩ := reads_definition hd hp ht
    rw [htext, Instr.defining, Register.bare, Symbol.inFunction, List.append_assoc,
      List.append_assoc]
    exact .yes (.lit _ (.bind (reads_name dst.name) (.lit _ hr) fun _ _ ↦ hstop (by decide)))
      fun _ ↦ rfl
  | none =>
    refine .no ?_ ?_
    · cases i with
      | store value addr =>
        simp only [Instr.isPlain, Bool.and_eq_true] at hp
        rw [Instr.text, List.append_assoc, List.append_assoc]
        refine .choose (.bind (reads_operand hp.1) (.lit _ ?_) fun _ _ ↦ hstop (by decide))
          fun _ ↦ rfl
        exact hline ((reads_operand hp.2).map (g := fun a ↦ Instr.store value.rounded a))
      | br target =>
        refine .choose (.yes (.lit (ascii "label %") ?_) fun _ ↦ rfl) fun _ ↦ rfl
        exact hline ((reads_name target).map (g := fun t ↦ Instr.br t))
      | condBr cond then_ else_ =>
        have hc : commas [cond.text, Instr.labelRef then_, Instr.labelRef else_] =
            cond.text ++ (ascii ", label %" ++ (Symbol.spell then_ ++
              (ascii ", label %" ++ Symbol.spell else_))) := by
          simp [commas_cons_cons, commas_singleton, Instr.labelRef, Symbol.inFunction, ascii]
        rw [Instr.text, hc]
        refine .choose (.no (.bind (reads_operand hp) (.lit _ (.bind (reads_name then_)
          (.lit _ ?_) fun _ _ ↦ hstop (by decide))) fun _ _ ↦ hstop (by decide)) ?_) fun _ ↦ rfl
        · exact hline ((reads_name else_).map (g := fun e ↦ Instr.condBr cond.rounded then_ e))
        · intro rest _
          rw [List.append_assoc]
          exact operand_head_ne hp _ (by decide)
      | ret value =>
        rw [Instr.text, Operand.text, Constant.withType, List.append_assoc]
        refine .choose (.bind (reads_ty (Operand.isSimple_type hp)) (.yes (.lit _ ?_) fun _ ↦ rfl)
          fun _ _ ↦ hstop (by decide)) fun _ ↦ rfl
        exact hline ((reads_bare hp).map (g := fun x ↦ Instr.ret x))
      | retVoid =>
        change Reads _ _ (ascii "ret " ++ (Ty.void.text ++ [])) _
        refine .choose (.bind (reads_ty rfl) (.no .pure fun rest hr ↦ ?_) fun _ ↦ EndsLine.stops)
          fun _ ↦ rfl
        exact ne_of_head hr (by decide)
      | callVoid callee xs =>
        simp only [Instr.isPlain, List.all_eq_true] at hp
        have hc : (Instr.callVoid callee xs).text =
            ascii "call ccc void @" ++ (Symbol.spell callee ++ Instr.args xs) := by
          rw [Instr.text, Symbol.atModule, ← List.append_assoc, List.append_assoc]
          rfl
        rw [hc, Instr.args, List.append_assoc]
        refine .choose (.bind (reads_name callee) ?_ fun _ _ ↦ hstop (by decide)) fun _ ↦ rfl
        exact (reads_arguments (fun x hx ↦ reads_operand (hp x hx))
          fun x hx rest ↦ operand_head_ne (hp x hx) rest (by decide)).map
          (g := fun xs ↦ Instr.callVoid callee xs)
      | label name => cases hl
      | _ => cases hd
    · intro rest _
      cases i with
      | label name => cases hl
      | store | br | condBr | ret | retVoid | callVoid => exact ne_of_head rfl (by decide)
      | _ => cases hd

def lines : (bound : Nat) → Scan (List Instr)
  | 0 => failure
  | bound + 1 => do
    if (← next) = some 125 then
      lit (ascii "\x7d\n")
      return []
    else if (← next) = some 32 then
      lit (ascii "  ")
      let i ← instr
      lit (ascii "\n")
      let rest ← lines bound
      return i :: rest
    else
      let label ← span fun b ↦ Symbol.isPlainStart b || Bytes.isDigit b
      lit (ascii ":\n")
      let rest ← lines bound
      return .label label :: rest

def parameter : Scan Register := do
  let type ← ty
  lit (ascii " %")
  return ⟨← name, type⟩

def function : Scan Function := do
  let result ← ty
  lit (ascii " @")
  let f ← name
  let params ← arguments parameter
  lit (ascii " \x7b\n")
  let body ← fun s ↦ lines s.length s
  return ⟨f, params, result, body⟩

theorem length_le_flatMap {α : Type} {text : α → Bytes} {xs : List α}
    (h : ∀ x ∈ xs, text x ≠ []) : xs.length ≤ (xs.flatMap text).length := by
  have hl := List.length_le_sum_of_one_le (xs.map fun x ↦ (text x).length) fun n hn ↦ by
    obtain ⟨x, hx, rfl⟩ := List.mem_map.1 hn
    exact List.length_pos_of_ne_nil (h x hx)
  rwa [List.length_map, ← List.length_flatMap] at hl

theorem reads_lines {body : List Instr} (h : ∀ i ∈ body, i.Readable M result) {bound : Nat}
    (hb : body.length < bound) {ok : Bytes → Prop} :
    Reads ok (lines bound) (body.flatMap Function.line ++ ascii "\x7d\n")
      (body.map Instr.rounded) := by
  induction body generalizing bound with
  | nil =>
    obtain ⟨bound, rfl⟩ : ∃ n, bound = n + 1 := ⟨bound - 1, by omega⟩
    rw [lines]
    exact .yes (.lit _ .pure) fun _ ↦ rfl
  | cons i body ih =>
    obtain ⟨bound, rfl⟩ : ∃ n, bound = n + 1 := ⟨bound - 1, by omega⟩
    obtain ⟨hi, hrest⟩ := List.forall_mem_cons.1 h
    have hr := ih hrest (Nat.lt_of_succ_lt_succ hb)
    rw [lines, List.flatMap_cons, Function.line]
    cases hl : i.isLabel with
    | true =>
      cases i with
      | label label =>
        have hp : Symbol.isPlain label = true := hi.plain
        have hbytes := Symbol.plain_of_isPlain hp
        have hhead : ∀ (text : Bytes) {c : UInt8},
            (Symbol.isPlainStart c || Bytes.isDigit c) = false →
              (label ++ text).head? ≠ some c := by
          intro text c hc hh
          cases label with
          | nil => cases hp
          | cons b label =>
            obtain rfl := Option.some.inj hh
            rw [hbytes b List.mem_cons_self] at hc
            cases hc
        simp only [Instr.text, if_pos, List.nil_append, List.append_assoc]
        refine .no (.no (.bind (.span hbytes) (.lit (ascii ":\n") ?_) ?_) ?_) ?_
        · exact hr.map (g := fun is ↦ .label label :: is)
        · exact fun _ _ b hb ↦ Option.some.inj hb ▸ rfl
        · exact fun rest _ ↦ by rw [List.append_assoc]; exact hhead _ (by decide)
        · exact fun rest _ ↦ by rw [List.append_assoc]; exact hhead _ (by decide)
      | _ => cases hl
    | false =>
      rw [if_neg Bool.false_ne_true]
      simp only [List.append_assoc]
      refine .no (.yes (.lit _ (.bind (reads_instr hl hi.plain hi.types) (.lit _ ?_)
        fun _ _ ↦ rfl)) fun _ ↦ rfl) fun _ _ ↦ ne_of_head rfl (by decide)
      exact hr.map (g := fun is ↦ i.rounded :: is)

theorem reads_parameter {r : Register} (h : r.type.isSimple = true) :
    Reads Stops parameter r.text r := by
  have htext : r.text = r.type.text ++ (ascii " %" ++ Symbol.spell r.name) := by
    simp [Register.text, Constant.withType, Register.bare, Symbol.inFunction, ascii]
  rw [htext]
  refine .bind (reads_ty h) (.lit _ ?_) fun _ _ ↦ stops_of_head rfl (by decide)
  exact (reads_name r.name).map (g := fun n ↦ Register.mk n r.type)

theorem reads_body {body : List Instr} (h : ∀ i ∈ body, i.Readable M result) {ok : Bytes → Prop} :
    Reads ok (fun s ↦ lines s.length s) (body.flatMap Function.line ++ ascii "\x7d\n")
      (body.map Instr.rounded) := by
  intro rest hr
  refine reads_lines h ?_ rest hr
  have hl : body.length ≤ (body.flatMap Function.line).length :=
    length_le_flatMap fun i _ he ↦ by simp [Function.line, ascii] at he
  have hn : (ascii "\x7d\n").length = 2 := rfl
  rw [List.length_append, List.length_append]
  omega

theorem reads_function {f : Function} (h : f.Readable M) {ok : Bytes → Prop} :
    ∃ text, f.text = ascii "\ndefine external ccc " ++ text ∧ Reads ok function text f.rounded := by
  refine ⟨f.result.text ++ (ascii " @" ++ (Symbol.spell f.name ++ ((ascii "(" ++
    (commas (f.params.map Register.text) ++ ascii ")")) ++ (ascii " \x7b\n" ++
      (f.body.flatMap Function.line ++ ascii "\x7d\n"))))), ?_, ?_⟩
  · simp [Function.text, Symbol.atModule, ascii]
  · have hbody := (@reads_body M f.result f.body h.body ok).map
      (g := fun is ↦ Function.mk f.name f.params f.result is)
    have hparams : Reads (fun _ ↦ True) (arguments parameter)
        (ascii "(" ++ (commas (f.params.map Register.text) ++ ascii ")")) (f.params.map id) := by
      refine reads_arguments (fun r hr ↦ reads_parameter (h.params r hr)) fun r hr rest ↦ ?_
      rw [Register.text, Constant.withType, List.append_assoc, List.append_assoc]
      exact ty_head_ne (h.params r hr) _ (by decide)
    rw [List.map_id] at hparams
    refine .bind (reads_ty h.result) (.lit _ (.bind (reads_name f.name)
      (.bind hparams (.lit _ hbody) fun _ _ ↦ trivial) ?_)) ?_
    · exact fun _ _ ↦ stops_of_head rfl (by decide)
    · exact fun _ _ ↦ stops_of_head rfl (by decide)

end Scan

end PZero.IR
