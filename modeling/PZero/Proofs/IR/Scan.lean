import PZero.Proofs.IR.Floats
import PZero.Proofs.IR.Plain
import PZero.Proofs.Symbol.Spelling

namespace PZero.IR

/-- Reads something off the front of a text and goes on with the rest. -/
abbrev Scan := StateT Bytes Option

namespace Scan

def lit (text : Bytes) : Scan Unit := fun s ↦
  if text.isPrefixOf s then some ((), s.drop text.length) else none

def next : Scan (Option UInt8) := fun s ↦ some (s.head?, s)

def span (p : UInt8 → Bool) : Scan Bytes := fun s ↦ some (s.takeWhile p, s.dropWhile p)

def choose {α : Type} (table : List (Bytes × Scan α)) : Scan α := fun s ↦
  match table.find? (·.1.isPrefixOf s) with
  | some (key, m) => m (s.drop key.length)
  | none => none

def items {α : Type} (item : Scan α) : (bound : Nat) → Scan (List α)
  | 0 => failure
  | bound + 1 => do
    let first ← item
    if (← next) = some 44 then
      lit (ascii ", ")
      let rest ← items item bound
      return first :: rest
    else return [first]

/-- A text has more bytes than items. -/
def list {α : Type} (item : Scan α) : Scan (List α) := fun s ↦ items item s.length s

def arguments {α : Type} (item : Scan α) : Scan (List α) := do
  lit (ascii "(")
  if (← next) = some 41 then
    lit (ascii ")")
    return []
  else
    let xs ← list item
    lit (ascii ")")
    return xs

def name : Scan Bytes := do
  if (← next) = some 34 then
    lit (ascii "\"")
    let text ← span (· ≠ 34)
    lit (ascii "\"")
    return Symbol.unescape text
  else span fun b ↦ Symbol.isPlainStart b || Bytes.isDigit b

def int : Scan Int := do
  if (← next) = some 45 then
    lit (ascii "-")
    return -Bytes.digitsValue (← span Bytes.isDigit)
  else return Bytes.digitsValue (← span Bytes.isDigit)

def base : Scan Ty :=
  choose [(ascii "void", pure .void), (ascii "float", pure (.float .single)),
    (ascii "i", .int <$> int)]

def core : Scan Ty := do
  if (← next) = some 91 then
    lit (ascii "[")
    let size ← int
    lit (ascii " x ")
    let elem ← base
    lit (ascii "]")
    return .array size elem
  else base

def ty : Scan Ty := do
  let type ← core
  let stars ← span (· = 42)
  return stars.foldl (fun t _ ↦ .ptr t) type

def hexNat (digits : Bytes) : Nat :=
  digits.foldl (fun n b ↦ n * 16 + (Symbol.hexValue b).toNat) 0

def isHex (b : UInt8) : Bool := Bytes.isDigit b || 65 ≤ b && b ≤ 70

def constant : Ty → Scan Constant
  | .int bits =>
    if bits = 1 then
      choose [(ascii "true", pure (.int 1 1)), (ascii "false", pure (.int 1 0))]
    else .int bits <$> int
  | .float kind => do
    lit (ascii "0x")
    return .float kind (UInt64.ofNat (hexNat (← span isHex)))
  | type => do
    lit (ascii "@")
    return .global (← name) type

def bare (type : Ty) : Scan Operand := do
  if (← next) = some 37 then
    lit (ascii "%")
    return .reg ⟨← name, type⟩
  else .const <$> constant type

def operand : Scan Operand := do
  let type ← ty
  lit (ascii " ")
  bare type

/-- A text goes on behind a name, a number or a type. -/
def Stops (rest : Bytes) : Prop := ∀ b ∈ rest.head?, b ∈ ascii "\n (),]:"

def Undigit (rest : Bytes) : Prop := ∀ b ∈ rest.head?, Bytes.isDigit b = false

def Closes (rest : Bytes) : Prop := rest.head? = some 10 ∨ rest.head? = some 41

theorem Stops.head_not {p : UInt8 → Bool} {rest : Bytes} (h : Stops rest)
    (hp : (ascii "\n (),]:").any p = false) : ∀ b ∈ rest.head?, p b = false := by
  intro b hb
  simpa using List.any_eq_false.1 hp b (h b hb)

theorem Stops.undigit {rest : Bytes} (h : Stops rest) : Undigit rest := h.head_not (by decide)

theorem Closes.stops {rest : Bytes} (h : Closes rest) : Stops rest := by
  intro b hb
  rcases h with h | h <;> rw [h, Option.mem_some_iff] at hb <;> subst hb <;> decide

/-- Off the front of a text that may be followed by some others, a piece is read. -/
def Reads {α : Type} (ok : Bytes → Prop) (m : Scan α) (text : Bytes) (a : α) : Prop :=
  ∀ rest, ok rest → m (text ++ rest) = some (a, rest)

namespace Reads

variable {α β : Type} {ok ok' : Bytes → Prop} {m m' : Scan α} {f : α → Scan β}
  {text text' : Bytes} {a : α} {b : β}

theorem pure : Reads ok (pure a) [] a := fun _ _ ↦ rfl

theorem mono (h : Reads ok m text a) (hok : ∀ rest, ok' rest → ok rest) : Reads ok' m text a :=
  fun rest hr ↦ h rest (hok rest hr)

theorem bind_eq {s s' : Bytes} (h : m s = some (a, s')) : (m >>= f) s = f a s' := by
  simp only [Bind.bind, StateT.bind, h, Option.bind]

theorem bind (h : Reads ok m text a) (hf : Reads ok' (f a) text' b)
    (hs : ∀ rest, ok' rest → ok (text' ++ rest)) : Reads ok' (m >>= f) (text ++ text') b := by
  intro rest hr
  rw [List.append_assoc, bind_eq (h _ (hs rest hr))]
  exact hf rest hr

theorem map {g : α → β} (h : Reads ok m text a) : Reads ok (g <$> m) text (g a) := by
  intro rest hr
  change (m >>= fun a ↦ Pure.pure (g a)) _ = _
  rw [bind_eq (h rest hr)]
  rfl

theorem lit_eq (text rest : Bytes) : lit text (text ++ rest) = some ((), rest) := by
  simp [lit]

theorem lit {f : Unit → Scan β} (key : Bytes) (hf : Reads ok (f ()) text b) :
    Reads ok (lit key >>= f) (key ++ text) b := by
  intro rest hr
  rw [List.append_assoc, bind_eq (lit_eq key _)]
  exact hf rest hr

theorem yes {c : UInt8} (h : Reads ok m text a)
    (hc : ∀ rest, (text ++ rest).head? = some c) :
    Reads ok (next >>= fun x ↦ if x = some c then m else m') text a := by
  intro rest hr
  change (if (text ++ rest).head? = some c then m else m') (text ++ rest) = _
  rw [if_pos (hc rest)]
  exact h rest hr

theorem no {c : UInt8} (h : Reads ok m' text a)
    (hc : ∀ rest, ok rest → (text ++ rest).head? ≠ some c) :
    Reads ok (next >>= fun x ↦ if x = some c then m else m') text a := by
  intro rest hr
  change (if (text ++ rest).head? = some c then m else m') (text ++ rest) = _
  rw [if_neg (hc rest hr)]
  exact h rest hr

theorem choose {table : List (Bytes × Scan α)} {key : Bytes} (h : Reads ok m text a)
    (hk : ∀ rest, table.find? (·.1.isPrefixOf (key ++ rest)) = some (key, m)) :
    Reads ok (choose table) (key ++ text) a := by
  intro rest hr
  rw [List.append_assoc, Scan.choose, hk]
  simpa using h rest hr

theorem key {table : List (Bytes × Scan α)} {key : Bytes}
    (hk : ∀ rest, table.find? (·.1.isPrefixOf (key ++ rest)) = some (key, Pure.pure a)) :
    Reads ok (Scan.choose table) key a := by
  intro rest _
  rw [Scan.choose, hk]
  simp
  rfl

theorem span {p : UInt8 → Bool} (h : ∀ b ∈ text, p b = true) :
    Reads (fun rest ↦ ∀ b ∈ rest.head?, p b = false) (span p) text text := by
  intro rest hr
  have ht : rest.takeWhile p = [] := by
    cases rest with
    | nil => rfl
    | cons b rest => rw [List.takeWhile_cons_of_neg (by simp [hr b rfl])]
  have hd : rest.dropWhile p = rest := by
    cases rest with
    | nil => rfl
    | cons b rest => rw [List.dropWhile_cons_of_neg (by simp [hr b rfl])]
  rw [Scan.span, List.takeWhile_append_of_pos h, List.dropWhile_append_of_pos h, ht, hd,
    List.append_nil]

end Reads

theorem undigit_of_head {b : UInt8} {rest : Bytes} (h : rest.head? = some b)
    (hb : Bytes.isDigit b = false) : Undigit rest := by
  intro c hc
  rw [h, Option.mem_some_iff] at hc
  exact hc ▸ hb

theorem stops_of_head {b : UInt8} {rest : Bytes} (h : rest.head? = some b)
    (hb : b ∈ ascii "\n (),]:") : Stops rest := by
  intro c hc
  rw [h, Option.mem_some_iff] at hc
  exact hc ▸ hb

theorem ne_of_head {b c : UInt8} {rest : Bytes} (h : rest.head? = some b) (hb : b ≠ c) :
    rest.head? ≠ some c := by
  rw [h]
  exact fun he ↦ hb (Option.some.inj he)

theorem reads_name (n : Bytes) : Reads Stops name (Symbol.spell n) n := by
  unfold Symbol.spell
  split
  · rename_i hp
    refine .no ((Reads.span (Symbol.plain_of_isPlain hp)).mono fun _ hr ↦
      hr.head_not (by decide)) ?_
    cases n with
    | nil => cases hp
    | cons b n =>
      intro rest _ hb
      refine Symbol.quote_not_mem_plain hp ?_
      rw [← Option.some.inj hb]
      exact List.mem_cons_self
  · have hq : ∀ b ∈ Symbol.escape n, decide (b ≠ 34) = true := by
      intro b hb
      rw [decide_eq_true_eq]
      rintro rfl
      exact Symbol.quote_not_mem_escape n hb
    rw [List.append_assoc]
    refine .yes (.lit _ (.bind (.span hq) ?_ fun _ _ b hb ↦ ?_)) fun _ ↦ rfl
    · rw [Symbol.unescape_escape]
      exact .lit _ .pure
    · rw [← Option.some.inj hb]
      rfl

theorem ofNat_head (n : Nat) : ∃ b rest, Bytes.ofNat n = b :: rest ∧ Bytes.isDigit b = true := by
  have hd : ∀ b ∈ Bytes.ofNat n, Bytes.isDigit b = true := fun _ ↦ Bytes.isDigit_of_mem_ofNat
  cases h : Bytes.ofNat n with
  | nil => exact absurd (List.map_eq_nil_iff.1 h) Nat.toDigits_ne_nil
  | cons b rest =>
    rw [h] at hd
    exact ⟨b, rest, rfl, hd b List.mem_cons_self⟩

theorem reads_nat (n : Nat) :
    Reads Undigit (span Bytes.isDigit) (Bytes.ofNat n) (Bytes.ofNat n) :=
  .span fun _ ↦ Bytes.isDigit_of_mem_ofNat

theorem reads_int (n : Int) : Reads Undigit int (Bytes.ofInt n) n := by
  cases n with
  | ofNat n =>
    refine .no ?_ fun rest _ ↦ ?_
    · have hm := (reads_nat n).map (g := fun d ↦ (Bytes.digitsValue d : Int))
      rw [Bytes.digitsValue_ofNat] at hm
      exact hm
    · obtain ⟨b, tail, he, hb⟩ := ofNat_head n
      rw [Bytes.ofInt, he]
      refine ne_of_head rfl ?_
      rintro rfl
      cases hb
  | negSucc n =>
    refine .yes (.lit [45] ?_) fun _ ↦ rfl
    have hm := (reads_nat (n + 1)).map (g := fun d ↦ -(Bytes.digitsValue d : Int))
    rw [Bytes.digitsValue_ofNat] at hm
    exact hm

theorem reads_base {t : Ty} (h : t.isBase = true) : Reads Undigit base t.text t := by
  cases t with
  | void => exact .key fun _ ↦ rfl
  | float kind =>
    cases kind with
    | single => exact .key fun _ ↦ rfl
    | half | double => cases h
  | int bits => exact .choose (reads_int bits).map fun _ ↦ rfl
  | ptr | array | struct | func | missing => cases h

theorem base_head {t : Ty} (h : t.isBase = true) (rest : Bytes) :
    ∃ b, (t.text ++ rest).head? = some b ∧ b ∈ ascii "vfi" := by
  cases t with
  | void => exact ⟨118, rfl, by decide⟩
  | float kind =>
    cases kind with
    | single => exact ⟨102, rfl, by decide⟩
    | half | double => cases h
  | int bits => exact ⟨105, rfl, by decide⟩
  | ptr | array | struct | func | missing => cases h

theorem reads_core {t : Ty} (h : t.isCore = true) : Reads Undigit core t.text t := by
  have hbase : t.isBase = true → Reads Undigit core t.text t := by
    intro hb
    refine .no (reads_base hb) fun rest _ ↦ ?_
    obtain ⟨b, hh, hm⟩ := base_head hb rest
    refine ne_of_head hh ?_
    rintro rfl
    exact absurd hm (by decide)
  cases t with
  | array size elem =>
    rw [Ty.text, List.append_assoc, List.append_assoc, List.append_assoc]
    refine .yes (.lit _ (.bind (reads_int size) (.lit _ (.bind (reads_base h) (.lit _ .pure)
      ?_)) ?_)) fun _ ↦ rfl
    · exact fun _ _ ↦ undigit_of_head rfl rfl
    · exact fun _ _ ↦ undigit_of_head rfl rfl
  | _ => exact hbase h

theorem simple_text {t : Ty} (h : t.isSimple = true) : ∃ core stars, core.isCore = true ∧
    (∀ b ∈ stars, b = 42) ∧ t.text = core.text ++ stars ∧
      stars.foldl (fun t _ ↦ .ptr t) core = t := by
  match t with
  | .ptr t =>
    obtain ⟨core, stars, hc, hs, ht, hf⟩ := simple_text (t := t) h
    refine ⟨core, stars ++ [42], hc, ?_, ?_, ?_⟩
    · exact List.forall_mem_append.2 ⟨hs, by simp⟩
    · rw [Ty.text, ht, List.append_assoc]
      rfl
    · rw [List.foldl_append, hf]
      rfl
  | .void | .int _ | .float _ | .array _ _ | .struct _ _ | .func _ _ _ | .missing =>
    exact ⟨_, [], h, by simp, (List.append_nil _).symm, rfl⟩

theorem reads_ty {t : Ty} (h : t.isSimple = true) : Reads Stops ty t.text t := by
  obtain ⟨core, stars, hc, hs, ht, hf⟩ := simple_text h
  have hstars : Reads Stops (span (· = 42)) stars stars := by
    exact (Reads.span fun b hb ↦ by simp [hs b hb]).mono fun rest hr ↦ hr.head_not (by decide)
  rw [ht]
  refine .bind (reads_core hc) ?_ fun rest hr ↦ ?_
  · have hm := hstars.map (g := fun s ↦ s.foldl (fun t _ ↦ .ptr t) core)
    rw [hf] at hm
    exact hm
  · cases stars with
    | nil => exact hr.undigit
    | cons b stars => exact undigit_of_head rfl (hs b List.mem_cons_self ▸ rfl)

theorem hexNat_append (digits : Bytes) (b : UInt8) :
    hexNat (digits ++ [b]) = hexNat digits * 16 + (Symbol.hexValue b).toNat := by
  rw [hexNat, List.foldl_append]
  rfl

theorem hexNat_upperHexWidth (width n : Nat) :
    hexNat (Bytes.upperHexWidth width n) = n % Nat.pow 16 width := by
  have hdigit : ∀ n < 16, (Symbol.hexValue (Bytes.upperDigit n)).toNat = n := by decide +kernel
  induction width generalizing n with
  | zero => exact (Nat.mod_one n).symm
  | succ width ih =>
    have hpow : Nat.pow 16 (width + 1) = 16 * Nat.pow 16 width := Nat.pow_succ'
    rw [Bytes.upperHexWidth, hexNat_append, ih, hdigit _ (Nat.mod_lt _ (by decide)), hpow,
      Nat.mod_mul]
    omega

theorem isHex_upperHexWidth (width n : Nat) :
    ∀ b ∈ Bytes.upperHexWidth width n, isHex b = true := by
  have hdigit : ∀ n < 16, isHex (Bytes.upperDigit n) = true := by decide +kernel
  induction width generalizing n with
  | zero => simp [Bytes.upperHexWidth]
  | succ width ih =>
    refine List.forall_mem_append.2 ⟨ih _, List.forall_mem_singleton.2 ?_⟩
    exact hdigit _ (Nat.mod_lt _ (by decide))

theorem reads_bits (bits : UInt64) :
    Reads Stops (span isHex) (Bytes.upperHexWidth 16 bits.toNat)
      (Bytes.upperHexWidth 16 bits.toNat) :=
  (Reads.span (isHex_upperHexWidth _ _)).mono fun rest hr ↦ hr.head_not (by decide)

theorem reads_constant {c : Constant} (h : c.isPlain = true) :
    Reads Stops (constant c.type) c.bare c.rounded := by
  cases c with
  | int bits value =>
    rw [Constant.rounded]
    by_cases hb : bits = 1
    · subst hb
      have hv : value = 0 ∨ value = 1 := by simpa [Constant.isPlain] using h
      rcases hv with rfl | rfl <;> exact .key fun _ ↦ rfl
    · have hbare : (Constant.int bits value).bare = Bytes.ofInt value := by
        rw [Constant.bare, Constant.intText, if_neg hb]
      rw [hbare, Constant.type, constant, if_neg hb]
      exact ((reads_int value).mono fun _ ↦ Stops.undigit).map
  | float kind bits =>
    obtain rfl : kind = .single := by simpa [Constant.isPlain] using h
    refine .lit _ ?_
    have hm := (reads_bits (Binary.toSingle bits)).map
      (g := fun d ↦ Constant.float .single (UInt64.ofNat (hexNat d)))
    have hlt : (Binary.toSingle bits).toNat < Nat.pow 16 16 := (Binary.toSingle bits).toNat_lt
    rw [hexNat_upperHexWidth, Nat.mod_eq_of_lt hlt, UInt64.ofNat_toNat] at hm
    exact hm
  | global name type =>
    cases type with
    | ptr t => exact .lit _ ((reads_name name).map (g := fun n ↦ Constant.global n (.ptr t)))
    | _ => cases h
  | array | gep | zext => cases h

def opens (b : UInt8) : Bool := Bytes.isDigit b || b ∈ ascii "tf-@"

theorem constant_head_ne {c : Constant} (h : c.isPlain = true) (rest : Bytes) {b : UInt8}
    (hb : opens b = false) : (c.bare ++ rest).head? ≠ some b := by
  have hne : ∀ {d : UInt8}, opens d = true → d ≠ b := by
    rintro d hd rfl
    rw [hd] at hb
    cases hb
  cases c with
  | int bits value =>
    rw [Constant.bare, Constant.intText]
    split
    · split <;> exact ne_of_head rfl (hne (by decide))
    · cases value with
      | ofNat n =>
        obtain ⟨d, tail, he, hd⟩ := ofNat_head n
        rw [Bytes.ofInt, he]
        exact ne_of_head rfl (hne (by rw [opens, hd, Bool.true_or]))
      | negSucc n => exact ne_of_head rfl (hne (by decide))
  | float | global => exact ne_of_head rfl (hne (by decide))
  | array | gep | zext => cases h

theorem reads_bare {x : Operand} (h : x.isPlain = true) :
    Reads Stops (bare x.type) x.bare x.rounded := by
  cases x with
  | reg r =>
    have hm := (reads_name r.name).map (g := fun n ↦ Operand.reg ⟨n, r.type⟩)
    exact .yes (.lit _ hm) fun _ ↦ rfl
  | const c => exact .no (reads_constant h).map fun rest _ ↦ constant_head_ne h rest (by decide)

theorem reads_operand {x : Operand} (h : x.isPlain = true) :
    Reads Stops operand x.text x.rounded := by
  rw [Operand.text, Constant.withType, List.append_assoc]
  exact .bind (reads_ty (Operand.isSimple_type h)) (.lit _ (reads_bare h))
    fun _ _ ↦ stops_of_head rfl (by decide)

section Lists

variable {α β : Type} {item : Scan β} {text : α → Bytes} {value : α → β}

theorem commas_singleton (a : Bytes) : commas [a] = a := by simp [commas]

theorem commas_cons_cons (a b : Bytes) (rest : List Bytes) :
    commas (a :: b :: rest) = a ++ (ascii ", " ++ commas (b :: rest)) := by
  rw [commas, List.intercalate_cons_cons, List.append_assoc]
  rfl

theorem reads_items {xs : List α} (h : ∀ x ∈ xs, Reads Stops item (text x) (value x))
    (hx : xs ≠ []) {bound : Nat} (hb : xs.length ≤ bound) :
    Reads Closes (items item bound) (commas (xs.map text)) (xs.map value) := by
  induction xs generalizing bound with
  | nil => exact absurd rfl hx
  | cons x xs ih =>
    obtain ⟨hfirst, hrest⟩ := List.forall_mem_cons.1 h
    obtain ⟨bound, rfl⟩ : ∃ n, bound = n + 1 := ⟨bound - 1, by simp at hb; omega⟩
    rw [items]
    cases xs with
    | nil =>
      rw [List.map_singleton, List.map_singleton, commas_singleton, ← List.append_nil (text x)]
      refine .bind hfirst (.no .pure fun rest hr ↦ ?_) fun rest hr ↦ hr.stops
      rcases hr with hr | hr <;> exact ne_of_head hr (by decide)
    | cons y ys =>
      rw [List.map_cons, List.map_cons, commas_cons_cons]
      refine .bind hfirst (.yes (.lit _ ?_) fun _ ↦ rfl) fun _ _ ↦ stops_of_head rfl (by decide)
      have hm := (ih hrest (List.cons_ne_nil _ _) (Nat.le_of_succ_le_succ hb)).map
        (g := fun ys ↦ value x :: ys)
      exact hm

theorem length_le_commas (xs : List Bytes) : xs.length ≤ (commas xs).length + 1 := by
  induction xs with
  | nil => simp
  | cons a xs ih =>
    cases xs with
    | nil => simp
    | cons b xs =>
      rw [commas_cons_cons, List.length_append, List.length_append, List.length_cons]
      have : (ascii ", ").length = 2 := rfl
      omega

theorem reads_list {xs : List α} (h : ∀ x ∈ xs, Reads Stops item (text x) (value x))
    (hx : xs ≠ []) : Reads Closes (list item) (commas (xs.map text)) (xs.map value) := by
  intro rest hr
  refine reads_items h hx ?_ rest hr
  have hl := length_le_commas (xs.map text)
  have hrest : 0 < rest.length := by
    cases rest with
    | nil => rcases hr with hr | hr <;> cases hr
    | cons b rest => exact Nat.succ_pos _
  rw [List.length_map] at hl
  rw [List.length_append]
  omega

theorem reads_arguments {xs : List α} (h : ∀ x ∈ xs, Reads Stops item (text x) (value x))
    (hh : ∀ x ∈ xs, ∀ rest, (text x ++ rest).head? ≠ some 41) {ok : Bytes → Prop} :
    Reads ok (arguments item) (ascii "(" ++ (commas (xs.map text) ++ ascii ")"))
      (xs.map value) := by
  refine .lit _ ?_
  cases xs with
  | nil => exact .yes (.lit _ .pure) fun _ ↦ rfl
  | cons x xs =>
    refine .no (.bind (reads_list h (List.cons_ne_nil x xs)) (.lit _ .pure)
      fun _ _ ↦ .inr rfl) fun rest _ ↦ ?_
    have hx := hh x List.mem_cons_self
    cases xs with
    | nil =>
      rw [List.map_singleton, commas_singleton, List.append_assoc]
      exact hx _
    | cons y ys =>
      rw [List.map_cons, List.map_cons, commas_cons_cons, List.append_assoc, List.append_assoc]
      exact hx _

end Lists

theorem ty_head {t : Ty} (h : t.isSimple = true) (rest : Bytes) :
    ∃ b, (t.text ++ rest).head? = some b ∧ b ∈ ascii "vfi[" := by
  obtain ⟨core, stars, hc, -, ht, -⟩ := simple_text h
  have hbase : ∀ {t : Ty} (rest : Bytes), t.isBase = true →
      ∃ b, (t.text ++ rest).head? = some b ∧ b ∈ ascii "vfi[" := by
    intro t rest hb
    obtain ⟨b, hh, hm⟩ := base_head hb rest
    exact ⟨b, hh, List.mem_append_left (ascii "[") hm⟩
  rw [ht, List.append_assoc]
  cases core with
  | array size elem => exact ⟨91, rfl, by decide⟩
  | _ => exact hbase _ hc

theorem ty_head_ne {t : Ty} (h : t.isSimple = true) (rest : Bytes) {c : UInt8}
    (hc : c ∉ ascii "vfi[") : (t.text ++ rest).head? ≠ some c := by
  obtain ⟨b, hh, hm⟩ := ty_head h rest
  refine ne_of_head hh ?_
  rintro rfl
  exact hc hm

theorem operand_head_ne {x : Operand} (h : x.isPlain = true) (rest : Bytes) {c : UInt8}
    (hc : c ∉ ascii "vfi[") : (x.text ++ rest).head? ≠ some c := by
  rw [Operand.text, Constant.withType, List.append_assoc, List.append_assoc]
  exact ty_head_ne (Operand.isSimple_type h) _ hc

end Scan

theorem Ty.eq_of_same {t u : Ty} (ht : t.isSimple = true) (hu : u.isSimple = true)
    (h : t.same u = true) : t = u := by
  have hmissing : ∀ {t : Ty}, t.isSimple = true → t.isMissing = false := by
    intro t ht
    cases t <;> first | rfl | cases ht
  have he : t.text = u.text := by simpa [Ty.same, hmissing ht, hmissing hu] using h
  have hstop : Scan.Stops [10] := Scan.stops_of_head rfl (by decide)
  have hread := Scan.reads_ty ht [10] hstop
  rw [he, Scan.reads_ty hu [10] hstop] at hread
  exact (congrArg Prod.fst (Option.some.inj hread)).symm

end PZero.IR
