import PZero.Proofs.IR.Readback

namespace PZero.IR

/-- A global with a plain value or with a string. -/
structure Global.Readable (g : Global) : Prop where
  type : g.type = g.value.type
  value : g.value.isPlain = true ∨ ∃ text, g.value = .cString text

namespace Scan

variable {M : Module}

def quoted : Scan Constant := do
  lit (ascii "c\"")
  let text ← span (· ≠ 34)
  lit (ascii "\"")
  return .array (.int 8) ((Symbol.unescape text).map fun b ↦ .int 8 b.toNat)

def value (type : Ty) : Scan Constant := do
  if (← next) = some 99 then quoted else constant type

def constness : Scan Bool :=
  choose [(ascii " = unnamed_addr constant ", pure true), (ascii " = global ", pure false)]

def global : Scan Global := do
  let g ← name
  let isConst ← constness
  let type ← ty
  lit (ascii " ")
  let c ← value type
  lit (ascii "\n")
  return ⟨g, c.type, isConst, c⟩

def ofBytes (text : Bytes) : List Constant := text.map fun b ↦ .int 8 b.toNat

theorem stringBytes?_ofBytes {text : Bytes} (h : text ≠ []) :
    Constant.stringBytes? (.int 8) (ofBytes text) = some text := by
  have hbyte : ∀ b : UInt8, UInt8.ofNat ((b.toNat : Int) % 256).toNat = b := by
    intro b
    have hb : (b.toNat : Int) % 256 = b.toNat :=
      Int.emod_eq_of_lt (by omega) (by have := b.toNat_lt; omega)
    rw [hb, Int.toNat_natCast, UInt8.ofNat_toNat]
  have hmap : ∀ text : Bytes, (ofBytes text).mapM
      (fun v ↦ v.index?.map fun n ↦ UInt8.ofNat (n % 256).toNat) = some text := by
    intro text
    induction text with
    | nil => rfl
    | cons b text ih =>
      rw [ofBytes, List.map_cons, List.mapM_cons, ← ofBytes, ih]
      simp [Constant.index?, hbyte]
  have hne : (ofBytes text).isEmpty = false := by simpa [ofBytes] using h
  rw [Constant.stringBytes?, Ty.same_self, hne, Bool.not_false, Bool.and_true, if_pos rfl, hmap]

theorem cString_eq (text : Bytes) :
    Constant.cString text = .array (.int 8) (ofBytes (text ++ [0])) := by
  rw [ofBytes, List.map_append]
  rfl

theorem cString_rounded (text : Bytes) :
    (Constant.cString text).rounded = Constant.cString text := by
  rw [cString_eq, Constant.rounded, Constant.mapFloats, Constant.mapAllFloats_eq, ofBytes,
    List.map_map]
  rfl

theorem cString_bare (text : Bytes) : (Constant.cString text).bare =
    ascii "c\"" ++ (Symbol.escape (text ++ [0]) ++ ascii "\"") := by
  rw [cString_eq, Constant.bare, stringBytes?_ofBytes (by simp)]
  exact List.append_assoc _ _ _

theorem reads_quoted (text : Bytes) {ok : Bytes → Prop} :
    Reads ok quoted (Constant.cString text).bare (Constant.cString text) := by
  have hq : ∀ b ∈ Symbol.escape (text ++ [0]), decide (b ≠ 34) = true := by
    intro b hb
    rw [decide_eq_true_eq]
    rintro rfl
    exact Symbol.quote_not_mem_escape _ hb
  rw [cString_bare, cString_eq]
  refine .lit _ (.bind (.span hq) ?_ fun _ _ b hb ↦ Option.some.inj hb ▸ rfl)
  rw [Symbol.unescape_escape]
  exact .lit _ .pure

variable {g : Global}

theorem isSimple_value (h : g.Readable) : g.value.type.isSimple = true := by
  rcases h.value with hp | ⟨text, ht⟩
  · exact Constant.isSimple_type hp
  · rw [ht]
    rfl

theorem reads_value (h : g.Readable) :
    Reads EndsLine (value g.value.type) g.value.bare g.value.rounded := by
  rcases h.value with hp | ⟨text, ht⟩
  · refine .no ((reads_constant hp).mono fun _ ↦ EndsLine.stops) fun rest _ ↦ ?_
    exact constant_head_ne hp rest (by decide)
  · rw [ht, cString_rounded]
    refine .yes (reads_quoted text) fun rest ↦ ?_
    rw [cString_bare]
    rfl

theorem reads_global (h : g.Readable) {ok : Bytes → Prop} :
    ∃ text, g.text = ascii "@" ++ text ∧ Reads ok global text g.rounded := by
  have hname : Reads (fun _ ↦ True) constness
      (ascii (if g.isConst then " = unnamed_addr constant " else " = global ")) g.isConst := by
    cases g.isConst <;> exact .key fun _ ↦ rfl
  have hvalue : Reads ok (value g.value.type >>= fun c ↦ do
      lit (ascii "\n")
      return (⟨g.name, c.type, g.isConst, c⟩ : Global)) (g.value.bare ++ (ascii "\n" ++ []))
      g.rounded := by
    refine .bind (reads_value h) (.lit _ ?_) fun _ _ ↦ rfl
    rw [Constant.type_mapFloats, ← h.type]
    exact .pure
  refine ⟨_, ?_, .bind (reads_name g.name) (.bind hname
    (.bind (reads_ty (isSimple_value h)) (.lit (ascii " ") hvalue)
      fun _ _ ↦ stops_of_head rfl (by decide)) fun _ _ ↦ trivial) ?_⟩
  · simp [Global.text, Symbol.atModule, Constant.text, Constant.withType]
  · intro rest _
    cases g.isConst <;> exact stops_of_head rfl (by decide)

def many {α : Type} (key : Bytes) (item : Scan α) : (bound : Nat) → Scan (List α)
  | 0 => failure
  | bound + 1 => choose [
    (key, do
      let first ← item
      let rest ← many key item bound
      return first :: rest),
    ([], pure [])]

def all {α : Type} (key : Bytes) (item : Scan α) : Scan (List α) := fun s ↦
  many key item (s.length + 1) s

def gap : Scan Unit := fun s ↦ some ((), if (ascii "\n@").isPrefixOf s then s.drop 1 else s)

def contents : Scan (List Global × List Function) := do
  gap
  let gs ← all (ascii "@") global
  let fs ← all (ascii "\ndefine external ccc ") function
  return (gs, fs)

section Many

variable {α β : Type} {key : Bytes} {item : Scan β} {text : α → Bytes} {value : α → β}

theorem reads_many {xs : List α} {bound : Nat}
    (h : ∀ x ∈ xs, ∃ t, text x = key ++ t ∧ Reads (fun _ ↦ True) item t (value x))
    (hb : xs.length < bound) :
    Reads (fun rest ↦ key.isPrefixOf rest = false) (many key item bound) (xs.flatMap text)
      (xs.map value) := by
  induction xs generalizing bound with
  | nil =>
    obtain ⟨bound, rfl⟩ : ∃ n, bound = n + 1 := ⟨bound - 1, by omega⟩
    intro rest hr
    rw [many, choose, List.flatMap_nil, List.nil_append, List.find?_cons_of_neg (by simp [hr])]
    rfl
  | cons x xs ih =>
    obtain ⟨bound, rfl⟩ : ∃ n, bound = n + 1 := ⟨bound - 1, by omega⟩
    obtain ⟨⟨t, ht, hx⟩, hrest⟩ := List.forall_mem_cons.1 h
    rw [many, List.flatMap_cons, ht, List.append_assoc]
    have hr := (ih hrest (Nat.lt_of_succ_lt_succ hb)).map (g := fun ys ↦ value x :: ys)
    have hitem := Reads.bind (f := fun y ↦ (y :: ·) <$> many key item bound) hx hr fun _ _ ↦ trivial
    refine .choose hitem fun rest ↦ ?_
    rw [List.find?_cons_of_pos (by simp)]
    rfl

theorem reads_all {xs : List α} (hk : key ≠ [])
    (h : ∀ x ∈ xs, ∃ t, text x = key ++ t ∧ Reads (fun _ ↦ True) item t (value x)) :
    Reads (fun rest ↦ key.isPrefixOf rest = false) (all key item) (xs.flatMap text)
      (xs.map value) := by
  intro rest hr
  refine reads_many h ?_ rest hr
  have hl : xs.length ≤ (xs.flatMap text).length := by
    refine length_le_flatMap fun x hx he ↦ hk ?_
    obtain ⟨t, ht, -⟩ := h x hx
    exact (List.append_eq_nil_iff.1 (ht.symm.trans he)).1
  rw [List.length_append]
  omega

end Many

def tail (gs : List Global) (fs : List Function) : Bytes :=
  (if gs.isEmpty then [] else ascii "\n") ++ (gs.flatMap Global.text ++ fs.flatMap Function.text)

theorem reads_contents {gs : List Global} {fs : List Function} (hg : ∀ g ∈ gs, g.Readable)
    (hf : ∀ f ∈ fs, f.Readable M) :
    Reads (· = []) contents (tail gs fs) (gs.map Global.rounded, fs.map Function.rounded) := by
  have hgap : gap (tail gs fs) = some ((), gs.flatMap Global.text ++ fs.flatMap Function.text) := by
    cases gs with
    | nil =>
      cases fs <;> rfl
    | cons g gs => rfl
  have hgs := reads_all (show ascii "@" ≠ [] by decide) fun g hgm ↦ reads_global (hg g hgm)
  have hfs := reads_all (show ascii "\ndefine external ccc " ≠ [] by decide)
    fun f hfm ↦ reads_function (hf f hfm)
  have hr : Reads (· = []) (all (ascii "@") global >>= fun gs ↦ do
      let fs ← all (ascii "\ndefine external ccc ") function
      return (gs, fs)) (gs.flatMap Global.text ++ fs.flatMap Function.text)
      (gs.map Global.rounded, fs.map Function.rounded) := by
    refine .bind hgs (hfs.map (g := fun fs ↦ (_, fs)) |>.mono ?_) ?_
    · rintro rest rfl
      rfl
    · rintro rest rfl
      cases fs <;> rfl
  rintro rest rfl
  rw [List.append_nil, contents, Reads.bind_eq hgap]
  simpa using hr [] rfl

end Scan

end PZero.IR
